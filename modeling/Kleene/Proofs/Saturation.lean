import Kleene.Saturation
import Mathlib.Logic.Relation

/-!
# What saturation finds

If the members that one step finds are those that a relation leads to, then `saturate` finds what
any number of steps of the relation lead to, provided that all of it lies in a finite list that is
no longer than the fuel: `mem_saturate_iff`. The three parts are that nothing else is found
(`exists_of_mem_saturate`), that nothing is lost (`mem_saturate_of_mem`) and that what is found is
closed under the relation (`saturate_closed`). It stops by itself, so that more fuel than that
changes nothing (`saturate_congr`).
-/

set_option autoImplicit false

namespace Kleene

section Saturation

variable {α : Type} [BEq α] {R : α → α → Prop} {step : List α → List α}

/-- The members that one generation finds anew. -/
def generation (step : List α → List α) (frontier seen : List α) : List α :=
  (step frontier).eraseDups.filter (fun a => !seen.contains a)

/-- One generation more is added, unless there is nothing new in it. -/
theorem saturate_succ (fuel : Nat) (frontier seen : List α) :
    saturate step (fuel + 1) frontier seen =
      if (generation step frontier seen).isEmpty then seen
      else saturate step fuel (generation step frontier seen)
        (seen ++ generation step frontier seen) :=
  rfl

/-- A generation that finds nothing is the last one. -/
theorem saturate_of_generation_eq_nil {fuel : Nat} {frontier seen : List α}
    (h : generation step frontier seen = []) : saturate step fuel frontier seen = seen := by
  cases fuel with
  | zero => rfl
  | succ fuel => rw [saturate_succ, h, List.isEmpty_nil, if_pos rfl]

/-- How many entries of a list are not seen yet. -/
def unseen (domain seen : List α) : Nat :=
  (domain.filter (fun a => !seen.contains a)).length

/-- Nothing is lost. -/
theorem mem_saturate_of_mem {fuel : Nat} {frontier seen : List α} {a : α} (h : a ∈ seen) :
    a ∈ saturate step fuel frontier seen := by
  induction fuel generalizing frontier seen with
  | zero => exact h
  | succ fuel ih =>
    rw [saturate_succ]
    split
    · exact h
    · exact ih (List.mem_append_left _ h)

section Step

variable [LawfulBEq α] (hstep : ∀ frontier b, b ∈ step frontier ↔ ∃ a ∈ frontier, R a b)

include hstep

/-- A generation has what a step leads to and was not seen before. -/
theorem mem_generation {frontier seen : List α} {b : α} :
    b ∈ generation step frontier seen ↔ (∃ a ∈ frontier, R a b) ∧ b ∉ seen := by
  simp [generation, hstep]

/-- Everything that is found is led to from what was there before. -/
theorem exists_of_mem_saturate {fuel : Nat} {frontier seen : List α} (hfrontier : frontier ⊆ seen)
    {b : α} (h : b ∈ saturate step fuel frontier seen) :
    ∃ a ∈ seen, Relation.ReflTransGen R a b := by
  induction fuel generalizing frontier seen with
  | zero => exact ⟨b, h, .refl⟩
  | succ fuel ih =>
    rw [saturate_succ] at h
    split at h
    · exact ⟨b, h, .refl⟩
    · obtain ⟨c, hc, hcb⟩ := ih (List.subset_append_right _ _) h
      rcases List.mem_append.mp hc with hc | hc
      · exact ⟨c, hc, hcb⟩
      · obtain ⟨⟨a, ha, hac⟩, -⟩ := (mem_generation hstep).mp hc
        exact ⟨a, hfrontier ha, hcb.head hac⟩

/-- A generation that finds something leaves fewer entries unseen. -/
theorem unseen_generation_lt {domain frontier seen : List α}
    (hclosed : ∀ a ∈ domain, ∀ b, R a b → b ∈ domain) (hfrontier : frontier ⊆ domain)
    (hfound : generation step frontier seen ≠ []) :
    unseen domain (seen ++ generation step frontier seen) < unseen domain seen := by
  obtain ⟨b, hb⟩ := List.exists_mem_of_ne_nil _ hfound
  obtain ⟨⟨a, ha, hab⟩, hnew⟩ := (mem_generation hstep).mp hb
  have hsplit : domain.filter (fun c => !(seen ++ generation step frontier seen).contains c) =
      (domain.filter (fun c => !seen.contains c)).filter
        (fun c => !(generation step frontier seen).contains c) := by
    rw [List.filter_filter]
    refine List.filter_congr (fun c _ => ?_)
    rw [List.contains_eq_any_beq, List.any_append, Bool.not_or, ← List.contains_eq_any_beq,
      ← List.contains_eq_any_beq, Bool.and_comm]
  rw [unseen, hsplit, unseen, List.length_filter_lt_length_iff_exists]
  refine ⟨b, ?_, by simpa using hb⟩
  rw [List.mem_filter]
  exact ⟨hclosed a (hfrontier ha) b hab, by simpa using hnew⟩

/-- What is found is closed under the relation. The invariant is that only the members of the
frontier may lead to something that is not seen yet. -/
theorem saturate_closed {domain : List α} (hclosed : ∀ a ∈ domain, ∀ b, R a b → b ∈ domain)
    {fuel : Nat} {frontier seen : List α} (hseen : seen ⊆ domain) (hfrontier : frontier ⊆ seen)
    (hrest : ∀ a ∈ seen, a ∉ frontier → ∀ b, R a b → b ∈ seen)
    (hfuel : unseen domain seen ≤ fuel) {a b : α}
    (ha : a ∈ saturate step fuel frontier seen) (hab : R a b) :
    b ∈ saturate step fuel frontier seen := by
  induction fuel generalizing frontier seen with
  | zero =>
    have hall : ∀ c ∈ domain, c ∈ seen := by
      intro c hc
      have hnil := List.eq_nil_of_length_eq_zero (Nat.le_zero.mp hfuel)
      simpa using List.filter_eq_nil_iff.mp hnil c hc
    exact hall b (hclosed a (hseen ha) b hab)
  | succ fuel ih =>
    -- what a member of the frontier leads to is seen or found anew
    have hnext : ∀ c ∈ seen, ∀ d, R c d → d ∈ seen ++ generation step frontier seen := by
      intro c hc d hcd
      by_cases hd : d ∈ seen
      · exact List.mem_append_left _ hd
      · have hc' : c ∈ frontier := Classical.byContradiction (fun hc' => hd (hrest c hc hc' d hcd))
        exact List.mem_append_right _ ((mem_generation hstep).mpr ⟨⟨c, hc', hcd⟩, hd⟩)
    rw [saturate_succ] at ha ⊢
    split at ha
    · next hempty =>
      rw [if_pos hempty]
      simpa [List.isEmpty_iff.mp hempty] using hnext a ha b hab
    · next hempty =>
      have hfound : generation step frontier seen ≠ [] := by simpa using hempty
      have hfewer := unseen_generation_lt hstep hclosed (fun c hc => hseen (hfrontier hc)) hfound
      rw [if_neg hempty]
      refine ih ?_ (List.subset_append_right _ _) ?_ (by omega) ha
      · intro c hc
        rcases List.mem_append.mp hc with hc | hc
        · exact hseen hc
        · obtain ⟨⟨d, hd, hdc⟩, -⟩ := (mem_generation hstep).mp hc
          exact hclosed d (hseen (hfrontier hd)) c hdc
      · intro c hc hold d hcd
        rcases List.mem_append.mp hc with hc | hc
        · exact hnext c hc d hcd
        · exact absurd hc hold

/-- Saturation has stopped before its fuel is used up: two amounts of fuel that both cover what is
not seen yet give the same list. -/
theorem saturate_congr {domain : List α} (hclosed : ∀ a ∈ domain, ∀ b, R a b → b ∈ domain)
    {fuel fuel' : Nat} {frontier seen : List α} (hfrontier : frontier ⊆ domain)
    (hfuel : unseen domain seen ≤ fuel) (hfuel' : unseen domain seen ≤ fuel') :
    saturate step fuel frontier seen = saturate step fuel' frontier seen := by
  induction fuel generalizing fuel' frontier seen with
  | zero =>
    have hnothing : generation step frontier seen = [] := by
      refine Classical.byContradiction (fun hfound => ?_)
      have hfewer := unseen_generation_lt hstep hclosed hfrontier hfound
      omega
    rw [saturate_of_generation_eq_nil hnothing, saturate_of_generation_eq_nil hnothing]
  | succ fuel ih =>
    by_cases hnothing : generation step frontier seen = []
    · rw [saturate_of_generation_eq_nil hnothing, saturate_of_generation_eq_nil hnothing]
    · have hfewer := unseen_generation_lt hstep hclosed hfrontier hnothing
      obtain ⟨less, rfl⟩ : ∃ less, fuel' = less + 1 := ⟨fuel' - 1, by omega⟩
      have hnext : generation step frontier seen ⊆ domain := by
        intro b hb
        obtain ⟨⟨a, ha, hab⟩, -⟩ := (mem_generation hstep).mp hb
        exact hclosed a (hfrontier ha) b hab
      have hrest : saturate step fuel (generation step frontier seen)
          (seen ++ generation step frontier seen) =
          saturate step less (generation step frontier seen)
            (seen ++ generation step frontier seen) := ih hnext (by omega) (by omega)
      rw [saturate_succ, saturate_succ, hrest]

/-- Saturation finds exactly what is led to from the start, if all of it lies in a list that is no
longer than the fuel. -/
theorem mem_saturate_iff {domain : List α} (hclosed : ∀ a ∈ domain, ∀ b, R a b → b ∈ domain)
    {start : List α} (hstart : start ⊆ domain) {fuel : Nat} (hfuel : domain.length ≤ fuel)
    {b : α} :
    b ∈ saturate step fuel start start ↔ ∃ a ∈ start, Relation.ReflTransGen R a b := by
  constructor
  · exact exists_of_mem_saturate hstep (List.Subset.refl start)
  · rintro ⟨a, ha, hab⟩
    have hunseen : unseen domain start ≤ fuel := Nat.le_trans (List.length_filter_le _ _) hfuel
    induction hab with
    | refl => exact mem_saturate_of_mem ha
    | tail _ hcd ih =>
      exact saturate_closed hstep hclosed hstart (List.Subset.refl start)
        (fun c hc hnot => absurd hc hnot) hunseen ih hcd

end Step

end Saturation

end Kleene
