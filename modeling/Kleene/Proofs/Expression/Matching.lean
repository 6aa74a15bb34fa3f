import Kleene.Expression.Regex
import Kleene.Proofs.Saturation
import Mathlib

/-!
# Matching and the language of an expression

`Regex.language` is the set of words of an expression, by the operations on languages. The matcher
works on sets of what is left of a word instead: `mem_rests_iff` says that it finds every rest that
a word of the expression leaves, and nothing else, and `accepts_iff` that it accepts the words of
the expression.
-/

set_option autoImplicit false

open scoped Computability

namespace Kleene.Regex

variable {α : Type}

/-- The words of an expression. -/
def language : Regex α → Language α
  | nothing => 0
  | empty => 1
  | letter a => {[a]}
  | union r s => r.language + s.language
  | append r s => r.language * s.language
  | star r => r.language∗

/-- A union of a list of expressions has the words of all of them. -/
theorem language_unions (rs : List (Regex α)) :
    (unions rs).language = (rs.map language).sum := by
  induction rs with
  | nil => rfl
  | cons r rs ih =>
    cases rs with
    | nil => simp [unions]
    | cons s rs => rw [List.map_cons, List.sum_cons, ← ih, unions, language]; simp

/-- A sequence of expressions has the words that are put together from words of each of them. -/
theorem language_sequence (rs : List (Regex α)) :
    (sequence rs).language = (rs.map language).prod := by
  induction rs with
  | nil => rfl
  | cons r rs ih =>
    cases rs with
    | nil => simp [sequence]
    | cons s rs => rw [List.map_cons, List.prod_cons, ← ih, sequence, language]; simp

/-- A rest that is left of a word when a word of the language is taken off its front. -/
def Leaves (l : Language α) (word rest : List α) : Prop :=
  ∃ first ∈ l, first ++ rest = word

/-- What is left of a word is a part at its end. -/
theorem Leaves.suffix {l : Language α} {word rest : List α} (h : Leaves l word rest) :
    rest <:+ word := by
  obtain ⟨first, -, hword⟩ := h
  exact ⟨first, hword⟩

/-- A letter is taken off the front of a word that begins with it. -/
theorem leaves_letter (a : α) (word rest : List α) :
    Leaves (letter a).language word rest ↔ word = a :: rest := by
  constructor
  · rintro ⟨first, hfirst, rfl⟩
    obtain rfl : first = [a] := hfirst
    rfl
  · rintro rfl
    exact ⟨[a], rfl, rfl⟩

/-- Taking off words of a language again and again takes off a word of its star. -/
theorem leaves_kstar_iff (l : Language α) (word rest : List α) :
    Leaves l∗ word rest ↔ Relation.ReflTransGen (Leaves l) word rest := by
  constructor
  · rintro ⟨first, hfirst, rfl⟩
    obtain ⟨parts, rfl, hparts⟩ := Language.mem_kstar.mp hfirst
    induction parts with
    | nil => exact .refl
    | cons part parts ih =>
      obtain ⟨hpart, hparts⟩ := List.forall_mem_cons.mp hparts
      have hrest := ih hparts (Language.join_mem_kstar hparts)
      exact hrest.head ⟨part, hpart, by simp⟩
  · intro h
    induction h using Relation.ReflTransGen.head_induction_on with
    | refl => exact ⟨[], Language.nil_mem_kstar l, rfl⟩
    | head hstep _ ih =>
      obtain ⟨first, hfirst, rfl⟩ := hstep
      obtain ⟨more, hmore, rfl⟩ := ih
      have hmul : first ++ more ∈ l * l∗ := Language.append_mem_mul hfirst hmore
      have hle : l * l∗ ≤ l∗ := mul_kstar_le_kstar
      exact ⟨first ++ more, Set.mem_of_mem_of_subset hmul hle, List.append_assoc _ _ _⟩

section Rests

variable [BEq α]

/-- Nothing is left of no words. -/
@[simp] theorem rests_nil (r : Regex α) : r.rests [] = [] := by
  cases r <;> rfl

/-- The empty set is at the front of no word. -/
@[simp] theorem rests_nothing (words : List (List α)) : (nothing : Regex α).rests words = [] := by
  cases words <;> rfl

/-- The empty word leaves every word as it is. -/
@[simp] theorem rests_empty (words : List (List α)) : (empty : Regex α).rests words = words := by
  cases words <;> rfl

/-- A letter leaves the rests of the words that begin with it. -/
theorem rests_letter (a : α) (words : List (List α)) :
    (letter a).rests words = words.filterMap (fun word => match word with
      | b :: rest => if a == b then some rest else none
      | [] => none) := by
  cases words <;> rfl

/-- A union leaves what either of its parts leaves. -/
theorem rests_union (r s : Regex α) (words : List (List α)) :
    (union r s).rests words = (r.rests words ++ s.rests words).eraseDups := by
  cases words with
  | nil => simp
  | cons word words => rfl

/-- The second part of a sequence is taken off what the first one leaves. -/
@[simp] theorem rests_append (r s : Regex α) (words : List (List α)) :
    (append r s).rests words = s.rests (r.rests words) := by
  cases words with
  | nil => simp
  | cons word words => rfl

/-- A star leaves what is left after any number of rounds. -/
theorem rests_star (r : Regex α) (words : List (List α)) :
    (star r).rests words =
      saturate r.rests ((words.map (fun word => word.length + 1)).sum) words words := by
  cases words <;> rfl

variable [LawfulBEq α]

/-- The matcher finds exactly the rests that a word of the expression leaves of a given word. -/
theorem mem_rests_iff (r : Regex α) (words : List (List α)) (rest : List α) :
    rest ∈ r.rests words ↔ ∃ word ∈ words, Leaves r.language word rest := by
  induction r generalizing words rest with
  | nothing => simp [language, Leaves]
  | empty => simp [language, Leaves]
  | letter a =>
    rw [rests_letter, List.mem_filterMap]
    refine exists_congr (fun word => and_congr_right (fun _ => ?_))
    rw [leaves_letter]
    cases word with
    | nil => simp
    | cons b word =>
      show (if a == b then some word else none) = some rest ↔ _
      rw [Option.ite_none_right_eq_some, beq_iff_eq, Option.some.injEq, List.cons.injEq]
      exact and_congr_left (fun _ => eq_comm)
  | union r s ihr ihs =>
    rw [rests_union, List.mem_eraseDups, List.mem_append, ihr, ihs]
    constructor
    · rintro (⟨word, hword, first, hfirst, rfl⟩ | ⟨word, hword, first, hfirst, rfl⟩)
      · exact ⟨_, hword, first, .inl hfirst, rfl⟩
      · exact ⟨_, hword, first, .inr hfirst, rfl⟩
    · rintro ⟨word, hword, first, hfirst | hfirst, rfl⟩
      · exact .inl ⟨_, hword, first, hfirst, rfl⟩
      · exact .inr ⟨_, hword, first, hfirst, rfl⟩
  | append r s ihr ihs =>
    rw [rests_append, ihs]
    constructor
    · rintro ⟨between, hbetween, second, hsecond, rfl⟩
      obtain ⟨word, hword, first, hfirst, rfl⟩ := (ihr _ _).mp hbetween
      exact ⟨_, hword, first ++ second, Language.append_mem_mul hfirst hsecond, by simp⟩
    · rintro ⟨word, hword, both, hboth, rfl⟩
      obtain ⟨first, hfirst, second, hsecond, rfl⟩ := Language.mem_mul.mp hboth
      exact ⟨second ++ rest, (ihr _ _).mpr ⟨_, hword, first, hfirst, by simp⟩, second, hsecond, rfl⟩
  | star r ih =>
    -- all that is ever left is a suffix of a given word
    have hclosed : ∀ word ∈ words.flatMap List.tails, ∀ rest, Leaves r.language word rest →
        rest ∈ words.flatMap List.tails := by
      intro word hword rest hrest
      rw [List.mem_flatMap] at hword ⊢
      obtain ⟨whole, hwhole, hsuffix⟩ := hword
      exact ⟨whole, hwhole, (List.mem_tails _ _).mpr
        (hrest.suffix.trans ((List.mem_tails _ _).mp hsuffix))⟩
    have hstart : words ⊆ words.flatMap List.tails := fun word hword =>
      List.mem_flatMap.mpr ⟨word, hword, (List.mem_tails _ _).mpr (List.suffix_refl word)⟩
    have hfuel : (words.flatMap List.tails).length ≤
        (words.map (fun word => word.length + 1)).sum := by
      simp [List.length_flatMap]
    rw [rests_star, mem_saturate_iff ih hclosed hstart hfuel]
    simp only [language, leaves_kstar_iff]

/-- The matcher accepts exactly the words of the expression. -/
theorem accepts_iff (r : Regex α) (word : List α) : r.accepts word = true ↔ word ∈ r.language := by
  rw [accepts, List.any_eq_true]
  constructor
  · rintro ⟨rest, hrest, hempty⟩
    obtain rfl := List.isEmpty_iff.mp hempty
    obtain ⟨_, hword, first, hfirst, rfl⟩ := (mem_rests_iff r [word] []).mp hrest
    obtain rfl := List.mem_singleton.mp hword
    simpa using hfirst
  · intro hword
    exact ⟨[], (mem_rests_iff r [word] []).mpr ⟨word, by simp, word, hword, by simp⟩, rfl⟩

end Rests

end Kleene.Regex
