import Mathlib.Data.List.Basic

/-!
# Computations that may fail

Two ways to speak about a computation that ends with a result or with a failure: what all its
results have in common (`Yields`), and that it has a result at all. Both go through the steps of a
loop over a list.
-/

set_option autoImplicit false

namespace Kleene

variable {α β ε : Type}

/-- Every result of a computation has the property. -/
def Yields (holds : α → Prop) (computation : Except ε α) : Prop :=
  ∀ a, computation = .ok a → holds a

namespace Yields

variable {holds : α → Prop} {holds' : β → Prop}

/-- A value yields what it has. -/
theorem pure {a : α} (h : holds a) : Yields holds (Pure.pure a : Except ε α) :=
  fun _ ha => Except.ok.inj ha ▸ h

/-- A failure yields anything. -/
theorem throw (failure : ε) : Yields holds (MonadExcept.throw failure : Except ε α) :=
  fun _ ha => nomatch ha

/-- Every computation yields something that is true. -/
theorem any (computation : Except ε α) : Yields (fun _ => True) computation :=
  fun _ _ => trivial

/-- The second of two computations starts from a result of the first. -/
theorem bind {first : Except ε α} {rest : α → Except ε β} (hfirst : Yields holds first)
    (hrest : ∀ a, holds a → Yields holds' (rest a)) : Yields holds' (first >>= rest) := by
  intro b hb
  cases first with
  | error failure => cases hb
  | ok a => exact hrest a (hfirst a rfl) b hb

/-- What every step keeps holds at the end of many steps. -/
theorem foldlM {step : β → α → Except ε β} (hstep : ∀ b, holds' b → ∀ a, Yields holds' (step b a))
    {first : β} (hfirst : holds' first) (items : List α) :
    Yields holds' (items.foldlM step first) := by
  induction items generalizing first with
  | nil => exact pure hfirst
  | cons a rest ih =>
    rw [List.foldlM_cons]
    exact bind (hstep first hfirst a) (fun next hnext => ih hnext)

/-- A list whose items were all read holds what each of them has to be. -/
theorem mapM {read : α → Except ε β} (hread : ∀ a, Yields (fun _ => holds a) (read a))
    (items : List α) : Yields (fun _ => ∀ a ∈ items, holds a) (items.mapM read) := by
  induction items with
  | nil => exact pure (List.forall_mem_nil _)
  | cons a rest ih =>
    rw [List.mapM_cons]
    refine bind (hread a) (fun _ ha => bind ih (fun _ hrest => pure ?_))
    exact List.forall_mem_cons.mpr ⟨ha, hrest⟩

end Yields

/-- Two computations one after the other have a result if both have. -/
theorem bind_eq_ok_iff {first : Except ε α} {rest : α → Except ε β} {b : β} :
    first >>= rest = .ok b ↔ ∃ a, first = .ok a ∧ rest a = .ok b := by
  cases first with
  | error failure => exact iff_of_false (fun h => nomatch h) (fun ⟨_, h, _⟩ => nomatch h)
  | ok a => exact ⟨fun h => ⟨a, rfl, h⟩, fun ⟨_, ha, h⟩ => Except.ok.inj ha ▸ h⟩

/-- A change of the failure changes no value. -/
theorem mapError_eq_ok_iff {ε' : Type} {computation : Except ε α} {f : ε → ε'} {a : α} :
    computation.mapError f = .ok a ↔ computation = .ok a := by
  cases computation with
  | error failure => exact iff_of_false (fun h => nomatch h) (fun h => nomatch h)
  | ok b => exact ⟨fun h => congrArg Except.ok (Except.ok.inj h), fun h => h ▸ rfl⟩

/-- Loops that do the same with each item of a list do the same with the list. -/
theorem foldlM_congr {step step' : β → α → Except ε β} {items : List α}
    (h : ∀ a ∈ items, ∀ b, step b a = step' b a) (first : β) :
    items.foldlM step first = items.foldlM step' first := by
  induction items generalizing first with
  | nil => rfl
  | cons a rest ih =>
    obtain ⟨ha, hrest⟩ := List.forall_mem_cons.mp h
    rw [List.foldlM_cons, List.foldlM_cons, ha first]
    cases step' first a with
    | error failure => rfl
    | ok next => exact ih hrest next

/-- A list of computations that all have values has the list of these for a value. -/
theorem mapM_eq_ok {f : α → Except ε β} {g : α → β} {items : List α}
    (h : ∀ a ∈ items, f a = .ok (g a)) : items.mapM f = .ok (items.map g) := by
  induction items with
  | nil => rfl
  | cons a rest ih =>
    obtain ⟨ha, hrest⟩ := List.forall_mem_cons.mp h
    rw [List.mapM_cons, ha, ih hrest]
    rfl

end Kleene
