import Kleene.Automaton.Definition
import Kleene.Automaton.Description
import Kleene.Proofs.Automaton.History
import Kleene.Proofs.Results

/-!
# What the building up of an automaton keeps

An automaton is only ever changed by the five calls that add a part to it. So what holds of the
empty automaton and is kept by each call (`Automaton.Kept`) holds of every automaton that is built
up, whatever its names are: by a history of calls with refused ones among them (`Kept.replay`), from
a definition (`Kept.ofDefinition`, `Kept.ofJson`) or from a description (`Kept.ofDescription`).
-/

set_option autoImplicit false

namespace Kleene.Automaton

variable {ν : Type} [Name ν]

/-- The empty automaton has the property, and every call keeps it. -/
structure Kept (holds : Automaton ν → Prop) : Prop where
  empty : holds empty
  apply : ∀ m op, holds m → Yields holds (Operation.apply m op)

namespace Kept

variable {holds : Automaton ν → Prop} (h : Kept holds)

include h

/-- A definition leads to an automaton with the property, if it leads to one. -/
theorem ofDefinition {κ ε : Type} (key : κ → ν) (name : ε → Except (Failure ν) ν)
    (d : Definition κ ε) : Yields holds (Automaton.ofDefinition key name d) := by
  unfold Automaton.ofDefinition
  refine Yields.bind (Yields.foldlM ?_ h.empty _) (fun m hm => ?_)
  · exact fun m hm entry =>
      Yields.bind (Yields.any _) (fun state _ => h.apply m (.addState state) hm)
  refine Yields.bind (Yields.foldlM ?_ hm _) (fun m hm => ?_)
  · exact fun m hm entry =>
      Yields.bind (Yields.any _) (fun symbol _ => h.apply m (.addSymbol symbol) hm)
  extract_lets remaining
  have hremaining : ∀ m : Automaton ν, holds m → Yields holds (remaining m) := by
    intro m hm
    refine Yields.bind (Yields.foldlM ?_ hm _) (fun m hm => ?_)
    · exact fun m hm entry =>
        Yields.bind (Yields.any _) (fun state _ => h.apply m (.addAccepting state) hm)
    refine Yields.foldlM (fun m hm moves => ?_) hm _
    refine Yields.foldlM (fun m hm move => ?_) hm _
    refine Yields.foldlM (fun m hm entry => ?_) hm _
    exact Yields.bind (Yields.any _) (fun _ _ => Yields.bind (Yields.any _) (fun target _ =>
      h.apply m (.addTransition _ _ target) hm))
  cases d.startingState with
  | none => exact hremaining m hm
  | some entry =>
    exact Yields.bind (Yields.any _) (fun state _ =>
      Yields.bind (h.apply m (.setInitial state) hm) hremaining)

/-- A description leads to an automaton with the property, if it leads to one. -/
theorem ofDescription (text : String) :
    Yields holds (Automaton.ofDescription text : Except (Failure ν) (Automaton ν)) := by
  unfold Automaton.ofDescription
  extract_lets lines remaining
  have hremaining : ∀ m : Automaton ν, holds m → Yields holds (remaining m) := by
    intro m hm
    refine Yields.bind (Yields.any _) (fun accepting _ => ?_)
    refine Yields.bind (Yields.foldlM ?_ hm _) (fun m hm => ?_)
    · exact fun m hm state => h.apply m (.addAccepting (Name.ofText state)) hm
    refine Yields.bind (Yields.any _) (fun moves _ => ?_)
    exact Yields.foldlM (fun m hm move => h.apply m (.addTransition _ _ _) hm) hm _
  refine Yields.bind (Yields.any _) (fun states _ => ?_)
  extract_lets m
  have hm : holds m := states.foldlRecOn _ (motive := holds) h.empty
    (fun m hm state _ => h.apply m (.addState (Name.ofText state)) hm _ rfl)
  refine Yields.bind (Yields.any _) (fun symbols _ => ?_)
  extract_lets m'
  have hm' : holds m' := symbols.foldlRecOn _ (motive := holds) hm
    (fun m hm symbol _ => h.apply m (.addSymbol (Name.ofText symbol)) hm _ rfl)
  refine Yields.bind (Yields.any _) (fun initial _ => ?_)
  cases initial with
  | none => exact hremaining m' hm'
  | some state => exact Yields.bind (h.apply m' (.setInitial _) hm') hremaining

/-- A history of calls leads to an automaton with the property, as a refused call changes nothing.
-/
theorem replay (history : List (Operation ν)) : holds (Automaton.replay history) := by
  refine history.foldlRecOn _ (motive := holds) h.empty (fun m hm op _ => ?_)
  unfold after
  cases happly : op.apply m with
  | error failure => exact hm
  | ok next => exact h.apply m op hm next happly

end Kept

/-- A dictionary leads to an automaton with the property, if it leads to one. -/
theorem Kept.ofJson {holds : Automaton Scalar → Prop} (h : Kept holds) (json : Json) :
    Yields holds (Automaton.ofJson json) := by
  unfold Automaton.ofJson
  split
  · exact h.ofDefinition _ _ _
  · exact Yields.throw _

end Kleene.Automaton
