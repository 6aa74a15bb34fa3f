import Kleene.Expression.Derivation
import Kleene.Proofs.Automaton.Registration
import Kleene.Proofs.Expression.Table

/-!
# Expressions that can be written exist

What the cells of an automaton say and what its whole expression says does not depend on a spelling:
`Automaton.cellRegex` and `Automaton.wholeRegex` are the regular expressions. A spelling that can
write every label leaves nothing that could stop a builder: the positions it asks for are those of
states in its order, and these have vertices. So the plain values of a new builder are the written
forms of these regular expressions (`plainBelow_ofAutomaton`, `plainWhole_ofAutomaton`).

The spelling for readers can write whatever a name is, so that every valid automaton whose initial
and accepting states are registered has an expression for readers (`exists_expression_words`).
-/

set_option autoImplicit false

namespace Kleene

/-- A list from which nothing is dropped keeps its places. -/
theorem getElem?_filterMap_of_isSome {α β : Type} {f : α → Option β} {items : List α}
    (h : ∀ a ∈ items, (f a).isSome = true) (p : Nat) :
    (items.filterMap f)[p]? = items[p]?.bind f := by
  induction items generalizing p with
  | nil => rfl
  | cons a rest ih =>
    obtain ⟨ha, hrest⟩ := List.forall_mem_cons.mp h
    obtain ⟨b, hb⟩ := Option.isSome_iff_exists.mp ha
    rw [List.filterMap_cons_some hb]
    cases p with
    | zero => exact hb.symm
    | succ p => exact ih hrest p

variable {ν : Type} [Name ν]

namespace Automaton

/-- The labels of the moves from one position of the order of the states to another. -/
def labelsBetween (m : Automaton ν) (i j : Nat) : List ν :=
  match m.orderedStates[i]?.bind m.vertex?, m.orderedStates[j]?.bind m.vertex? with
  | some v, some w => m.graph.labels v w
  | _, _ => []

/-- The regular expression of the cell `(i, j, k)`. -/
def cellRegex (m : Automaton ν) (i j : Nat) (k : Int) : RegexTree ν :=
  (CellTree.ofCell m.labelsBetween (k + 1).toNat i j).expand

/-- The regular expression of the whole automaton: those of the paths from the first state to each
accepting one, side by side. -/
def wholeRegex (m : Automaton ν) : RegexTree ν :=
  RegexTree.unions (m.accepting.eraseDups.map (fun state =>
    m.cellRegex 0 (m.orderedStates.findIdx (· == state)) ((m.states.length : Int) - 1)))

end Automaton

namespace Builder

variable [EquivBEq ν] {m : Automaton ν} (h : m.Registered) (s : Spelling)

include h

/-- There are as many vertices as positions, whether or not the names of the states are
different. -/
theorem length_vertices_ofAutomaton :
    (ofAutomaton m s).vertices.length = (ofAutomaton m s).order.length :=
  List.filterMap_length_eq_length.mpr (fun _ => h.vertex?_isSome)

/-- The labels between two positions are those between their vertices. -/
theorem labelsBetween_eq (i j : Nat) (hi : i < (ofAutomaton m s).vertices.length)
    (hj : j < (ofAutomaton m s).vertices.length) :
    m.labelsBetween i j =
      m.graph.labels (ofAutomaton m s).vertices[i] (ofAutomaton m s).vertices[j] := by
  have hvertex : ∀ (p : Nat) (hp : p < (ofAutomaton m s).vertices.length),
      m.orderedStates[p]?.bind m.vertex? = some (ofAutomaton m s).vertices[p] := by
    intro p hp
    rw [← getElem?_filterMap_of_isSome (fun _ => h.vertex?_isSome)]
    exact List.getElem?_eq_getElem hp
  rw [Automaton.labelsBetween, hvertex i hi, hvertex j hj]

/-- The cells of a new builder are the written forms of their regular expressions. -/
theorem plain_ofAutomaton (hs : s.Writes m) {i j : Nat} {k : Int} (hi : i < m.states.length)
    (hj : j < m.states.length) (hk : k < m.states.length) :
    (ofAutomaton m s).plain m i j k = .ok ((m.cellRegex i j k).render s) := by
  have hlength : (ofAutomaton m s).vertices.length = m.states.length :=
    (length_vertices_ofAutomaton h s).trans h.length_orderedStates
  have hplain : (ofAutomaton m s).plain m i j k =
      (ofAutomaton m s).plainBelow m (k + 1).toNat i j := by
    cases k with
    | ofNat k => rfl
    | negSucc k =>
      have hbound : (Int.negSucc k + 1).toNat = 0 := by omega
      rw [hbound]
      rfl
  rw [hplain]
  exact plainBelow_eq_render hs (labelsBetween_eq h s) (by omega) (by omega) (by omega)

/-- The whole expression of a new builder is the written form of its regular expression. -/
theorem plainWhole_ofAutomaton (hs : s.Writes m) :
    (ofAutomaton m s).plainWhole m = .ok (m.wholeRegex.render s) := by
  have hplace : ∀ state ∈ m.accepting, (ofAutomaton m s).position? state =
      some (m.orderedStates.findIdx (· == state)) := by
    intro state hstate
    obtain ⟨known, hknown, hname⟩ := Automaton.exists_mem_orderedStates (h.accepting state hstate)
    exact List.findIdx?_eq_some_of_exists ⟨known, hknown, hname⟩
  have hbound : ((m.states.length : Int) - 1 + 1).toNat = (ofAutomaton m s).order.length := by
    rw [Int.sub_add_cancel, Int.toNat_natCast]
    exact h.length_orderedStates.symm
  rw [plainWhole_eq_render hs (labelsBetween_eq h s) (length_vertices_ofAutomaton h s) hplace,
    Automaton.wholeRegex]
  simp only [Automaton.cellRegex, hbound]
  rfl

end Builder

namespace Automaton

variable [EquivBEq ν] {m : Automaton ν}

/-- The expression of a valid automaton is the written form of its regular expression. -/
theorem expression_eq_render (h : m.Registered) (hvalid : m.validate = .ok ()) {s : Spelling}
    (hs : s.Writes m) : m.expression s = .ok (m.wholeRegex.render s) := by
  rw [expression, hvalid]
  exact (Builder.build_eq Builder.faithful_nil).1.trans (Builder.plainWhole_ofAutomaton h s hs)

/-- A valid automaton has an expression for readers. -/
theorem exists_expression_words (h : m.Registered) (hvalid : m.validate = .ok ()) :
    ∃ text, m.expression .words = .ok text :=
  ⟨_, expression_eq_render h hvalid (Spelling.writes_words m)⟩

end Automaton

end Kleene
