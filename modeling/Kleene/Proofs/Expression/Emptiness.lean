import Kleene.Proofs.Automaton.Length
import Kleene.Proofs.Expression.Derivation

/-!
# The empty language

A valid automaton has no state that is of no use: a word shorter than the number of states leads to
each (`Automaton.exists_short_runsThrough`). So it accepts some word if any state is accepting, and
the expression for readers is the pair of braces only if none is: every other expression begins with
the parenthesis of a cell (`words_reach_all_states`).
-/

set_option autoImplicit false

namespace Kleene

namespace CellTree

/-- Above the bottom of the table every written cell begins with a parenthesis. -/
theorem head?_spell_ofCell (edges : Nat → Nat → List String) (k i j : Nat) :
    ((ofCell edges (k + 1) i j).spell .words).toList.head? = some '(' := by
  unfold ofCell spell Builder.combine
  simp [Spelling.union, Spelling.group, Spelling.words]

end CellTree

namespace Builder

/-- A union begins as the first of its parts does. -/
theorem head?_union {s : Spelling} {first : String} {rest : List String} {c : Char}
    (h : first.toList.head? = some c) : (s.union (first :: rest)).toList.head? = some c := by
  unfold Spelling.union
  rw [String.toList_intercalate, List.map_cons]
  cases rest with
  | nil => simpa [List.intercalate] using h
  | cons next rest =>
    rw [List.map_cons, List.intercalate_cons_cons, List.append_assoc, List.head?_append, h]
    rfl

end Builder

namespace Automaton

variable {m : Automaton String}

/-- There is no path to spell exactly if no state is accepting. -/
theorem pathTrees_eq_nil_iff : m.pathTrees = [] ↔ m.accepting = [] := by
  unfold pathTrees Builder.trees
  rw [List.map_eq_nil_iff, eraseDups_eq_nil_iff]

/-- Only without trees the written form is the one for the empty set. -/
theorem spellWhole_pathTrees_eq_iff (hinitial : m.initial.isSome = true) :
    Builder.spellWhole .words m.pathTrees = Spelling.words.emptySet ↔ m.accepting = [] := by
  rw [← pathTrees_eq_nil_iff]
  constructor
  · intro htext
    by_contra hne
    obtain ⟨tree, trees, htrees⟩ := List.exists_cons_of_ne_nil hne
    have hfirst : tree ∈ m.pathTrees := by simp [htrees]
    obtain ⟨state, -, htree⟩ := List.mem_map.mp hfirst
    -- with an initial state the order is not empty, so that the cell is above the bottom
    obtain ⟨first, hinitial⟩ := Option.isSome_iff_exists.mp hinitial
    have horder : (Builder.ofAutomaton m .words).order.length =
        (m.states.erase first).length + 1 := by
      show m.orderedStates.length = _
      rw [orderedStates, hinitial, List.length_cons]
    rw [horder] at htree
    have hopen : (Builder.spellWhole .words m.pathTrees).toList.head? = some '(' := by
      rw [Builder.spellWhole, htrees, List.isEmpty_cons, if_neg Bool.false_ne_true, List.map_cons]
      apply Builder.head?_union
      rw [← htree]
      exact CellTree.head?_spell_ofCell _ _ _ _
    rw [htext] at hopen
    revert hopen
    decide
  · intro hnone
    rw [Builder.spellWhole, hnone]
    rfl

/-- Each state of a valid automaton is where some short word is run through to. -/
theorem exists_short_runsThrough (hbuilt : m.Built) (hvalid : m.validate = .ok ()) :
    ∀ state ∈ m.states, ∃ word : List String,
      word.length < m.states.length ∧ m.RunsThrough word state := by
  obtain ⟨first, hfirst, hinitial, hreach⟩ := exists_walk_of_mem hbuilt hvalid
  intro state hstate
  obtain ⟨word, hwalk⟩ := hreach state hstate
  obtain ⟨short, hshort, hwalk⟩ := hwalk.exists_short hfirst
  exact ⟨short, hshort, (runsThrough_iff_walk hbuilt hvalid).mpr ⟨first, hinitial, hwalk⟩⟩

/-- A valid automaton with an accepting state accepts a word that is shorter than the number of its
states. -/
theorem exists_short_accepts (hbuilt : m.Built) (hvalid : m.validate = .ok ())
    (haccepting : m.accepting ≠ []) :
    ∃ word : List String, word.length < m.states.length ∧ m.accepts word = .ok true := by
  obtain ⟨last, hlast⟩ := List.exists_mem_of_ne_nil _ haccepting
  have hstate : last ∈ m.states := by
    obtain ⟨l, hclosed, rfl⟩ := hbuilt.exists_listing
    exact List.mem_eraseDups.mpr (hclosed.accepting last hlast)
  obtain ⟨word, hshort, hruns⟩ := exists_short_runsThrough hbuilt hvalid last hstate
  obtain ⟨first, hinitial, hwalk⟩ := (runsThrough_iff_walk hbuilt hvalid).mp hruns
  exact ⟨word, hshort, (accepts_iff_walk hbuilt hvalid word).mpr
    ⟨first, last, hinitial, hlast, hwalk⟩⟩

/-- A valid automaton accepts no word exactly if it has no accepting state. -/
theorem accepts_none_iff (hbuilt : m.Built) (hvalid : m.validate = .ok ()) :
    (∀ word : List String, m.accepts word = .ok false) ↔ m.accepting = [] := by
  constructor
  · intro hnone
    by_contra hne
    obtain ⟨word, -, haccepts⟩ := exists_short_accepts hbuilt hvalid hne
    cases (hnone word).symm.trans haccepts
  · intro hnil word
    apply accepts_eq_false hbuilt hvalid
    intro haccepts
    obtain ⟨-, last, -, hlast, -⟩ := (accepts_iff_walk hbuilt hvalid word).mp haccepts
    rw [hnil] at hlast
    cases hlast

/-- Each state of a valid automaton is the end of a run on a word shorter than the number of states,
and such a word is accepted if some state is accepting. The expression for readers is the pair of
braces exactly if no word is accepted, and exactly if no state is accepting. -/
theorem words_reach_all_states (hbuilt : m.Built) (hvalid : m.validate = .ok ()) :
    (∀ state ∈ m.states, ∃ word : List String,
      word.length < m.states.length ∧ m.RunsThrough word state) ∧
    (m.accepting ≠ [] → ∃ word : List String,
      word.length < m.states.length ∧ m.accepts word = .ok true) ∧
    ∃ text, m.expression .words = .ok text ∧
      (text = "\x7b\x7d" ↔ ∀ word : List String, m.accepts word = .ok false) ∧
      ((∀ word : List String, m.accepts word = .ok false) ↔ m.accepting = []) := by
  have hinitial := ((validate_eq_ok_iff m).mp hvalid).1
  refine ⟨exists_short_runsThrough hbuilt hvalid, exists_short_accepts hbuilt hvalid,
    _, expression_eq_spellWhole hbuilt hvalid .words, ?_, accepts_none_iff hbuilt hvalid⟩
  rw [accepts_none_iff hbuilt hvalid]
  exact spellWhole_pathTrees_eq_iff hinitial

/-- Three states in a row, where a symbol is named like the expression for the empty set. -/
def bracesRow : Automaton String :=
  replay [.addState "p", .addState "q", .addState "r", .addSymbol "\x7b\x7d", .setInitial "p",
    .addAccepting "r", .addTransition "p" "\x7b\x7d" "q", .addTransition "q" "\x7b\x7d" "r"]

/-- An automaton with a symbol that is spelled like the empty set, and whose expression is another
one nevertheless. -/
theorem words_reach_all_states_bracesRow :
    bracesRow.Built ∧ bracesRow.validate = .ok () ∧ bracesRow.accepting ≠ [] ∧
      (∃ word : List String, word.length < 3 ∧ bracesRow.RunsThrough word "q") ∧
      (∃ word : List String, word.length < 3 ∧ bracesRow.accepts word = .ok true) ∧
      ∃ text, bracesRow.expression .words = .ok text ∧ text ≠ "\x7b\x7d" := by
  have hbuilt : bracesRow.Built := ⟨_, rfl⟩
  have hvalid : bracesRow.validate = .ok () := by decide
  have haccepting : bracesRow.accepting ≠ [] := by decide
  obtain ⟨hreach, hshort, text, htext, hempty, hnone⟩ := words_reach_all_states hbuilt hvalid
  exact ⟨hbuilt, hvalid, haccepting, hreach "q" (by decide), hshort haccepting, text, htext,
    fun hbraces => haccepting (hnone.mp (hempty.mp hbraces))⟩

end Automaton

end Kleene
