import Kleene.Proofs.Automaton.Matrix
import Kleene.Proofs.Graph.Exploration

/-!
# What the properties of an automaton say about its moves

The properties are computed on the graph, vertex by vertex. Here they are stated in terms of what a
listing of the automaton names, so that no vertex occurs any more: all states can be reached if
walks lead to them from the initial one (`isJoint_automaton`), there is a cycle if a walk that reads
something leads back to where it begins (`hasCycle_automaton`), and no state has a choice if every
move reads something and is determined by its source and its symbol (`noChoice_automaton`).

`reachable_iff_walks` puts together what reachability comes to: in a graph that grows, and for the
states of an automaton.
-/

set_option autoImplicit false

namespace Kleene

namespace Listing

variable {l : Listing String}

/-- An edge of the matrix leads where some listed move leads. -/
theorem leads_automaton {p q : Nat} :
    l.automaton.graph.Leads p q ↔ ∃ source symbol target, l.states.eraseDups[p]? = some source ∧
      l.states.eraseDups[q]? = some target ∧ ⟨source, symbol, target⟩ ∈ l.moves := by
  simp only [LabeledGraph.leads_iff, mem_labels_automaton_iff]
  constructor
  · rintro ⟨symbol, source, target, h⟩
    exact ⟨source, symbol, target, h⟩
  · rintro ⟨source, symbol, target, h⟩
    exact ⟨symbol, source, target, h⟩

/-- No edge of the automaton of a listing leads out of it. -/
theorem inBounds_automaton (l : Listing String) : l.automaton.graph.InBounds := by
  intro p q hleads
  obtain ⟨_, _, _, _, hq, _⟩ := leads_automaton.mp hleads
  exact (List.getElem?_eq_some_iff.mp hq).1

/-! ## Walks -/

/-- What edges of the matrix lead to are the places of the states that walks lead to. -/
theorem reflTransGen_leads_iff (h : l.Closed) {p q : Nat} {source target : String}
    (hp : l.states.eraseDups[p]? = some source) (hq : l.states.eraseDups[q]? = some target) :
    Relation.ReflTransGen l.automaton.graph.Leads p q ↔
      ∃ word, l.automaton.Walk source word target := by
  constructor
  · intro hreach
    induction hreach using Relation.ReflTransGen.head_induction_on generalizing source with
    | refl =>
      obtain rfl := Option.some.inj (hp.symm.trans hq)
      exact ⟨[], .nil source⟩
    | head hfirst _ ih =>
      obtain ⟨first, symbol, next, hp', hnext, hmove⟩ := leads_automaton.mp hfirst
      obtain rfl := Option.some.inj (hp.symm.trans hp')
      obtain ⟨word, hwalk⟩ := ih hnext
      exact ⟨symbol :: word, .cons ((hasMove_automaton h).mpr hmove) hwalk⟩
  · rintro ⟨word, hwalk⟩
    induction hwalk generalizing p with
    | nil state =>
      have hlt := (List.getElem?_eq_some_iff.mp hp).1
      obtain rfl := (List.getElem?_inj hlt (nodup_eraseDups l.states)).mp (hp.trans hq.symm)
      exact .refl
    | cons move rest ih =>
      have hmove := (hasMove_automaton h).mp move
      have hnext := getElem?_idxOf_states (h.target _ hmove)
      exact .head (leads_automaton.mpr ⟨_, _, _, hp, hnext, hmove⟩) (ih hnext hq)

/-- At least one edge is passed on a walk that reads something. -/
theorem transGen_leads_iff (h : l.Closed) {p q : Nat} {source target : String}
    (hp : l.states.eraseDups[p]? = some source) (hq : l.states.eraseDups[q]? = some target) :
    Relation.TransGen l.automaton.graph.Leads p q ↔
      ∃ word, word ≠ [] ∧ l.automaton.Walk source word target := by
  rw [Relation.TransGen.head'_iff]
  constructor
  · rintro ⟨r, hfirst, hreach⟩
    obtain ⟨first, symbol, next, hp', hnext, hmove⟩ := leads_automaton.mp hfirst
    obtain rfl := Option.some.inj (hp.symm.trans hp')
    obtain ⟨word, hwalk⟩ := (reflTransGen_leads_iff h hnext hq).mp hreach
    exact ⟨symbol :: word, List.cons_ne_nil _ _, .cons ((hasMove_automaton h).mpr hmove) hwalk⟩
  · rintro ⟨word, hne, hwalk⟩
    cases hwalk with
    | nil => exact absurd rfl hne
    | cons move rest =>
      have hmove := (hasMove_automaton h).mp move
      have hnext := getElem?_idxOf_states (h.target _ hmove)
      exact ⟨_, leads_automaton.mpr ⟨_, _, _, hp, hnext, hmove⟩,
        (reflTransGen_leads_iff h hnext hq).mpr ⟨_, rest⟩⟩

/-! ## The properties -/

/-- The automaton is joint exactly if a word can be read from the initial state to every state. -/
theorem isJoint_automaton (h : l.Closed) :
    l.automaton.isJoint = true ↔ ∃ first, l.initial = some first ∧
      ∀ state ∈ l.states, ∃ word, l.automaton.Walk first word state := by
  have hinitial : l.automaton.initial = l.initial := rfl
  rw [Automaton.isJoint, hinitial]
  cases hfirst : l.initial with
  | none => simp
  | some first =>
    have hplace := getElem?_idxOf_states (h.initial first hfirst)
    have hvertex : l.automaton.vertex? first = some (l.states.eraseDups.idxOf first) := by
      rw [Automaton.vertex?_eq, states_automaton,
        if_pos (List.mem_eraseDups.mpr (h.initial first hfirst))]
    have hstart : l.states.eraseDups.idxOf first < l.automaton.graph.size :=
      (List.getElem?_eq_some_iff.mp hplace).1
    simp only [Option.bind_some, hvertex, LabeledGraph.isJoint_iff l.inBounds_automaton hstart,
      Option.some.injEq, exists_eq_left']
    constructor
    · intro hall state hstate
      have hplace' := getElem?_idxOf_states hstate
      exact (reflTransGen_leads_iff h hplace hplace').mp
        (hall _ (List.getElem?_eq_some_iff.mp hplace').1)
    · intro hall p hp
      have hp' : l.states.eraseDups[p]? = some l.states.eraseDups[p] := List.getElem?_eq_getElem hp
      exact (reflTransGen_leads_iff h hplace hp').mpr
        (hall _ (List.mem_eraseDups.mp (List.getElem_mem hp)))

/-- The automaton has a cycle exactly if a word with a symbol leads from some state back to it. -/
theorem hasCycle_automaton (h : l.Closed) :
    l.automaton.hasCycle = true ↔ ∃ state word, word ≠ [] ∧ l.automaton.Walk state word state := by
  rw [Automaton.hasCycle, Option.isSome_iff_ne_none, Ne,
    LabeledGraph.findCycle_eq_none_iff l.inBounds_automaton, not_forall_not]
  constructor
  · rintro ⟨p, hback⟩
    obtain ⟨q, hleads, -⟩ := Relation.TransGen.head'_iff.mp hback
    obtain ⟨state, -, -, hp, -, -⟩ := leads_automaton.mp hleads
    exact ⟨state, (transGen_leads_iff h hp hp).mp hback⟩
  · rintro ⟨state, word, hne, hwalk⟩
    obtain ⟨p, hp⟩ : ∃ p, l.states.eraseDups[p]? = some state := by
      cases hwalk with
      | nil => exact absurd rfl hne
      | cons move _ => exact ⟨_, getElem?_idxOf_states (h.source _ ((hasMove_automaton h).mp move))⟩
    exact ⟨p, (transGen_leads_iff h hp hp).mpr ⟨word, hne, hwalk⟩⟩

/-- No state has a choice if every move reads something and no two moves from one state read the
same symbol. -/
theorem noChoice_automaton (h : l.Closed) :
    l.automaton.NoChoice ↔ (∀ move ∈ l.moves, move.symbol ≠ Name.epsilon) ∧
      ∀ move ∈ l.moves, ∀ move' ∈ l.moves, move.source = move'.source →
        move.symbol = move'.symbol → move.target = move'.target := by
  constructor
  · intro hchoice
    refine ⟨fun move hmove => (h.move_unique hchoice hmove hmove).1, ?_⟩
    rintro ⟨source, symbol, target⟩ hmove ⟨_, _, target'⟩ hmove' rfl rfl
    exact (h.move_unique hchoice hmove hmove').2
  · rintro ⟨hreads, hunique⟩ p hp
    have hplace : l.states.eraseDups[p]? = some l.states.eraseDups[p] := List.getElem?_eq_getElem hp
    exact (h.hasChoice_eq_false_iff hplace).mpr ⟨fun target hmove => hreads _ hmove rfl,
      fun symbol target target' hmove hmove' => hunique _ hmove _ hmove' rfl rfl⟩

end Listing

namespace Automaton

/-- An automaton is deterministic exactly if no state has a choice. -/
theorem isDeterministic_iff (m : Automaton String) : m.isDeterministic = true ↔ m.NoChoice := by
  rw [isDeterministic, Option.isNone_iff_eq_none, nondeterministicState_eq_none_iff]

/-- All states can be reached if walks lead to each of them from the initial one. -/
theorem isJoint_iff_walks {m : Automaton String} (hbuilt : m.Built) :
    m.isJoint = true ↔ ∃ first, m.initial = some first ∧
      ∀ state ∈ m.states, ∃ word, m.Walk first word state := by
  obtain ⟨l, hclosed, rfl⟩ := hbuilt.exists_listing
  simp only [Listing.isJoint_automaton hclosed, Listing.states_automaton, List.mem_eraseDups]
  rfl

open LabeledGraph in
/-- In a graph that a permitted history leads to, the search from a vertex ends by itself and lists,
each once, exactly the vertices at the ends of the walks from there; so the graph is joint from a
vertex exactly if walks lead from there to all vertices. The states of an automaton are joint
exactly if an initial one is set and walks lead from it to all of them. -/
theorem reachable_iff_walks {V L : Type} [BEq L] [LawfulBEq L] :
    (∀ calls : List (GraphCall V L), GraphCall.Permitted calls → ∀ v < (grow calls).size,
      (∀ fuel, (grow calls).size ≤ fuel →
        saturate (fun frontier => frontier.flatMap (grow calls).successors) fuel [v] [v] =
          saturate (fun frontier => frontier.flatMap (grow calls).successors) (grow calls).size
            [v] [v]) ∧
      ((grow calls).reachable v).Nodup ∧
      (∀ w, w ∈ (grow calls).reachable v ↔ Relation.ReflTransGen (grow calls).Joins v w) ∧
      ((grow calls).isJoint v = true ↔
        ∀ w < (grow calls).size, Relation.ReflTransGen (grow calls).Joins v w)) ∧
    ∀ m : Automaton String, m.Built →
      (m.isJoint = true ↔ ∃ first, m.initial = some first ∧
        ∀ state ∈ m.states, ∃ word, m.Walk first word state) := by
  refine ⟨?_, fun m hbuilt => isJoint_iff_walks hbuilt⟩
  intro calls hcalls v hv
  refine ⟨?_, nodup_reachable _ v, fun w => mem_reachable_grow hcalls hv, isJoint_grow hcalls hv⟩
  intro fuel hfuel
  exact saturate_grow hcalls hv hfuel

/-- Two states, of which the one that was named last is the initial one; it can be left without
reading anything. -/
def silentStart : Automaton String :=
  replay [.addState "p", .addState "q", .setInitial "q", .addTransition "q" "eps" "p"]

open LabeledGraph in
/-- What can be reached in a ring with a vertex apart, in a row of vertices, and from a state by a
move without a symbol. -/
theorem reachable_iff_walks_ringCalls :
    GraphCall.Permitted ringCalls ∧ Relation.ReflTransGen (grow ringCalls).Joins 0 2 ∧
      ¬ Relation.ReflTransGen (grow ringCalls).Joins 0 3 ∧
      GraphCall.Permitted rowCalls ∧
      (∀ w < 3, Relation.ReflTransGen (grow rowCalls).Joins 0 w) ∧
      silentStart.Built ∧ ∃ word, silentStart.Walk "q" word "p" := by
  have hring : GraphCall.Permitted ringCalls := by decide
  have hrow : GraphCall.Permitted rowCalls := by decide
  have hbuilt : silentStart.Built := ⟨_, rfl⟩
  obtain ⟨hgraphs, hautomata⟩ := @reachable_iff_walks String String _ _
  obtain ⟨-, -, hreach, -⟩ := hgraphs ringCalls hring 0 (by decide)
  obtain ⟨-, -, -, hjoint⟩ := hgraphs rowCalls hrow 0 (by decide)
  obtain ⟨first, hfirst, hwalks⟩ := (hautomata silentStart hbuilt).mp (by decide)
  obtain rfl : "q" = first := Option.some.inj hfirst
  exact ⟨hring, (hreach 2).mp (by decide), mt (hreach 3).mpr (by decide), hrow,
    hjoint.mp (by decide), hbuilt, hwalks "p" (by decide)⟩

end Automaton

end Kleene
