import Kleene.Proofs.Automaton.Properties
import Kleene.Proofs.Automaton.Runs

/-!
# Long words go round a loop

A walk that reads as many symbols as there are states comes back to a state that it has passed
(`Walk.loops`). Leaving such loops out makes a walk short (`Walk.exists_short`), and going round one
of them again makes it long (`Walk.repeat_loop`).

So the cycle that the search of the graph finds or does not find tells how long the words of a valid
automaton are: `length_of_hasCycle`.
-/

set_option autoImplicit false

namespace Kleene

namespace Automaton

variable {m : Automaton String} {first state last : String} {word : List String}

/-- A move leads to a state. -/
theorem HasMove.target_mem {symbol target : String} (h : m.HasMove first symbol target) :
    target ∈ m.states := by
  obtain ⟨-, q, -, hq, -⟩ := h
  exact List.mem_of_getElem? hq

/-- A walk goes on with another one from where it ends. -/
theorem Walk.append {rest : List String} (h : m.Walk first word state)
    (hrest : m.Walk state rest last) : m.Walk first (word ++ rest) last :=
  walk_append_iff.mpr ⟨state, h, hrest⟩

/-- A walk that ends where it begins can be repeated. -/
theorem Walk.repeat_loop (h : m.Walk state word state) (times : Nat) :
    m.Walk state (List.replicate times word).flatten state := by
  induction times with
  | zero => exact .nil state
  | succ times ih =>
    rw [List.replicate_succ, List.flatten_cons]
    exact h.append ih

/-- On the way that reads the word some state is come back to. -/
def Loops (m : Automaton String) (first : String) (word : List String) (last : String) : Prop :=
  ∃ before loop after state, before ++ loop ++ after = word ∧ loop ≠ [] ∧
    m.Walk first before state ∧ m.Walk state loop state ∧ m.Walk state after last

/-- Either some state is come back to on a walk, or the states that it passes differ. The induction
is on the walk: its first state is passed again later, or it is one more that differs. -/
theorem Walk.loops_or_nodup (h : m.Walk first word last) (hfirst : first ∈ m.states) :
    m.Loops first word last ∨
      ∃ passed : List String, passed.length = word.length + 1 ∧ passed.Nodup ∧
        passed ⊆ m.states ∧
        ∀ state ∈ passed, ∃ before after, before ++ after = word ∧
          m.Walk first before state ∧ m.Walk state after last := by
  induction h with
  | nil state =>
    refine .inr ⟨[state], rfl, List.nodup_singleton state, by simpa using hfirst, ?_⟩
    intro other hother
    obtain rfl := List.mem_singleton.mp hother
    exact ⟨[], [], rfl, .nil other, .nil other⟩
  | @cons source symbol target last word move rest ih =>
    rcases ih move.target_mem with ⟨before, loop, after, state, rfl, hloop, hto, hround, hon⟩ |
      ⟨passed, hlength, hnodup, hstates, hsplit⟩
    · exact .inl ⟨symbol :: before, loop, after, state, rfl, hloop, .cons move hto, hround, hon⟩
    · by_cases hagain : source ∈ passed
      · obtain ⟨before, after, rfl, hback, hon⟩ := hsplit source hagain
        exact .inl ⟨[], symbol :: before, after, source, rfl, List.cons_ne_nil _ _, .nil source,
          .cons move hback, hon⟩
      · refine .inr ⟨source :: passed, ?_, List.nodup_cons.mpr ⟨hagain, hnodup⟩,
          List.cons_subset.mpr ⟨hfirst, hstates⟩, ?_⟩
        · rw [List.length_cons, List.length_cons, hlength]
        · intro state hstate
          rcases List.mem_cons.mp hstate with rfl | hstate
          · exact ⟨[], symbol :: word, rfl, .nil state, .cons move rest⟩
          · obtain ⟨before, after, rfl, hto, hon⟩ := hsplit state hstate
            exact ⟨symbol :: before, after, rfl, .cons move hto, hon⟩

/-- A walk by a word that is not shorter than the number of states goes around a loop. -/
theorem Walk.loops (h : m.Walk first word last) (hfirst : first ∈ m.states)
    (hlong : m.states.length ≤ word.length) : m.Loops first word last := by
  rcases h.loops_or_nodup hfirst with hloops | ⟨passed, hlength, hnodup, hstates, -⟩
  · exact hloops
  · have hle : passed.length ≤ m.states.length := (hnodup.subperm hstates).length_le
    omega

/-- What a walk leads to is led to by one with fewer moves than there are states. -/
theorem Walk.exists_short (h : m.Walk first word last) (hfirst : first ∈ m.states) :
    ∃ short : List String, short.length < m.states.length ∧ m.Walk first short last := by
  induction hlength : word.length using Nat.strong_induction_on generalizing word with
  | h n ih =>
    by_cases hshort : word.length < m.states.length
    · exact ⟨word, hshort, h⟩
    · obtain ⟨before, loop, after, state, rfl, hloop, hto, -, hon⟩ := h.loops hfirst (by omega)
      have hpos : 0 < loop.length := List.length_pos_iff.mpr hloop
      simp only [List.length_append] at hlength
      exact ih (before ++ after).length (by rw [List.length_append]; omega) (hto.append hon) rfl

/-! ## Words and cycles -/

/-- Without a cycle every walk is short. -/
theorem Walk.length_lt_of_hasCycle (hbuilt : m.Built) (hcycle : m.hasCycle = false)
    (h : m.Walk first word last) (hfirst : first ∈ m.states) : word.length < m.states.length := by
  by_contra hlong
  obtain ⟨-, loop, -, state, -, hloop, -, hround, -⟩ := h.loops hfirst (by omega)
  obtain ⟨l, hclosed, rfl⟩ := hbuilt.exists_listing
  have hthere := (Listing.hasCycle_automaton hclosed).mpr ⟨state, loop, hloop, hround⟩
  rw [hcycle] at hthere
  cases hthere

/-- A state that a cycle leads to is the end of walks of any length from every state that leads to
the cycle. -/
theorem exists_long_walk (hbuilt : m.Built) {cycle : List Nat}
    (hcycle : m.graph.findCycle = some cycle) {v j : Nat} (hv : v ∈ cycle)
    (hj : j ∈ m.graph.reachable v) (hlast : m.vertex last = .ok j)
    (hreach : ∀ state ∈ m.states, ∃ word, m.Walk first word state) (bound : Nat) :
    ∃ word, bound < word.length ∧ m.Walk first word last := by
  obtain ⟨l, hclosed, rfl⟩ := hbuilt.exists_listing
  have hback := (LabeledGraph.isCycle_of_findCycle l.inBounds_automaton hcycle).transGen_of_mem hv
  obtain ⟨w, hw, -⟩ := Relation.TransGen.head'_iff.mp hback
  obtain ⟨state, -, -, hplace, -, -⟩ := Listing.leads_automaton.mp hw
  obtain ⟨hlt, -⟩ := List.getElem?_eq_some_iff.mp hplace
  obtain ⟨loop, hloop, hround⟩ := (Listing.transGen_leads_iff hclosed hplace hplace).mp hback
  have hend : l.states.eraseDups[j]? = some last :=
    ((Listing.describes_automaton hclosed).vertex j last).mp hlast
  obtain ⟨after, hon⟩ := (Listing.reflTransGen_leads_iff hclosed hplace hend).mp
    ((LabeledGraph.mem_reachable_iff l.inBounds_automaton hlt).mp hj)
  obtain ⟨before, hto⟩ := hreach state (List.mem_of_getElem? hplace)
  refine ⟨before ++ (List.replicate (bound + 1) loop).flatten ++ after, ?_,
    (hto.append (hround.repeat_loop (bound + 1))).append hon⟩
  -- each round reads at least one symbol
  have hpos : 0 < loop.length := List.length_pos_iff.mpr hloop
  have hrounds : bound + 1 ≤ (bound + 1) * loop.length := Nat.le_mul_of_pos_right _ hpos
  simp only [List.length_append, List.length_flatten, List.map_replicate, List.sum_replicate_nat]
  omega

/-- Walks from the initial state of a valid automaton lead to each of its states. -/
theorem exists_walk_of_mem (hbuilt : m.Built) (hvalid : m.validate = .ok ()) :
    ∃ first ∈ m.states, m.initial = some first ∧
      ∀ state ∈ m.states, ∃ word, m.Walk first word state := by
  obtain ⟨-, hjoint, -⟩ := (validate_eq_ok_iff m).mp hvalid
  obtain ⟨first, hinitial, hreach⟩ := (isJoint_iff_walks hbuilt).mp hjoint
  obtain ⟨l, hclosed, rfl⟩ := hbuilt.exists_listing
  exact ⟨first, List.mem_eraseDups.mpr (hclosed.initial first hinitial), hinitial, hreach⟩

/-- Without a cycle the words that a valid automaton can run through have fewer symbols than it has
states, and so have those that it accepts. With a cycle that leads to an accepting state it accepts
words of any length. -/
theorem length_of_hasCycle (hbuilt : m.Built) (hvalid : m.validate = .ok ()) :
    (m.hasCycle = false →
      (∀ word state, m.RunsThrough word state → word.length < m.states.length) ∧
      ∀ word : List String, m.states.length ≤ word.length → m.accepts word = .ok false) ∧
    ∀ cycle, m.graph.findCycle = some cycle → ∀ v ∈ cycle, ∀ j ∈ m.graph.reachable v,
      ∀ state ∈ m.accepting, m.vertex state = .ok j →
        ∀ bound, ∃ word : List String, bound < word.length ∧ m.accepts word = .ok true := by
  obtain ⟨first, hfirst, hinitial, hreach⟩ := exists_walk_of_mem hbuilt hvalid
  refine ⟨?_, ?_⟩
  · intro hcycle
    refine ⟨?_, ?_⟩
    · intro word state hruns
      obtain ⟨start, hstart, hwalk⟩ := (runsThrough_iff_walk hbuilt hvalid).mp hruns
      obtain rfl := Option.some.inj (hinitial.symm.trans hstart)
      exact hwalk.length_lt_of_hasCycle hbuilt hcycle hfirst
    · intro word hlong
      apply accepts_eq_false hbuilt hvalid
      intro haccepts
      obtain ⟨start, last, hstart, -, hwalk⟩ := (accepts_iff_walk hbuilt hvalid word).mp haccepts
      obtain rfl := Option.some.inj (hinitial.symm.trans hstart)
      have hshort := hwalk.length_lt_of_hasCycle hbuilt hcycle hfirst
      omega
  · intro cycle hcycle v hv j hj state haccepting hvertex bound
    obtain ⟨word, hlong, hwalk⟩ := exists_long_walk hbuilt hcycle hv hj hvertex hreach bound
    exact ⟨word, hlong, (accepts_iff_walk hbuilt hvalid word).mpr
      ⟨first, state, hinitial, haccepting, hwalk⟩⟩

/-- Two states, of which the first can be left only. -/
def oneWay : Automaton String :=
  replay [.addState "p", .addState "q", .addSymbol "a", .addSymbol "b", .setInitial "p",
    .addAccepting "q", .addTransition "p" "a" "q"]

/-- The same two states, where one can stay in the first for any time. -/
def waiting : Automaton String :=
  replay [.addState "p", .addState "q", .addSymbol "a", .addSymbol "b", .setInitial "p",
    .addAccepting "q", .addTransition "p" "a" "q", .addTransition "p" "b" "p"]

/-- An automaton without a cycle, which rejects what is longer than its one move, and one with a
cycle, which accepts words of any length. -/
theorem length_of_hasCycle_waiting :
    (oneWay.Built ∧ oneWay.validate = .ok () ∧ oneWay.hasCycle = false ∧
      oneWay.accepts ["a"] = .ok true ∧
      ∀ word : List String, 2 ≤ word.length → oneWay.accepts word = .ok false) ∧
    waiting.Built ∧ waiting.validate = .ok () ∧ waiting.graph.findCycle = some [0] ∧
      ∀ bound, ∃ word : List String, bound < word.length ∧ waiting.accepts word = .ok true := by
  have hbuilt : oneWay.Built := ⟨_, rfl⟩
  have hvalid : oneWay.validate = .ok () := by decide
  have hcycle : oneWay.hasCycle = false := by decide
  have hbuilt' : waiting.Built := ⟨_, rfl⟩
  have hvalid' : waiting.validate = .ok () := by decide
  have hcycle' : waiting.graph.findCycle = some [0] := by decide
  obtain ⟨hshort, -⟩ := length_of_hasCycle hbuilt hvalid
  obtain ⟨-, hlong⟩ := length_of_hasCycle hbuilt' hvalid'
  refine ⟨⟨hbuilt, hvalid, hcycle, by decide, (hshort hcycle).2⟩, hbuilt', hvalid', hcycle', ?_⟩
  exact hlong [0] hcycle' 0 (by decide) 1 (by decide) "q" (by decide) (by decide)

end Automaton

end Kleene
