import Kleene.Proofs.Automaton.Matrix

/-!
# Runs of a valid automaton

The run of a valid automaton makes the moves of the one walk that the word allows, as far as there
is one, and then halts (`exists_simulate`). So a word is run through to its end, and up to a state,
exactly if a walk that reads it leads from the initial state to that state
(`runsThrough_iff_walk`), and it is accepted if that state is accepting (`exists_accepts`).
-/

set_option autoImplicit false

namespace Kleene

namespace Automaton

/-- How a run ends that made the moves of a path to a state and cannot read any more of the word. -/
def halt (m : Automaton String) (path : List (Move String)) (last : String) (position : Nat) :
    List String → Outcome String
  | [] =>
    if m.accepting.contains last then .accepted path
    else .rejected path (.notAccepting last) position
  | symbol :: _ =>
    .rejected path
      (if m.alphabet.contains symbol then .noMove symbol last else .notInAlphabet symbol) position

/-- No move from the state goes on with the word. -/
def Stuck (m : Automaton String) (state : String) (word : List String) : Prop :=
  ∀ symbol ∈ word.head?, ∀ next, ¬ m.HasMove state symbol next

/-- The simulation of the word makes a move for each of its symbols and ends in the state. -/
def RunsThrough (m : Automaton String) (word : List String) (state : String) : Prop :=
  ∃ first outcome, m.initial = some first ∧ m.simulate word = .ok outcome ∧
    outcome.path.map Move.symbol = word ∧
    (outcome.path.getLast?.map Move.target).getD first = state

variable {m : Automaton String} {first last : String} {path : List (Move String)}

/-- A run that ends has the path that led to its end. -/
theorem path_halt (position : Nat) (rest : List String) :
    (m.halt path last position rest).path = path := by
  cases rest with
  | nil => by_cases haccepting : last ∈ m.accepting <;> simp [halt, haccepting, Outcome.path]
  | cons symbol rest => rfl

/-- A move put before a run that ends is put before its path. -/
theorem cons_halt (move : Move String) (position : Nat) (rest : List String) :
    (m.halt path last position rest).cons move = m.halt (move :: path) last position rest := by
  cases rest with
  | nil => by_cases haccepting : last ∈ m.accepting <;> simp [halt, haccepting, Outcome.cons]
  | cons symbol rest => rfl

/-- A run accepts exactly if nothing is left to read and it ends in an accepting state. -/
theorem isAccepted_halt (position : Nat) (rest : List String) :
    (m.halt path last position rest).isAccepted = true ↔ rest = [] ∧ last ∈ m.accepting := by
  cases rest with
  | nil => by_cases haccepting : last ∈ m.accepting <;> simp [halt, haccepting, Outcome.isAccepted]
  | cons symbol rest => simp [halt, Outcome.isAccepted]

/-- A trace leads to the target of its last move, or to where it began if it has none. -/
theorem Trace.getLast_target (h : m.Trace first path last) :
    (path.getLast?.map Move.target).getD first = last := by
  induction h with
  | nil state => rfl
  | @cons source symbol target last path move rest ih =>
    rw [List.getLast?_cons, Option.map_some, Option.getD_some]
    cases hpath : path.getLast? with
    | none => simpa [hpath] using ih
    | some final => simpa [hpath] using ih

end Automaton

namespace Listing

variable {l : Listing String}

/-- From a listed state a symbol leads to the first state that one of its moves leads to. -/
theorem nextState_automaton {state : String} (hstate : state ∈ l.states) (symbol : String) :
    l.automaton.nextState state symbol =
      .ok (l.states.eraseDups.find? (fun target => (l.labels state target).contains symbol)) := by
  have hsource := getElem?_idxOf_states hstate
  have hvertex : l.automaton.vertex state = .ok (l.states.eraseDups.idxOf state) := by
    rw [vertex_automaton, (stateFault?_eq_none l state).mpr hstate]
  have hstates : l.states.eraseDups.zipIdx.map Prod.fst = l.states.eraseDups :=
    List.zipIdx_map_fst 0 _
  -- an entry of the row has an edge with the symbol if the symbol is in the entry
  have hentry : ∀ entry : String × Nat,
      (LabeledGraph.edgeOfEntry (l.states.eraseDups.idxOf state) entry.2
        (l.labels state entry.1)).any (fun edge => edge.labels.contains symbol) =
      (l.labels state entry.1).contains symbol := by
    intro entry
    rw [LabeledGraph.edgeOfEntry]
    cases l.labels state entry.1 <;> rfl
  rw [Automaton.nextState, hvertex]
  refine congrArg Except.ok ?_
  conv_rhs => rw [← hstates, List.find?_map]
  rw [edgesFrom_automaton hsource, List.find?_filterMap]
  simp only [hentry]
  show _ = (l.states.eraseDups.zipIdx.find? (fun entry =>
    (l.labels state entry.1).contains symbol)).map Prod.fst
  cases hfind : l.states.eraseDups.zipIdx.find? (fun entry =>
      (l.labels state entry.1).contains symbol) with
  | none => rfl
  | some entry =>
    obtain ⟨target, q⟩ := entry
    have htarget : l.automaton.graph.vertices[q]? = some target :=
      List.mem_zipIdx_iff_getElem?.mp (List.mem_of_find?_eq_some hfind)
    have hsymbol := List.find?_some hfind
    cases hlabels : l.labels state target with
    | nil => simp [hlabels] at hsymbol
    | cons label rest => simp [LabeledGraph.edgeOfEntry, hlabels, htarget]

/-- Where the run goes next from a listed state: along the one move that reads the symbol, if there
is one. -/
theorem Closed.exists_nextState (h : l.Closed)
    (hchoice : l.automaton.NoChoice) {state : String} (hstate : state ∈ l.states)
    (symbol : String) :
    ∃ next?, l.automaton.nextState state symbol = .ok next? ∧
      ∀ next, next? = some next ↔ ⟨state, symbol, next⟩ ∈ l.moves := by
  refine ⟨_, nextState_automaton hstate symbol, fun next => ?_⟩
  constructor
  · intro hfind
    have hlabel := List.find?_some hfind
    exact mem_labels.mp (List.contains_iff_mem.mp hlabel)
  · intro hmove
    cases hfind : l.states.eraseDups.find? (fun target => (l.labels state target).contains symbol) with
    | none =>
      have hnone := List.find?_eq_none.mp hfind next (List.mem_eraseDups.mpr (h.target _ hmove))
      exact absurd (List.contains_iff_mem.mpr (mem_labels.mpr hmove)) hnone
    | some target =>
      have hlabel := List.find?_some hfind
      have hmove' := mem_labels.mp (List.contains_iff_mem.mp hlabel)
      rw [(h.move_unique hchoice hmove' hmove).2]

/-- What a run from a listed state does with one more symbol: it makes the move that reads the
symbol, or it stops where it is if there is none. -/
theorem Closed.runFrom_cons (h : l.Closed) (hchoice : l.automaton.NoChoice)
    {state : String} (hstate : state ∈ l.states) (position : Nat) (symbol : String)
    (word : List String) :
    (∃ next, l.automaton.HasMove state symbol next ∧
      l.automaton.runFrom state position (symbol :: word) =
        (l.automaton.runFrom next (position + 1) word).map (Outcome.cons ⟨state, symbol, next⟩)) ∨
    ((∀ next, ¬ l.automaton.HasMove state symbol next) ∧
      l.automaton.runFrom state position (symbol :: word) = .ok (.rejected []
        (if l.automaton.alphabet.contains symbol then .noMove symbol state
          else .notInAlphabet symbol) position)) := by
  obtain ⟨next?, hnext, hmoves⟩ := h.exists_nextState hchoice hstate symbol
  simp only [hasMove_automaton h, ← hmoves, Automaton.runFrom, hnext]
  by_cases hsymbol : symbol ∈ l.symbols
  · have halphabet : l.automaton.alphabet.contains symbol = true :=
      List.contains_iff_mem.mpr (List.mem_eraseDups.mpr hsymbol)
    rw [halphabet]
    cases next? with
    | none => exact .inr ⟨nofun, rfl⟩
    | some next =>
      refine .inl ⟨next, rfl, ?_⟩
      show (l.automaton.runFrom next (position + 1) word >>= _) = _
      cases l.automaton.runFrom next (position + 1) word <;> rfl
  · have halphabet : l.automaton.alphabet.contains symbol = false := by
      rw [← Bool.not_eq_true, List.contains_iff_mem]
      exact mt List.mem_eraseDups.mp hsymbol
    rw [halphabet]
    refine .inr ⟨?_, rfl⟩
    -- a move with this symbol would read nothing
    intro next hnext?
    have hmove := (hmoves next).mp hnext?
    have hepsilon := (h.move_unique hchoice hmove hmove).1
    exact hsymbol ((h.symbol _ hmove).resolve_left hepsilon)

/-- The run from a listed state makes the moves of a walk that reads the word up to where no move
goes on, and halts there. The induction is on the word: each symbol is one move, or the run stops.
-/
theorem Closed.exists_trace (h : l.Closed) (hchoice : l.automaton.NoChoice) {state : String}
    (hstate : state ∈ l.states) (position : Nat) (word : List String) :
    ∃ path last rest, l.automaton.Trace state path last ∧
      word = path.map Move.symbol ++ rest ∧ l.automaton.Stuck last rest ∧
      l.automaton.runFrom state position word =
        .ok (l.automaton.halt path last (position + path.length) rest) := by
  induction word generalizing state position with
  | nil =>
    refine ⟨[], state, [], .nil state, rfl, nofun, ?_⟩
    unfold Automaton.runFrom Automaton.halt
    split <;> rfl
  | cons symbol word ih =>
    rcases h.runFrom_cons hchoice hstate position symbol word with
      ⟨next, hmove, hrun⟩ | ⟨hnone, hrun⟩
    · have hnext := h.target _ ((hasMove_automaton h).mp hmove)
      obtain ⟨path, last, rest, htrace, hword, hstuck, hrest⟩ := ih hnext (position + 1)
      refine ⟨_ :: path, last, rest, .cons hmove htrace, ?_, hstuck, ?_⟩
      · rw [hword]
        rfl
      · have hplace : position + 1 + path.length = position + (path.length + 1) := by omega
        rw [hrun, hrest, Except.map, Automaton.cons_halt, hplace, List.length_cons]
    · refine ⟨[], state, symbol :: word, .nil state, rfl, ?_, hrun⟩
      intro _ hsymbol
      obtain rfl := Option.some.inj hsymbol
      exact hnone

end Listing

namespace Automaton

variable {m : Automaton String}

/-- The run of a valid automaton makes the moves of a walk from its initial state that reads the
word up to where no move goes on, and halts there. -/
theorem exists_simulate (hbuilt : m.Built) (hvalid : m.validate = .ok ()) (word : List String) :
    ∃ first path last rest, m.initial = some first ∧ m.Trace first path last ∧
      word = path.map Move.symbol ++ rest ∧ m.Stuck last rest ∧
      m.simulate word = .ok (m.halt path last path.length rest) := by
  obtain ⟨l, hclosed, rfl⟩ := hbuilt.exists_listing
  obtain ⟨hinitial, -, hchoice⟩ := (validate_eq_ok_iff _).mp hvalid
  obtain ⟨first, hfirst⟩ := Option.isSome_iff_exists.mp hinitial
  have hlisted : first ∈ l.states := hclosed.initial first hfirst
  obtain ⟨path, last, rest, htrace, hword, hstuck, hrun⟩ :=
    hclosed.exists_trace hchoice hlisted 0 word
  refine ⟨first, path, last, rest, hfirst, htrace, hword, hstuck, ?_⟩
  rw [Nat.zero_add] at hrun
  unfold simulate
  rw [hvalid, hfirst]
  exact hrun

/-- A walk that reads the whole word ends where the run halts, and then nothing is left to read. -/
theorem Trace.walk_iff (hbuilt : m.Built) (hvalid : m.validate = .ok ()) {first last state : String}
    {path : List (Move String)} {rest : List String} (htrace : m.Trace first path last)
    (hstuck : m.Stuck last rest) :
    m.Walk first (path.map Move.symbol ++ rest) state ↔ rest = [] ∧ last = state := by
  obtain ⟨l, hclosed, rfl⟩ := hbuilt.exists_listing
  have hchoice := ((validate_eq_ok_iff _).mp hvalid).2.2
  rw [walk_append_iff]
  constructor
  · rintro ⟨middle, hbegin, hrest⟩
    obtain rfl := hclosed.walk_unique hchoice htrace.walk hbegin
    cases rest with
    | nil => exact ⟨rfl, walk_nil_iff.mp hrest⟩
    | cons symbol rest =>
      obtain ⟨next, hmove, -⟩ := walk_cons_iff.mp hrest
      exact absurd hmove (hstuck symbol rfl next)
  · rintro ⟨rfl, rfl⟩
    exact ⟨last, htrace.walk, .nil last⟩

/-- In a valid automaton, a run by a word ends in a state exactly if the word can be read on the way
there from the initial state. -/
theorem runsThrough_iff_walk (hbuilt : m.Built) (hvalid : m.validate = .ok ())
    {word : List String} {state : String} :
    m.RunsThrough word state ↔ ∃ first, m.initial = some first ∧ m.Walk first word state := by
  obtain ⟨first, path, last, rest, hfirst, htrace, rfl, hstuck, hrun⟩ :=
    exists_simulate hbuilt hvalid word
  unfold RunsThrough
  simp only [hfirst, hrun, Option.some.injEq, Except.ok.injEq, exists_and_left, exists_eq_left',
    path_halt, htrace.getLast_target, htrace.walk_iff hbuilt hvalid hstuck,
    List.self_eq_append_right]

/-- A valid automaton answers for every word whether it accepts it, and it accepts the words that
are read on a walk from its initial state to an accepting one. -/
theorem exists_accepts (hbuilt : m.Built) (hvalid : m.validate = .ok ()) (word : List String) :
    ∃ accepted, m.accepts word = .ok accepted ∧
      (accepted = true ↔
        ∃ first last, m.initial = some first ∧ last ∈ m.accepting ∧ m.Walk first word last) := by
  obtain ⟨first, path, last, rest, hfirst, htrace, rfl, hstuck, hrun⟩ :=
    exists_simulate hbuilt hvalid word
  refine ⟨(m.halt path last path.length rest).isAccepted, ?_, ?_⟩
  · unfold accepts
    rw [hrun]
    rfl
  · rw [isAccepted_halt]
    constructor
    · rintro ⟨hrest, hlast⟩
      have hwalk := (htrace.walk_iff hbuilt hvalid hstuck).mpr ⟨hrest, rfl⟩
      exact ⟨first, last, hfirst, hlast, hwalk⟩
    · rintro ⟨start, final, hstart, hfinal, hwalk⟩
      obtain rfl := Option.some.inj (hfirst.symm.trans hstart)
      obtain ⟨hrest, rfl⟩ := (htrace.walk_iff hbuilt hvalid hstuck).mp hwalk
      exact ⟨hrest, hfinal⟩

/-- A valid automaton accepts a word exactly if it can be read from the initial state to an
accepting one. -/
theorem accepts_iff_walk (hbuilt : m.Built) (hvalid : m.validate = .ok ())
    (word : List String) :
    m.accepts word = .ok true ↔
      ∃ first last, m.initial = some first ∧ last ∈ m.accepting ∧ m.Walk first word last := by
  obtain ⟨accepted, haccepts, hwalk⟩ := exists_accepts hbuilt hvalid word
  rw [haccepts, Except.ok.injEq, hwalk]

/-- A word that a valid automaton does not accept is rejected, without a failure. -/
theorem accepts_eq_false (hbuilt : m.Built) (hvalid : m.validate = .ok ()) {word : List String}
    (h : m.accepts word ≠ .ok true) : m.accepts word = .ok false := by
  obtain ⟨accepted, haccepts, -⟩ := exists_accepts hbuilt hvalid word
  cases accepted with
  | false => exact haccepts
  | true => exact absurd haccepts h

end Automaton

end Kleene
