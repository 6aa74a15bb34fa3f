import Kleene.Proofs.Automaton.Runs

/-!
# What a simulation reports

`Automaton.IsLongestWalk` says that moves from the initial state read as long a prefix of a word as
any walk does (`longest`) and that no other moves read this prefix (`unique`). The simulation of a
word by a valid automaton reports these moves, whether the word is accepted or not, and if it is
rejected, `Automaton.IsRejection` says what the report tells about the place where they end
(`simulate_longestWalk`).
-/

set_option autoImplicit false

namespace Kleene

namespace Automaton

/-- The moves lead from the initial state along the longest prefix of the word that a walk reads,
and no other moves from there read it. -/
structure IsLongestWalk (m : Automaton String) (word : List String) (first : String)
    (path : List (Move String)) (last : String) : Prop where
  initial : m.initial = some first
  trace : m.Trace first path last
  length_le : path.length ≤ word.length
  reads : path.map Move.symbol = word.take path.length
  longest : ∀ length ≤ word.length,
    (∃ state, m.Walk first (word.take length) state) ↔ length ≤ path.length
  unique : ∀ path' last', m.Trace first path' last' →
    path'.map Move.symbol = word.take path.length → path' = path ∧ last' = last

/-- The reason and the position tell where in the word the moves end and why they do not go on. -/
structure IsRejection (m : Automaton String) (word : List String) (path : List (Move String))
    (last : String) (reason : Reason String) (position : Nat) : Prop where
  position : position = path.length
  notInAlphabet : ∀ symbol, reason = .notInAlphabet symbol ↔
    word[path.length]? = some symbol ∧ symbol ∉ m.alphabet
  noMove : ∀ symbol state, reason = .noMove symbol state ↔
    word[path.length]? = some symbol ∧ symbol ∈ m.alphabet ∧ state = last
  notAccepting : ∀ state, reason = .notAccepting state ↔
    path.length = word.length ∧ state = last
  message : reason.message = match word[path.length]? with
    | none => "Final state '" ++ last ++ "' is not an accepting state"
    | some symbol =>
      if symbol ∈ m.alphabet then
        "No transition defined for symbol '" ++ symbol ++ "' from state '" ++ last ++ "'"
      else "Symbol '" ++ symbol ++ "' not in alphabet"

variable {m : Automaton String} {first last : String} {path : List (Move String)}
  {word rest : List String}

/-- A run that is stuck is stuck by every part of the word that is left. -/
theorem Stuck.take (h : m.Stuck last rest) (length : Nat) : m.Stuck last (rest.take length) := by
  cases length with
  | zero => nofun
  | succ length =>
    cases rest with
    | nil => exact h
    | cons symbol rest => exact h

/-- A run that is stuck on a symbol stays stuck whatever comes after it. -/
theorem Stuck.append (h : m.Stuck last rest) (hrest : rest ≠ []) (more : List String) :
    m.Stuck last (rest ++ more) := by
  cases rest with
  | nil => exact absurd rfl hrest
  | cons symbol rest => exact h

/-- What comes after the symbol that a run stops at changes nothing. -/
theorem halt_append (position : Nat) (hrest : rest ≠ []) (more : List String) :
    m.halt path last position (rest ++ more) = m.halt path last position rest := by
  cases rest with
  | nil => exact absurd rfl hrest
  | cons symbol rest => rfl

/-- Of the prefixes of a word, those are read on walks that are no longer than the moves up to where
no move goes on with the word. -/
theorem Trace.exists_walk_take_iff (hbuilt : m.Built) (hvalid : m.validate = .ok ())
    (htrace : m.Trace first path last) (hstuck : m.Stuck last rest) {length : Nat}
    (hlength : length ≤ path.length + rest.length) :
    (∃ state, m.Walk first ((path.map Move.symbol ++ rest).take length) state) ↔
      length ≤ path.length := by
  constructor
  · rintro ⟨state, hwalk⟩
    refine Nat.le_of_not_lt (fun hlt => ?_)
    -- a longer prefix would go on where the moves are stuck
    have htake : (path.map Move.symbol ++ rest).take length =
        path.map Move.symbol ++ rest.take (length - path.length) := by
      rw [List.take_append, List.length_map, List.take_of_length_le (by simp; omega)]
    rw [htake, htrace.walk_iff hbuilt hvalid (hstuck.take _), List.take_eq_nil_iff] at hwalk
    rcases hwalk.1 with hzero | rfl
    · omega
    · rw [List.length_nil] at hlength
      omega
  · intro hle
    have htake : (path.map Move.symbol ++ rest).take length =
        (path.map Move.symbol).take length :=
      List.take_append_of_le_length (by simpa using hle)
    have hwalk := htrace.walk
    rw [← List.take_append_drop length (path.map Move.symbol), walk_append_iff] at hwalk
    obtain ⟨state, hbegin, -⟩ := hwalk
    exact ⟨state, htake ▸ hbegin⟩

/-- Moves from the initial state up to where no move goes on with the word are the longest walk. -/
theorem Trace.isLongestWalk (hbuilt : m.Built) (hvalid : m.validate = .ok ())
    (hinitial : m.initial = some first) (htrace : m.Trace first path last)
    (hstuck : m.Stuck last rest) :
    m.IsLongestWalk (path.map Move.symbol ++ rest) first path last := by
  have hreads : (path.map Move.symbol ++ rest).take path.length = path.map Move.symbol :=
    List.take_left' (List.length_map _)
  refine ⟨hinitial, htrace, by simp, hreads.symm, ?_, ?_⟩
  · intro length hlength
    rw [List.length_append, List.length_map] at hlength
    exact htrace.exists_walk_take_iff hbuilt hvalid hstuck hlength
  · intro path' last' htrace' hreads'
    have hchoice := ((validate_eq_ok_iff _).mp hvalid).2.2
    obtain ⟨l, hclosed, rfl⟩ := hbuilt.exists_listing
    exact hclosed.trace_unique hchoice htrace htrace' (hreads'.trans hreads)

/-- No two walks are both the longest. -/
theorem IsLongestWalk.eq {first' last' : String} {path' : List (Move String)}
    (h : m.IsLongestWalk word first path last) (h' : m.IsLongestWalk word first' path' last') :
    path' = path ∧ last' = last := by
  obtain rfl := Option.some.inj (h.initial.symm.trans h'.initial)
  have hle : path'.length ≤ path.length :=
    (h.longest _ h'.length_le).mp ((h'.longest _ h'.length_le).mpr (Nat.le_refl _))
  have hge : path.length ≤ path'.length :=
    (h'.longest _ h.length_le).mp ((h.longest _ h.length_le).mpr (Nat.le_refl _))
  have hlength := Nat.le_antisymm hle hge
  exact h.unique path' last' h'.trace (hlength ▸ h'.reads)

/-- The simulation makes the moves of the longest walk and halts with what is left of the word. -/
theorem IsLongestWalk.simulate_eq (hbuilt : m.Built) (hvalid : m.validate = .ok ())
    (h : m.IsLongestWalk word first path last) :
    m.simulate word = .ok (m.halt path last path.length (word.drop path.length)) := by
  obtain ⟨first', path', last', rest, hinitial, htrace, rfl, hstuck, hrun⟩ :=
    exists_simulate hbuilt hvalid word
  obtain ⟨rfl, rfl⟩ := h.eq (htrace.isLongestWalk hbuilt hvalid hinitial hstuck)
  rw [hrun, List.drop_left' (List.length_map _)]

/-- The longest walk stays the longest if more follows on a word that it does not read through. -/
theorem IsLongestWalk.append (hbuilt : m.Built) (hvalid : m.validate = .ok ())
    (h : m.IsLongestWalk word first path last) (hlength : path.length < word.length)
    (more : List String) : m.IsLongestWalk (word ++ more) first path last := by
  obtain ⟨first', path', last', rest, hinitial, htrace, rfl, hstuck, -⟩ :=
    exists_simulate hbuilt hvalid word
  have hlongest := htrace.isLongestWalk hbuilt hvalid hinitial hstuck
  obtain rfl := Option.some.inj (h.initial.symm.trans hinitial)
  obtain ⟨rfl, rfl⟩ := h.eq hlongest
  have hrest : rest ≠ [] := by
    rintro rfl
    simp at hlength
  rw [List.append_assoc]
  exact htrace.isLongestWalk hbuilt hvalid hinitial (hstuck.append hrest more)

/-- A rejection by `halt` tells where in the word the path ends and why it does not go on. -/
theorem isRejection_of_halt {path' : List (Move String)} {reason : Reason String} {position : Nat}
    (hlength : path.length ≤ word.length)
    (h : m.halt path last path.length (word.drop path.length) = .rejected path' reason position) :
    m.IsRejection word path last reason position := by
  have hnext : word[path.length]? = (word.drop path.length).head? := List.head?_drop.symm
  cases hrest : word.drop path.length with
  | nil =>
    have hend : path.length = word.length :=
      Nat.le_antisymm hlength (List.drop_eq_nil_iff.mp hrest)
    rw [hrest, List.head?_nil] at hnext
    rw [hrest, halt] at h
    split at h
    · cases h
    · obtain ⟨-, rfl, rfl⟩ := Outcome.rejected.inj h
      refine ⟨rfl, ?_, ?_, ?_, ?_⟩
      · simp [hnext]
      · simp [hnext]
      · simp [hend, eq_comm]
      · rw [hnext]
        rfl
  | cons symbol rest =>
    have hend : path.length ≠ word.length := by
      intro hend
      rw [List.drop_eq_nil_iff.mpr (Nat.le_of_eq hend.symm)] at hrest
      cases hrest
    rw [hrest, List.head?_cons] at hnext
    rw [hrest, halt] at h
    obtain ⟨-, rfl, rfl⟩ := Outcome.rejected.inj h
    simp only [List.contains_iff_mem]
    refine ⟨rfl, ?_, ?_, ?_, ?_⟩
    · grind
    · grind
    · grind
    · rw [hnext]
      show _ = if symbol ∈ m.alphabet then _ else _
      split <;> rfl

/-- The simulation of any word by a valid automaton reports the moves of the longest walk that the
word allows. The word is accepted exactly if the walk reads it through and ends in an accepting
state; a rejection tells where the walk ends and why it does not go on, and if that is before the
end of the word, whatever follows on the word is rejected with the same report. -/
theorem simulate_longestWalk (hbuilt : m.Built) (hvalid : m.validate = .ok ())
    (word : List String) :
    ∃ first path last outcome, m.IsLongestWalk word first path last ∧
      m.simulate word = .ok outcome ∧ m.accepts word = .ok outcome.isAccepted ∧
      outcome.path = path ∧
      (outcome.isAccepted = true ↔ path.length = word.length ∧ last ∈ m.accepting) ∧
      (∀ path' reason position, outcome = .rejected path' reason position →
        m.IsRejection word path last reason position ∧
          (position < word.length → ∀ more, m.simulate (word ++ more) = .ok outcome)) := by
  obtain ⟨first, path, last, rest, hinitial, htrace, hword, hstuck, -⟩ :=
    exists_simulate hbuilt hvalid word
  have hlongest : m.IsLongestWalk word first path last :=
    hword ▸ htrace.isLongestWalk hbuilt hvalid hinitial hstuck
  have hsimulate := hlongest.simulate_eq hbuilt hvalid
  refine ⟨first, path, last, _, hlongest, hsimulate, ?_, path_halt _ _, ?_, ?_⟩
  · rw [accepts, hsimulate]
    rfl
  · rw [isAccepted_halt, List.drop_eq_nil_iff]
    exact and_congr_left' ⟨Nat.le_antisymm hlongest.length_le, fun h => Nat.le_of_eq h.symm⟩
  · intro path' reason position houtcome
    have hrejection := isRejection_of_halt hlongest.length_le houtcome
    refine ⟨hrejection, fun hposition more => ?_⟩
    rw [hrejection.position] at hposition
    have hrest : word.drop path.length ≠ [] := by
      rw [Ne, List.drop_eq_nil_iff]
      omega
    rw [(hlongest.append hbuilt hvalid hposition more).simulate_eq hbuilt hvalid,
      List.drop_append_of_le_length hlongest.length_le, halt_append _ hrest]

/-- A door that is shut and open in turn, and that cannot be forced. -/
def door : Automaton String :=
  replay [.addState "shut", .addState "ajar", .addSymbol "push", .addSymbol "pull",
    .addSymbol "force", .setInitial "shut", .addAccepting "ajar",
    .addTransition "shut" "push" "ajar", .addTransition "ajar" "pull" "shut"]

/-- A run that stops at a symbol without a move, with every word that begins the same. -/
theorem simulate_longestWalk_door :
    door.Built ∧ door.validate = .ok () ∧ door.accepts ["push"] = .ok true ∧
      (∀ more, door.simulate (["push", "force", "pull"] ++ more) =
        .ok (.rejected [⟨"shut", "push", "ajar"⟩] (.noMove "force" "ajar") 1)) ∧
      (∃ state, door.Walk "shut" ["push"] state) ∧
      ¬ ∃ state, door.Walk "shut" ["push", "force"] state := by
  have hbuilt : door.Built := ⟨_, rfl⟩
  have hvalid : door.validate = .ok () := by decide
  have hrun : door.simulate ["push", "force", "pull"] =
      .ok (.rejected [⟨"shut", "push", "ajar"⟩] (.noMove "force" "ajar") 1) := by decide
  obtain ⟨first, path, last, outcome, hwalk, hsimulate, -, hpath, -, hrejected⟩ :=
    simulate_longestWalk hbuilt hvalid ["push", "force", "pull"]
  obtain rfl := Except.ok.inj (hsimulate.symm.trans hrun)
  obtain rfl : "shut" = first := Option.some.inj hwalk.initial
  obtain rfl : [⟨"shut", "push", "ajar"⟩] = path := hpath
  obtain ⟨-, hmore⟩ := hrejected _ _ _ rfl
  exact ⟨hbuilt, hvalid, by decide, hmore (by decide),
    (hwalk.longest 1 (by decide)).mpr (by decide), mt (hwalk.longest 2 (by decide)).mp (by decide)⟩

end Automaton

end Kleene
