import Kleene.Proofs.Automaton.Properties
import Kleene.Proofs.Automaton.Runs
import Kleene.Proofs.Expression.Pattern

/-!
# The order of registration

Two histories of calls may name the same parts of an automaton in different orders and with
different repetitions. The graphs, the labels on their edges and the derived expressions then
differ. What they say does not: the main statement is `answers_same_of_sameParts`. Each answer is
first characterised by the moves, which are the same, and carried over from there; only the run,
which has to be the same move by move, is compared step by step (`SameParts.runFrom_eq`).
-/

set_option autoImplicit false

namespace Kleene

/-- The failure without the state that it names: which of several states with a choice is found
depends on the order. -/
def Failure.kind : Failure String → Failure String
  | .nondeterministic _ => .nondeterministic none
  | failure => failure

namespace Listing

/-- Two listings name the same parts, in whatever order and with whatever repetitions. -/
structure SameParts (l l' : Listing String) : Prop where
  states : ∀ state, state ∈ l.states ↔ state ∈ l'.states
  symbols : ∀ symbol, symbol ∈ l.symbols ↔ symbol ∈ l'.symbols
  initial : l.initial = l'.initial
  accepting : ∀ state, state ∈ l.accepting ↔ state ∈ l'.accepting
  moves : ∀ move, move ∈ l.moves ↔ move ∈ l'.moves

namespace SameParts

variable {l l' : Listing String}

/-- Two listings have the same parts whichever comes first. -/
theorem symm (h : l.SameParts l') : l'.SameParts l where
  states := fun state => (h.states state).symm
  symbols := fun symbol => (h.symbols symbol).symm
  initial := h.initial.symm
  accepting := fun state => (h.accepting state).symm
  moves := fun move => (h.moves move).symm

/-- What can be read on the way between two states does not depend on the order of the parts. -/
theorem walk (h : l.SameParts l') (hl : l.Closed) (hl' : l'.Closed) {first last : String}
    {word : List String} (hwalk : l.automaton.Walk first word last) :
    l'.automaton.Walk first word last := by
  induction hwalk with
  | nil state => exact .nil state
  | cons move _ ih =>
    have hmove := (hasMove_automaton hl).mp move
    exact .cons ((hasMove_automaton hl').mpr ((h.moves _).mp hmove)) ih

section Properties

/-- Whether all states can be reached does not depend on the order of the parts. -/
theorem isJoint (h : l.SameParts l') (hl : l.Closed) (hl' : l'.Closed)
    (hjoint : l.automaton.isJoint = true) : l'.automaton.isJoint = true := by
  obtain ⟨first, hfirst, hall⟩ := (isJoint_automaton hl).mp hjoint
  refine (isJoint_automaton hl').mpr ⟨first, h.initial ▸ hfirst, ?_⟩
  intro state hstate
  obtain ⟨word, hwalk⟩ := hall state ((h.states state).mpr hstate)
  exact ⟨word, h.walk hl hl' hwalk⟩

/-- Whether there is a choice anywhere does not depend on the order of the parts. -/
theorem noChoice (h : l.SameParts l') (hl : l.Closed) (hl' : l'.Closed)
    (hchoice : l.automaton.NoChoice) : l'.automaton.NoChoice := by
  obtain ⟨hreads, hunique⟩ := (noChoice_automaton hl).mp hchoice
  refine (noChoice_automaton hl').mpr ⟨?_, ?_⟩
  · intro move hmove
    exact hreads move ((h.moves move).mpr hmove)
  · intro move hmove move' hmove'
    exact hunique move ((h.moves move).mpr hmove) move' ((h.moves move').mpr hmove')

/-- Whether there is a cycle does not depend on the order of the parts. -/
theorem hasCycle (h : l.SameParts l') (hl : l.Closed) (hl' : l'.Closed)
    (hcycle : l.automaton.hasCycle = true) : l'.automaton.hasCycle = true := by
  obtain ⟨state, word, hne, hwalk⟩ := (hasCycle_automaton hl).mp hcycle
  exact (hasCycle_automaton hl').mpr ⟨state, word, hne, h.walk hl hl' hwalk⟩

/-- The properties of an automaton do not depend on the order of its parts. -/
theorem properties_eq (h : l.SameParts l') (hl : l.Closed) (hl' : l'.Closed) :
    l.automaton.properties = l'.automaton.properties := by
  have hinitial : l.automaton.hasInitialState = l'.automaton.hasInitialState :=
    congrArg Option.isSome h.initial
  have hjoint : l.automaton.isJoint = l'.automaton.isJoint :=
    Bool.eq_iff_iff.mpr ⟨h.isJoint hl hl', h.symm.isJoint hl' hl⟩
  have hdeterministic : l.automaton.isDeterministic = l'.automaton.isDeterministic := by
    rw [Bool.eq_iff_iff, Automaton.isDeterministic_iff, Automaton.isDeterministic_iff]
    exact ⟨h.noChoice hl hl', h.symm.noChoice hl' hl⟩
  have hcycle : l.automaton.hasCycle = l'.automaton.hasCycle :=
    Bool.eq_iff_iff.mpr ⟨h.hasCycle hl hl', h.symm.hasCycle hl' hl⟩
  rw [Automaton.properties, hinitial, hjoint, hdeterministic, hcycle]
  rfl

end Properties

/-! ## Runs -/

/-- In either order the run goes on from a state in the same way. -/
theorem nextState_eq (h : l.SameParts l') (hl : l.Closed) (hl' : l'.Closed)
    (hchoice : l.automaton.NoChoice) {state : String} (hstate : state ∈ l.states)
    (symbol : String) :
    l.automaton.nextState state symbol = l'.automaton.nextState state symbol := by
  have hstate' := (h.states state).mp hstate
  obtain ⟨next?, hnext, hmoves⟩ := hl.exists_nextState hchoice hstate symbol
  obtain ⟨next?', hnext', hmoves'⟩ :=
    hl'.exists_nextState (h.noChoice hl hl' hchoice) hstate' symbol
  -- both are the one target that a listed move names, if there is one
  have hsame : next? = next?' := by
    apply Option.ext
    intro next
    rw [hmoves, hmoves', h.moves]
  rw [hnext, hnext', hsame]

/-- Without a choice, the run from a state by a word does not depend on the order of the parts. -/
theorem runFrom_eq (h : l.SameParts l') (hl : l.Closed) (hl' : l'.Closed)
    (hchoice : l.automaton.NoChoice) {state : String} (hstate : state ∈ l.states) (position : Nat)
    (word : List String) :
    l.automaton.runFrom state position word = l'.automaton.runFrom state position word := by
  induction word generalizing state position with
  | nil =>
    have haccepting : l.automaton.accepting.contains state =
        l'.automaton.accepting.contains state := by
      rw [Bool.eq_iff_iff, List.contains_iff_mem, List.contains_iff_mem]
      exact h.accepting state
    rw [Automaton.runFrom, Automaton.runFrom, haccepting]
  | cons symbol word ih =>
    have halphabet : l.automaton.alphabet.contains symbol =
        l'.automaton.alphabet.contains symbol := by
      rw [Bool.eq_iff_iff, List.contains_iff_mem, List.contains_iff_mem, alphabet_automaton,
        alphabet_automaton, List.mem_eraseDups, List.mem_eraseDups]
      exact h.symbols symbol
    rw [Automaton.runFrom, Automaton.runFrom, halphabet,
      ← h.nextState_eq hl hl' hchoice hstate symbol]
    obtain ⟨next?, hnext, hmoves⟩ := hl.exists_nextState hchoice hstate symbol
    rw [hnext]
    cases next? with
    | none => rfl
    | some next =>
      have hlisted : next ∈ l.states := hl.target _ ((hmoves next).mp rfl)
      show (if _ then _ else (l.automaton.runFrom next (position + 1) word >>= _)) = _
      rw [ih hlisted]
      rfl

/-- Valid automata with the same parts come by a word to the same outcome. -/
theorem simulate_eq (h : l.SameParts l') (hl : l.Closed) (hl' : l'.Closed)
    (hvalid : l.automaton.validate = .ok ()) (hvalid' : l'.automaton.validate = .ok ())
    (word : List String) :
    ∃ outcome, l.automaton.simulate word = .ok outcome ∧
      l'.automaton.simulate word = .ok outcome := by
  obtain ⟨hinitial, -, hchoice⟩ := (Automaton.validate_eq_ok_iff _).mp hvalid
  obtain ⟨first, hfirst⟩ := Option.isSome_iff_exists.mp hinitial
  have hfirst' : l'.automaton.initial = some first := h.initial.symm.trans hfirst
  have hlisted : first ∈ l.states := hl.initial first hfirst
  obtain ⟨path, last, rest, -, -, -, hrun⟩ := hl.exists_trace hchoice hlisted 0 word
  refine ⟨l.automaton.halt path last (0 + path.length) rest, ?_, ?_⟩
  · rw [Automaton.simulate, hvalid, hfirst]
    exact hrun
  · rw [Automaton.simulate, hvalid', hfirst']
    exact (h.runFrom_eq hl hl' hchoice hlisted 0 word).symm.trans hrun

end SameParts

end Listing

namespace Automaton

/-- The properties decide which condition for a conversion fails first. -/
theorem validate_mapError_kind {m m' : Automaton String} (h : m.properties = m'.properties) :
    m.validate.mapError Failure.kind = m'.validate.mapError Failure.kind := by
  obtain ⟨hinitial, hjoint, hdeterministic, -⟩ := Properties.mk.inj h
  rw [isDeterministic, isDeterministic] at hdeterministic
  rw [validate, validate, hinitial, hjoint]
  split
  · rfl
  · split
    · rfl
    · cases hstate : m.nondeterministicState <;> cases hstate' : m'.nondeterministicState <;>
        simp_all [Except.mapError, Failure.kind]

/-- To be valid is to have no failure of any kind. -/
theorem validate_eq_ok_iff_mapError (m : Automaton String) :
    m.validate = .ok () ↔ m.validate.mapError Failure.kind = .ok () := by
  cases m.validate <;> simp [Except.mapError]

/-- The pattern of a valid automaton can be read, and it matches the encodings of the words that the
automaton accepts. -/
theorem exists_read_expression {m : Automaton String} (hbuilt : m.Built)
    (hvalid : m.validate = .ok ()) :
    ∃ text r, m.expression .pattern = .ok text ∧ Pattern.read? text.toList = some r ∧
      ∀ t : String, r.accepts t.toList = true ↔
        ∃ word, m.accepts word = .ok true ∧ encodeWord word = t := by
  obtain ⟨r, hread, hr⟩ := Pattern.read?_written (Pattern.lexicon.whole m.pathTrees)
  have hread' : Pattern.read? (Builder.spellWhole .pattern m.pathTrees).toList = some r := by
    rw [← Pattern.lexicon.written_whole]
    exact hread
  refine ⟨_, r, expression_eq_spellWhole hbuilt hvalid .pattern, hread', ?_⟩
  intro t
  rw [Regex.accepts_iff, hr, Pattern.lexicon.mem_language_whole rfl rfl
    (fun _ _ a _ => Pattern.prod_language_atomOf (Pattern.encodeSymbol a)),
    exists_mem_pathTrees_iff hbuilt hvalid]
  simp only [← Pattern.toList_encodeWord, String.toList_inj]

/-- Two histories in which every call succeeds and which name the same parts, in whatever order and
with whatever repetitions, lead to automata that have the same properties and fail the same check or
none. If they fail none, their runs are the same on every word, and their patterns match the same
texts. -/
theorem answers_same_of_sameParts {history history' : List (Operation String)}
    {m m' : Automaton String}
    (hm : history.foldlM Operation.apply empty = .ok m)
    (hm' : history'.foldlM Operation.apply empty = .ok m')
    (hsame : (Listing.ofCalls history).SameParts (Listing.ofCalls history')) :
    m.properties = m'.properties ∧
    m.validate.mapError Failure.kind = m'.validate.mapError Failure.kind ∧
    (m.validate = .ok () →
      (∀ word, ∃ outcome, m.simulate word = .ok outcome ∧ m'.simulate word = .ok outcome) ∧
      ∃ text text' r r', m.expression .pattern = .ok text ∧ m'.expression .pattern = .ok text' ∧
        Pattern.read? text.toList = some r ∧ Pattern.read? text'.toList = some r' ∧
        ∀ t : String, r.accepts t.toList = r'.accepts t.toList) := by
  obtain ⟨rfl, hclosed, hbuilt⟩ := automaton_of_foldlM hm
  obtain ⟨rfl, hclosed', hbuilt'⟩ := automaton_of_foldlM hm'
  have hproperties := hsame.properties_eq hclosed hclosed'
  have hkind : (Listing.ofCalls history).automaton.validate.mapError Failure.kind =
      (Listing.ofCalls history').automaton.validate.mapError Failure.kind :=
    validate_mapError_kind hproperties
  refine ⟨hproperties, hkind, ?_⟩
  intro hvalid
  have hvalid' : (Listing.ofCalls history').automaton.validate = .ok () := by
    rw [validate_eq_ok_iff_mapError, ← hkind]
    exact (validate_eq_ok_iff_mapError _).mp hvalid
  have hruns := hsame.simulate_eq hclosed hclosed' hvalid hvalid'
  have haccepts : ∀ word, (Listing.ofCalls history).automaton.accepts word =
      (Listing.ofCalls history').automaton.accepts word := by
    intro word
    obtain ⟨outcome, hrun, hrun'⟩ := hruns word
    rw [accepts, accepts, hrun, hrun']
  obtain ⟨text, r, htext, hread, hr⟩ := exists_read_expression hbuilt hvalid
  obtain ⟨text', r', htext', hread', hr'⟩ := exists_read_expression hbuilt' hvalid'
  refine ⟨hruns, text, text', r, r', htext, htext', hread, hread', ?_⟩
  intro t
  rw [Bool.eq_iff_iff, hr, hr']
  simp only [haccepts]

/-- A way there and back, built up forwards. -/
def forwards : List (Operation String) :=
  [.addState "p", .addState "q", .addSymbol "a", .addSymbol "b", .setInitial "p",
    .addAccepting "p", .addAccepting "q", .addTransition "p" "a" "q", .addTransition "p" "b" "q",
    .addTransition "q" "a" "p"]

/-- The same way, built up backwards and with repetitions. -/
def backwards : List (Operation String) :=
  [.addSymbol "b", .addState "q", .addAccepting "q", .addState "p", .setInitial "q",
    .addTransition "p" "b" "q", .addSymbol "a", .addTransition "q" "a" "p", .addState "q",
    .addTransition "p" "a" "q", .addTransition "p" "b" "q", .addAccepting "p", .setInitial "p",
    .addAccepting "q"]

/-- The calls of one automaton in two orders: the automata and their expressions differ, and what
they accept does not. -/
theorem answers_same_of_backwards :
    (Listing.ofCalls forwards).SameParts (Listing.ofCalls backwards) ∧
    ∃ m m', forwards.foldlM Operation.apply empty = .ok m ∧
      backwards.foldlM Operation.apply empty = .ok m' ∧ m ≠ m' ∧ m.validate = .ok () ∧
      m.properties = m'.properties ∧ m.simulate ["b", "a"] = m'.simulate ["b", "a"] ∧
      ∃ text text' r r', m.expression .pattern = .ok text ∧ m'.expression .pattern = .ok text' ∧
        text ≠ text' ∧ Pattern.read? text.toList = some r ∧ Pattern.read? text'.toList = some r' ∧
        r.accepts (encodeWord ["b", "a"]).toList = r'.accepts (encodeWord ["b", "a"]).toList := by
  have hmem : ∀ {α : Type} {items items' : List α}, items ⊆ items' → items' ⊆ items →
      ∀ a, a ∈ items ↔ a ∈ items' := fun h h' a => ⟨fun ha => h ha, fun ha => h' ha⟩
  have hsame : (Listing.ofCalls forwards).SameParts (Listing.ofCalls backwards) :=
    { states := hmem (by decide) (by decide)
      symbols := hmem (by decide) (by decide)
      initial := rfl
      accepting := hmem (by decide) (by decide)
      moves := hmem (by decide) (by decide) }
  have hm : forwards.foldlM Operation.apply empty = .ok (replay forwards) := by decide
  have hm' : backwards.foldlM Operation.apply empty = .ok (replay backwards) := by decide
  have hvalid : (replay forwards).validate = .ok () := by decide
  have hne : (replay forwards).expression .pattern ≠ (replay backwards).expression .pattern := by
    decide
  obtain ⟨hproperties, -, hanswers⟩ := answers_same_of_sameParts hm hm' hsame
  obtain ⟨hruns, text, text', r, r', htext, htext', hread, hread', haccepts⟩ := hanswers hvalid
  obtain ⟨outcome, hrun, hrun'⟩ := hruns ["b", "a"]
  have htexts : text ≠ text' := by
    rintro rfl
    exact hne (htext.trans htext'.symm)
  exact ⟨hsame, _, _, hm, hm', by decide, hvalid, hproperties, hrun.trans hrun'.symm, text, text',
    r, r', htext, htext', htexts, hread, hread', haccepts _⟩

end Automaton

end Kleene
