import Kleene.Expression.Equivalence
import Kleene.Proofs.Automaton.Registration
import Kleene.Proofs.Automaton.Walk

/-!
# States that say that there is none

Where a move leads from a state is answered by the name of a state, or by no name if there is no
such move. A dictionary may name a state by the very value that says "no name", and then the answer
is the same for a move to that state and for no move at all.

The main statement is `nextState_eq_none_iff_of_ofJson`: this is the only case in which the answer
deceives. An automaton without such a state answers with no name exactly if no edge carries the
symbol, and if it is valid it accepts every word that is read along edges from its initial state to
an accepting one. `null_target_rejected` is an automaton with such a state that rejects a word which
its own expression stands for.
-/

set_option autoImplicit false

namespace Kleene

namespace LabeledGraph

variable {V L : Type} [BEq L]

/-- The words that are read along edges from one vertex to another. -/
inductive Reads (g : LabeledGraph V L) : Nat → List L → Nat → Prop
  | nil (i : Nat) : Reads g i [] i
  | cons {i j : Nat} {edge : Edge L} {symbol : L} {word : List L} (leaves : edge ∈ g.edgesFrom i)
      (carries : edge.labels.contains symbol = true) (rest : Reads g edge.target word j) :
      Reads g i (symbol :: word) j

end LabeledGraph

namespace Automaton

variable {ν : Type} [Name ν]

/-! ## Runs -/

section Runs

variable {m : Automaton ν} {i j : Nat} {state symbol : ν} {edge : Edge ν}

/-- The next state is what the vertex at the end of the first edge with the symbol stands for; a
vertex may stand for none. -/
theorem nextState_of_vertex (hstate : m.vertex? state = some i) :
    m.nextState state symbol =
      .ok (((m.graph.edgesFrom i).find? (fun edge => edge.labels.contains symbol)).bind
        (fun edge => m.graph.vertices[edge.target]?.bind Name.orNone)) := by
  rw [nextState, vertex, hstate]
  rfl

/-- An edge leads to a state. -/
theorem Regular.exists_target (h : m.Regular) (hedge : edge ∈ m.graph.edgesFrom i) :
    ∃ target, m.graph.vertices[edge.target]? = some target :=
  ⟨_, List.getElem?_eq_getElem (h.inBounds i edge.target (List.mem_map_of_mem hedge))⟩

/-- The answer is that there is no next state if no edge carries the symbol, and else only if the
first edge that carries it leads to a state whose name says so. -/
theorem Regular.nextState_eq_none_iff (h : m.Regular) (hstate : m.vertex? state = some i) :
    m.nextState state symbol = .ok none ↔
      (∀ edge ∈ m.graph.edgesFrom i, edge.labels.contains symbol = false) ∨
        ∃ edge target, (m.graph.edgesFrom i).find? (fun edge => edge.labels.contains symbol) =
          some edge ∧ m.graph.vertices[edge.target]? = some target ∧ Name.isNull target = true := by
  rw [nextState_of_vertex hstate, Except.ok.injEq]
  cases hfind : (m.graph.edgesFrom i).find? (fun edge => edge.labels.contains symbol) with
  | none =>
    have hnone := List.find?_eq_none.mp hfind
    exact iff_of_true rfl (.inl (fun edge hedge => by simpa using hnone edge hedge))
  | some edge =>
    have hedge := List.mem_of_find?_eq_some hfind
    have hcarries := List.find?_some hfind
    obtain ⟨target, htarget⟩ := h.exists_target hedge
    have hsome : ¬ ∀ edge ∈ m.graph.edgesFrom i, edge.labels.contains symbol = false :=
      fun hnone => by simp [hnone edge hedge] at hcarries
    rw [or_iff_right hsome, Option.bind_some, htarget, Option.bind_some, Name.orNone]
    cases hnull : Name.isNull target <;> simp [htarget, hnull]

variable [EquivBEq ν]

/-- The vertex of a state holds a name of it, and is the only one that does. -/
theorem Regular.vertex?_eq_some_iff (h : m.Regular) :
    m.vertex? state = some i ↔
      ∃ known, m.graph.vertices[i]? = some known ∧ (known == state) = true := by
  rw [vertex?, LabeledGraph.findVertex, List.findIdx?_eq_some_iff_getElem]
  constructor
  · rintro ⟨hi, hname, -⟩
    exact ⟨_, List.getElem?_eq_getElem hi, hname⟩
  · rintro ⟨known, hknown, hname⟩
    obtain ⟨hi, rfl⟩ := List.getElem?_eq_some_iff.mp hknown
    refine ⟨hi, hname, fun p hp hsame => ?_⟩
    have hother := List.pairwise_iff_getElem.mp h.distinct p i (Nat.lt_trans hp hi) hi hp
    exact Bool.false_ne_true
      (hother.symm.trans (PartialEquivBEq.trans hsame (BEq.symm hname)))

/-- Without a choice the one edge that carries a symbol is the first that does. -/
theorem find?_edgesFrom_of_mem (hchoice : m.hasChoice i = false) (hedge : edge ∈ m.graph.edgesFrom i)
    (hcarries : edge.labels.contains symbol = true) :
    (m.graph.edgesFrom i).find? (fun edge => edge.labels.contains symbol) = some edge := by
  have hsome : ((m.graph.edgesFrom i).find? (fun edge => edge.labels.contains symbol)).isSome =
      true := List.find?_isSome.mpr ⟨edge, hedge, hcarries⟩
  obtain ⟨first, hfirst⟩ := Option.isSome_iff_exists.mp hsome
  rw [hfirst]
  obtain ⟨hcarries', before, after, hedges, hbefore⟩ := List.find?_eq_some_iff_append.mp hfirst
  rw [hasChoice, Bool.or_eq_false_iff, hasRepetition_eq_false_iff_pairwise, symbolsFrom, hedges,
    List.pairwise_flatMap, List.pairwise_append, List.pairwise_cons] at hchoice
  obtain ⟨-, -, -, ⟨hafter, -⟩, -⟩ := hchoice
  rw [hedges, List.mem_append, List.mem_cons] at hedge
  rcases hedge with hedge | rfl | hedge
  · have hnot := hbefore edge hedge
    rw [hcarries] at hnot
    cases hnot
  · rfl
  · obtain ⟨label, hlabel, hsame⟩ := List.contains_iff_exists_mem_beq.mp hcarries'
    obtain ⟨label', hlabel', hsame'⟩ := List.contains_iff_exists_mem_beq.mp hcarries
    have hother := hafter edge hedge label hlabel label' hlabel'
    rw [PartialEquivBEq.trans (BEq.symm hsame) hsame'] at hother
    cases hother

/-- Without a choice what an edge carries is in the alphabet. -/
theorem Regular.contains_alphabet (h : m.Regular) (hchoice : m.hasChoice i = false)
    (hedge : edge ∈ m.graph.edgesFrom i) (hcarries : edge.labels.contains symbol = true) :
    m.alphabet.contains symbol = true := by
  obtain ⟨label, hlabel, hsame⟩ := List.contains_iff_exists_mem_beq.mp hcarries
  obtain ⟨-, hlabels, -⟩ := LabeledGraph.mem_edgesFrom.mp hedge
  have hisLabel := h.isLabel i edge.target label (hlabels ▸ hlabel)
  rw [Automaton.isLabel, Bool.or_eq_true] at hisLabel
  rcases hisLabel with hepsilon | hknown
  · -- a move that reads nothing would be a choice
    have hsilent : (m.symbolsFrom i).contains Name.epsilon = true :=
      List.contains_iff_exists_mem_beq.mpr
        ⟨label, List.mem_flatMap.mpr ⟨edge, hedge, hlabel⟩, BEq.symm hepsilon⟩
    rw [hasChoice, hsilent] at hchoice
    cases hchoice
  · obtain ⟨known, hmem, hsame'⟩ := List.contains_iff_exists_mem_beq.mp hknown
    exact List.contains_iff_exists_mem_beq.mpr ⟨known, hmem, PartialEquivBEq.trans hsame hsame'⟩

/-- If no state has a choice and none is named by no name, a run from a state follows the edges that
read the word. The induction is on the walk along these edges: the first of them is the one that the
run takes, and where it leads to the run goes on. -/
theorem Regular.exists_runFrom_accepted (h : m.Regular)
    (hchoice : ∀ i < m.graph.size, m.hasChoice i = false)
    (hnull : ∀ state ∈ m.states, Name.isNull state = false) {word : List ν}
    (hreads : m.graph.Reads i word j) (hstate : m.vertex? state = some i) {last : ν}
    (haccepting : last ∈ m.accepting) (hlast : m.vertex? last = some j) (position : Nat) :
    ∃ path, m.runFrom state position word = .ok (.accepted path) := by
  induction hreads generalizing state position with
  | nil i =>
    obtain ⟨known, hknown, hname⟩ := h.vertex?_eq_some_iff.mp hstate
    obtain ⟨_, hsame, hname'⟩ := h.vertex?_eq_some_iff.mp hlast
    obtain rfl := Option.some.inj (hknown.symm.trans hsame)
    have hcontains : m.accepting.contains state = true := List.contains_iff_exists_mem_beq.mpr
      ⟨last, haccepting, PartialEquivBEq.trans (BEq.symm hname) hname'⟩
    exact ⟨[], by rw [runFrom, if_pos hcontains]⟩
  | @cons i j edge symbol word leaves carries _ ih =>
    have hi : i < m.graph.size := vertex?_lt hstate
    obtain ⟨target, htarget⟩ := h.exists_target leaves
    have hnext : m.nextState state symbol = .ok (some target) := by
      rw [nextState_of_vertex hstate, find?_edgesFrom_of_mem (hchoice i hi) leaves carries,
        Option.bind_some, htarget, Option.bind_some, Name.orNone,
        hnull target (List.mem_of_getElem? htarget)]
      rfl
    obtain ⟨path, hrun⟩ := ih (h.vertex?_eq_some_iff.mpr ⟨target, htarget, BEq.rfl⟩) hlast
      (position + 1)
    refine ⟨⟨state, symbol, target⟩ :: path, ?_⟩
    rw [runFrom, h.contains_alphabet (hchoice i hi) leaves carries, hnext]
    show (m.runFrom target (position + 1) word >>= _) = _
    rw [hrun]
    rfl

end Runs

/-! ## Dictionaries -/

section Scalars

variable {m : Automaton Scalar}

/-- Of the JSON values only the null stands for none. -/
theorem isNull_scalar_iff {name : Scalar} : Name.isNull name = true ↔ name = .null := by
  cases name <;> simp [Name.isNull]

/-- Only the null equals the null. -/
theorem beq_null_iff {name : Scalar} : (name == Scalar.null) = true ↔ name = .null := by
  show (name.key == Scalar.Key.nothing) = true ↔ _
  rw [beq_iff_eq]
  cases name with
  | real value => cases hvalue : value.toInt? <;> simp [Scalar.key, hvalue]
  | null => simp [Scalar.key]
  | bool value => simp [Scalar.key]
  | int value => simp [Scalar.key]
  | text value => simp [Scalar.key]

/-- There is no vertex for the null exactly if no state stands for none. -/
theorem vertex?_null_eq_none_iff :
    m.vertex? .null = none ↔ ∀ state ∈ m.states, Name.isNull state = false := by
  rw [← Option.not_isSome_iff_eq_none, vertex?_isSome_iff]
  simp only [beq_null_iff, ← Bool.not_eq_true, isNull_scalar_iff, not_exists, not_and]

/-- For every dictionary that leads to an automaton, whatever scalars name its states and symbols:
the answer that there is no next state is given if no edge carries the symbol, and else only if the
first edge that carries it leads to the state that is named by no name.

If no state is named so, the answer is given exactly if no edge carries the symbol, and if the
automaton is valid it accepts every word that is read along edges from its initial state to an
accepting one. -/
theorem nextState_eq_none_iff_of_ofJson {json : Json} (hread : ofJson json = .ok m) :
    (∀ state i symbol, m.vertex? state = some i →
      (m.nextState state symbol = .ok none ↔
        (∀ edge ∈ m.graph.edgesFrom i, edge.labels.contains symbol = false) ∨
          ∃ edge, (m.graph.edgesFrom i).find? (fun edge => edge.labels.contains symbol) =
            some edge ∧ m.graph.vertices[edge.target]? = some .null)) ∧
    (m.vertex? .null = none →
      (∀ state i symbol, m.vertex? state = some i →
        (m.nextState state symbol = .ok none ↔
          ∀ edge ∈ m.graph.edgesFrom i, edge.labels.contains symbol = false)) ∧
      (m.validate = .ok () → ∃ first i, m.initial = some first ∧ m.vertex? first = some i ∧
        ∀ last ∈ m.accepting, ∃ j, m.vertex? last = some j ∧
          ∀ word, m.graph.Reads i word j → ∃ path, m.simulate word = .ok (.accepted path))) := by
  have hregular := kept_regular.ofJson json m hread
  have hregistered := kept_registered.ofJson json m hread
  have hnone : ∀ state i symbol, m.vertex? state = some i →
      (m.nextState state symbol = .ok none ↔
        (∀ edge ∈ m.graph.edgesFrom i, edge.labels.contains symbol = false) ∨
          ∃ edge, (m.graph.edgesFrom i).find? (fun edge => edge.labels.contains symbol) =
            some edge ∧ m.graph.vertices[edge.target]? = some .null) := by
    intro state i symbol hstate
    rw [hregular.nextState_eq_none_iff hstate]
    simp only [isNull_scalar_iff]
    refine or_congr_right (exists_congr (fun edge => ?_))
    constructor
    · rintro ⟨_, hfind, htarget, rfl⟩
      exact ⟨hfind, htarget⟩
    · rintro ⟨hfind, htarget⟩
      exact ⟨_, hfind, htarget, rfl⟩
  refine ⟨hnone, fun hnull => ?_⟩
  have hnamed := vertex?_null_eq_none_iff.mp hnull
  constructor
  · intro state i symbol hstate
    rw [hnone state i symbol hstate, or_iff_left]
    rintro ⟨edge, -, htarget⟩
    have hnull' := hnamed _ (List.mem_of_getElem? htarget)
    cases hnull'
  · intro hvalid
    obtain ⟨hinitial, -, hdeterministic⟩ := (validate_eq_ok_iff_nondeterministicState m).mp hvalid
    have hchoice := (nondeterministicState_eq_none_iff_of_isNull hnamed).mp hdeterministic
    obtain ⟨first, hfirst⟩ := Option.isSome_iff_exists.mp hinitial
    obtain ⟨i, hi⟩ := Option.isSome_iff_exists.mp (hregistered.initial first hfirst)
    refine ⟨first, i, hfirst, hi, fun last hlast => ?_⟩
    obtain ⟨j, hj⟩ := Option.isSome_iff_exists.mp (hregistered.accepting last hlast)
    refine ⟨j, hj, fun word hreads => ?_⟩
    obtain ⟨path, hrun⟩ := hregular.exists_runFrom_accepted hchoice hnamed hreads hi hlast hj 0
    refine ⟨path, ?_⟩
    rw [simulate, hvalid, hfirst]
    exact hrun

/-- The dictionary of an automaton with one move, from its initial state to its accepting one. -/
def arrow (target : Scalar) : Json :=
  .object
    [("states", .array [.text "q", .scalar target]), ("alphabet", .array [.text "a"]),
      ("transitions", .object [("q", .object [("a", .array [.scalar target])])]),
      ("startingState", .text "q"), ("acceptingStates", .array [.scalar target])]

/-- The automaton of `arrow`. -/
def arrowTo (target : Scalar) : Automaton Scalar where
  graph := { vertices := [.text "q", target], rows := [[[], [.text "a"]], [[], []]] }
  alphabet := [.text "a"]
  initial := some (.text "q")
  accepting := [target]

/-- The move leads to whatever state it was given. -/
theorem reads_arrowTo (target : Scalar) : (arrowTo target).graph.Reads 0 [.text "a"] 1 :=
  .cons (List.mem_singleton_self (⟨0, 1, [.text "a"]⟩ : Edge Scalar)) rfl (.nil 1)

/-- A move to a state that is a number is made, and the word of its symbol is accepted. -/
theorem nextState_eq_none_iff_of_ofJson_arrow :
    ofJson (arrow (.int 1)) = .ok (arrowTo (.int 1)) ∧ (arrowTo (.int 1)).vertex? .null = none ∧
      (arrowTo (.int 1)).validate = .ok () ∧
      ∃ path, (arrowTo (.int 1)).simulate [.text "a"] = .ok (.accepted path) := by
  have hread : ofJson (arrow (.int 1)) = .ok (arrowTo (.int 1)) := rfl
  have hnull : (arrowTo (.int 1)).vertex? .null = none := rfl
  have hvalid : (arrowTo (.int 1)).validate = .ok () := rfl
  obtain ⟨-, hruns⟩ := nextState_eq_none_iff_of_ofJson hread
  obtain ⟨first, i, hfirst, hi, haccepts⟩ := (hruns hnull).2 hvalid
  obtain ⟨j, hj, hwords⟩ := haccepts (.int 1) (List.mem_singleton_self _)
  obtain rfl : .text "q" = first := Option.some.inj hfirst
  obtain rfl : 0 = i := Option.some.inj hi
  obtain rfl : 1 = j := Option.some.inj hj
  exact ⟨hread, hnull, hvalid, hwords _ (reads_arrowTo _)⟩

/-- A dictionary may name a state by the value that says "no name". The move to that state is there,
but it is taken for none: the automaton passes validation and an edge leads from its initial state
to its accepting one, and still the word on this edge is rejected, which the expression of the
automaton stands for. -/
theorem null_target_rejected :
    ofJson (arrow .null) = .ok (arrowTo .null) ∧ (arrowTo .null).validate = .ok () ∧
      (arrowTo .null).initial = some (.text "q") ∧ (arrowTo .null).vertex? (.text "q") = some 0 ∧
      .null ∈ (arrowTo .null).accepting ∧ (arrowTo .null).vertex? .null = some 1 ∧
      (arrowTo .null).graph.Reads 0 [.text "a"] 1 ∧
      ¬((arrowTo .null).nextState (.text "q") (.text "a") = .ok none ↔
        ∀ edge ∈ (arrowTo .null).graph.edgesFrom 0, edge.labels.contains (.text "a") = false) ∧
      (arrowTo .null).accepts [.text "a"] = .ok false ∧
      (arrowTo .null).counterexample [[.text "a"]] = .ok (some [.text "a"]) :=
  ⟨rfl, rfl, rfl, rfl, List.mem_singleton_self _, rfl, reads_arrowTo _, by decide, rfl,
    by decide +kernel⟩

end Scalars

end Automaton

end Kleene
