import Kleene.Proofs.Automaton.Export
import Kleene.Proofs.Automaton.Properties
import Kleene.Proofs.Automaton.Runs

/-!
# Three views of the moves of an automaton

The moves of an automaton can be looked at in three ways: its definition lists for each state and
each symbol the targets, `Automaton.nextState` goes along the first of them, and
`Automaton.nondeterministicState` looks for a state that offers a choice. All three read the matrix,
one by symbols, one until a symbol is met and one across all edges of a state.

For an automaton that is built up call by call and no move of which has the empty text as its
symbol, the three agree with each other and with the calls that add the moves; this is the main
statement, `transition_views`.
-/

set_option autoImplicit false

namespace Kleene

/-- What is listed under different keys is found under each of them. -/
theorem lookup_map_of_injOn {α κ β : Type} [BEq α] [LawfulBEq α] [BEq κ] [LawfulBEq κ]
    {names : List α} {key : α → κ} {value : α → β} {a : α}
    (h : ∀ b ∈ names, key b = key a → b = a) :
    (names.map (fun b => (key b, value b))).lookup (key a) =
      if a ∈ names then some (value a) else none := by
  induction names with
  | nil => rfl
  | cons b rest ih =>
    obtain ⟨hb, hrest⟩ := List.forall_mem_cons.mp h
    rw [List.map_cons, List.lookup_cons]
    cases hkey : key a == key b with
    | true =>
      obtain rfl := hb (eq_of_beq hkey).symm
      exact (if_pos List.mem_cons_self).symm
    | false =>
      have hne : a ≠ b := fun hsame => by simp [hsame] at hkey
      simp only [ih hrest, List.mem_cons, hne, false_or]

namespace Definition

/-- Whether the moves of a state as a definition lists them offer a choice: one of them reads
nothing, or a symbol has several targets. -/
def offersChoice (moves : List (String × List String)) : Bool :=
  moves.any (fun move => move.1 == "" || 2 ≤ move.2.length)

end Definition

namespace Automaton

/-- Which state is found is decided by what the states have a choice by. -/
theorem nondeterministicState_eq_find? {m : Automaton String} {choice : String → Bool}
    (h : ∀ p state, m.states[p]? = some state → m.hasChoice p = choice state) :
    m.nondeterministicState = m.states.find? choice := by
  have hplace : ∀ (p : Nat) (hp : p < m.states.length), m.hasChoice p = choice m.states[p] :=
    fun p hp => h p _ (List.getElem?_eq_getElem hp)
  rw [nondeterministicState]
  cases hfind : (List.range m.graph.size).find? m.hasChoice with
  | none =>
    have hnone := List.find?_range_eq_none.mp hfind
    refine (List.find?_eq_none.mpr (fun state hstate => ?_)).symm
    obtain ⟨p, hp, rfl⟩ := List.mem_iff_getElem.mp hstate
    rw [← hplace p hp]
    simpa using hnone p hp
  | some p =>
    obtain ⟨hchoice, hp, hbefore⟩ := List.find?_range_eq_some.mp hfind
    have hlt : p < m.states.length := List.mem_range.mp hp
    have hstate : m.graph.vertices[p]? = some m.states[p] := List.getElem?_eq_getElem hlt
    show m.graph.vertices[p]?.bind Name.orNone = _
    rw [hstate]
    refine (List.find?_eq_some_iff_getElem.mpr ⟨hplace p hlt ▸ hchoice, p, hlt, rfl, ?_⟩).symm
    intro q hq
    rw [← hplace q (by omega)]
    exact hbefore q hq

end Automaton

namespace Listing

variable {l : Listing String}

/-- A symbol is on no edge if no move has it. -/
theorem not_mem_labels_iff (h : l.Closed) {symbol : String} :
    (∀ p q, symbol ∉ l.automaton.graph.labels p q) ↔ ∀ move ∈ l.moves, move.symbol ≠ symbol := by
  constructor
  · rintro hlabels ⟨source, _, target⟩ hmove rfl
    have hsource := getElem?_idxOf_states (h.source _ hmove)
    have htarget := getElem?_idxOf_states (h.target _ hmove)
    exact hlabels _ _ (mem_labels_automaton_iff.mpr ⟨source, target, hsource, htarget, hmove⟩)
  · intro hmoves p q hlabel
    obtain ⟨source, target, -, -, hmove⟩ := mem_labels_automaton hlabel
    exact hmoves _ hmove rfl

/-- The targets from a state by a symbol are those of its moves. -/
theorem mem_targets (h : l.Closed) {source symbol target : String} :
    target ∈ l.targets source symbol ↔ ⟨source, symbol, target⟩ ∈ l.moves := by
  rw [targets, List.mem_filter, List.mem_eraseDups, List.contains_iff_mem, mem_labels]
  exact and_iff_right_of_imp (h.target _)

/-- No target is listed twice. -/
theorem nodup_targets (l : Listing String) (source symbol : String) :
    (l.targets source symbol).Nodup :=
  (nodup_eraseDups l.states).filter _

/-- The targets stand in the order of their vertices. -/
theorem pairwise_targets (l : Listing String) (source symbol : String) :
    (l.targets source symbol).Pairwise (fun target target' => ∃ v w,
      l.automaton.vertex? target = some v ∧ l.automaton.vertex? target' = some w ∧ v < w) := by
  have hvertex : ∀ (p : Nat) (hp : p < l.states.eraseDups.length),
      l.automaton.vertex? l.states.eraseDups[p] = some p := by
    intro p hp
    rw [Automaton.vertex?_eq, states_automaton, if_pos (List.getElem_mem hp),
      (nodup_eraseDups l.states).idxOf_getElem]
  refine List.Pairwise.filter _ (List.pairwise_iff_getElem.mpr (fun p q hp hq hlt => ?_))
  exact ⟨p, q, hvertex p hp, hvertex q hq, hlt⟩

/-- A symbol is met going through the edges from a state if it has targets. -/
theorem mem_symbolsFrom_iff_targets (h : l.Closed) {source symbol : String} :
    symbol ∈ l.symbolsFrom source ↔ l.targets source symbol ≠ [] := by
  rw [mem_symbolsFrom, Ne, List.eq_nil_iff_forall_not_mem, not_forall_not]
  simp only [mem_targets h]
  exact exists_congr (fun target => and_iff_right_of_imp (h.target _))

/-- Different symbols have different keys in the definition. -/
theorem nodup_keys_exported (hblank : ∀ move ∈ l.moves, move.symbol ≠ "") (source : String) :
    ((l.symbolsFrom source).map Automaton.exportLabel).Nodup := by
  have hne : ∀ symbol ∈ l.symbolsFrom source, symbol ≠ "" := by
    intro symbol hsymbol
    obtain ⟨target, -, hmove⟩ := mem_symbolsFrom.mp hsymbol
    exact hblank _ hmove
  exact (nodup_eraseDups _).map_on (fun symbol hsymbol other hother =>
    (exportLabel_inj (hne symbol hsymbol) (hne other hother)).mp)

/-- In the definition the targets of a symbol stand under its key, if there are any. -/
theorem lookup_exportLabel (h : l.Closed) (hblank : ∀ move ∈ l.moves, move.symbol ≠ "")
    (source : String) {symbol : String} (hsymbol : symbol ≠ "") :
    ((l.symbolsFrom source).map (fun symbol =>
        (Automaton.exportLabel symbol, l.targets source symbol))).lookup
        (Automaton.exportLabel symbol) =
      if l.targets source symbol = [] then none else some (l.targets source symbol) := by
  rw [lookup_map_of_injOn]
  · simp only [mem_symbolsFrom_iff_targets h, Ne, ite_not]
  · intro other hother
    obtain ⟨target, -, hmove⟩ := mem_symbolsFrom.mp hother
    exact (exportLabel_inj (hblank _ hmove) hsymbol).mp

/-- The moves of a state offer a choice in the definition if the state has one. -/
theorem offersChoice_exported (h : l.Closed) (hblank : ∀ move ∈ l.moves, move.symbol ≠ "") {p : Nat}
    {source : String} (hp : l.states.eraseDups[p]? = some source) :
    Definition.offersChoice ((l.symbolsFrom source).map (fun symbol =>
      (Automaton.exportLabel symbol, l.targets source symbol))) = l.automaton.hasChoice p := by
  have hfew : Definition.offersChoice ((l.symbolsFrom source).map (fun symbol =>
        (Automaton.exportLabel symbol, l.targets source symbol))) = false ↔
      ∀ symbol ∈ l.symbolsFrom source, symbol ≠ Name.epsilon ∧
        (l.targets source symbol).length < 2 := by
    simp only [Definition.offersChoice, List.any_eq_false, List.forall_mem_map, Bool.or_eq_true,
      beq_iff_eq, decide_eq_true_eq, not_or, Nat.not_le]
    refine forall₂_congr (fun symbol hsymbol => and_congr_left' (not_congr ?_))
    obtain ⟨target, -, hmove⟩ := mem_symbolsFrom.mp hsymbol
    exact exportLabel_inj (b := Name.epsilon) (hblank _ hmove) (by decide)
  have hread : ∀ {symbol target}, ⟨source, symbol, target⟩ ∈ l.moves →
      symbol ∈ l.symbolsFrom source :=
    fun {symbol target} hmove => mem_symbolsFrom.mpr ⟨target, h.target _ hmove, hmove⟩
  have hsame : Definition.offersChoice ((l.symbolsFrom source).map (fun symbol =>
        (Automaton.exportLabel symbol, l.targets source symbol))) = false ↔
      l.automaton.hasChoice p = false := by
    rw [hfew, h.hasChoice_eq_false_iff hp]
    simp only [length_lt_two_iff_of_nodup (nodup_targets l source _), mem_targets h]
    constructor
    · intro hall
      refine ⟨fun target hmove => (hall _ (hread hmove)).1 rfl, ?_⟩
      intro symbol target target' hmove hmove'
      exact (hall symbol (hread hmove)).2 target hmove target' hmove'
    · rintro ⟨hreads, hunique⟩ symbol hsymbol
      obtain ⟨target, -, hmove⟩ := mem_symbolsFrom.mp hsymbol
      refine ⟨?_, fun target hmove target' hmove' => hunique symbol target target' hmove hmove'⟩
      rintro rfl
      exact hreads target hmove
  rwa [← Bool.not_eq_true, ← Bool.not_eq_true, not_iff_not, ← Bool.eq_iff_iff] at hsame

/-- The first state in the definition whose moves offer a choice is the one that is found. -/
theorem nondeterministicState_automaton (h : l.Closed)
    (hblank : ∀ move ∈ l.moves, move.symbol ≠ "") :
    l.automaton.nondeterministicState = (l.exported.transitions.find? (fun entry =>
      Definition.offersChoice entry.2)).map Prod.fst := by
  rw [Automaton.nondeterministicState_eq_find? (fun p state hp =>
    (offersChoice_exported h hblank hp).symm), exported, List.find?_map, Option.map_map]
  exact (congrFun Option.map_id _).symm

end Listing

namespace Automaton

/-- For every automaton that a history of calls leads to and that has no move with the empty text as
its symbol the views of its moves agree.

For each state and symbol the definition lists, in the order of the vertices and each once, the
targets of the moves that were added and not refused; moves that read nothing stand under the empty
text, and a symbol without targets is left out. The next state is the first of these targets, and
there is none if there are none. And the state with a choice that is found is the first one whose
moves in the definition offer a choice, so that none is found exactly if no move reads nothing and
each state and symbol have one target at most. -/
theorem transition_views {history : List (Operation String)} {m : Automaton String}
    (hm : m = replay history) (hlabels : ∀ p q, "" ∉ m.graph.labels p q) :
    (m.definition.transitions.map Prod.fst = m.states ∧ m.states.Nodup ∧
      ∀ state ∈ m.states, ∃ moves, m.definition.transitions.lookup state = some moves ∧
        (moves.map Prod.fst).Nodup ∧ ∀ symbol, symbol ≠ "" → ∃ targets,
          moves.lookup (exportLabel symbol) = (if targets = [] then none else some targets) ∧
          targets.Nodup ∧
          targets.Pairwise (fun target target' => ∃ v w, m.vertex? target = some v ∧
            m.vertex? target' = some w ∧ v < w) ∧
          (∀ target, target ∈ targets ↔
            .addTransition state symbol target ∈ Listing.succeeded history) ∧
          m.nextState state symbol = .ok targets.head?) ∧
    m.nondeterministicState = (m.definition.transitions.find? (fun entry =>
      Definition.offersChoice entry.2)).map Prod.fst ∧
    (m.nondeterministicState = none ↔ ∀ entry ∈ m.definition.transitions,
      Definition.offersChoice entry.2 = false) ∧
    (m.nondeterministicState = none ↔
      (∀ state target, .addTransition state Name.epsilon target ∉ Listing.succeeded history) ∧
      ∀ state symbol target target',
        .addTransition state symbol target ∈ Listing.succeeded history →
        .addTransition state symbol target' ∈ Listing.succeeded history → target = target') := by
  obtain ⟨hreplay, hclosed⟩ := replay_eq history
  have hmoves : ∀ {source symbol target}, ⟨source, symbol, target⟩ ∈
      (Listing.ofCalls (Listing.succeeded history)).moves ↔
        .addTransition source symbol target ∈ Listing.succeeded history :=
    Listing.mem_moves_ofCalls
  generalize Listing.ofCalls (Listing.succeeded history) = l at hreplay hclosed hmoves
  subst hm
  rw [hreplay] at hlabels ⊢
  have hblank := (Listing.not_mem_labels_iff hclosed).mp hlabels
  have hchoice := Listing.nondeterministicState_automaton hclosed hblank
  rw [Listing.definition_automaton hblank]
  refine ⟨⟨?_, nodup_eraseDups _, ?_⟩, hchoice, ?_, ?_⟩
  · simp [Listing.exported, Function.comp_def]
  · intro state hstate
    have hlisted : state ∈ l.states := List.mem_eraseDups.mp hstate
    refine ⟨_, List.lookup_graph _ hstate, ?_, fun symbol hsymbol => ⟨l.targets state symbol, ?_⟩⟩
    · rw [List.map_map]
      exact Listing.nodup_keys_exported hblank state
    refine ⟨Listing.lookup_exportLabel hclosed hblank state hsymbol, l.nodup_targets state symbol,
      l.pairwise_targets state symbol, ?_, ?_⟩
    · exact fun target => (Listing.mem_targets hclosed).trans hmoves
    · rw [Listing.nextState_automaton hlisted, Listing.targets, List.head?_filter]
  · rw [hchoice, Option.map_eq_none_iff, List.find?_eq_none]
    simp only [Bool.not_eq_true]
  · rw [nondeterministicState_eq_none_iff, Listing.noChoice_automaton hclosed]
    constructor
    · rintro ⟨hreads, hunique⟩
      refine ⟨fun state target hcall => hreads _ (hmoves.mpr hcall) rfl, ?_⟩
      intro state symbol target target' hcall hcall'
      exact hunique _ (hmoves.mpr hcall) _ (hmoves.mpr hcall') rfl rfl
    · rintro ⟨hreads, hunique⟩
      refine ⟨?_, ?_⟩
      · rintro ⟨source, symbol, target⟩ hmove rfl
        exact hreads source target (hmoves.mp hmove)
      · rintro ⟨source, symbol, target⟩ hmove ⟨_, _, target'⟩ hmove' rfl rfl
        exact hunique source symbol target target' (hmoves.mp hmove) (hmoves.mp hmove')

/-- The calls for a vending machine that takes a coin for one thing or another and may give it back
unasked. One call names a state that it does not have. -/
def vendingCalls : List (Operation String) :=
  [.addState "idle", .addState "paid", .addState "served", .addSymbol "coin", .addSymbol "press",
    .addTransition "idle" "coin" "served", .addTransition "idle" "coin" "paid",
    .addTransition "idle" "coin" "lost", .addTransition "paid" "press" "served",
    .addTransition "paid" "eps" "idle", .addTransition "idle" "coin" "paid"]

/-- A state with a choice of targets, of which the first one is the next state. -/
theorem transition_views_vendingCalls :
    (∀ p q, "" ∉ (replay vendingCalls).graph.labels p q) ∧
      (replay vendingCalls).nondeterministicState = some "idle" ∧
      ∃ targets : List String, "paid" ∈ targets ∧ "served" ∈ targets ∧ "lost" ∉ targets ∧
        (replay vendingCalls).nextState "idle" "coin" = .ok targets.head? := by
  obtain ⟨hreplay, hclosed⟩ := replay_eq vendingCalls
  have hlabels : ∀ p q, "" ∉ (replay vendingCalls).graph.labels p q := by
    rw [hreplay]
    exact (Listing.not_mem_labels_iff hclosed).mpr (by decide)
  obtain ⟨⟨-, -, hstates⟩, hfound, -⟩ := transition_views rfl hlabels
  obtain ⟨moves, -, -, hsymbols⟩ := hstates "idle" (by decide)
  obtain ⟨targets, -, -, -, hcalls, hnext⟩ := hsymbols "coin" (by decide)
  refine ⟨hlabels, hfound.trans (by decide), targets, (hcalls "paid").mpr (by decide),
    (hcalls "served").mpr (by decide), ?_, hnext⟩
  exact fun hlost => absurd ((hcalls "lost").mp hlost) (by decide)

end Automaton

end Kleene
