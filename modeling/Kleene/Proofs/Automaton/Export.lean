import Kleene.Expression.Derivation
import Kleene.Proofs.Automaton.Document

/-!
# Export and import

`Listing.exported` is the definition of an automaton in closed form: for each state the symbols of
its moves in the order in which they are met along the matrix, and for each symbol the targets in
the order of the states. Import names the moves in this order, symbol by symbol, so the labels of an
edge may come out in another order; `Listing.regrouped` lists them so.

The main statement is `definition_round_trip`. It rests on `exported_regrouped`, the regrouped
automaton is exported in the same way, and on `Closed.automaton_regrouped`, without a choice
regrouping changes nothing.
-/

set_option autoImplicit false

namespace Kleene

namespace Definition

section Grouping

variable {β : Type}

/-- Pairs by key: the keys as they occur first, and under each the other halves in their order. -/
def grouped (pairs : List (String × β)) : List (String × List β) :=
  (pairs.map Prod.fst).eraseDups.map (fun key =>
    (key, (pairs.filter (fun pair => pair.1 == key)).map Prod.snd))

/-- An item joins the others under its key, or begins a group at the end if there is none under the
key yet. -/
theorem appendUnder_map {keys : List String} (h : keys.Nodup) (items : String → List β)
    (key : String) (item : β) :
    appendUnder key item (keys.map (fun k => (k, items k))) =
      if keys.contains key then
        keys.map (fun k => (k, if k == key then items k ++ [item] else items k))
      else keys.map (fun k => (k, items k)) ++ [(key, [item])] := by
  induction keys with
  | nil => rfl
  | cons k rest ih =>
    obtain ⟨hk, hrest⟩ := List.nodup_cons.mp h
    rw [List.map_cons, appendUnder]
    by_cases hkey : k = key
    · subst hkey
      have hothers : rest.map (fun k' => (k', if k' == k then items k' ++ [item] else items k')) =
          rest.map (fun k' => (k', items k')) := by
        apply List.map_congr_left
        intro k' hk'
        have hne : k' ≠ k := fun heq => hk (heq ▸ hk')
        simp [hne]
      rw [if_pos (beq_self_eq_true k), if_pos (by simp), List.map_cons, hothers]
      simp
    · have hne : key ≠ k := fun heq => hkey heq.symm
      rw [if_neg (by simpa using hkey), ih hrest]
      by_cases hmem : key ∈ rest
      · simp [hmem, hkey]
      · simp [hmem, hne]

/-- Items that join their groups one after the other are grouped by key in the end, keys and items
in the order of their first coming. -/
theorem foldl_appendUnder (pairs : List (String × β)) :
    pairs.foldl (fun groups pair => appendUnder pair.1 pair.2 groups) [] = grouped pairs := by
  induction pairs using List.reverseRecOn with
  | nil => rfl
  | append_singleton pairs pair ih =>
    obtain ⟨key, item⟩ := pair
    have hunder : ∀ k, ((pairs ++ [(key, item)]).filter (fun pair => pair.1 == k)).map Prod.snd =
        if k == key then (pairs.filter (fun pair => pair.1 == k)).map Prod.snd ++ [item]
        else (pairs.filter (fun pair => pair.1 == k)).map Prod.snd := by
      intro k
      by_cases hk : k = key
      · simp [hk]
      · have hne : key ≠ k := fun heq => hk heq.symm
        simp [hk, hne]
    rw [List.foldl_append, ih]
    show appendUnder key item (grouped pairs) = _
    rw [grouped, appendUnder_map (nodup_eraseDups _), grouped, List.map_append, List.map_singleton,
      eraseDups_append_singleton]
    simp only [hunder, List.contains_eq_mem, List.mem_eraseDups, decide_eq_true_eq]
    split
    · rfl
    · next hnew =>
      have hnone : pairs.filter (fun pair => pair.1 == key) = [] := by
        rw [List.filter_eq_nil_iff]
        rintro pair hpair hkey
        exact hnew (List.mem_map.mpr ⟨pair, hpair, by simpa using hkey⟩)
      have hothers : (pairs.map Prod.fst).eraseDups.map (fun k =>
            (k, if k == key then (pairs.filter (fun pair => pair.1 == k)).map Prod.snd ++ [item]
              else (pairs.filter (fun pair => pair.1 == k)).map Prod.snd)) =
          (pairs.map Prod.fst).eraseDups.map (fun k =>
            (k, (pairs.filter (fun pair => pair.1 == k)).map Prod.snd)) := by
        apply List.map_congr_left
        intro k hk
        have hne : k ≠ key := fun heq => hnew (heq ▸ List.mem_eraseDups.mp hk)
        simp [hne]
      rw [List.map_append, hothers]
      simp [hnone]

end Grouping

end Definition

/-! ## The definition of an automaton -/

namespace Listing

variable {l : Listing String}

/-- The symbols of the moves from a state, as they are met going through the edges. -/
def symbolsFrom (l : Listing String) (source : String) : List String :=
  (l.states.eraseDups.flatMap (l.labels source)).eraseDups

/-- The targets of the moves from a state on a symbol, in the order of the states. -/
def targets (l : Listing String) (source symbol : String) : List String :=
  l.states.eraseDups.filter (fun target => (l.labels source target).contains symbol)

/-- The same parts, with the moves from each state symbol by symbol and then target by target. -/
def regrouped (l : Listing String) : Listing String :=
  { l.matrix with
    moves := l.states.eraseDups.flatMap (fun source =>
      (l.symbolsFrom source).flatMap (fun symbol =>
        (l.targets source symbol).map (fun target => ⟨source, symbol, target⟩))) }

/-- The definition in which the moves stand symbol by symbol. -/
def exported (l : Listing String) : Definition String String where
  states := l.states.eraseDups
  alphabet := l.symbols.eraseDups
  transitions := l.states.eraseDups.map (fun source =>
    (source, (l.symbolsFrom source).map (fun symbol =>
      (Automaton.exportLabel symbol, l.targets source symbol))))
  startingState := l.initial
  acceptingStates := l.accepting

/-- The symbols of the moves from a state are the labels of its edges, edge by edge. -/
theorem map_symbol_movesFrom (l : Listing String) (source : String) :
    (l.movesFrom source).map Move.symbol = l.states.eraseDups.flatMap (l.labels source) := by
  rw [movesFrom, List.map_flatMap]
  simp [Function.comp_def]

/-- The targets of the moves from a state by a symbol, in the order of the states. -/
theorem map_target_movesFrom (l : Listing String) (source symbol : String) :
    ((l.movesFrom source).filter (fun move => move.symbol == symbol)).map Move.target =
      l.targets source symbol := by
  have hentry : ∀ target, (((l.labels source target).map (fun symbol =>
        (⟨source, symbol, target⟩ : Move String))).filter (fun move => move.symbol == symbol)).map
          Move.target = if (l.labels source target).contains symbol then [target] else [] := by
    intro target
    rw [List.filter_map, List.map_map]
    show ((l.labels source target).filter (fun a => a == symbol)).map (fun _ => target) = _
    rw [filter_beq_of_nodup (nodup_labels l source target)]
    split <;> rfl
  rw [movesFrom, List.filter_flatMap, List.map_flatMap, targets, ← flatMap_ite_singleton]
  exact List.flatMap_congr (fun target _ => hentry target)

/-- The symbols that a state has a group for are those of its moves to states. -/
theorem mem_symbolsFrom {source symbol : String} :
    symbol ∈ l.symbolsFrom source ↔ ∃ target ∈ l.states, ⟨source, symbol, target⟩ ∈ l.moves := by
  simp [symbolsFrom, mem_labels]

/-- Two labels that are not empty are exported alike only if they are the same. -/
theorem exportLabel_inj {a b : String} (ha : a ≠ "") (hb : b ≠ "") :
    Automaton.exportLabel a = Automaton.exportLabel b ↔ a = b := by
  refine ⟨fun h => ?_, fun h => h ▸ rfl⟩
  simp only [Automaton.exportLabel, beq_iff_eq] at h
  split at h
  · next haeps =>
    split at h
    · next hbeps => exact haeps.trans hbeps.symm
    · exact absurd h.symm hb
  · split at h
    · exact absurd h ha
    · exact h

/-- A label that is not empty is imported as it was before its export. -/
theorem importLabel_exportLabel {a : String} (ha : a ≠ "") :
    Automaton.importLabel (Automaton.exportLabel a) = a := by
  by_cases heps : a = Name.epsilon
  · subst heps
    rfl
  · have hblank : Name.isBlank a = false := by
      show a.isEmpty = false
      simpa using ha
    rw [Automaton.exportLabel, if_neg (by simpa using heps), Automaton.importLabel, hblank]
    rfl

/-- Exported one after the other, the moves from a state come together by their symbols. -/
theorem movesFrom_automaton {p : Nat} {source : String}
    (hp : l.states.eraseDups[p]? = some source) (hblank : ∀ move ∈ l.moves, move.symbol ≠ "") :
    l.automaton.movesFrom p = (l.symbolsFrom source).map (fun symbol =>
      (Automaton.exportLabel symbol, l.targets source symbol)) := by
  have hne : ∀ symbol ∈ (l.movesFrom source).map Move.symbol, symbol ≠ "" := by
    intro symbol hsymbol
    rw [map_symbol_movesFrom, List.mem_flatMap] at hsymbol
    obtain ⟨target, -, hlabel⟩ := hsymbol
    exact hblank _ (mem_labels.mp hlabel)
  have hpairs : l.automaton.movesFrom p = Definition.grouped ((l.movesFrom source).map
      (fun move => (Automaton.exportLabel move.symbol, move.target))) := by
    rw [← Definition.foldl_appendUnder, List.foldl_map, Automaton.movesFrom]
    simp only []
    rw [flatMap_edgesFrom_automaton hp (fun label target? => (Automaton.exportLabel label, target?)),
      List.foldl_map]
  have hkeys : ((l.movesFrom source).map (fun move => Automaton.exportLabel move.symbol)).eraseDups =
      (l.symbolsFrom source).map Automaton.exportLabel := by
    rw [symbolsFrom, ← map_symbol_movesFrom, ← eraseDups_map_of_injOn, List.map_map]
    · rfl
    · intro a ha b hb
      exact (exportLabel_inj (hne a ha) (hne b hb)).mp
  rw [hpairs, Definition.grouped, List.map_map]
  show List.map _ ((l.movesFrom source).map (fun move =>
    Automaton.exportLabel move.symbol)).eraseDups = _
  rw [hkeys, List.map_map]
  apply List.map_congr_left
  intro symbol hsymbol
  rw [← map_target_movesFrom]
  have hsame : (l.movesFrom source).filter (fun move =>
        Automaton.exportLabel move.symbol == Automaton.exportLabel symbol) =
      (l.movesFrom source).filter (fun move => move.symbol == symbol) := by
    apply List.filter_congr
    intro move hmove
    rw [symbolsFrom, ← map_symbol_movesFrom, List.mem_eraseDups] at hsymbol
    rw [Bool.eq_iff_iff, beq_iff_eq, beq_iff_eq]
    exact exportLabel_inj (hne _ (List.mem_map_of_mem hmove)) (hne _ hsymbol)
  simp only [Function.comp_apply, List.filter_map, List.map_map, ← hsame]
  rfl

/-- If no label is empty, the definition of the automaton is the exported listing. -/
theorem definition_automaton (hblank : ∀ move ∈ l.moves, move.symbol ≠ "") :
    l.automaton.definition = l.exported := by
  have hstates : l.states.eraseDups.zipIdx.map Prod.fst = l.states.eraseDups :=
    List.zipIdx_map_fst 0 _
  have htransitions : l.automaton.definition.transitions = l.exported.transitions := by
    show l.states.eraseDups.zipIdx.map _ = l.states.eraseDups.map _
    conv_rhs => rw [← hstates, List.map_map]
    apply List.map_congr_left
    rintro ⟨source, p⟩ hmem
    have hp : l.states.eraseDups[p]? = some source := List.mem_zipIdx_iff_getElem?.mp hmem
    exact congrArg (Prod.mk source) (movesFrom_automaton hp hblank)
  show Definition.mk _ _ l.automaton.definition.transitions _ _ = _
  rw [htransitions]
  rfl

/-! ## Moves symbol by symbol -/

/-- Regrouping leaves out and adds no move. -/
theorem mem_regrouped_moves (h : l.Closed) {move : Move String} :
    move ∈ l.regrouped.moves ↔ move ∈ l.moves := by
  obtain ⟨source, symbol, target⟩ := move
  simp only [regrouped, targets, List.mem_flatMap, List.mem_map, List.mem_filter,
    List.mem_eraseDups, mem_symbolsFrom, List.contains_iff_mem, mem_labels, Move.mk.injEq]
  constructor
  · rintro ⟨_, -, _, -, _, ⟨-, hmove⟩, rfl, rfl, rfl⟩
    exact hmove
  · intro hmove
    have htarget := h.target _ hmove
    exact ⟨source, h.source _ hmove, symbol, ⟨target, htarget, hmove⟩, target, ⟨htarget, hmove⟩,
      rfl, rfl, rfl⟩

/-- Regrouped, the labels of an edge stand in the order in which they are met from its source. -/
theorem labels_regrouped {source target : String} (hsource : source ∈ l.states)
    (htarget : target ∈ l.states) :
    l.regrouped.labels source target =
      (l.symbolsFrom source).filter (fun symbol => (l.labels source target).contains symbol) := by
  have hnodup := nodup_eraseDups l.states
  have hentry : ∀ symbol, (((l.targets source symbol).map (fun target =>
        (⟨source, symbol, target⟩ : Move String))).filter (fun move => move.target == target)).map
          Move.symbol = if (l.labels source target).contains symbol then [symbol] else [] := by
    intro symbol
    rw [List.filter_map, List.map_map]
    show ((l.targets source symbol).filter (fun t => t == target)).map (fun _ => symbol) = _
    have htargets : (l.targets source symbol).Nodup := hnodup.filter _
    rw [filter_beq_of_nodup htargets]
    have hmem : (l.targets source symbol).contains target =
        (l.labels source target).contains symbol := by
      simp [targets, htarget]
    rw [hmem]
    split <;> rfl
  rw [labels_flatMap (l := l.regrouped) hnodup (List.mem_eraseDups.mpr hsource) ?_ rfl]
  · rw [List.filter_flatMap, List.map_flatMap]
    simp only [hentry]
    rw [flatMap_ite_singleton]
    exact eraseDups_of_nodup ((nodup_eraseDups _).filter _)
  · intro s _ move hmove
    obtain ⟨symbol, -, hmove⟩ := List.mem_flatMap.mp hmove
    obtain ⟨target, -, rfl⟩ := List.mem_map.mp hmove
    rfl

/-- A state has groups for the same symbols, in the same order, after regrouping. -/
theorem symbolsFrom_regrouped {source : String} (hsource : source ∈ l.states) :
    l.regrouped.symbolsFrom source = l.symbolsFrom source := by
  have hlabels : ∀ target ∈ l.states.eraseDups, l.regrouped.labels source target =
      (l.symbolsFrom source).filter (fun symbol => (l.labels source target).contains symbol) :=
    fun target htarget => labels_regrouped hsource (List.mem_eraseDups.mp htarget)
  show (l.states.eraseDups.eraseDups.flatMap (l.regrouped.labels source)).eraseDups = _
  rw [eraseDups_of_nodup (nodup_eraseDups l.states), List.flatMap_congr hlabels]
  exact eraseDups_flatMap_filter (nodup_eraseDups _) (List.prefix_refl _)

/-- A group has the same targets, in the same order, after regrouping. -/
theorem targets_regrouped {source : String} (hsource : source ∈ l.states) (symbol : String) :
    l.regrouped.targets source symbol = l.targets source symbol := by
  show l.states.eraseDups.eraseDups.filter (fun target =>
    (l.regrouped.labels source target).contains symbol) = _
  rw [eraseDups_of_nodup (nodup_eraseDups l.states), targets]
  apply List.filter_congr
  intro target htarget
  have htarget' : target ∈ l.states := List.mem_eraseDups.mp htarget
  rw [labels_regrouped hsource htarget', Bool.eq_iff_iff, List.contains_iff_mem,
    List.contains_iff_mem, List.mem_filter, List.contains_iff_mem, mem_symbolsFrom]
  exact and_iff_right_of_imp (fun hlabel => ⟨target, htarget', mem_labels.mp hlabel⟩)

/-- Regrouping does not change what is exported. -/
theorem exported_regrouped (l : Listing String) : l.regrouped.exported = l.exported := by
  have hstates : l.regrouped.states.eraseDups = l.states.eraseDups :=
    eraseDups_of_nodup (nodup_eraseDups l.states)
  have hsymbols : l.regrouped.symbols.eraseDups = l.symbols.eraseDups :=
    eraseDups_of_nodup (nodup_eraseDups l.symbols)
  have htransitions : l.states.eraseDups.map (fun source =>
        (source, (l.regrouped.symbolsFrom source).map (fun symbol =>
          (Automaton.exportLabel symbol, l.regrouped.targets source symbol)))) =
      l.states.eraseDups.map (fun source => (source, (l.symbolsFrom source).map (fun symbol =>
        (Automaton.exportLabel symbol, l.targets source symbol)))) := by
    apply List.map_congr_left
    intro source hsource
    have hsource' : source ∈ l.states := List.mem_eraseDups.mp hsource
    simp only [symbolsFrom_regrouped hsource', targets_regrouped hsource']
  rw [exported, hstates, hsymbols, htransitions]
  rfl

/-- Regrouping leaves every reference resolved. -/
theorem Closed.regrouped (h : l.Closed) : l.regrouped.Closed where
  initial := h.matrix.initial
  accepting := h.matrix.accepting
  source := fun move hm => List.mem_eraseDups.mpr (h.source move ((mem_regrouped_moves h).mp hm))
  target := fun move hm => List.mem_eraseDups.mpr (h.target move ((mem_regrouped_moves h).mp hm))
  symbol := fun move hm =>
    (h.symbol move ((mem_regrouped_moves h).mp hm)).imp_right List.mem_eraseDups.mpr

/-- Without a choice a symbol stands on one edge from a state only, so regrouping changes
nothing. -/
theorem Closed.automaton_regrouped (h : l.Closed) (hchoice : l.automaton.NoChoice) :
    l.regrouped.automaton = l.automaton := by
  have hnodup := nodup_eraseDups l.states
  refine automaton_congr (eraseDups_of_nodup hnodup) (eraseDups_of_nodup (nodup_eraseDups _))
    rfl rfl ?_
  intro source hsource target htarget
  have hplace := getElem?_idxOf_states hsource
  have hsymbols : (l.states.eraseDups.flatMap (l.labels source)).Nodup := by
    have hvertex := hchoice _ (List.getElem?_eq_some_iff.mp hplace).1
    rw [Automaton.hasChoice, Bool.or_eq_false_iff, Automaton.hasRepetition_eq_false_iff,
      symbolsFrom_automaton hplace] at hvertex
    exact hvertex.2
  -- a symbol of another edge does not stand on this one
  have hother : ∀ t ∈ l.states.eraseDups, t ≠ target → (l.labels source t).filter
      (fun symbol => (l.labels source target).contains symbol) = [] := by
    intro t _ hne
    rw [List.filter_eq_nil_iff]
    intro symbol hsymbol hsame
    have hmove := mem_labels.mp hsymbol
    have hmove' := mem_labels.mp (List.contains_iff_mem.mp hsame)
    exact hne (h.move_unique hchoice hmove hmove').2
  rw [labels_regrouped hsource htarget, symbolsFrom, eraseDups_of_nodup hsymbols,
    List.filter_flatMap, flatMap_eq_of_mem_of_nodup hnodup (List.mem_eraseDups.mpr htarget) hother,
    List.filter_eq_self]
  exact fun symbol => List.contains_iff_mem.mpr

end Listing

/-! ## Building up a definition -/

namespace Definition

/-- The exported listing lists the moves of the automaton group by group. -/
theorem listing_exported {l : Listing String} (hblank : ∀ move ∈ l.moves, move.symbol ≠ "") :
    l.exported.listing = l.regrouped := by
  have hmoves : l.exported.listing.moves = l.regrouped.moves := by
    show (l.states.eraseDups.map _).flatMap _ = l.states.eraseDups.flatMap _
    rw [List.flatMap_map]
    apply List.flatMap_congr
    intro source _
    rw [List.flatMap_map]
    apply List.flatMap_congr
    intro symbol hsymbol
    obtain ⟨target, -, hmove⟩ := Listing.mem_symbolsFrom.mp hsymbol
    rw [Listing.importLabel_exportLabel (hblank _ hmove)]
  show Listing.mk _ _ _ _ l.exported.listing.moves = _
  rw [hmoves]
  rfl

end Definition

namespace Automaton

/-- What is exported is built up again as the automaton with its moves regrouped. -/
theorem ofExport_exported {l : Listing String} (h : l.Closed)
    (hblank : ∀ move ∈ l.moves, move.symbol ≠ "") (hinitial : l.initial ≠ some "") :
    ofExport l.exported = .ok l.regrouped.automaton := by
  have hstart : l.exported.unblanked = l.exported :=
    Definition.unblanked_eq_self hinitial
  rw [ofExport_eq_foldlM, hstart, Definition.listing_exported hblank,
    Listing.foldlM_calls h.regrouped]

/-- An automaton without blank labels, whose initial state is not blank, can be exported and built
up again. The result has the same states, alphabet, initial state and accepting states and the same
labels on every edge, and it is exported as the same definition, all orders included. Without a
choice it is the same automaton, so that it has the same expressions. -/
theorem definition_round_trip {m : Automaton String} (hbuilt : m.Built)
    (hinitial : m.initial ≠ some "") (hblank : ∀ p q, "" ∉ m.graph.labels p q) :
    ∃ m', ofExport m.definition = .ok m' ∧
      ofJson m.definition.toJson = .ok (m'.map Scalar.text) ∧
      m'.states = m.states ∧ m'.alphabet = m.alphabet ∧
      m'.initial = m.initial ∧ m'.accepting = m.accepting ∧
      (∀ p q symbol, symbol ∈ m'.graph.labels p q ↔ symbol ∈ m.graph.labels p q) ∧
      m'.definition = m.definition ∧
      (m.isDeterministic = true →
        m' = m ∧ ∀ s : Spelling, m'.expression s = m.expression s) := by
  obtain ⟨l, hclosed, rfl⟩ := hbuilt.exists_listing
  have hmoves : ∀ move ∈ l.moves, move.symbol ≠ "" := by
    rintro ⟨source, symbol, target⟩ hmove rfl
    have hsource := Listing.getElem?_idxOf_states (hclosed.source _ hmove)
    have htarget := Listing.getElem?_idxOf_states (hclosed.target _ hmove)
    exact hblank _ _ (Listing.mem_labels_automaton_iff.mpr
      ⟨source, target, hsource, htarget, hmove⟩)
  have hmoves' : ∀ move ∈ l.regrouped.moves, move.symbol ≠ "" :=
    fun move hmove => hmoves move ((Listing.mem_regrouped_moves hclosed).mp hmove)
  have hstates : l.regrouped.states.eraseDups = l.states.eraseDups :=
    eraseDups_of_nodup (nodup_eraseDups l.states)
  have hsymbols : l.regrouped.symbols.eraseDups = l.symbols.eraseDups :=
    eraseDups_of_nodup (nodup_eraseDups l.symbols)
  have hexport : ofExport l.automaton.definition = .ok l.regrouped.automaton := by
    rw [Listing.definition_automaton hmoves]
    exact ofExport_exported hclosed hmoves hinitial
  refine ⟨l.regrouped.automaton, hexport, ?_, hstates, hsymbols, rfl, rfl, ?_, ?_, ?_⟩
  · rw [ofJson_toJson, hexport]
    rfl
  · intro p q symbol
    rw [Listing.mem_labels_automaton_iff, Listing.mem_labels_automaton_iff, hstates]
    simp only [Listing.mem_regrouped_moves hclosed]
  · rw [Listing.definition_automaton hmoves', Listing.definition_automaton hmoves,
      Listing.exported_regrouped]
  · intro hdeterministic
    have hchoice : l.automaton.NoChoice :=
      (nondeterministicState_eq_none_iff _).mp (Option.isNone_iff_eq_none.mp hdeterministic)
    have hsame := hclosed.automaton_regrouped hchoice
    exact ⟨hsame, fun s => congrArg (fun m : Automaton String => m.expression s) hsame⟩

/-- The calls for two states with an edge whose labels are met in another order than they were named
in, a move that reads nothing and a repeated accepting state. -/
def crossingCalls : List (Operation String) :=
  [.addState "p", .addState "q", .addSymbol "a", .addSymbol "b", .setInitial "p",
    .addAccepting "q", .addAccepting "q", .addTransition "p" "b" "q", .addTransition "p" "a" "q",
    .addTransition "p" "a" "p", .addTransition "q" "eps" "p"]

/-- The calls for the same states without a choice. -/
def steadyCalls : List (Operation String) :=
  [.addState "p", .addState "q", .addSymbol "a", .addSymbol "b", .setInitial "p",
    .addAccepting "q", .addTransition "p" "b" "q", .addTransition "p" "a" "q",
    .addTransition "q" "b" "p"]

/-- An automaton whose moves come back in another order, and one that comes back as it was. -/
theorem definition_round_trip_crossing :
    ((replay crossingCalls).Built ∧ (replay crossingCalls).initial ≠ some "" ∧
      (∀ p q, "" ∉ (replay crossingCalls).graph.labels p q) ∧
      ∃ m', ofExport (replay crossingCalls).definition = .ok m' ∧ m' ≠ replay crossingCalls ∧
        ofJson (replay crossingCalls).definition.toJson = .ok (m'.map Scalar.text) ∧
        m'.definition = (replay crossingCalls).definition) ∧
    (replay steadyCalls).Built ∧ (replay steadyCalls).initial ≠ some "" ∧
      (∀ p q, "" ∉ (replay steadyCalls).graph.labels p q) ∧
      (replay steadyCalls).isDeterministic = true ∧
      ofExport (replay steadyCalls).definition = .ok (replay steadyCalls) := by
  have hlabels : ∀ {calls : List (Operation String)},
      replay calls = (Listing.ofCalls calls).automaton →
      (∀ move ∈ (Listing.ofCalls calls).moves, move.symbol ≠ "") →
      ∀ p q, "" ∉ (replay calls).graph.labels p q := by
    intro calls hlisted hmoves p q hblank
    rw [hlisted, Listing.mem_labels_automaton_iff] at hblank
    obtain ⟨_, _, _, _, hmove⟩ := hblank
    exact hmoves _ hmove rfl
  have hcrossing := @hlabels crossingCalls (by decide) (by decide)
  have hsteady := @hlabels steadyCalls (by decide) (by decide)
  have hdeterministic : (replay steadyCalls).isDeterministic = true := by decide
  have hother : ofExport (replay crossingCalls).definition ≠ .ok (replay crossingCalls) := by decide
  refine ⟨⟨⟨_, rfl⟩, by decide, hcrossing, ?_⟩, ⟨_, rfl⟩, by decide, hsteady, hdeterministic, ?_⟩
  · obtain ⟨m', hexport, hjson, -, -, -, -, -, hdefinition, -⟩ :=
      definition_round_trip ⟨crossingCalls, rfl⟩ (by decide) hcrossing
    refine ⟨m', hexport, ?_, hjson, hdefinition⟩
    rintro rfl
    exact hother hexport
  · obtain ⟨m', hexport, -, -, -, -, -, -, -, hsame⟩ :=
      definition_round_trip ⟨steadyCalls, rfl⟩ (by decide) hsteady
    rw [hexport, (hsame hdeterministic).1]

end Automaton

end Kleene
