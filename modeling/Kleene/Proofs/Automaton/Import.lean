import Kleene.Proofs.Automaton.Document
import Kleene.Proofs.Results
import Mathlib.Data.Set.List

/-!
# Automata that are read from dictionaries of texts

A dictionary whose lists hold texts is read in two passes: its shape is looked at as a whole
(`Json.IsShaped`), and what has the shape is a definition written down (`Definition.WrittenAs`).
From the definition the automaton is built up part by part. Each part that refers to a state or a
symbol can be refused, so that the failure is that of the first unresolved reference in the order of
`Listing.references`.

The main statement is `ofJson_builds_listed`. A definition may name things repeatedly, may write a
move that reads nothing in two ways, and may list no targets under a state that does not exist; none
of this is a failure.
-/

set_option autoImplicit false

namespace Kleene

/-! ## References -/

/-- A place of a listing that refers to a state or to a symbol. -/
inductive Reference where
  | state (name : String)
  | symbol (name : String)
  deriving Repr, DecidableEq

/-- The failure if there is nothing that is referred to. -/
def Reference.failure {ν : Type} [Name ν] : Reference → Failure ν
  | .state name => .noSuchState (Name.ofText name)
  | .symbol name => .noSuchSymbol (Name.ofText name)

/-- What a call refers to, in the order in which it is looked up. -/
def Operation.references : Operation String → List Reference
  | .addState _ => []
  | .addSymbol _ => []
  | .setInitial state => [.state state]
  | .addAccepting state => [.state state]
  | .addTransition source symbol target => [.state source, .state target, .symbol symbol]

namespace Listing

/-- The references of a listing: of the initial state, of the accepting ones from left to right, and
of the moves one after the other, each by its source, its target and its symbol. -/
def references (l : Listing String) : List Reference :=
  l.initial.toList.map .state ++ l.accepting.map .state ++
    l.moves.flatMap (fun move => [.state move.source, .state move.target, .symbol move.symbol])

/-- The listing has what is referred to. The label of moves that read nothing needs no entry. -/
def Resolves (l : Listing String) : Reference → Prop
  | .state name => name ∈ l.states
  | .symbol name => name = Name.epsilon ∨ name ∈ l.symbols

instance (l : Listing String) : DecidablePred l.Resolves
  | .state name => inferInstanceAs (Decidable (name ∈ l.states))
  | .symbol name => inferInstanceAs (Decidable (name = Name.epsilon ∨ name ∈ l.symbols))

/-- Why a reference is refused. -/
def unresolved? (l : Listing String) : Reference → Option (Failure String)
  | .state name => l.stateFault? name
  | .symbol name => l.symbolFault? name

variable {l : Listing String}

/-- A reference has no fault exactly if it resolves. -/
theorem unresolved?_eq_none {reference : Reference} :
    l.unresolved? reference = none ↔ l.Resolves reference := by
  cases reference with
  | state name => exact stateFault?_eq_none l name
  | symbol name => exact symbolFault?_eq_none l name

/-- A reference that does not resolve has its own failure for a fault, and no other reference has
one. -/
theorem unresolved?_eq_some {reference : Reference} {fault : Failure String} :
    l.unresolved? reference = some fault ↔ ¬l.Resolves reference ∧ fault = reference.failure := by
  rw [eq_comm (a := fault)]
  cases reference with
  | state name =>
    unfold unresolved? stateFault?
    rw [Option.ite_none_left_eq_some, Option.some_inj]
    rfl
  | symbol name =>
    unfold unresolved? symbolFault?
    rw [Option.ite_none_left_eq_some, Option.some_inj]
    rfl

/-- A call is refused for the first of its references that is unresolved. -/
theorem fault?_eq_findSome? (op : Operation String) :
    l.fault? op = op.references.findSome? l.unresolved? := by
  have hone : ∀ reference, [reference].findSome? l.unresolved? = l.unresolved? reference := by
    intro reference
    rw [List.findSome?_cons]
    cases l.unresolved? reference <;> rfl
  cases op with
  | addState state => rfl
  | addSymbol symbol => rfl
  | setInitial state => exact (hone (.state state)).symm
  | addAccepting state => exact (hone (.state state)).symm
  | addTransition source symbol target =>
    have hthree : (Operation.addTransition source symbol target).references =
        ([.state source] ++ [.state target]) ++ [.symbol symbol] := rfl
    rw [hthree, List.findSome?_append, List.findSome?_append, hone, hone, hone]
    rfl

/-- What is looked up first on the way through lists of places. -/
theorem findSome?_flatMap {α β γ : Type} (places : α → List β) (find : β → Option γ)
    (items : List α) :
    (items.flatMap places).findSome? find =
      items.findSome? (fun a => (places a).findSome? find) := by
  induction items with
  | nil => rfl
  | cons a rest ih =>
    rw [List.flatMap_cons, List.findSome?_append, ih, List.findSome?_cons]
    cases (places a).findSome? find <;> rfl

/-- The references of the calls are those of the listing, in the order in which they are checked. -/
theorem flatMap_references (l : Listing String) :
    l.referringCalls.flatMap Operation.references = l.references := by
  simp only [referringCalls, references, List.flatMap_append, List.flatMap_map,
    Operation.references, ← List.map_eq_flatMap]

/-- The calls for all parts are refused for the first unresolved reference. -/
theorem firstFault?_calls_eq_findSome? (l : Listing String) :
    firstFault? {} l.calls = l.references.findSome? l.unresolved? := by
  have hfault : l.fault? = fun op => op.references.findSome? l.unresolved? :=
    funext fault?_eq_findSome?
  rw [firstFault?_calls, hfault, ← findSome?_flatMap, flatMap_references]

/-- The calls for all parts build up the automaton of the listing, or fail for the first unresolved
reference. -/
theorem foldlM_calls_eq (l : Listing String) :
    l.calls.foldlM Operation.apply Automaton.empty =
      match l.references.findSome? l.unresolved? with
      | some fault => .error fault
      | none => .ok l.automaton := by
  have hrun := foldlM_apply_automaton closed_empty l.calls
  rw [firstFault?_calls_eq_findSome?, addAll_empty, ofCalls_calls] at hrun
  exact hrun

/-- The calls of a listing are carried out exactly if all its references resolve, and lead to its
automaton. -/
theorem foldlM_calls_eq_ok_iff {m : Automaton String} :
    l.calls.foldlM Operation.apply Automaton.empty = .ok m ↔
      (∀ reference ∈ l.references, l.Resolves reference) ∧ m = l.automaton := by
  have hnone : l.references.findSome? l.unresolved? = none ↔
      ∀ reference ∈ l.references, l.Resolves reference := by
    simp only [List.findSome?_eq_none_iff, unresolved?_eq_none]
  rw [foldlM_calls_eq, ← hnone]
  cases l.references.findSome? l.unresolved? with
  | some fault => simp
  | none => simp [eq_comm]

/-- The calls of a listing end with the failure of the first reference that does not resolve. -/
theorem foldlM_calls_eq_error_iff {fault : Failure String} :
    l.calls.foldlM Operation.apply Automaton.empty = .error fault ↔
      ∃ before reference after, l.references = before ++ reference :: after ∧
        (∀ earlier ∈ before, l.Resolves earlier) ∧ ¬l.Resolves reference ∧
        fault = reference.failure := by
  have hsome : l.references.findSome? l.unresolved? = some fault ↔
      ∃ before reference after, l.references = before ++ reference :: after ∧
        (∀ earlier ∈ before, l.Resolves earlier) ∧ ¬l.Resolves reference ∧
        fault = reference.failure := by
    simp only [List.findSome?_eq_some_iff, unresolved?_eq_none, unresolved?_eq_some, and_comm]
  rw [foldlM_calls_eq, ← hsome]
  cases l.references.findSome? l.unresolved? with
  | some first => simp
  | none => simp

end Listing

/-! ## The shape of a dictionary -/

namespace Json

/-- The keys of a definition under which there are lists of names. -/
def listKeys : List String :=
  ["states", "alphabet", "acceptingStates"]

/-- The value has the lists and dictionaries of a definition, whatever the lists hold, and something
under the key of the starting state. -/
structure IsShaped (json : Json) : Prop where
  lists : ∀ key ∈ listKeys, ∃ items, json.field? key = some (.array items)
  transitions : ∃ entries, json.field? "transitions" = some (.object entries) ∧
    ∀ entry ∈ entries, ∃ moves, entry.2 = .object moves ∧
      ∀ move ∈ moves, ∃ targets, move.2 = .array targets
  startingState : (json.field? "startingState").isSome = true

/-- Where the value has lists of a definition, they hold texts, and where it has a starting state,
that is a text or nothing. -/
structure HoldsTexts (json : Json) : Prop where
  lists : ∀ key ∈ listKeys, ∀ items, json.field? key = some (.array items) →
    ∀ item ∈ items, ∃ name, text name = item
  targets : ∀ entries, json.field? "transitions" = some (.object entries) →
    ∀ entry ∈ entries, ∀ moves, entry.2 = .object moves →
      ∀ move ∈ moves, ∀ targets, move.2 = .array targets →
        ∀ target ∈ targets, ∃ name, text name = target
  startingState : ∀ value, json.field? "startingState" = some value →
    value = .scalar .null ∨ ∃ name, text name = value

end Json

namespace Definition

/-- The value has under the keys of a definition what the definition is written as there. Its other
keys do not count. -/
def WrittenAs (d : Definition String String) (json : Json) : Prop :=
  ∀ key ∈ requiredKeys, json.field? key = d.toJson.field? key

/-- A definition is written down by the dictionary that is made of it. -/
theorem writtenAs_toJson (d : Definition String String) : d.WrittenAs d.toJson :=
  fun _ _ => rfl

/-! ### What is read has the shape -/

/-- The check of the keys passes only if every key that is required is there. -/
theorem yields_checkKeys (json : Json) :
    Yields (fun _ => ∀ key ∈ requiredKeys, (json.field? key).isSome = true) (checkKeys json) := by
  unfold checkKeys
  split
  · next entries =>
    split
    · exact Yields.throw _
    · next hfind =>
      refine Yields.pure (fun key hkey => ?_)
      have hpresent := List.find?_eq_none.mp hfind key hkey
      simpa [Json.field?] using hpresent
  · exact Yields.throw _

/-- The check of the keys passes if every key that is required is there. -/
theorem checkKeys_eq_ok {json : Json}
    (h : ∀ key ∈ requiredKeys, (json.field? key).isSome = true) : checkKeys json = .ok () := by
  cases json with
  | scalar value => cases h "states" (by decide)
  | array items => cases h "states" (by decide)
  | object entries =>
    have hfind : requiredKeys.find? (fun key => (entries.lookup key).isNone) = none := by
      rw [List.find?_eq_none]
      intro key hkey
      have hpresent : (entries.lookup key).isSome = true := h key hkey
      rw [Bool.not_eq_true, Option.isNone_eq_false_iff]
      exact hpresent
    rw [checkKeys, hfind]

/-- What is read as a list under a key is the array that is there. -/
theorem yields_listAt (key : String) (json : Json) :
    Yields (fun items => json.field? key = some (.array items)) (listAt key json) := by
  unfold listAt
  split
  · next hfield => exact Yields.pure hfield
  · exact Yields.throw _

/-- What is read as a dictionary under a key is the object that is there. -/
theorem yields_dictionaryAt (key : String) (json : Json) :
    Yields (fun entries => json.field? key = some (.object entries)) (dictionaryAt key json) := by
  unfold dictionaryAt
  split
  · next hfield => exact Yields.pure hfield
  · exact Yields.throw _

/-- Moves from a state are read only if each of them has an array of targets. -/
theorem yields_readTargets (state : String) (moves : List (String × Json)) :
    Yields (fun _ => ∀ move ∈ moves, ∃ targets, move.2 = .array targets)
      (readTargets state moves) := by
  refine Yields.mapM (fun move => ?_) moves
  split
  · next targets htargets => exact Yields.pure ⟨targets, htargets⟩
  · exact Yields.throw _

/-- Transitions are read only if every state has an object, with an array of targets for each
symbol. -/
theorem yields_readTransitions (transitions : List (String × Json)) :
    Yields (fun _ => ∀ entry ∈ transitions, ∃ moves, entry.2 = .object moves ∧
      ∀ move ∈ moves, ∃ targets, move.2 = .array targets) (readTransitions transitions) := by
  refine Yields.mapM (fun entry => ?_) transitions
  split
  · next moves hmoves =>
    exact Yields.bind (yields_readTargets entry.1 moves)
      (fun _ htargets => Yields.pure ⟨moves, hmoves, htargets⟩)
  · exact Yields.throw _

/-- Only a value of the right shape is read as a definition. -/
theorem yields_isShaped (json : Json) : Yields (fun _ => json.IsShaped) (ofJson json) := by
  unfold ofJson
  refine Yields.bind (yields_checkKeys json) (fun _ hkeys => ?_)
  refine Yields.bind (yields_listAt "states" json) (fun states hstates => ?_)
  refine Yields.bind (yields_listAt "alphabet" json) (fun alphabet halphabet => ?_)
  refine Yields.bind (yields_dictionaryAt "transitions" json) (fun entries hentries => ?_)
  refine Yields.bind (yields_listAt "acceptingStates" json) (fun accepting haccepting => ?_)
  refine Yields.bind (yields_readTransitions entries) (fun _ hmoves => ?_)
  refine Yields.pure ⟨?_, ⟨entries, hentries, hmoves⟩, hkeys "startingState" (by decide)⟩
  exact List.forall_mem_cons.mpr ⟨⟨states, hstates⟩, List.forall_mem_cons.mpr
    ⟨⟨alphabet, halphabet⟩, List.forall_mem_singleton.mpr ⟨accepting, haccepting⟩⟩⟩

/-! ### What has the shape is a definition written down -/

/-- Only what stands under the keys of a definition is read. -/
theorem ofJson_eq_of_writtenAs {d : Definition String String} {json : Json} (h : d.WrittenAs json) :
    ofJson json = ofJson d.toJson := by
  have hpresent : ∀ key ∈ requiredKeys, (d.toJson.field? key).isSome = true := by
    intro key hkey
    simp only [requiredKeys, List.mem_cons, List.not_mem_nil, or_false] at hkey
    rcases hkey with rfl | rfl | rfl | rfl | rfl <;> rfl
  have hkeys : checkKeys json = checkKeys d.toJson :=
    (checkKeys_eq_ok (fun key hkey => h key hkey ▸ hpresent key hkey)).trans
      (checkKeys_eq_ok hpresent).symm
  have hlist : ∀ key ∈ requiredKeys, listAt key json = listAt key d.toJson := by
    intro key hkey
    unfold listAt
    rw [h key hkey]
  have hdictionary : dictionaryAt "transitions" json = dictionaryAt "transitions" d.toJson := by
    unfold dictionaryAt
    rw [h "transitions" (by decide)]
  unfold ofJson
  rw [hkeys, hlist "states" (by decide), hlist "alphabet" (by decide), hdictionary,
    hlist "acceptingStates" (by decide), h "startingState" (by decide)]

/-- What a definition is written as has the right shape. -/
theorem isShaped_of_writtenAs {d : Definition String String} {json : Json} (h : d.WrittenAs json) :
    json.IsShaped :=
  yields_isShaped json _ ((ofJson_eq_of_writtenAs h).trans d.ofJson_toJson)

/-- A list whose items are images is the image of a list. -/
theorem exists_map_eq {α β : Type} {f : α → β} {items : List β} (h : ∀ b ∈ items, ∃ a, f a = b) :
    ∃ originals : List α, originals.map f = items :=
  (Set.range_list_map f).ge h

/-- Texts in the right shape are a definition written down. -/
theorem exists_writtenAs {json : Json} (hshaped : json.IsShaped) (htexts : json.HoldsTexts) :
    ∃ d : Definition String String, d.WrittenAs json := by
  have hlist : ∀ key ∈ Json.listKeys, ∃ names : List String,
      json.field? key = some (.array (names.map Json.text)) := by
    intro key hkey
    obtain ⟨items, hitems⟩ := hshaped.lists key hkey
    obtain ⟨names, rfl⟩ := exists_map_eq (htexts.lists key hkey items hitems)
    exact ⟨names, hitems⟩
  obtain ⟨states, hstates⟩ := hlist "states" (by decide)
  obtain ⟨alphabet, halphabet⟩ := hlist "alphabet" (by decide)
  obtain ⟨accepting, haccepting⟩ := hlist "acceptingStates" (by decide)
  obtain ⟨entries, hentries, hmoves⟩ := hshaped.transitions
  obtain ⟨transitions, rfl⟩ : ∃ transitions : List (String × List (String × List String)),
      transitions.map (fun entry => (entry.1, Json.object
        (entry.2.map (fun move => (move.1, Json.array (move.2.map Json.text)))))) = entries := by
    refine exists_map_eq (fun entry hentry => ?_)
    obtain ⟨moves, hobject, htargets⟩ := hmoves entry hentry
    obtain ⟨read, rfl⟩ : ∃ read : List (String × List String),
        read.map (fun move => (move.1, Json.array (move.2.map Json.text))) = moves := by
      refine exists_map_eq (fun move hmove => ?_)
      obtain ⟨targets, harray⟩ := htargets move hmove
      obtain ⟨names, rfl⟩ := exists_map_eq
        (htexts.targets entries hentries entry hentry moves hobject move hmove targets harray)
      exact ⟨(move.1, names), Prod.ext rfl harray.symm⟩
    exact ⟨(entry.1, read), Prod.ext rfl hobject.symm⟩
  obtain ⟨value, hvalue⟩ := Option.isSome_iff_exists.mp hshaped.startingState
  obtain ⟨starting, rfl⟩ : ∃ starting : Option String,
      (starting.map Json.text).getD (.scalar .null) = value := by
    rcases htexts.startingState value hvalue with rfl | ⟨name, rfl⟩
    · exact ⟨none, rfl⟩
    · exact ⟨some name, rfl⟩
  refine ⟨⟨states, alphabet, transitions, starting, accepting⟩, ?_⟩
  intro key hkey
  simp only [requiredKeys, List.mem_cons, List.not_mem_nil, or_false] at hkey
  rcases hkey with rfl | rfl | rfl | rfl | rfl
  · exact hstates
  · exact halphabet
  · exact hentries
  · exact hvalue
  · exact haccepting

/-- The dictionary that is made of a definition of texts holds texts. -/
theorem holdsTexts_toJson (d : Definition String String) : d.toJson.HoldsTexts where
  lists := by
    intro key hkey items hitems
    obtain ⟨names, hnames⟩ : ∃ names : List String,
        d.toJson.field? key = some (.array (names.map Json.text)) := by
      simp only [Json.listKeys, List.mem_cons, List.not_mem_nil, or_false] at hkey
      rcases hkey with rfl | rfl | rfl
      · exact ⟨d.states, rfl⟩
      · exact ⟨d.alphabet, rfl⟩
      · exact ⟨d.acceptingStates, rfl⟩
    obtain rfl : names.map Json.text = items := by
      simpa using hnames.symm.trans hitems
    intro item hitem
    obtain ⟨name, -, hname⟩ := List.mem_map.mp hitem
    exact ⟨name, hname⟩
  targets := by
    intro entries hentries entry hentry moves hmoves move hmove targets htargets target htarget
    obtain rfl := Json.object.inj (Option.some.inj hentries)
    obtain ⟨original, -, rfl⟩ := List.mem_map.mp hentry
    obtain rfl := Json.object.inj hmoves
    obtain ⟨read, -, rfl⟩ := List.mem_map.mp hmove
    obtain rfl := Json.array.inj htargets
    obtain ⟨name, -, hname⟩ := List.mem_map.mp htarget
    exact ⟨name, hname⟩
  startingState := by
    intro value hvalue
    obtain rfl := Option.some.inj hvalue
    cases d.startingState with
    | none => exact .inl rfl
    | some name => exact .inr ⟨name, rfl⟩

/-! ### The automaton of a definition -/

/-- A target is listed under a source and under a symbol that is read as the label. -/
def Lists (d : Definition String String) (source label target : String) : Prop :=
  ∃ moves symbol targets, (source, moves) ∈ d.transitions ∧ (symbol, targets) ∈ moves ∧
    target ∈ targets ∧ label = if symbol = "" then "eps" else symbol

/-- What the automaton of a definition is. -/
structure Describes (d : Definition String String) (m : Automaton Scalar) : Prop where
  states : m.states = d.states.eraseDups.map .text
  alphabet : m.alphabet = d.alphabet.eraseDups.map .text
  initial : m.initial = (d.startingState.filter (fun state => state != "")).map .text
  accepting : m.accepting = d.acceptingStates.map .text
  /-- The labels between two states are those under which the moves are listed, each once. -/
  labels : ∀ p q source target, m.states[p]? = some (.text source) →
    m.states[q]? = some (.text target) → ∃ labels : List String,
      m.graph.labels p q = labels.map .text ∧ labels.Nodup ∧
      ∀ label, label ∈ labels ↔ d.Lists source label target

/-- The empty label is imported as the one that stands for the empty word. -/
theorem importLabel_eq_ite (symbol : String) :
    Automaton.importLabel symbol = if symbol = "" then "eps" else symbol := by
  show (if symbol.isEmpty = true then "eps" else symbol) = _
  simp only [String.isEmpty_iff]

/-- The moves of the listing are those that the definition lists, with their labels as they are
imported. -/
theorem mem_moves_listing {d : Definition String String} {source label target : String} :
    ⟨source, label, target⟩ ∈ d.listing.moves ↔ d.Lists source label target := by
  simp only [listing, List.mem_flatMap, List.mem_map, Move.mk.injEq, importLabel_eq_ite]
  constructor
  · rintro ⟨⟨_, moves⟩, hentry, ⟨symbol, targets⟩, hmove, _, htarget, rfl, rfl, rfl⟩
    exact ⟨moves, symbol, targets, hentry, hmove, htarget, rfl⟩
  · rintro ⟨moves, symbol, targets, hentry, hmove, htarget, rfl⟩
    exact ⟨(source, moves), hentry, (symbol, targets), hmove, target, htarget, rfl, rfl, rfl⟩

/-- The automaton of the listing is what the definition describes. -/
theorem describes_map (d : Definition String String) :
    d.Describes (d.unblanked.listing.automaton.map .text) where
  states := rfl
  alphabet := rfl
  initial := by
    have hblank : (fun state : String => !Name.isBlank state) = fun state => state != "" := by
      funext state
      show (!state.isEmpty) = !(state == "")
      rw [Bool.eq_iff_iff, Bool.not_eq_true', Bool.not_eq_true', beq_eq_false_iff_ne,
        ← Bool.not_eq_true, String.isEmpty_iff]
    show (d.startingState.filter _).map Scalar.text = _
    rw [hblank]
  accepting := rfl
  labels := by
    intro p q source target hp hq
    have hplace : ∀ {i : Nat} {state : String}, (d.states.eraseDups.map Scalar.text)[i]? =
        some (.text state) → d.states.eraseDups[i]? = some state := by
      intro i state hi
      rw [List.getElem?_map, Option.map_eq_some_iff] at hi
      obtain ⟨name, hname, hsame⟩ := hi
      rwa [Scalar.text.inj hsame] at hname
    refine ⟨d.unblanked.listing.labels source target, ?_, nodup_eraseDups _, fun label => ?_⟩
    · rw [Automaton.labels_map, Listing.labels_automaton (hplace hp) (hplace hq)]
    · exact Listing.mem_labels.trans mem_moves_listing

end Definition

namespace Automaton

/-- To read what a definition is written as is to make the calls of its listing. -/
theorem ofJson_eq_foldlM {d : Definition String String} {json : Json} (h : d.WrittenAs json) :
    ofJson json =
      renamed Scalar.text (d.unblanked.listing.calls.foldlM Operation.apply empty) := by
  unfold ofJson
  rw [Definition.ofJson_eq_of_writtenAs h, ← ofExport_eq_foldlM]
  exact ofJson_toJson d

/-- What a definition is written as is read exactly if all references resolve, and as the automaton
that is listed. -/
theorem ofJson_eq_ok_iff {d : Definition String String} {json : Json} (h : d.WrittenAs json)
    {m : Automaton Scalar} :
    ofJson json = .ok m ↔
      (∀ reference ∈ d.unblanked.listing.references, d.unblanked.listing.Resolves reference) ∧
        m = d.unblanked.listing.automaton.map .text := by
  rw [ofJson_eq_foldlM h, renamed_eq_ok_iff]
  constructor
  · rintro ⟨named, hnamed, rfl⟩
    obtain ⟨hresolves, rfl⟩ := Listing.foldlM_calls_eq_ok_iff.mp hnamed
    exact ⟨hresolves, rfl⟩
  · rintro ⟨hresolves, rfl⟩
    exact ⟨_, Listing.foldlM_calls_eq_ok_iff.mpr ⟨hresolves, rfl⟩, rfl⟩

/-- What a definition is written as is refused with the failure of the first reference that does not
resolve. -/
theorem ofJson_eq_error_iff {d : Definition String String} {json : Json} (h : d.WrittenAs json)
    {failure : Failure Scalar} :
    ofJson json = .error failure ↔
      ∃ before reference after, d.unblanked.listing.references = before ++ reference :: after ∧
        (∀ earlier ∈ before, d.unblanked.listing.Resolves earlier) ∧
        ¬d.unblanked.listing.Resolves reference ∧ failure = reference.failure := by
  have hfailure : ∀ reference : Reference,
      (reference.failure : Failure String).map Scalar.text = reference.failure := by
    intro reference
    cases reference <;> rfl
  rw [ofJson_eq_foldlM h, renamed_eq_error_iff]
  constructor
  · rintro ⟨fault, hfault, rfl⟩
    obtain ⟨before, reference, after, hsplit, hbefore, hunresolved, rfl⟩ :=
      Listing.foldlM_calls_eq_error_iff.mp hfault
    exact ⟨before, reference, after, hsplit, hbefore, hunresolved, hfailure reference⟩
  · rintro ⟨before, reference, after, hsplit, hbefore, hunresolved, rfl⟩
    exact ⟨reference.failure, Listing.foldlM_calls_eq_error_iff.mpr
      ⟨before, reference, after, hsplit, hbefore, hunresolved, rfl⟩, (hfailure reference).symm⟩

/-- A value whose lists hold texts is refused for its shape exactly if it has not the right one, and
is otherwise a definition written down. Its first unresolved reference is then the failure: of the
starting state, of the accepting states from left to right, and of the moves as they are listed,
each by its source, its target and its symbol. Without one the value is read as the automaton of
what it lists. -/
theorem ofJson_builds_listed {json : Json} (htexts : json.HoldsTexts) :
    ((∃ problem, ofJson json = .error (.malformed problem)) ↔ ¬json.IsShaped) ∧
    (json.IsShaped ↔ ∃ d : Definition String String, d.WrittenAs json) ∧
    ∀ d : Definition String String, d.WrittenAs json →
      (∀ failure, ofJson json = .error failure ↔
        ∃ before reference after, d.unblanked.listing.references = before ++ reference :: after ∧
          (∀ earlier ∈ before, d.unblanked.listing.Resolves earlier) ∧
          ¬d.unblanked.listing.Resolves reference ∧ failure = reference.failure) ∧
      ((∃ m, ofJson json = .ok m) ↔
        ∀ reference ∈ d.unblanked.listing.references, d.unblanked.listing.Resolves reference) ∧
      ∀ m, ofJson json = .ok m → d.Describes m := by
  have hwritten : json.IsShaped ↔ ∃ d : Definition String String, d.WrittenAs json :=
    ⟨fun hshaped => Definition.exists_writtenAs hshaped htexts,
      fun ⟨d, hd⟩ => Definition.isShaped_of_writtenAs hd⟩
  refine ⟨⟨?_, ?_⟩, hwritten, fun d hd => ⟨fun failure => ofJson_eq_error_iff hd, ?_, ?_⟩⟩
  · rintro ⟨problem, hproblem⟩ hshaped
    obtain ⟨d, hd⟩ := hwritten.mp hshaped
    obtain ⟨_, reference, _, _, _, _, hfailure⟩ := (ofJson_eq_error_iff hd).mp hproblem
    cases reference <;> cases hfailure
  · intro hshapeless
    unfold ofJson
    cases hread : Definition.ofJson json with
    | error problem => exact ⟨problem, rfl⟩
    | ok read => exact absurd (Definition.yields_isShaped json read hread) hshapeless
  · constructor
    · rintro ⟨m, hm⟩
      exact ((ofJson_eq_ok_iff hd).mp hm).1
    · intro hresolves
      exact ⟨_, (ofJson_eq_ok_iff hd).mpr ⟨hresolves, rfl⟩⟩
  · intro m hm
    obtain ⟨-, rfl⟩ := (ofJson_eq_ok_iff hd).mp hm
    exact d.describes_map

/-- Names that are repeated, both ways to write a move that reads nothing, a blank starting state,
and a state that does not exist but has no targets either. -/
def repetitive : Definition String String where
  states := ["p", "q", "p"]
  alphabet := ["a", "a"]
  transitions :=
    [("p", [("a", ["q", "q"]), ("", ["q"]), ("eps", ["q", "p"])]), ("ghost", [("z", [])])]
  startingState := some ""
  acceptingStates := ["q", "q"]

/-- A move of which neither the target nor the symbol exists. -/
def dangling : Definition String String where
  states := ["p"]
  alphabet := []
  transitions := [("p", [("z", ["ghost"])])]
  startingState := some "p"
  acceptingStates := []

/-- A definition with repetitions, one with a reference to a state that is not there, and a
dictionary without keys. -/
theorem ofJson_builds_listed_repetitive :
    (repetitive.toJson.HoldsTexts ∧ repetitive.WrittenAs repetitive.toJson ∧
      ∃ m, ofJson repetitive.toJson = .ok m ∧ m.states = [.text "p", .text "q"] ∧
        m.initial = none ∧ m.accepting = [.text "q", .text "q"] ∧ repetitive.Describes m) ∧
    (dangling.toJson.HoldsTexts ∧ dangling.WrittenAs dangling.toJson ∧
      ofJson dangling.toJson = .error (.noSuchState (.text "ghost"))) ∧
    (Json.object []).HoldsTexts ∧ ¬(Json.object []).IsShaped ∧
      ∃ problem, ofJson (.object []) = .error (.malformed problem) := by
  have hrepetitive := repetitive.holdsTexts_toJson
  have hdangling := dangling.holdsTexts_toJson
  have hnothing : (Json.object []).HoldsTexts :=
    { lists := fun _ _ _ h => nomatch h
      targets := fun _ h => nomatch h
      startingState := fun _ h => nomatch h }
  have hshapeless : ¬(Json.object []).IsShaped := fun h => nomatch h.startingState
  refine ⟨⟨hrepetitive, repetitive.writtenAs_toJson, ?_⟩,
    ⟨hdangling, dangling.writtenAs_toJson, ?_⟩, hnothing, hshapeless, ?_⟩
  · obtain ⟨-, hok, hdescribes⟩ :=
      (ofJson_builds_listed hrepetitive).2.2 repetitive repetitive.writtenAs_toJson
    obtain ⟨m, hm⟩ := hok.mpr (by decide)
    have hm' := hdescribes m hm
    exact ⟨m, hm, hm'.states, hm'.initial, hm'.accepting, hm'⟩
  · obtain ⟨herror, -⟩ :=
      (ofJson_builds_listed hdangling).2.2 dangling dangling.writtenAs_toJson
    exact (herror _).mpr ⟨[.state "p", .state "p"], .state "ghost", [.symbol "z"], by decide,
      by decide, by decide, rfl⟩
  · exact (ofJson_builds_listed hnothing).1.mpr hshapeless

end Automaton

end Kleene
