import Kleene.Proofs.Automaton.Description
import Kleene.Proofs.Automaton.Matrix
import Kleene.Proofs.Text.Lines

/-!
# Writing a description and reading it back

The description of an automaton is the text of a sheet: its five lines, each with a line feed after
it (`description_automaton`). The sheet has the states, the alphabet and the accepting states as the
automaton has them, and the moves in the order of the matrix. If all names are identifiers no line
has a line break of its own, so the lines of the text are those of the sheet again
(`splitLines_text`).

The main statement is `description_round_trip`. The description of an automaton named by identifiers
is accepted exactly if it has a state and a symbol, and is then read as the very same automaton; and
reading a text, writing what was read and reading that again leads nowhere new.
-/

set_option autoImplicit false

namespace Kleene

namespace Text

/-- The characters of joined parts are those of the separator and of the parts. -/
theorem mem_intercalate {separator : String} {parts : List String} {c : Char}
    (h : c ∈ (String.intercalate separator parts).toList) :
    c ∈ separator.toList ∨ ∃ part ∈ parts, c ∈ part.toList := by
  induction parts with
  | nil => simp at h
  | cons part rest ih =>
    cases rest with
    | nil => exact .inr ⟨part, List.mem_cons_self, by simpa using h⟩
    | cons next rest =>
      rw [String.intercalate_cons_cons, String.toList_append, String.toList_append,
        List.mem_append, List.mem_append] at h
      rcases h with (h | h) | h
      · exact .inr ⟨part, List.mem_cons_self, h⟩
      · exact .inl h
      · refine (ih h).imp_right ?_
        rintro ⟨other, hother, hc⟩
        exact ⟨other, List.mem_cons_of_mem _ hother, hc⟩

end Text

namespace Description

/-! ## Lines without line breaks -/

/-- A name has no line break in it. -/
theorem IsIdentifier.isLineBreak_eq_false {name : String} (h : IsIdentifier name) :
    ∀ c ∈ name.toList, Text.isLineBreak c = false := by
  have hbreak : ∀ d, Text.isLineBreak d = true → isNameChar d = false := by
    intro d hd
    simp only [Text.isLineBreak, Bool.or_eq_true, beq_iff_eq] at hd
    rcases hd with ((((((((rfl | rfl) | rfl) | rfl) | rfl) | rfl) | rfl) | rfl) | rfl) | rfl <;>
      decide
  intro c hc
  rw [← Bool.not_eq_true]
  intro hline
  exact h.not_mem (hbreak c hline) hc

/-- A line has no line break if what stands between its commas has none. -/
theorem isLineBreak_lineText {key : String} (hkey : ∀ c ∈ key.toList, Text.isLineBreak c = false)
    {parts : List String} (hparts : ∀ part ∈ parts, ∀ c ∈ part.toList, Text.isLineBreak c = false) :
    ∀ c ∈ lineText key (String.intercalate "," parts), Text.isLineBreak c = false := by
  have hopen : ∀ c ∈ "=[".toList, Text.isLineBreak c = false := by simp [Text.isLineBreak]
  have hcomma : ∀ c ∈ ",".toList, Text.isLineBreak c = false := by simp [Text.isLineBreak]
  have hclose : ∀ c ∈ "]".toList, Text.isLineBreak c = false := by simp [Text.isLineBreak]
  intro c hc
  simp only [lineText, String.toList_append, List.mem_append] at hc
  rcases hc with ((hc | hc) | hc) | hc
  · exact hkey c hc
  · exact hopen c hc
  · rcases Text.mem_intercalate hc with hc | ⟨part, hpart, hc⟩
    · exact hcomma c hc
    · exact hparts part hpart c hc
  · exact hclose c hc

/-- A move between names has no line break in it. -/
theorem Entry.IsNamed.isLineBreak_eq_false {e : Entry} (h : e.IsNamed) :
    ∀ c ∈ e.text.toList, Text.isLineBreak c = false := by
  obtain ⟨hsource, hsymbol, htarget⟩ := h
  have harrow : ∀ c ∈ ">".toList, Text.isLineBreak c = false := by simp [Text.isLineBreak]
  intro c hc
  simp only [Entry.text, String.toList_append, List.mem_append] at hc
  rcases hc with (((hc | hc) | hc) | hc) | hc
  · exact hsource.isLineBreak_eq_false c hc
  · exact harrow c hc
  · exact hsymbol.isLineBreak_eq_false c hc
  · exact harrow c hc
  · exact htarget.isLineBreak_eq_false c hc

namespace Sheet

/-- A sheet in which all names are names; parts of it may be missing. -/
structure IsNamed (sheet : Sheet) : Prop where
  states : ∀ name ∈ sheet.states, IsIdentifier name
  symbols : ∀ name ∈ sheet.symbols, IsIdentifier name
  initial : ∀ name ∈ sheet.initial, IsIdentifier name
  accepting : ∀ name ∈ sheet.accepting, IsIdentifier name
  entries : ∀ e ∈ sheet.entries.filterMap id, e.IsNamed

/-- The five lines as one text. -/
def text (sheet : Sheet) : String :=
  String.ofList (sheet.lines.flatMap (fun line => line ++ ['\n']))

/-- A sheet of names is written as its lines and is split into them again. -/
theorem IsNamed.splitLines_text {sheet : Sheet} (h : sheet.IsNamed) :
    Text.splitLines sheet.text.toList = sheet.lines := by
  have hinitial : lineText "initial" (sheet.initial.getD "") =
      lineText "initial" (String.intercalate "," sheet.initial.toList) := by
    cases sheet.initial <;> simp
  have hentries : ∀ part ∈ sheet.entries.map entryText, ∀ c ∈ part.toList,
      Text.isLineBreak c = false := by
    intro part hpart
    obtain ⟨e?, he, rfl⟩ := List.mem_map.mp hpart
    cases e? with
    | none => simp [entryText]
    | some e =>
      have hnamed : e.IsNamed := h.entries e (List.mem_filterMap.mpr ⟨some e, he, rfl⟩)
      exact hnamed.isLineBreak_eq_false
  have hlines : ∀ line ∈ sheet.lines, ∀ c ∈ line, Text.isLineBreak c = false := by
    intro line hline
    simp only [lines, hinitial, List.mem_cons, List.not_mem_nil, or_false] at hline
    rcases hline with rfl | rfl | rfl | rfl | rfl
    · exact isLineBreak_lineText (by simp [Text.isLineBreak])
        (fun name hn => (h.states name hn).isLineBreak_eq_false)
    · exact isLineBreak_lineText (by simp [Text.isLineBreak])
        (fun name hn => (h.symbols name hn).isLineBreak_eq_false)
    · exact isLineBreak_lineText (by simp [Text.isLineBreak]) (fun name hn =>
        (h.initial name (Option.mem_toList.mp hn)).isLineBreak_eq_false)
    · exact isLineBreak_lineText (by simp [Text.isLineBreak])
        (fun name hn => (h.accepting name hn).isLineBreak_eq_false)
    · exact isLineBreak_lineText (by simp [Text.isLineBreak]) hentries
  rw [text, String.toList_ofList, Text.splitLines_flatMap hlines]

/-- The sheet of a listing; without moves the last line has one empty entry. -/
def ofListing (l : Listing String) : Sheet where
  states := l.states
  symbols := l.symbols
  initial := l.initial
  accepting := l.accepting
  entries := if l.moves.isEmpty then [none]
    else l.moves.map (fun move => some ⟨move.source, move.symbol, move.target⟩)

/-- The entries on the sheet of a listing are its moves. -/
theorem filterMap_entries_ofListing (l : Listing String) :
    (ofListing l).entries.filterMap id =
      l.moves.map (fun move => ⟨move.source, move.symbol, move.target⟩) := by
  rw [ofListing]
  cases hmoves : l.moves with
  | nil => rfl
  | cons move rest => simp [List.filterMap_map]

/-- The sheet of a listing lists what the listing does. -/
theorem listing_ofListing (l : Listing String) : (ofListing l).listing = l := by
  have hmoves : ((ofListing l).entries.filterMap id).map Entry.move = l.moves := by
    rw [filterMap_entries_ofListing, List.map_map]
    exact List.map_id l.moves
  rw [listing, hmoves]
  rfl

/-- The sheet of a closed listing holds names if its states and symbols are names. -/
theorem isNamed_ofListing {l : Listing String} (h : l.Closed)
    (hstates : ∀ state ∈ l.states, IsIdentifier state)
    (hsymbols : ∀ symbol ∈ l.symbols, IsIdentifier symbol) : (ofListing l).IsNamed where
  states := hstates
  symbols := hsymbols
  initial := fun state hs => hstates state (h.initial state hs)
  accepting := fun state hs => hstates state (h.accepting state hs)
  entries := by
    have hepsilon : IsIdentifier "eps" := (isName_toList "eps").mp (by decide)
    intro e he
    rw [filterMap_entries_ofListing] at he
    obtain ⟨move, hmove, rfl⟩ := List.mem_map.mp he
    refine ⟨hstates _ (h.source move hmove), ?_, hstates _ (h.target move hmove)⟩
    rcases h.symbol move hmove with hsymbol | hsymbol
    · exact hsymbol ▸ hepsilon
    · exact hsymbols _ hsymbol

/-- A sheet of names is well formed if there is a state and a symbol. -/
theorem IsNamed.wellFormed_ofListing {l : Listing String} (h : (ofListing l).IsNamed)
    (hstates : l.states ≠ []) (hsymbols : l.symbols ≠ []) : (ofListing l).WellFormed where
  states_ne_nil := hstates
  symbols_ne_nil := hsymbols
  entries_ne_nil := by
    rw [ofListing]
    cases l.moves <;> simp
  states := h.states
  symbols := h.symbols
  initial := h.initial
  accepting := h.accepting
  entries := h.entries

end Sheet

/-! ## The description of an automaton -/

/-- Names that are texts are joined by commas. -/
theorem joinNames_eq (names : List String) :
    (joinNames names : Except (Failure String) String) = .ok (String.intercalate "," names) := by
  have hfind : names.findIdx? (fun name => (Name.text? name).isNone) = none := by
    rw [List.findIdx?_eq_none_iff]
    intro name _
    rfl
  have htexts : names.filterMap Name.text? = names := List.filterMap_some
  rw [joinNames, hfind, htexts]

/-- A move as the last line has it. -/
def moveText (move : Move String) : String :=
  move.source ++ ">" ++ move.symbol ++ ">" ++ move.target

/-- The entries that an automaton writes are its moves in the order of the matrix. -/
theorem moveEntries_automaton (l : Listing String) :
    l.automaton.moveEntries = l.matrix.moves.map moveText := by
  have hstates : l.states.eraseDups.zipIdx.map Prod.fst = l.states.eraseDups :=
    List.zipIdx_map_fst 0 _
  rw [Automaton.moveEntries, Listing.matrix, List.map_flatMap]
  conv_rhs => rw [← hstates, List.flatMap_map]
  apply List.flatMap_congr
  rintro ⟨source, p⟩ hmem
  have hp : l.states.eraseDups[p]? = some source := List.mem_zipIdx_iff_getElem?.mp hmem
  have hrow := Listing.flatMap_edgesFrom_automaton hp (fun symbol target? =>
    source ++ ">" ++ symbol ++ ">" ++ (target?.map Name.display).getD "")
  refine hrow.trans (List.map_congr_left ?_)
  intro move hmove
  rw [moveText, Listing.source_of_mem_movesFrom hmove]
  rfl

/-- The description of an automaton is the text of the sheet in the order of the matrix. -/
theorem description_automaton (l : Listing String) :
    l.automaton.description = .ok (Sheet.ofListing l.matrix).text := by
  have hentries : String.intercalate "," ((Sheet.ofListing l.matrix).entries.map entryText) =
      String.intercalate "," (l.matrix.moves.map moveText) := by
    rw [Sheet.ofListing]
    cases l.matrix.moves with
    | nil => rfl
    | cons move rest => exact congrArg _ (List.map_map ..)
  rw [Automaton.description, joinNames_eq, joinNames_eq, joinNames_eq, moveEntries_automaton,
    ← hentries]
  refine congrArg Except.ok ?_
  have hstates : (Sheet.ofListing l.matrix).states = l.automaton.states := rfl
  have hsymbols : (Sheet.ofListing l.matrix).symbols = l.automaton.alphabet := rfl
  have haccepting : (Sheet.ofListing l.matrix).accepting = l.automaton.accepting := rfl
  have hinitial : (Sheet.ofListing l.matrix).initial.getD "" =
      (l.automaton.initial.map Name.display).getD "" := by
    show l.initial.getD "" = (l.initial.map Name.display).getD ""
    cases l.initial <;> rfl
  rw [← String.toList_inj]
  simp [Sheet.text, Sheet.lines, lineText, hstates, hsymbols, haccepting, hinitial]

/-- Two lines with one key are the same exactly if what stands in their brackets is. -/
theorem lineText_inj {key content other : String} :
    lineText key content = lineText key other ↔ content = other := by
  rw [lineText, lineText, String.toList_inj]
  simp

/-- Names with commas between them are not nothing. -/
theorem intercalate_ne_empty {names : List String} (hsome : names ≠ [])
    (hnames : ∀ name ∈ names, IsIdentifier name) : String.intercalate "," names ≠ "" := by
  intro hempty
  have hread : names? "".toList = some names :=
    names?_eq_some.mpr ⟨hsome, hnames, by rw [hempty]⟩
  cases hread

namespace Sheet

/-- The text of a closed sheet that lacks nothing is read as the automaton of what it lists. -/
theorem IsNamed.ofDescription_text {l : Listing String} (h : (ofListing l).IsNamed) (hl : l.Closed)
    (hstates : l.states ≠ []) (hsymbols : l.symbols ≠ []) :
    Automaton.ofDescription (ofListing l).text = .ok l.automaton := by
  rw [Automaton.ofDescription_eq_ok_iff, h.splitLines_text]
  refine ⟨ofListing l, h.wellFormed_ofListing hstates hsymbols, List.prefix_refl _, ?_, ?_⟩
  · rwa [listing_ofListing]
  · rw [listing_ofListing]

/-- A text that is read names a state and a symbol. -/
theorem IsNamed.ne_nil_of_ofDescription {sheet : Sheet} (h : sheet.IsNamed) {m : Automaton String}
    (hread : Automaton.ofDescription sheet.text = .ok m) :
    sheet.states ≠ [] ∧ sheet.symbols ≠ [] := by
  obtain ⟨other, hform, hlines, -, -⟩ := Automaton.ofDescription_eq_ok_iff.mp hread
  rw [h.splitLines_text] at hlines
  have hsame : other.lines = sheet.lines := hlines.eq_of_length rfl
  simp only [lines, List.cons.injEq, lineText_inj] at hsame
  obtain ⟨hstates, hsymbols, -⟩ := hsame
  refine ⟨?_, ?_⟩
  · intro hnil
    rw [hnil] at hstates
    exact intercalate_ne_empty hform.states_ne_nil hform.states hstates
  · intro hnil
    rw [hnil] at hsymbols
    exact intercalate_ne_empty hform.symbols_ne_nil hform.symbols hsymbols

end Sheet

end Description

namespace Automaton

open Description

/-- An automaton named by identifiers has a description, which is accepted exactly if the automaton
has a state and a symbol and is then read as the same automaton. -/
theorem Built.exists_description {m : Automaton String} (h : m.Built)
    (hstates : ∀ state ∈ m.states, IsIdentifier state)
    (hsymbols : ∀ symbol ∈ m.alphabet, IsIdentifier symbol) :
    ∃ text, m.description = .ok text ∧
      (m.states ≠ [] ∧ m.alphabet ≠ [] → ofDescription text = .ok m) ∧
      ∀ m' : Automaton String, ofDescription text = .ok m' → m.states ≠ [] ∧ m.alphabet ≠ [] := by
  obtain ⟨l, hclosed, rfl⟩ := h.exists_listing
  have hnamed : (Sheet.ofListing l.matrix).IsNamed :=
    Sheet.isNamed_ofListing hclosed.matrix hstates hsymbols
  refine ⟨_, description_automaton l, ?_, ?_⟩
  · rintro ⟨hstates, hsymbols⟩
    rw [hnamed.ofDescription_text hclosed.matrix hstates hsymbols, Listing.automaton_matrix]
  · intro m' hread
    exact hnamed.ne_nil_of_ofDescription hread

/-- The states of an automaton that is read from a description are names. -/
theorem isIdentifier_of_mem_states {text : String} {m : Automaton String}
    (h : ofDescription text = .ok m) {state : String} (hstate : state ∈ m.states) :
    IsIdentifier state := by
  obtain ⟨sheet, hform, -, -, rfl⟩ := ofDescription_eq_ok_iff.mp h
  exact hform.states state (List.mem_eraseDups.mp hstate)

/-- An automaton that is read from a description has a state and a symbol. -/
theorem ne_nil_of_ofDescription {text : String} {m : Automaton String}
    (h : ofDescription text = .ok m) : m.states ≠ [] ∧ m.alphabet ≠ [] := by
  obtain ⟨sheet, hform, -, -, rfl⟩ := ofDescription_eq_ok_iff.mp h
  have hkeep : ∀ names : List String, names ≠ [] → names.eraseDups ≠ [] := by
    intro names hne hnil
    obtain ⟨name, hname⟩ := List.exists_mem_of_ne_nil names hne
    have hmem := List.mem_eraseDups.mpr hname
    rw [hnil] at hmem
    cases hmem
  exact ⟨hkeep _ hform.states_ne_nil, hkeep _ hform.symbols_ne_nil⟩

/-- The description of an automaton named by identifiers is accepted exactly if the automaton has a
state and a symbol, and is then read as the same automaton, in all its parts. So what is read from a
text has a description that is read as the same automaton and is written again for it. -/
theorem description_round_trip :
    (∀ m : Automaton String, m.Built → (∀ state ∈ m.states, IsIdentifier state) →
      (∀ symbol ∈ m.alphabet, IsIdentifier symbol) →
      ∃ text, m.description = .ok text ∧
        ((∃ m' : Automaton String, ofDescription text = .ok m') ↔
          m.states ≠ [] ∧ m.alphabet ≠ []) ∧
        ∀ m' : Automaton String, ofDescription text = .ok m' → m' = m) ∧
    ∀ (text : String) (m : Automaton String), ofDescription text = .ok m →
      ∃ written, m.description = .ok written ∧ ofDescription written = .ok m ∧
        (ofDescription written >>= fun m' : Automaton String => m'.description) = .ok written := by
  refine ⟨?_, ?_⟩
  · intro m hbuilt hstates hsymbols
    obtain ⟨text, hwrite, hread, honly⟩ := hbuilt.exists_description hstates hsymbols
    refine ⟨text, hwrite, ⟨fun ⟨m', h⟩ => honly m' h, fun h => ⟨m, hread h⟩⟩, ?_⟩
    intro m' h
    exact Except.ok.inj (h.symm.trans (hread (honly m' h)))
  · intro text m h
    obtain ⟨written, hwrite, hread, -⟩ := (built_of_ofDescription h).exists_description
      (fun state => isIdentifier_of_mem_states h) (fun symbol => isIdentifier_of_mem_alphabet h)
    have hsame := hread (ne_nil_of_ofDescription h)
    refine ⟨written, hwrite, hsame, ?_⟩
    rw [hsame]
    exact hwrite

/-- Two states with two moves between them, a move back that reads nothing, no initial state and an
accepting state that is named twice; the moves are not added in the order of the matrix. -/
def ferry : Automaton String :=
  replay [.addState "p", .addState "q", .addSymbol "b", .addSymbol "a", .addAccepting "q",
    .addAccepting "q", .addTransition "q" "eps" "p", .addTransition "p" "a" "q",
    .addTransition "p" "b" "q"]

/-- An automaton of names that is written and read again as it was. -/
theorem description_round_trip_ferry :
    ferry.Built ∧ (∀ state ∈ ferry.states, IsIdentifier state) ∧
      (∀ symbol ∈ ferry.alphabet, IsIdentifier symbol) ∧
      ∃ text, ferry.description = .ok text ∧ ofDescription text = .ok ferry := by
  have hnames : ∀ name ∈ ["p", "q", "a", "b"], IsIdentifier name := by
    intro name hname
    have hall : ∀ name ∈ ["p", "q", "a", "b"], isName name.toList = true := by decide
    exact (isName_toList name).mp (hall name hname)
  have hbuilt : ferry.Built := ⟨_, rfl⟩
  have hstates : ∀ state ∈ ferry.states, IsIdentifier state := by
    have hsub : ferry.states ⊆ ["p", "q", "a", "b"] := by decide
    exact fun state hstate => hnames state (hsub hstate)
  have hsymbols : ∀ symbol ∈ ferry.alphabet, IsIdentifier symbol := by
    have hsub : ferry.alphabet ⊆ ["p", "q", "a", "b"] := by decide
    exact fun symbol hsymbol => hnames symbol (hsub hsymbol)
  obtain ⟨text, hwrite, haccept, hsame⟩ :=
    description_round_trip.1 ferry hbuilt hstates hsymbols
  obtain ⟨m', hread⟩ := haccept.mpr ⟨by decide, by decide⟩
  refine ⟨hbuilt, hstates, hsymbols, text, hwrite, ?_⟩
  rw [hread, hsame m' hread]

end Automaton

end Kleene
