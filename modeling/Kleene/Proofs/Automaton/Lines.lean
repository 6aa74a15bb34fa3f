import Kleene.Automaton.Description
import Kleene.Proofs.Automaton.Listing
import Mathlib

/-!
# The form of the five lines of a description

`Description.ReadsLine n line calls` says that a text has the form of the line with number `n` and
stands for the given calls. It is stated by what is written: names with commas between them, moves
with arrow heads between their parts, and around them a key and brackets.

`Description.lineCalls?` puts the readers of the five lines behind one function; the main statement,
`lineCalls?_eq_some`, is that it reads exactly the lines of these forms.
-/

set_option autoImplicit false

namespace Kleene

/-- Splitting at a separator is what the list library calls it too. -/
theorem Text.split_eq_splitOn (separator : Char) (text : List Char) :
    Text.split separator text = text.splitOn separator := by
  induction text with
  | nil => rfl
  | cons c rest ih =>
    rw [Text.split, List.splitOn_cons_eq_if_modifyHead, ih]
    split
    · rfl
    · cases h : rest.splitOn separator with
      | nil => exact absurd h (List.splitOn_ne_nil separator rest)
      | cons part parts => rfl

namespace Description

/-- A name: one or more ASCII letters, ASCII digits and underscores. -/
def IsIdentifier (name : String) : Prop :=
  name ≠ "" ∧ ∀ c ∈ name.toList,
    ('A' ≤ c ∧ c ≤ 'Z') ∨ ('a' ≤ c ∧ c ≤ 'z') ∨ ('0' ≤ c ∧ c ≤ '9') ∨ c = '_'

/-- A move as it is written. -/
def Entry.text (e : Entry) : String :=
  e.source ++ ">" ++ e.symbol ++ ">" ++ e.target

/-- A move between names. -/
def Entry.IsNamed (e : Entry) : Prop :=
  IsIdentifier e.source ∧ IsIdentifier e.symbol ∧ IsIdentifier e.target

/-- The call that adds a move. -/
def Entry.call (e : Entry) : Operation String :=
  .addTransition e.source e.symbol e.target

/-- An entry of the last line as it is written: a move, or nothing. -/
def entryText : Option Entry → String
  | some e => e.text
  | none => ""

/-- The line with a key and something in brackets. -/
def lineText (key content : String) : List Char :=
  (key ++ "=[" ++ content ++ "]").toList

/-- A text that has the form of the line with the given number, and the calls that it stands for. -/
inductive ReadsLine : Nat → List Char → List (Operation String) → Prop
  | states {names : List String} (hsome : names ≠ []) (hnames : ∀ name ∈ names, IsIdentifier name) :
    ReadsLine 1 (lineText "states" (String.intercalate "," names)) (names.map .addState)
  | alphabet {names : List String} (hsome : names ≠ [])
      (hnames : ∀ name ∈ names, IsIdentifier name) :
    ReadsLine 2 (lineText "alpha" (String.intercalate "," names)) (names.map .addSymbol)
  | initial {name? : Option String} (hname : ∀ name ∈ name?, IsIdentifier name) :
    ReadsLine 3 (lineText "initial" (name?.getD "")) (name?.toList.map .setInitial)
  | accepting {names : List String} (hnames : ∀ name ∈ names, IsIdentifier name) :
    ReadsLine 4 (lineText "accepting" (String.intercalate "," names)) (names.map .addAccepting)
  | moves {entries : List (Option Entry)} (hsome : entries ≠ [])
      (hentries : ∀ e ∈ entries.filterMap id, e.IsNamed) :
    ReadsLine 5 (lineText "trans" (String.intercalate "," (entries.map entryText)))
      ((entries.filterMap id).map Entry.call)

/-! ## Names -/

/-- The characters of names are the ASCII letters, the ASCII digits and the underscore. -/
theorem isNameChar_iff (c : Char) : isNameChar c = true ↔
    ('A' ≤ c ∧ c ≤ 'Z') ∨ ('a' ≤ c ∧ c ≤ 'z') ∨ ('0' ≤ c ∧ c ≤ '9') ∨ c = '_' := by
  simp [isNameChar, Char.isAlphanum, Char.isAlpha, Char.isUpper, Char.isLower, Char.isDigit,
    Char.le_def, or_assoc]

/-- The texts that are taken for names are the names. -/
theorem isName_toList (name : String) : isName name.toList = true ↔ IsIdentifier name := by
  rw [isName, Bool.and_eq_true, List.all_eq_true, IsIdentifier]
  refine and_congr ?_ (forall₂_congr (fun c _ => isNameChar_iff c))
  simp

/-- A name holds no separator of names or of the parts of a move. -/
theorem IsIdentifier.not_mem {name : String} (h : IsIdentifier name) {separator : Char}
    (hseparator : isNameChar separator = false) : separator ∉ name.toList := by
  intro hmem
  have hchar : isNameChar separator = true := (isNameChar_iff separator).mpr (h.2 separator hmem)
  rw [hseparator] at hchar
  cases hchar

/-! ## The readers of what stands between the brackets -/

/-- The two conditions on a line with brackets, one after the other. -/
theorem content?_eq (key : String) (line : List Char) :
    content? key line =
      if (key.toList ++ ['=', '[']).isPrefixOf line = true then
        if (line.drop (key.toList ++ ['=', '[']).length).getLast? = some ']' then
          some (line.drop (key.toList ++ ['=', '[']).length).dropLast
        else none
      else none := by
  simp only [content?, guard, beq_iff_eq]
  split
  · split <;> rfl
  · rfl

/-- The bracketed part of a line. -/
theorem content?_eq_some {key : String} {line content : List Char} :
    content? key line = some content ↔ line = lineText key (String.ofList content) := by
  have hline : lineText key (String.ofList content) =
      (key.toList ++ ['=', '[']) ++ (content ++ [']']) := by
    simp [lineText]
  rw [content?_eq, hline]
  constructor
  · intro h
    obtain ⟨hopen, h⟩ := Option.ite_none_right_eq_some.mp h
    obtain ⟨rest, rfl⟩ := List.isPrefixOf_iff_prefix.mp hopen
    rw [List.drop_left] at h
    obtain ⟨hclose, h⟩ := Option.ite_none_right_eq_some.mp h
    obtain ⟨body, rfl⟩ := List.getLast?_eq_some_iff.mp hclose
    rw [List.dropLast_concat, Option.some.injEq] at h
    rw [h]
  · rintro rfl
    rw [if_pos (List.isPrefixOf_iff_prefix.mpr ⟨_, rfl⟩), List.drop_left,
      if_pos List.getLast?_concat, List.dropLast_concat]

/-- Names with commas between them. -/
theorem names?_eq_some {content : List Char} {names : List String} :
    names? content = some names ↔ names ≠ [] ∧ (∀ name ∈ names, IsIdentifier name) ∧
      content = (String.intercalate "," names).toList := by
  rw [names?, Text.split_eq_splitOn, String.toList_intercalate]
  constructor
  · intro h
    obtain ⟨hall, hnames⟩ := Option.ite_none_right_eq_some.mp h
    obtain rfl := Option.some.inj hnames
    rw [List.all_eq_true] at hall
    refine ⟨by simp, ?_, ?_⟩
    · intro name hname
      obtain ⟨part, hpart, rfl⟩ := List.mem_map.mp hname
      rw [← isName_toList, String.toList_ofList]
      exact hall part hpart
    · simp [Function.comp_def, List.intercalate_splitOn]
  · rintro ⟨hsome, hnames, rfl⟩
    have hparts : (List.intercalate ",".toList (names.map String.toList)).splitOn ',' =
        names.map String.toList := by
      refine List.splitOn_intercalate ',' ?_ (by simpa using hsome)
      intro part hpart
      obtain ⟨name, hname, rfl⟩ := List.mem_map.mp hpart
      exact (hnames name hname).not_mem (by decide)
    have hall : (names.map String.toList).all isName = true := by
      rw [List.all_eq_true]
      intro part hpart
      obtain ⟨name, hname, rfl⟩ := List.mem_map.mp hpart
      exact (isName_toList name).mpr (hnames name hname)
    rw [hparts, if_pos hall]
    simp [Function.comp_def]

/-- An entry is a move exactly if it is three names with arrow heads between them. -/
theorem entry?_eq_some {part : List Char} {e : Entry} :
    entry? part = some e ↔ e.IsNamed ∧ part = e.text.toList := by
  have htext : e.text.toList = List.intercalate ['>']
      [e.source.toList, e.symbol.toList, e.target.toList] := by
    simp [Entry.text, List.intercalate_cons_cons]
  unfold entry?
  rw [Text.split_eq_splitOn, htext]
  constructor
  · intro h
    split at h
    · next source symbol target hparts =>
      obtain ⟨hnames, he⟩ := Option.ite_none_right_eq_some.mp h
      obtain rfl := Option.some.inj he
      rw [Bool.and_eq_true, Bool.and_eq_true] at hnames
      obtain ⟨⟨hsource, hsymbol⟩, htarget⟩ := hnames
      refine ⟨⟨?_, ?_, ?_⟩, ?_⟩
      · rwa [← isName_toList, String.toList_ofList]
      · rwa [← isName_toList, String.toList_ofList]
      · rwa [← isName_toList, String.toList_ofList]
      · have hjoin : List.intercalate ['>'] (part.splitOn '>') = part :=
          List.intercalate_splitOn '>'
        rw [← hjoin, hparts]
        simp only [String.toList_ofList]
    · cases h
  · rintro ⟨⟨hsource, hsymbol, htarget⟩, rfl⟩
    have harrow : isNameChar '>' = false := by decide
    have hparts : (List.intercalate ['>'] [e.source.toList, e.symbol.toList,
        e.target.toList]).splitOn '>' = [e.source.toList, e.symbol.toList, e.target.toList] := by
      refine List.splitOn_intercalate '>' ?_ (by simp)
      intro part hpart
      simp only [List.mem_cons, List.not_mem_nil, or_false] at hpart
      rcases hpart with rfl | rfl | rfl
      · exact hsource.not_mem harrow
      · exact hsymbol.not_mem harrow
      · exact htarget.not_mem harrow
    rw [hparts]
    simp [(isName_toList _).mpr hsource, (isName_toList _).mpr hsymbol,
      (isName_toList _).mpr htarget]

/-- A move is written with arrow heads, so it is no empty entry. -/
theorem Entry.text_ne_empty (e : Entry) : e.text.toList.isEmpty = false := by
  simp [Entry.text]

/-- Parts of the last line that are moves or empty. -/
theorem mapM_entry?_eq_some {parts : List (List Char)} {es : List Entry} :
    (parts.filter (fun part => !part.isEmpty)).mapM entry? = some es ↔
      ∃ entries : List (Option Entry), parts = entries.map (fun e => (entryText e).toList) ∧
        (∀ e ∈ entries.filterMap id, e.IsNamed) ∧ es = entries.filterMap id := by
  induction parts generalizing es with
  | nil =>
    constructor
    · intro h
      exact ⟨[], rfl, by simp, (Option.some.inj h).symm⟩
    · rintro ⟨entries, hparts, -, rfl⟩
      obtain rfl : entries = [] := List.map_eq_nil_iff.mp hparts.symm
      rfl
  | cons part parts ih =>
    constructor
    · intro h
      by_cases hempty : part.isEmpty = true
      · rw [List.filter_cons_of_neg (by simp [hempty])] at h
        obtain ⟨entries, rfl, hnamed, rfl⟩ := ih.mp h
        refine ⟨none :: entries, ?_, hnamed, rfl⟩
        simpa [entryText] using hempty
      · rw [List.filter_cons_of_pos (by simpa using hempty), List.mapM_cons] at h
        obtain ⟨e, he, h⟩ := Option.bind_eq_some_iff.mp h
        obtain ⟨rest, hrest, h⟩ := Option.bind_eq_some_iff.mp h
        obtain rfl := Option.some.inj h
        obtain ⟨hnamed, rfl⟩ := entry?_eq_some.mp he
        obtain ⟨entries, rfl, hall, rfl⟩ := ih.mp hrest
        exact ⟨some e :: entries, rfl, List.forall_mem_cons.mpr ⟨hnamed, hall⟩, rfl⟩
    · rintro ⟨entries, hparts, hnamed, rfl⟩
      obtain ⟨e?, entries, rfl⟩ : ∃ e? rest, entries = e? :: rest := by
        cases entries with
        | nil => simp at hparts
        | cons e? rest => exact ⟨e?, rest, rfl⟩
      obtain ⟨hpart, hrest⟩ := List.cons.inj hparts
      obtain rfl : part = (entryText e?).toList := hpart
      cases e? with
      | none => exact ih.mpr ⟨entries, hrest, hnamed, rfl⟩
      | some e =>
        obtain ⟨hmove, hall⟩ := List.forall_mem_cons.mp hnamed
        have he : entry? (entryText (some e)).toList = some e := entry?_eq_some.mpr ⟨hmove, rfl⟩
        have hkeep : (!(entryText (some e)).toList.isEmpty) = true := by
          rw [entryText.eq_def, e.text_ne_empty]
          rfl
        rw [List.filter_cons_of_pos (by exact hkeep), List.mapM_cons, he,
          ih.mpr ⟨entries, hrest, hall, rfl⟩]
        rfl

/-- Moves with commas between them, with empty entries left out. -/
theorem entries?_eq_some {content : List Char} {es : List Entry} :
    entries? content = some es ↔ ∃ entries : List (Option Entry), entries ≠ [] ∧
      (∀ e ∈ entries.filterMap id, e.IsNamed) ∧ es = entries.filterMap id ∧
      content = (String.intercalate "," (entries.map entryText)).toList := by
  rw [entries?, Text.split_eq_splitOn, mapM_entry?_eq_some]
  constructor
  · rintro ⟨entries, hparts, hnamed, rfl⟩
    refine ⟨entries, ?_, hnamed, rfl, ?_⟩
    · rintro rfl
      exact List.splitOn_ne_nil ',' content hparts
    · have hjoin : List.intercalate [','] (content.splitOn ',') = content :=
        List.intercalate_splitOn ','
      rw [← hjoin, hparts]
      simp [Function.comp_def]
  · rintro ⟨entries, hsome, hnamed, rfl, rfl⟩
    refine ⟨entries, ?_, hnamed, rfl⟩
    rw [String.toList_intercalate, List.map_map]
    refine List.splitOn_intercalate ',' ?_ (by simpa using hsome)
    intro part hpart
    obtain ⟨e?, he, rfl⟩ := List.mem_map.mp hpart
    cases e? with
    | none => simp [entryText]
    | some e =>
      have hcomma : isNameChar ',' = false := by decide
      obtain ⟨hsource, hsymbol, htarget⟩ := hnamed e (List.mem_filterMap.mpr ⟨some e, he, rfl⟩)
      simp [entryText, Entry.text, hsource.not_mem hcomma, hsymbol.not_mem hcomma,
        htarget.not_mem hcomma]

/-- One name, or nothing. -/
theorem optionalName?_eq_some {content : List Char} {name? : Option String} :
    optionalName? content = some name? ↔
      (∀ name ∈ name?, IsIdentifier name) ∧ content = (name?.getD "").toList := by
  rw [optionalName?]
  cases content with
  | nil =>
    rw [List.isEmpty_nil, if_pos rfl, Option.some.injEq]
    constructor
    · rintro rfl
      simp
    · rintro ⟨hname, hcontent⟩
      cases name? with
      | none => rfl
      | some name => exact absurd (String.toList_eq_nil_iff.mp hcontent.symm) (hname name rfl).1
  | cons c rest =>
    rw [List.isEmpty_cons, if_neg Bool.false_ne_true]
    constructor
    · intro h
      obtain ⟨hname, h⟩ := Option.ite_none_right_eq_some.mp h
      obtain rfl := Option.some.inj h
      refine ⟨?_, by simp⟩
      rintro name ⟨⟩
      rwa [← isName_toList, String.toList_ofList]
    · rintro ⟨hname, hcontent⟩
      cases name? with
      | none => simp at hcontent
      | some name =>
        rw [hcontent, Option.getD_some, if_pos ((isName_toList name).mpr (hname name rfl))]
        simp

/-- Names with commas between them, or nothing. -/
theorem optionalNames?_eq_some {content : List Char} {names : List String} :
    optionalNames? content = some names ↔
      (∀ name ∈ names, IsIdentifier name) ∧ content = (String.intercalate "," names).toList := by
  rw [optionalNames?]
  cases content with
  | nil =>
    rw [List.isEmpty_nil, if_pos rfl, Option.some.injEq]
    constructor
    · rintro rfl
      simp
    · rintro ⟨hnames, hcontent⟩
      cases names with
      | nil => rfl
      | cons name rest =>
        have hempty := String.toList_eq_nil_iff.mp hcontent.symm
        have hname := (hnames name List.mem_cons_self).1
        cases rest with
        | nil => exact absurd (by simpa using hempty) hname
        | cons next rest => simp [String.intercalate_cons_cons] at hempty
  | cons c rest =>
    rw [List.isEmpty_cons, if_neg Bool.false_ne_true, names?_eq_some]
    refine ⟨fun h => h.2, fun h => ⟨?_, h⟩⟩
    rintro rfl
    simp at h

/-! ## One line -/

/-- The calls that a line with a number stands for, if it has the form of this line. -/
def lineCalls? (line : List Char) : Nat → Option (List (Operation String))
  | 1 => ((content? "states" line).bind names?).map (List.map .addState)
  | 2 => ((content? "alpha" line).bind names?).map (List.map .addSymbol)
  | 3 => ((content? "initial" line).bind optionalName?).map
    (fun name? => name?.toList.map .setInitial)
  | 4 => ((content? "accepting" line).bind optionalNames?).map (List.map .addAccepting)
  | 5 => ((content? "trans" line).bind entries?).map (List.map Entry.call)
  | _ => none

/-- A line stands for calls if it has the key and the brackets, and what stands between them is
read as a value that the calls are made out of. -/
theorem map_bind_content?_eq_some {α : Type} {key : String} {read? : List Char → Option α}
    {make : α → List (Operation String)} {line : List Char} {calls : List (Operation String)} :
    ((content? key line).bind read?).map make = some calls ↔
      ∃ (content : String) (value : α), line = lineText key content ∧
        read? content.toList = some value ∧ make value = calls := by
  rw [Option.map_eq_some_iff]
  constructor
  · rintro ⟨value, hread, rfl⟩
    obtain ⟨content, hline, hvalue⟩ := Option.bind_eq_some_iff.mp hread
    refine ⟨String.ofList content, value, content?_eq_some.mp hline, ?_, rfl⟩
    rwa [String.toList_ofList]
  · rintro ⟨content, value, hline, hvalue, rfl⟩
    refine ⟨value, Option.bind_eq_some_iff.mpr ⟨content.toList, ?_, hvalue⟩, rfl⟩
    rwa [content?_eq_some, String.ofList_toList]

/-- A line is read exactly if it has its form, and then as the calls that it stands for. -/
theorem lineCalls?_eq_some {n : Nat} {line : List Char} {calls : List (Operation String)} :
    lineCalls? line n = some calls ↔ ReadsLine n line calls := by
  constructor
  · intro h
    match n with
    | 1 =>
      obtain ⟨content, names, rfl, hread, rfl⟩ := map_bind_content?_eq_some.mp h
      obtain ⟨hsome, hnames, hcontent⟩ := names?_eq_some.mp hread
      rw [String.toList_inj.mp hcontent]
      exact .states hsome hnames
    | 2 =>
      obtain ⟨content, names, rfl, hread, rfl⟩ := map_bind_content?_eq_some.mp h
      obtain ⟨hsome, hnames, hcontent⟩ := names?_eq_some.mp hread
      rw [String.toList_inj.mp hcontent]
      exact .alphabet hsome hnames
    | 3 =>
      obtain ⟨content, name?, rfl, hread, rfl⟩ := map_bind_content?_eq_some.mp h
      obtain ⟨hname, hcontent⟩ := optionalName?_eq_some.mp hread
      rw [String.toList_inj.mp hcontent]
      exact .initial hname
    | 4 =>
      obtain ⟨content, names, rfl, hread, rfl⟩ := map_bind_content?_eq_some.mp h
      obtain ⟨hnames, hcontent⟩ := optionalNames?_eq_some.mp hread
      rw [String.toList_inj.mp hcontent]
      exact .accepting hnames
    | 5 =>
      obtain ⟨content, es, rfl, hread, rfl⟩ := map_bind_content?_eq_some.mp h
      obtain ⟨entries, hsome, hentries, rfl, hcontent⟩ := entries?_eq_some.mp hread
      rw [String.toList_inj.mp hcontent]
      exact .moves hsome hentries
    | 0 => cases h
    | n + 6 => cases h
  · intro h
    cases h with
    | states hsome hnames =>
      have hread := names?_eq_some.mpr ⟨hsome, hnames, rfl⟩
      exact map_bind_content?_eq_some.mpr ⟨_, _, rfl, hread, rfl⟩
    | alphabet hsome hnames =>
      have hread := names?_eq_some.mpr ⟨hsome, hnames, rfl⟩
      exact map_bind_content?_eq_some.mpr ⟨_, _, rfl, hread, rfl⟩
    | initial hname =>
      have hread := optionalName?_eq_some.mpr ⟨hname, rfl⟩
      exact map_bind_content?_eq_some.mpr ⟨_, _, rfl, hread, rfl⟩
    | accepting hnames =>
      have hread := optionalNames?_eq_some.mpr ⟨hnames, rfl⟩
      exact map_bind_content?_eq_some.mpr ⟨_, _, rfl, hread, rfl⟩
    | moves hsome hentries =>
      have hread := entries?_eq_some.mpr ⟨_, hsome, hentries, rfl, rfl⟩
      exact map_bind_content?_eq_some.mpr ⟨_, _, rfl, hread, rfl⟩

end Description

end Kleene
