import Kleene.Proofs.Automaton.Lines
import Kleene.Proofs.Expression.Matching
import Mathlib

/-!
# The patterns of the five lines

The readers of a description split what stands in brackets at its separators. The form of a line can
be given by a pattern instead: a regular expression over characters that the whole line has to
match. `Description.linePattern?` has the pattern of each of the five lines.

The main statement is `lineCalls?_isSome_iff`: the readers take exactly the lines that match.
-/

set_option autoImplicit false

namespace Kleene.Description

open Regex

/-! ## Parts of patterns -/

/-- The characters from one to another. -/
def charRange (first last : Char) : List Char :=
  (List.range' first.toNat (last.toNat + 1 - first.toNat)).map Char.ofNat

/-- One character of a name. -/
def nameCharPattern : Regex Char :=
  unions ((charRange 'A' 'Z' ++ charRange 'a' 'z' ++ charRange '0' '9' ++ ['_']).map .letter)

/-- A name: one character of a name or more. -/
def namePattern : Regex Char :=
  .append nameCharPattern (.star nameCharPattern)

/-- A move: three names with arrow heads between them. -/
def movePattern : Regex Char :=
  .append namePattern (.append (.letter '>')
    (.append namePattern (.append (.letter '>') namePattern)))

/-- Items with commas between them, at least one: any number of items with a comma after each, and
one more item. -/
def separated (item : Regex Char) : Regex Char :=
  .append (.star (.append item (.letter ','))) item

/-- A key, and something in brackets. -/
def bracketed (key : String) (content : Regex Char) : Regex Char :=
  .append (sequence ((key.toList ++ ['=', '[']).map .letter)) (.append content (.letter ']'))

/-- The pattern of the line with the given number. -/
def linePattern? : Nat → Option (Regex Char)
  | 1 => some (bracketed "states" (separated namePattern))
  | 2 => some (bracketed "alpha" (separated namePattern))
  | 3 => some (bracketed "initial" (.star nameCharPattern))
  | 4 => some (bracketed "accepting" (.union (separated namePattern) .empty))
  | 5 => some (bracketed "trans" (separated (.union movePattern .empty)))
  | _ => none

/-! ## What the parts match -/

/-- The characters of a range are those between its ends, as far as no half of a pair lies below its
last one. -/
theorem mem_charRange {first last c : Char} (hlast : last.toNat < 0xd800) :
    c ∈ charRange first last ↔ first ≤ c ∧ c ≤ last := by
  have hle : ∀ {d e : Char}, d ≤ e ↔ d.toNat ≤ e.toNat := Iff.rfl
  rw [charRange, List.mem_map, hle, hle]
  constructor
  · rintro ⟨code, hcode, rfl⟩
    obtain ⟨hfirst, hbound⟩ := List.mem_range'_1.mp hcode
    have hvalid : code.isValidChar := .inl (by omega)
    rw [Char.toNat_ofNat, if_pos hvalid]
    omega
  · rintro ⟨hfirst, hbound⟩
    exact ⟨c.toNat, List.mem_range'_1.mpr (by omega), Char.ofNat_toNat c⟩

/-- A union of letters matches each of them. -/
theorem mem_language_unions_letter {letters word : List Char} :
    word ∈ (unions (letters.map .letter)).language ↔ ∃ c ∈ letters, word = [c] := by
  induction letters with
  | nil => simp [unions, language]
  | cons c rest ih =>
    have hunion : (unions ((c :: rest).map Regex.letter)).language =
        {[c]} + (unions (rest.map Regex.letter)).language := by
      rw [language_unions, language_unions, List.map_map, List.map_cons, List.sum_cons]
      simp [language]
    rw [hunion, Language.mem_add, ih, List.exists_mem_cons_iff]
    rfl

/-- A sequence of letters matches the word of these letters. -/
theorem mem_language_sequence_letter {letters word : List Char} :
    word ∈ (sequence (letters.map .letter)).language ↔ word = letters := by
  induction letters generalizing word with
  | nil => rfl
  | cons c rest ih =>
    have happend : (sequence ((c :: rest).map Regex.letter)).language =
        {[c]} * (sequence (rest.map Regex.letter)).language := by
      rw [language_sequence, language_sequence, List.map_map, List.map_cons, List.prod_cons]
      simp [language]
    rw [happend, Language.mem_mul]
    constructor
    · rintro ⟨front, rfl, back, hback, rfl⟩
      rw [ih.mp hback]
      rfl
    · rintro rfl
      exact ⟨[c], rfl, rest, ih.mpr rfl, rfl⟩

/-- The pattern of one character matches each character of names. -/
theorem mem_language_nameChar {word : List Char} :
    word ∈ nameCharPattern.language ↔ ∃ c, isNameChar c = true ∧ word = [c] := by
  rw [nameCharPattern, mem_language_unions_letter]
  refine exists_congr (fun c => and_congr_left (fun _ => ?_))
  rw [List.mem_append, List.mem_append, List.mem_append, mem_charRange (by decide),
    mem_charRange (by decide), mem_charRange (by decide), List.mem_singleton, isNameChar_iff,
    or_assoc, or_assoc]

/-- Repeated, it matches the texts of such characters. -/
theorem mem_language_star_nameChar {word : List Char} :
    word ∈ (Regex.star nameCharPattern).language ↔ ∀ c ∈ word, isNameChar c = true := by
  rw [language, Language.mem_kstar]
  constructor
  · rintro ⟨parts, rfl, hparts⟩ c hc
    obtain ⟨part, hpart, hc⟩ := List.mem_flatten.mp hc
    obtain ⟨d, hd, rfl⟩ := mem_language_nameChar.mp (hparts part hpart)
    rwa [List.mem_singleton.mp hc]
  · intro h
    have hword : word = (word.map (fun c => [c])).flatten := by
      rw [← List.flatMap_def, List.flatMap_singleton']
    refine ⟨word.map (fun c => [c]), hword, fun part hpart => ?_⟩
    obtain ⟨c, hc, rfl⟩ := List.mem_map.mp hpart
    exact mem_language_nameChar.mpr ⟨c, h c hc, rfl⟩

/-- The pattern of names matches the names. -/
theorem mem_language_name {word : List Char} :
    word ∈ namePattern.language ↔ ∃ name, IsIdentifier name ∧ word = name.toList := by
  have hname : word ∈ namePattern.language ↔ isName word = true := by
    rw [namePattern, language, Language.mem_mul, isName, Bool.and_eq_true, List.all_eq_true]
    constructor
    · rintro ⟨front, hfront, back, hback, rfl⟩
      obtain ⟨c, hc, rfl⟩ := mem_language_nameChar.mp hfront
      exact ⟨rfl, List.forall_mem_cons.mpr ⟨hc, mem_language_star_nameChar.mp hback⟩⟩
    · rintro ⟨hsome, hchars⟩
      cases word with
      | nil => cases hsome
      | cons c rest =>
        obtain ⟨hc, hrest⟩ := List.forall_mem_cons.mp hchars
        exact ⟨[c], mem_language_nameChar.mpr ⟨c, hc, rfl⟩, rest,
          mem_language_star_nameChar.mpr hrest, rfl⟩
  rw [hname]
  constructor
  · intro h
    refine ⟨String.ofList word, ?_, String.toList_ofList.symm⟩
    rwa [← isName_toList, String.toList_ofList]
  · rintro ⟨name, h, rfl⟩
    exact (isName_toList name).mpr h

/-- The pattern of moves matches the moves between names. -/
theorem mem_language_move {word : List Char} :
    word ∈ movePattern.language ↔ ∃ e : Entry, e.IsNamed ∧ word = e.text.toList := by
  simp only [movePattern, language, Language.mem_mul]
  constructor
  · rintro ⟨_, hfront, _, ⟨_, rfl, _, ⟨_, hmiddle, _, ⟨_, rfl, _, hback, rfl⟩, rfl⟩, rfl⟩, rfl⟩
    obtain ⟨source, hsource, rfl⟩ := mem_language_name.mp hfront
    obtain ⟨symbol, hsymbol, rfl⟩ := mem_language_name.mp hmiddle
    obtain ⟨target, htarget, rfl⟩ := mem_language_name.mp hback
    exact ⟨⟨source, symbol, target⟩, ⟨hsource, hsymbol, htarget⟩, by simp [Entry.text]⟩
  · rintro ⟨e, ⟨hsource, hsymbol, htarget⟩, rfl⟩
    refine ⟨_, mem_language_name.mpr ⟨_, hsource, rfl⟩, _, ⟨['>'], rfl, _,
      ⟨_, mem_language_name.mpr ⟨_, hsymbol, rfl⟩, _,
        ⟨['>'], rfl, _, mem_language_name.mpr ⟨_, htarget, rfl⟩, rfl⟩, rfl⟩, rfl⟩, ?_⟩
    simp [Entry.text]

/-- A move or nothing matches an entry of the last line. -/
theorem mem_language_entry {word : List Char} :
    word ∈ (Regex.union movePattern .empty).language ↔
      ∃ e? : Option Entry, (∀ e ∈ e?, e.IsNamed) ∧ word = (entryText e?).toList := by
  rw [language, Language.mem_add, mem_language_move, language, Language.mem_one]
  constructor
  · rintro (⟨e, he, rfl⟩ | rfl)
    · exact ⟨some e, by simpa using he, rfl⟩
    · exact ⟨none, by simp, rfl⟩
  · rintro ⟨e?, he, rfl⟩
    cases e? with
    | none => exact .inr rfl
    | some e => exact .inl ⟨e, he e rfl, rfl⟩

/-! ## What stands between the brackets -/

/-- A comma after each but the last is a comma between them. -/
theorem intercalate_concat (separator last : List Char) (parts : List (List Char)) :
    separator.intercalate (parts ++ [last]) =
      (parts.map (fun part => part ++ separator)).flatten ++ last := by
  induction parts with
  | nil => simp
  | cons part parts ih =>
    have hsome : parts ++ [last] ≠ [] := List.append_ne_nil_of_right_ne_nil parts (by simp)
    rw [List.cons_append, List.intercalate_cons_of_ne_nil hsome, ih]
    simp

/-- Items with commas between them are matched exactly if each of them matches. -/
theorem mem_language_separated {item : Regex Char} {word : List Char} :
    word ∈ (separated item).language ↔ ∃ parts : List (List Char), parts ≠ [] ∧
      (∀ part ∈ parts, part ∈ item.language) ∧ word = [','].intercalate parts := by
  rw [separated, language, Language.mem_mul]
  constructor
  · rintro ⟨front, hfront, last, hlast, rfl⟩
    obtain ⟨pieces, rfl, hpieces⟩ := Language.mem_kstar.mp hfront
    have hmap : ∀ piece ∈ pieces, ∃ part : {part // part ∈ item.language},
        part.val ++ [','] = piece := by
      intro piece hpiece
      obtain ⟨part, hpart, -, rfl, rfl⟩ := Language.mem_mul.mp (hpieces piece hpiece)
      exact ⟨⟨part, hpart⟩, rfl⟩
    obtain ⟨parts, rfl⟩ := (Set.range_list_map _).ge hmap
    refine ⟨parts.map Subtype.val ++ [last], by simp, ?_, ?_⟩
    · intro part hpart
      rcases List.mem_append.mp hpart with hpart | hpart
      · obtain ⟨part, -, rfl⟩ := List.mem_map.mp hpart
        exact part.property
      · rwa [List.mem_singleton.mp hpart]
    · rw [intercalate_concat, List.map_map]
      rfl
  · rintro ⟨parts, hsome, hparts, rfl⟩
    obtain ⟨init, last, rfl⟩ := (List.eq_nil_or_concat' parts).resolve_left hsome
    rw [intercalate_concat]
    refine ⟨_, Language.mem_kstar.mpr ⟨_, rfl, ?_⟩, last, hparts last (by simp), rfl⟩
    intro piece hpiece
    obtain ⟨part, hpart, rfl⟩ := List.mem_map.mp hpiece
    exact Language.mem_mul.mpr ⟨part, hparts part (by simp [hpart]), [','], rfl, rfl⟩

/-- If an item matches the texts of some values, items match the texts of some such values with
commas between them. -/
theorem mem_language_separated_iff {β : Type} {item : Regex Char} {text : β → String}
    {holds : β → Prop}
    (hitem : ∀ {part : List Char},
      part ∈ item.language ↔ ∃ b, holds b ∧ part = (text b).toList) {content : String} :
    content.toList ∈ (separated item).language ↔ ∃ values : List β, values ≠ [] ∧
      (∀ b ∈ values, holds b) ∧ content = String.intercalate "," (values.map text) := by
  have htexts : ∀ values : List β, (String.intercalate "," (values.map text)).toList =
      [','].intercalate (values.map (fun b => (text b).toList)) := by
    intro values
    rw [String.toList_intercalate, List.map_map]
    rfl
  rw [mem_language_separated]
  constructor
  · rintro ⟨parts, hsome, hparts, hcontent⟩
    have hmap : ∀ part ∈ parts, ∃ b : {b // holds b}, (text b).toList = part := by
      intro part hpart
      obtain ⟨b, hb, rfl⟩ := hitem.mp (hparts part hpart)
      exact ⟨⟨b, hb⟩, rfl⟩
    obtain ⟨values, rfl⟩ := (Set.range_list_map _).ge hmap
    refine ⟨values.map Subtype.val, by simpa using hsome, ?_, ?_⟩
    · intro b hb
      obtain ⟨value, -, rfl⟩ := List.mem_map.mp hb
      exact value.property
    · rw [← String.toList_inj, htexts, hcontent, List.map_map]
      rfl
  · rintro ⟨values, hsome, hvalues, rfl⟩
    refine ⟨_, by simpa using hsome, ?_, htexts values⟩
    intro part hpart
    obtain ⟨b, hb, rfl⟩ := List.mem_map.mp hpart
    exact hitem.mpr ⟨b, hvalues b hb, rfl⟩

/-- A line matches a key and brackets around a pattern if what stands in them matches the
pattern. -/
theorem mem_language_bracketed {key : String} {pattern : Regex Char} {line : List Char} :
    line ∈ (bracketed key pattern).language ↔
      ∃ content : String, line = lineText key content ∧ content.toList ∈ pattern.language := by
  rw [bracketed, language, Language.mem_mul]
  constructor
  · rintro ⟨front, hfront, back, hback, rfl⟩
    obtain rfl := mem_language_sequence_letter.mp hfront
    obtain ⟨content, hcontent, -, rfl, rfl⟩ := Language.mem_mul.mp hback
    exact ⟨String.ofList content, by simp [lineText], by rwa [String.toList_ofList]⟩
  · rintro ⟨content, rfl, hcontent⟩
    refine ⟨_, mem_language_sequence_letter.mpr rfl, _,
      Language.mem_mul.mpr ⟨content.toList, hcontent, [']'], rfl, rfl⟩, ?_⟩
    simp [lineText]

/-! ## The lines -/

/-- A line with a key is taken if its pattern matches what the reader takes between the brackets. -/
theorem isSome_map_bind_content?_iff {α : Type} {key : String} {read? : List Char → Option α}
    {make : α → List (Operation String)} {pattern : Regex Char}
    (hread : ∀ {content : String},
      (∃ value, read? content.toList = some value) ↔ content.toList ∈ pattern.language)
    {line : List Char} :
    (((content? key line).bind read?).map make).isSome = true ↔
      line ∈ (bracketed key pattern).language := by
  rw [Option.isSome_iff_exists, mem_language_bracketed]
  constructor
  · rintro ⟨calls, h⟩
    obtain ⟨content, value, hline, hvalue, -⟩ := map_bind_content?_eq_some.mp h
    exact ⟨content, hline, hread.mp ⟨value, hvalue⟩⟩
  · rintro ⟨content, hline, hcontent⟩
    obtain ⟨value, hvalue⟩ := hread.mpr hcontent
    exact ⟨_, map_bind_content?_eq_some.mpr ⟨content, value, hline, hvalue, rfl⟩⟩

/-- Names with commas between them match their pattern. -/
theorem names?_iff_matches {content : String} :
    (∃ names, names? content.toList = some names) ↔
      content.toList ∈ (separated namePattern).language := by
  rw [mem_language_separated_iff mem_language_name]
  simp only [names?_eq_some, String.toList_inj, List.map_id']

/-- One name or nothing matches any number of characters of names. -/
theorem optionalName?_iff_matches {content : String} :
    (∃ name?, optionalName? content.toList = some name?) ↔
      content.toList ∈ (Regex.star nameCharPattern).language := by
  rw [mem_language_star_nameChar, optionalName?]
  by_cases hempty : content.toList = []
  · simp [hempty]
  · simp [hempty, isName]

/-- Names with commas between them or nothing match their pattern. -/
theorem optionalNames?_iff_matches {content : String} :
    (∃ names, optionalNames? content.toList = some names) ↔
      content.toList ∈ (Regex.union (separated namePattern) .empty).language := by
  rw [language, Language.mem_add, ← names?_iff_matches, language, Language.mem_one, optionalNames?]
  by_cases hempty : content.toList = []
  · simp [hempty]
  · simp [hempty]

/-- Moves with commas between them match their pattern, and entries may be empty. -/
theorem entries?_iff_matches {content : String} :
    (∃ entries, entries? content.toList = some entries) ↔
      content.toList ∈ (separated (.union movePattern .empty)).language := by
  rw [mem_language_separated_iff mem_language_entry]
  have hnamed : ∀ entries : List (Option Entry),
      (∀ e ∈ entries.filterMap id, e.IsNamed) ↔ ∀ e? ∈ entries, ∀ e ∈ e?, e.IsNamed := by
    intro entries
    simp only [List.mem_filterMap, id_eq]
    exact ⟨fun h e? he? e he => h e ⟨e?, he?, he⟩, fun h e ⟨e?, he?, he⟩ => h e? he? e he⟩
  constructor
  · rintro ⟨_, h⟩
    obtain ⟨entries, hsome, hentries, -, hcontent⟩ := entries?_eq_some.mp h
    exact ⟨entries, hsome, (hnamed entries).mp hentries, String.toList_inj.mp hcontent⟩
  · rintro ⟨entries, hsome, hentries, rfl⟩
    exact ⟨_, entries?_eq_some.mpr ⟨entries, hsome, (hnamed entries).mpr hentries, rfl, rfl⟩⟩

/-- The readers take a line with a number exactly if it matches the pattern of the line. -/
theorem lineCalls?_isSome_iff {n : Nat} {line : List Char} :
    (lineCalls? line n).isSome = true ↔
      ∃ pattern, linePattern? n = some pattern ∧ pattern.accepts line = true := by
  -- only the first five numbers have a line
  have hline : ∀ {pattern : Regex Char}, linePattern? n = some pattern →
      (line ∈ pattern.language ↔
        ∃ pattern, linePattern? n = some pattern ∧ pattern.accepts line = true) := by
    intro pattern hpattern
    simp [hpattern, accepts_iff]
  match n with
  | 0 => simp [lineCalls?, linePattern?]
  | 1 => exact (isSome_map_bind_content?_iff names?_iff_matches).trans (hline rfl)
  | 2 => exact (isSome_map_bind_content?_iff names?_iff_matches).trans (hline rfl)
  | 3 => exact (isSome_map_bind_content?_iff optionalName?_iff_matches).trans (hline rfl)
  | 4 => exact (isSome_map_bind_content?_iff optionalNames?_iff_matches).trans (hline rfl)
  | 5 => exact (isSome_map_bind_content?_iff entries?_iff_matches).trans (hline rfl)
  | n + 6 => simp [lineCalls?, linePattern?]

end Kleene.Description
