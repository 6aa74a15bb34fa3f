import Kleene.Proofs.Expression.Derivation
import Kleene.Proofs.Expression.Lexicon
import Kleene.Proofs.Expression.Matching

/-!
# Patterns and what they match

A pattern of characters is a written expression whose atoms are the class that nothing belongs to
and single characters, as they are or after a backslash. `read?_written` says that the reader
understands every such text, and by the expression of whatever tree it is a written form of; so all
readings of one text stand for the same texts.

The main statement is `pattern_language`: the pattern of a valid automaton, read by this grammar and
also as the recognizer reads it, stands for exactly the encodings of the words that the automaton
accepts.
-/

set_option autoImplicit false

open scoped Computability

namespace Kleene

open Grammar

/-- The atoms of patterns. -/
inductive PatternAtom where
  /-- The class that nothing belongs to. -/
  | nothing
  /-- A character without a meaning of its own. -/
  | plain (c : Char) (unreserved : Spelling.reserved.contains c = false)
  /-- A character after a backslash. -/
  | quoted (c : Char)

namespace PatternAtom

/-- The characters of an atom. -/
def chars : PatternAtom → List Char
  | nothing => Spelling.noMatch
  | plain c _ => [c]
  | quoted c => [Text.backslash, c]

/-- The texts that an atom matches. -/
def language : PatternAtom → Language Char
  | nothing => 0
  | plain c _ => {[c]}
  | quoted c => {[c]}

/-- What the reader makes of an atom. -/
def regex : PatternAtom → Regex Char
  | nothing => .nothing
  | plain c _ => .letter c
  | quoted c => .letter c

/-- The expression of an atom has the words of the atom. -/
theorem language_regex (a : PatternAtom) : a.regex.language = a.language := by
  cases a <;> rfl

end PatternAtom

namespace Pattern

/-- The characters of a token of a pattern. -/
def tokenChars : Token PatternAtom → List Char
  | .opening => ['(', '?', ':']
  | .closing => [')']
  | .bar => ['|']
  | .star => ['*']
  | .atom a => a.chars

/-! ## The reader -/

section Steps

variable (rest : List Char) (frame : Frame) (outer : List Frame)

/-- An opening parenthesis begins a frame inside the one that is being read. -/
theorem readFrom_opening :
    readFrom ('(' :: '?' :: ':' :: rest) frame outer = readFrom rest {} (frame :: outer) :=
  rfl

/-- A closing parenthesis ends a frame, which is one item of the frame around it. -/
theorem readFrom_closing (around : Frame) :
    readFrom (')' :: rest) frame (around :: outer) =
      readFrom rest (around.push frame.close) outer :=
  rfl

/-- A bar ends an alternative and begins another one. -/
theorem readFrom_bar :
    readFrom ('|' :: rest) frame outer = readFrom rest frame.alternate outer :=
  rfl

/-- A star is put on the item before it. -/
theorem readFrom_star (item : Regex Char) :
    readFrom ('*' :: rest) (frame.push item) outer =
      readFrom rest { frame with items := .star item :: frame.items, repeatable := false } outer :=
  rfl

/-- A character that is not reserved stands for itself. -/
theorem readFrom_plain {c : Char} (hc : Spelling.reserved.contains c = false) :
    readFrom (c :: rest) frame outer = readFrom rest (frame.push (.letter c)) outer := by
  have hne : ∀ d ∈ Spelling.reserved, c ≠ d := by
    rintro d hd rfl
    simp_all
  rw [readFrom, if_neg (by simpa using hc)]
  case x_3 => exact fun _ _ hbackslash _ => hne _ (by decide) hbackslash
  case x_4 => exact fun _ hopening _ => hne _ (by decide) hopening
  case x_5 => exact fun _ _ _ hclosing => hne _ (by decide) hclosing
  case x_8 => exact fun _ hclass _ => hne _ (by decide) hclass
  all_goals exact hne _ (by decide)

/-- An atom becomes the newest item. -/
theorem readFrom_atom (a : PatternAtom) :
    readFrom (a.chars ++ rest) frame outer = readFrom rest (frame.push a.regex) outer := by
  cases a with
  | nothing => rfl
  | plain c hc => exact readFrom_plain rest frame outer hc
  | quoted c => rfl

end Steps

/-- How a tree is read: an alternation adds its alternatives to a frame that is still empty, a
concatenation adds its items to a frame, and an operand becomes the newest item. What is added
stands for the same texts as the tree. -/
def Reads : {p : Part} → Reading PatternAtom p → Prop
  | .alternation, tree => ∃ alternatives : List (Regex Char),
      (alternatives.map Regex.language).sum = tree.language PatternAtom.language ∧
      ∀ rest older outer, ∃ frame : Frame,
        readFrom (tree.written tokenChars ++ rest) { alternatives := older } outer =
          readFrom rest frame outer ∧
        frame.alternate.alternatives = alternatives.reverse ++ older
  | .concatenation, tree => ∃ items : List (Regex Char),
      (items.map Regex.language).prod = tree.language PatternAtom.language ∧
      ∀ rest (frame : Frame) outer, ∃ repeatable,
        readFrom (tree.written tokenChars ++ rest) frame outer =
          readFrom rest
            { frame with items := items.reverse ++ frame.items, repeatable := repeatable } outer
  | .operand, tree => ∃ item : Regex Char,
      item.language = tree.language PatternAtom.language ∧
      ∀ rest (frame : Frame) outer,
        readFrom (tree.written tokenChars ++ rest) frame outer =
          readFrom rest (frame.push item) outer

/-- Every tree is read so. -/
theorem reads {p : Part} (tree : Reading PatternAtom p) : Reads tree := by
  induction tree with
  | only first ih =>
    obtain ⟨items, hlanguage, hread⟩ := ih
    refine ⟨[Regex.sequence items], ?_, ?_⟩
    · rw [List.map_singleton, List.sum_singleton, Regex.language_sequence, hlanguage]
      rfl
    · intro rest older outer
      obtain ⟨repeatable, hread⟩ := hread rest { alternatives := older } outer
      exact ⟨_, hread, by simp [Frame.alternate]⟩
  | or first more ih ihmore =>
    obtain ⟨items, hlanguage, hread⟩ := ih
    obtain ⟨alternatives, hmore, hreadmore⟩ := ihmore
    refine ⟨Regex.sequence items :: alternatives, ?_, ?_⟩
    · rw [List.map_cons, List.sum_cons, Regex.language_sequence, hlanguage, hmore]
      rfl
    · intro rest older outer
      obtain ⟨repeatable, hfirst⟩ :=
        hread ('|' :: (more.written tokenChars ++ rest)) { alternatives := older } outer
      obtain ⟨frame, hrest, halternatives⟩ :=
        hreadmore rest (Regex.sequence items :: older) outer
      refine ⟨frame, ?_, by simp [halternatives]⟩
      have hwritten : (Reading.or first more).written tokenChars ++ rest =
          first.written tokenChars ++ '|' :: (more.written tokenChars ++ rest) := by
        simp [Reading.written, Reading.tokens, tokenChars]
      rw [hwritten, hfirst, readFrom_bar, ← hrest]
      simp [Frame.alternate]
  | nil => exact ⟨[], rfl, fun rest frame outer => ⟨frame.repeatable, rfl⟩⟩
  | cons first starred more ih ihmore =>
    obtain ⟨item, hlanguage, hread⟩ := ih
    obtain ⟨items, hmore, hreadmore⟩ := ihmore
    cases starred with
    | false =>
      refine ⟨item :: items, ?_, ?_⟩
      · rw [List.map_cons, List.prod_cons, hlanguage, hmore]
        rfl
      · intro rest frame outer
        obtain ⟨repeatable, hrest⟩ := hreadmore rest (frame.push item) outer
        have hwritten : (Reading.cons first false more).written tokenChars ++ rest =
            first.written tokenChars ++ (more.written tokenChars ++ rest) := by
          simp [Reading.written, Reading.tokens, Reading.starTokens]
        refine ⟨repeatable, ?_⟩
        rw [hwritten, hread, hrest]
        simp [Frame.push]
    | true =>
      refine ⟨.star item :: items, ?_, ?_⟩
      · rw [List.map_cons, List.prod_cons, Regex.language, hlanguage, hmore]
        rfl
      · intro rest frame outer
        obtain ⟨repeatable, hrest⟩ := hreadmore rest
          { frame with items := .star item :: frame.items, repeatable := false } outer
        have hwritten : (Reading.cons first true more).written tokenChars ++ rest =
            first.written tokenChars ++ '*' :: (more.written tokenChars ++ rest) := by
          simp [Reading.written, Reading.tokens, Reading.starTokens, tokenChars]
        refine ⟨repeatable, ?_⟩
        rw [hwritten, hread, readFrom_star, hrest]
        simp
  | atom a =>
    refine ⟨a.regex, a.language_regex, fun rest frame outer => ?_⟩
    simpa [Reading.written, Reading.tokens, tokenChars] using readFrom_atom rest frame outer a
  | group inner ih =>
    obtain ⟨alternatives, hlanguage, hread⟩ := ih
    refine ⟨Regex.unions alternatives, ?_, ?_⟩
    · rw [Regex.language_unions, hlanguage]
      rfl
    · intro rest frame outer
      obtain ⟨closed, hinner, halternatives⟩ := hread (')' :: rest) [] (frame :: outer)
      have hwritten : (Reading.group inner).written tokenChars ++ rest =
          '(' :: '?' :: ':' :: (inner.written tokenChars ++ ')' :: rest) := by
        simp [Reading.written, Reading.tokens, tokenChars]
      have hclose : closed.close = Regex.unions alternatives := by
        simp [Frame.close, halternatives]
      rw [hwritten, readFrom_opening, hinner, readFrom_closing, hclose]

/-- The written form of a tree is a pattern, and the expression that it is read as matches the texts
that the tree stands for. -/
theorem read?_written (tree : Reading PatternAtom .alternation) :
    ∃ r, read? (tree.written tokenChars) = some r ∧
      r.language = tree.language PatternAtom.language := by
  obtain ⟨alternatives, hlanguage, hread⟩ := reads tree
  obtain ⟨frame, hread, halternatives⟩ := hread [] [] []
  refine ⟨Regex.unions alternatives, ?_, by rw [Regex.language_unions, hlanguage]⟩
  rw [List.append_nil] at hread
  rw [read?, hread]
  simp [readFrom, Frame.close, halternatives]

/-! ## The pattern of an automaton -/

/-- The atom for a character of a symbol. -/
def atomOf (c : Char) : PatternAtom :=
  if h : Spelling.reserved.contains c = true then .quoted c
  else .plain c (Bool.eq_false_iff.mpr h)

/-- A character is written by itself, or after a backslash if it is reserved. -/
theorem chars_atomOf (c : Char) :
    (atomOf c).chars = if Spelling.reserved.contains c then [Text.backslash, c] else [c] := by
  unfold atomOf
  split <;> simp_all [PatternAtom.chars]

/-- However it is written, a character means itself. -/
theorem language_atomOf (c : Char) : (atomOf c).language = {[c]} := by
  unfold atomOf
  split <;> rfl

/-- A text that is written character by character is the escaped text. -/
theorem flatMap_chars_atomOf (text : List Char) :
    (text.map atomOf).flatMap PatternAtom.chars = Spelling.escape text := by
  rw [List.flatMap_map, Spelling.escape]
  exact List.flatMap_congr (fun c _ => chars_atomOf c)

/-- A text that is written character by character means itself. -/
theorem prod_language_atomOf (text : List Char) :
    ((text.map atomOf).map PatternAtom.language).prod = {text} := by
  induction text with
  | nil => rfl
  | cons c text ih =>
    rw [List.map_cons, List.map_cons, List.prod_cons, ih, language_atomOf]
    ext word
    rw [Language.mem_mul]
    constructor
    · rintro ⟨_, rfl, _, rfl, rfl⟩
      rfl
    · rintro rfl
      exact ⟨[c], rfl, text, rfl, rfl⟩

/-- The characters of a symbol in an encoded word. -/
def encodeSymbol (symbol : String) : List Char :=
  symbol.toList ++ [Spelling.separator]

/-- A word is encoded symbol by symbol. -/
theorem toList_encodeWord (word : List String) :
    (encodeWord word).toList = word.flatMap encodeSymbol := by
  rw [encodeWord, String.toList_join, List.flatMap_def, List.map_map]
  exact congrArg List.flatten (List.map_congr_left (fun symbol _ => by simp [encodeSymbol]))

/-- The parts of a pattern: a symbol is its characters and the separator, and the empty word is
nothing at all. -/
def lexicon : Lexicon PatternAtom .pattern where
  chars := tokenChars
  nothing := .nothing
  epsilon := []
  symbol text := (encodeSymbol text).map atomOf
  opening_eq := by decide
  closing_eq := by decide
  bar_eq := by decide
  star_eq := by decide
  nothing_eq := by simp [tokenChars, PatternAtom.chars, Spelling.pattern]
  epsilon_eq := by decide
  symbol_eq text := by
    have hseparator : Spelling.escape [Spelling.separator] = [Spelling.separator] := by decide
    have hescape : Spelling.escape (encodeSymbol text) =
        Spelling.escape text.toList ++ [Spelling.separator] := by
      rw [encodeSymbol, Spelling.escape, List.flatMap_append, ← Spelling.escape,
        ← Spelling.escape, hseparator]
    rw [show (fun a => tokenChars (.atom a)) = PatternAtom.chars from rfl, flatMap_chars_atomOf,
      hescape]
    simp [Spelling.pattern]

end Pattern

namespace Automaton

open Pattern

/-- The pattern of a valid automaton has a reading, and every reading of it stands for the encodings
of the words that the automaton accepts; so does what the recognizer reads. -/
theorem pattern_language {m : Automaton String} (hbuilt : m.Built) (hvalid : m.validate = .ok ()) :
    ∃ text, m.expression .pattern = .ok text ∧
      (∃ tree : Reading PatternAtom .alternation, tree.written tokenChars = text.toList) ∧
      (∀ tree : Reading PatternAtom .alternation, tree.written tokenChars = text.toList →
        ∀ t : String, t.toList ∈ tree.language PatternAtom.language ↔
          ∃ word, m.accepts word = .ok true ∧ encodeWord word = t) ∧
      ∃ r, m.recognizer = .ok r ∧
        ∀ t : String, r.accepts t.toList = true ↔
          ∃ word, m.accepts word = .ok true ∧ encodeWord word = t := by
  have htext := expression_eq_spellWhole hbuilt hvalid .pattern
  have hwritten := lexicon.written_whole m.pathTrees
  have hlanguage : ∀ t : String,
      t.toList ∈ (lexicon.whole m.pathTrees).language PatternAtom.language ↔
        ∃ word, m.accepts word = .ok true ∧ encodeWord word = t := by
    intro t
    rw [lexicon.mem_language_whole rfl rfl (fun _ _ a _ => prod_language_atomOf (encodeSymbol a)),
      exists_mem_pathTrees_iff hbuilt hvalid]
    simp only [← toList_encodeWord, String.toList_inj]
  obtain ⟨r, hread, hr⟩ := read?_written (lexicon.whole m.pathTrees)
  refine ⟨_, htext, ⟨_, hwritten⟩, ?_, r, ?_, ?_⟩
  · intro tree htree t
    obtain ⟨r', hread', hr'⟩ := read?_written tree
    have hsame : r' = r := by
      rw [htree, ← hwritten] at hread'
      exact Option.some.inj (hread'.symm.trans hread)
    rw [← hr', hsame, hr, hlanguage]
  · rw [recognizer, htext]
    show Except.ok ((read? (Builder.spellWhole .pattern m.pathTrees).toList).getD .nothing) = _
    rw [← hwritten]
    exact congrArg Except.ok (congrArg (Option.getD · Regex.nothing) hread)
  · intro t
    rw [Regex.accepts_iff, hr, hlanguage]

/-- One state that reads a symbol with a bar in it again and again. -/
def barLoop : Automaton String :=
  replay [.addState "q", .addSymbol "a|b", .setInitial "q", .addAccepting "q",
    .addTransition "q" "a|b" "q"]

/-- An automaton with a bar in its symbol, a word of which is matched. -/
theorem pattern_language_barLoop :
    barLoop.Built ∧ barLoop.validate = .ok () ∧ ∃ r, barLoop.recognizer = .ok r ∧
      r.accepts (encodeWord ["a|b", "a|b"]).toList = true := by
  have hbuilt : barLoop.Built := ⟨_, rfl⟩
  have hvalid : barLoop.validate = .ok () := by decide
  have haccepts : barLoop.accepts ["a|b", "a|b"] = .ok true := by decide
  obtain ⟨_, -, -, -, r, hr, hmatches⟩ := pattern_language hbuilt hvalid
  exact ⟨hbuilt, hvalid, r, hr, (hmatches _).mpr ⟨_, haccepts, rfl⟩⟩

end Automaton

end Kleene
