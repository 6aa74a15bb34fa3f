import Kleene.Proofs.Automaton.Import
import Kleene.Proofs.Automaton.Renaming
import Kleene.Proofs.Expression.Words

/-!
# When an expression for readers is ambiguous

The expression for readers has symbols in it as they are. Nothing keeps a symbol of a dictionary
from being spelled like the empty set, and then one text stands for different languages
(`expression_words_ambiguous`). If the labels of the edges are plain, that is, none is the pair of
braces and none has a parenthesis, a bar or a star in it, then every maximal run of other characters
is one label, and the text determines the language: `accepts_iff_of_same_expression`.
-/

set_option autoImplicit false

namespace Kleene

open Grammar WordExpression

/-- The characters of the notation for expressions for readers. -/
def markChars : List Char :=
  ['(', ')', '|', '*']

/-- A label that is not mistaken for a part of the notation. A missing edge is written as the pair
of braces, and labels between the same vertices are written with a bar between them: the one label
`a|b` looks like the two labels `a` and `b`. The other marks could be taken for structure in the
same way. -/
def IsPlain (label : String) : Prop :=
  label ≠ "\x7b\x7d" ∧ ∀ c ∈ label.toList, c ∉ markChars

namespace WordExpression

/-- All atoms are runs, of the characters that no mark is written with. -/
def plainScanner : Scanner WordAtom where
  chars := tokenChars
  Allowed a := ∀ label, a = .run label → label ≠ "" ∧ IsPlain label
  isRun _ := true
  inRun c := !markChars.contains c
  first token htoken := by
    cases token with
    | opening => exact ⟨_, _, rfl, by decide⟩
    | closing => exact ⟨_, _, rfl, by decide⟩
    | bar => exact ⟨_, _, rfl, by decide⟩
    | star => exact ⟨_, _, rfl, by decide⟩
    | atom a =>
      cases a with
      | nothing => exact ⟨_, _, rfl, by decide⟩
      | run label =>
        obtain ⟨hne, -, hchars⟩ := htoken label rfl
        have hnil : label.toList ≠ [] := mt String.toList_eq_nil_iff.mp hne
        obtain ⟨c, more, hlabel⟩ := List.exists_cons_of_ne_nil hnil
        have hc := hchars c (by simp [hlabel])
        exact ⟨c, more, hlabel, by simpa [Token.isAmong] using hc⟩
  runs a ha _ c hc := by
    cases a with
    | nothing =>
      rcases List.mem_pair.mp hc with rfl | rfl <;> decide
    | run label => simpa using (ha label rfl).2.2 c hc
  run_inj a a' ha ha' _ _ h := by
    cases a with
    | nothing =>
      cases a' with
      | nothing => rfl
      | run label =>
        have hbraces : "\x7b\x7d".toList = label.toList := h
        exact absurd (String.toList_inj.mp hbraces).symm (ha' label rfl).2.1
    | run label =>
      cases a' with
      | nothing =>
        have hbraces : label.toList = "\x7b\x7d".toList := h
        exact absurd (String.toList_inj.mp hbraces) (ha label rfl).2.1
      | run label' => exact congrArg WordAtom.run (String.toList_inj.mp h)
  mark_inj mark mark' rest rest' h h' heq := by
    cases mark <;> cases mark' <;> simp_all [tokenChars, Token.isAmong]

end WordExpression

namespace Automaton

/-! ## Automata named by texts -/

section Texts

variable {m m' : Automaton String}

/-- The labels of all edges are plain, and none is empty. -/
def HasPlainLabels (m : Automaton String) : Prop :=
  ∀ i j, ∀ label ∈ m.graph.labels i j, label ≠ "" ∧ IsPlain label

/-- The reading of an expression whose labels are plain is one that can be found in its text. -/
theorem HasPlainLabels.fits (hplain : m.HasPlainLabels) (hbuilt : m.Built) :
    plainScanner.Fits (lexicon.whole m.pathTrees) := by
  have hrun : ∀ {label : String}, label ≠ "" ∧ IsPlain label →
      plainScanner.Allowed (.run label) := by
    intro label hlabel other hother
    rw [← WordAtom.run.inj hother]
    exact hlabel
  have hepsilon : "eps" ≠ "" ∧ IsPlain "eps" := by simp [IsPlain, markChars]
  refine Scanner.fits_whole (fun _ h => nomatch h) ⟨_, rfl, hrun hepsilon⟩ ?_
  intro tree htree label hlabel
  obtain ⟨source, target, p, q, -, -, hedge⟩ := exists_hasMove_of_mem_labels hbuilt htree hlabel
  exact ⟨_, rfl, hrun (hplain p q label hedge)⟩

/-- The reading of the expression of a valid automaton stands for the words that it accepts. -/
theorem mem_language_whole_iff (hbuilt : m.Built) (hvalid : m.validate = .ok ())
    (word : List String) :
    word ∈ (lexicon.whole m.pathTrees).language WordAtom.language ↔ m.accepts word = .ok true := by
  have hlabels : ∀ tree ∈ m.pathTrees, ∀ label ∈ tree.labels, label ≠ Name.epsilon :=
    fun tree htree label hlabel => (mem_alphabet_of_mem_labels hbuilt hvalid htree hlabel).1
  rw [WordExpression.mem_language_whole hlabels, exists_mem_pathTrees_iff hbuilt hvalid]
  simp

/-- With plain labels the expression tells which words are accepted. -/
theorem HasPlainLabels.accepts_iff (hplain : m.HasPlainLabels) (hplain' : m'.HasPlainLabels)
    (hbuilt : m.Built) (hbuilt' : m'.Built) (hvalid : m.validate = .ok ())
    (hvalid' : m'.validate = .ok ()) (hsame : m.expression .words = m'.expression .words)
    (word : List String) : m.accepts word = .ok true ↔ m'.accepts word = .ok true := by
  rw [expression_eq_spellWhole hbuilt hvalid, expression_eq_spellWhole hbuilt' hvalid',
    Except.ok.injEq] at hsame
  have hwritten : (lexicon.whole m.pathTrees).written tokenChars =
      (lexicon.whole m'.pathTrees).written tokenChars :=
    calc (lexicon.whole m.pathTrees).written tokenChars
        = (Builder.spellWhole .words m.pathTrees).toList := lexicon.written_whole _
      _ = (Builder.spellWhole .words m'.pathTrees).toList := congrArg String.toList hsame
      _ = (lexicon.whole m'.pathTrees).written tokenChars := (lexicon.written_whole _).symm
  have htree := Scanner.eq_of_written_eq (hplain.fits hbuilt) (hplain'.fits hbuilt') hwritten
  rw [← mem_language_whole_iff hbuilt hvalid, ← mem_language_whole_iff hbuilt' hvalid', htree]

end Texts

/-! ## Automata that are read from dictionaries -/

/-- Texts are written in expressions alike whether they are JSON values or not. -/
theorem keepsForms_text : KeepsForms Scalar.text where
  toKeepsNames := keepsNames_text
  text? := fun _ => rfl
  display := fun _ => rfl
  kind := fun _ => rfl

/-- What is read from a dictionary of texts is an automaton named by texts, with scalars for them.
No label is empty, since an empty symbol stands for a move that reads nothing. -/
theorem exists_texts_of_ofJson {json : Json} (htexts : json.HoldsTexts) {m : Automaton Scalar}
    (h : ofJson json = .ok m) :
    ∃ named : Automaton String, named.Built ∧ m = named.map .text ∧
      ∀ i j, "" ∉ named.graph.labels i j := by
  have hshaped : json.IsShaped := by
    unfold ofJson at h
    cases hread : Definition.ofJson json with
    | error problem =>
      rw [hread] at h
      cases h
    | ok read => exact Definition.yields_isShaped json read hread
  obtain ⟨d, hd⟩ := Definition.exists_writtenAs hshaped htexts
  obtain ⟨hresolves, rfl⟩ := (ofJson_eq_ok_iff hd).mp h
  obtain ⟨-, -, hbuilt⟩ :=
    automaton_of_foldlM (Listing.foldlM_calls_eq_ok_iff.mpr ⟨hresolves, rfl⟩)
  refine ⟨_, hbuilt, rfl, ?_⟩
  intro i j hempty
  obtain ⟨source, target, -, -, hmove⟩ := Listing.mem_labels_automaton hempty
  obtain ⟨-, symbol, -, -, -, -, hlabel⟩ := Definition.mem_moves_listing.mp hmove
  by_cases hsymbol : symbol = ""
  · rw [if_pos hsymbol] at hlabel
    revert hlabel
    decide
  · rw [if_neg hsymbol] at hlabel
    exact hsymbol hlabel.symm

/-- Two valid automata that are read from dictionaries of texts and whose labels are plain accept
the same words if their expressions are the same. It is not enough to exclude the pair of braces: a
label with a mark in it can be taken for several labels, as `a|b` is for `a` and `b`. -/
theorem accepts_iff_of_same_expression {json json' : Json} (htexts : json.HoldsTexts)
    (htexts' : json'.HoldsTexts) {m m' : Automaton Scalar} (hread : ofJson json = .ok m)
    (hread' : ofJson json' = .ok m') (hvalid : m.validate = .ok ())
    (hvalid' : m'.validate = .ok ())
    (hplain : ∀ i j label, .text label ∈ m.graph.labels i j → IsPlain label)
    (hplain' : ∀ i j label, .text label ∈ m'.graph.labels i j → IsPlain label) {text : String}
    (htext : m.expression .words = .ok text) (htext' : m'.expression .words = .ok text)
    (word : List String) :
    m.accepts (word.map .text) = .ok true ↔ m'.accepts (word.map .text) = .ok true := by
  obtain ⟨named, hbuilt, rfl, hfilled⟩ := exists_texts_of_ofJson htexts hread
  obtain ⟨named', hbuilt', rfl, hfilled'⟩ := exists_texts_of_ofJson htexts' hread'
  have hlabels : ∀ {named : Automaton String}, (∀ i j, "" ∉ named.graph.labels i j) →
      (∀ i j label, .text label ∈ (named.map Scalar.text).graph.labels i j → IsPlain label) →
      named.HasPlainLabels := by
    intro named hfilled hplain i j label hlabel
    refine ⟨ne_of_mem_of_not_mem hlabel (hfilled i j), hplain i j label ?_⟩
    rw [labels_map]
    exact List.mem_map_of_mem hlabel
  rw [keepsNames_text.validate_map, carried_id_eq_ok_iff] at hvalid hvalid'
  rw [keepsForms_text.expression_map, carried_id_eq_ok_iff] at htext htext'
  rw [keepsNames_text.accepts_map, keepsNames_text.accepts_map, carried_id_eq_ok_iff,
    carried_id_eq_ok_iff]
  exact (hlabels hfilled hplain).accepts_iff (hlabels hfilled' hplain') hbuilt hbuilt' hvalid
    hvalid' (htext.trans htext'.symm) word

-- the label with the bar and the two labels around it have the same expression
example :
    let joined : Automaton String :=
      { graph := { vertices := ["q"], rows := [[["a|b"]]] }, alphabet := ["a|b"],
        initial := some "q", accepting := ["q"] }
    let apart : Automaton String :=
      { graph := { vertices := ["q"], rows := [[["a", "b"]]] }, alphabet := ["a", "b"],
        initial := some "q", accepting := ["q"] }
    joined.expression .words = apart.expression .words ∧
      joined.accepts ["a"] = .ok false ∧ apart.accepts ["a"] = .ok true := by
  decide

/-- The automaton that a definition of texts is read as if it has no unresolved reference. -/
def ofTexts (d : Definition String String) : Automaton Scalar :=
  d.unblanked.listing.automaton.map .text

/-- A definition of texts whose references resolve is read back from its dictionary. -/
theorem ofJson_toJson_eq_ofTexts {d : Definition String String}
    (h : ∀ reference ∈ d.unblanked.listing.references, d.unblanked.listing.Resolves reference) :
    ofJson d.toJson = .ok (ofTexts d) :=
  (ofJson_eq_ok_iff d.writtenAs_toJson).mpr ⟨h, rfl⟩

/-- The labels of the automaton are plain if those of the moves in the definition are. -/
theorem isPlain_of_mem_labels_ofTexts {d : Definition String String}
    (h : ∀ move ∈ d.unblanked.listing.moves, IsPlain move.symbol) :
    ∀ i j label, .text label ∈ (ofTexts d).graph.labels i j → IsPlain label := by
  intro i j label hlabel
  unfold ofTexts at hlabel
  rw [labels_map, List.mem_map] at hlabel
  obtain ⟨symbol, hsymbol, hsame⟩ := hlabel
  obtain ⟨source, target, -, -, hmove⟩ := Listing.mem_labels_automaton hsymbol
  exact Scalar.text.inj hsame ▸ h _ hmove

/-- Two states with a move forth and back, where single braces are read. -/
def braceMoves : Definition String String where
  states := ["p", "q"]
  alphabet := ["\x7b", "\x7d"]
  transitions := [("p", [("\x7b", ["q"])]), ("q", [("\x7d", ["p"])])]
  startingState := some "p"
  acceptingStates := ["q"]

/-- The same moves between states with other names, and a symbol that no move reads. -/
def braceMovesRenamed : Definition String String where
  states := ["u", "v"]
  alphabet := ["\x7d", "\x7b", "\x7b\x7d"]
  transitions := [("v", [("\x7d", ["u"])]), ("u", [("\x7b", ["v"])])]
  startingState := some "u"
  acceptingStates := ["v", "v"]

/-- Labels that are one brace each are plain, and the same expression means the same words under
other names of the states. -/
theorem accepts_iff_of_same_expression_braceMoves :
    ofJson braceMoves.toJson = .ok (ofTexts braceMoves) ∧
      ofJson braceMovesRenamed.toJson = .ok (ofTexts braceMovesRenamed) ∧
      (ofTexts braceMoves).expression .words = (ofTexts braceMovesRenamed).expression .words ∧
      (ofTexts braceMovesRenamed).accepts (["\x7b", "\x7d", "\x7b"].map .text) = .ok true := by
  have hread : ofJson braceMoves.toJson = .ok (ofTexts braceMoves) :=
    ofJson_toJson_eq_ofTexts (by decide)
  have hread' : ofJson braceMovesRenamed.toJson = .ok (ofTexts braceMovesRenamed) :=
    ofJson_toJson_eq_ofTexts (by decide)
  have hsame : (ofTexts braceMoves).expression .words =
      (ofTexts braceMovesRenamed).expression .words := by decide
  obtain ⟨text, htext⟩ : ∃ text, (ofTexts braceMoves).expression .words = .ok text := ⟨_, rfl⟩
  have haccepts : (ofTexts braceMoves).accepts (["\x7b", "\x7d", "\x7b"].map .text) =
      .ok true := by decide
  have hmoves : braceMoves.unblanked.listing.moves =
      [⟨"p", "\x7b", "q"⟩, ⟨"q", "\x7d", "p"⟩] := by decide
  have hmoves' : braceMovesRenamed.unblanked.listing.moves =
      [⟨"v", "\x7d", "u"⟩, ⟨"u", "\x7b", "v"⟩] := by decide
  have hplain := isPlain_of_mem_labels_ofTexts (d := braceMoves)
    (by simp [hmoves, IsPlain, markChars])
  have hplain' := isPlain_of_mem_labels_ofTexts (d := braceMovesRenamed)
    (by simp [hmoves', IsPlain, markChars])
  have hiff := accepts_iff_of_same_expression braceMoves.holdsTexts_toJson
    braceMovesRenamed.holdsTexts_toJson hread hread' (by decide) (by decide) hplain hplain' htext
    (hsame.symm.trans htext)
  exact ⟨hread, hread', hsame, (hiff _).mp haccepts⟩

/-- One move, and a symbol spelled like the empty set that no move reads. -/
def leaving : Definition String String where
  states := ["p", "q"]
  alphabet := ["a", "\x7b\x7d"]
  transitions := [("p", [("a", ["q"])])]
  startingState := some "p"
  acceptingStates := ["q"]

/-- The same with a way back, on which the symbol is read. -/
def returning : Definition String String :=
  { leaving with transitions := [("p", [("a", ["q"])]), ("q", [("\x7b\x7d", ["p"])])] }

/-- Where a label may be spelled like the empty set, the same text can stand for different
languages, also with the same alphabet. -/
theorem expression_words_ambiguous :
    ¬ ∀ (json json' : Json) (m m' : Automaton Scalar) (text : String),
      json.HoldsTexts → json'.HoldsTexts → ofJson json = .ok m → ofJson json' = .ok m' →
      m.alphabet = m'.alphabet → m.validate = .ok () → m'.validate = .ok () →
      m.expression .words = .ok text → m'.expression .words = .ok text →
      ∀ word : List String,
        m.accepts (word.map .text) = .ok true ↔ m'.accepts (word.map .text) = .ok true := by
  intro hunambiguous
  obtain ⟨text, htext⟩ : ∃ text, (ofTexts leaving).expression .words = .ok text := ⟨_, rfl⟩
  have hsame : (ofTexts returning).expression .words = (ofTexts leaving).expression .words := by
    decide
  have hread : ofJson leaving.toJson = .ok (ofTexts leaving) :=
    ofJson_toJson_eq_ofTexts (by decide)
  have hread' : ofJson returning.toJson = .ok (ofTexts returning) :=
    ofJson_toJson_eq_ofTexts (by decide)
  have hiff := hunambiguous _ _ (ofTexts leaving) (ofTexts returning) text
    leaving.holdsTexts_toJson returning.holdsTexts_toJson hread hread' (by decide) (by decide)
    (by decide) htext (hsame.trans htext) ["a", "\x7b\x7d", "a"]
  have hrejects : (ofTexts leaving).accepts (["a", "\x7b\x7d", "a"].map .text) = .ok false := by
    decide
  have haccepts : (ofTexts returning).accepts (["a", "\x7b\x7d", "a"].map .text) = .ok true := by
    decide
  cases hrejects.symm.trans (hiff.mpr haccepts)

end Automaton

end Kleene
