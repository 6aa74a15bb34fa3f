import Kleene.Proofs.Automaton.Description
import Kleene.Proofs.Expression.Derivation
import Kleene.Proofs.Expression.Tokens
import Kleene.Service.Report

/-!
# Expressions for readers and what they say

An expression for readers is a written expression whose atoms are the braces for the empty set and
runs of letters, digits and underscores: the run `eps` is the empty word and any other run is one
symbol. `WordExpression.IsReading` says that a parse tree is a reading of a text: the tree is
written so, none of its concatenations is empty, and its runs are as long as they can be. A text has
at most one reading (`IsReading.unique`).

The main statement is `convertDescription_reading`: the report on the description of a valid
automaton is an expression with one reading, which stands for exactly the words that the automaton
accepts.
-/

set_option autoImplicit false

open scoped Computability

namespace Kleene

open Grammar Description

/-- The atoms of expressions for readers. -/
inductive WordAtom where
  /-- The braces for the empty set. -/
  | nothing
  /-- A run of letters, digits and underscores. -/
  | run (text : String)
  deriving Repr, DecidableEq

namespace WordAtom

/-- The characters of an atom. -/
def chars : WordAtom → List Char
  | nothing => ['\x7b', '\x7d']
  | run text => text.toList

/-- The words that an atom stands for: the run `eps` is the empty word, another run is one symbol.
-/
def language : WordAtom → Language String
  | nothing => 0
  | run text => if text = "eps" then 1 else {[text]}

end WordAtom

namespace WordExpression

/-- The characters of a token. -/
def tokenChars : Token WordAtom → List Char
  | .opening => ['(']
  | .closing => [')']
  | .bar => ['|']
  | .star => ['*']
  | .atom a => a.chars

/-- Whether a token is a run. -/
def isRun : Token WordAtom → Bool
  | .atom (.run _) => true
  | _ => false

/-- No two runs stand side by side, where they would be one. -/
def Apart (tokens : List (Token WordAtom)) : Prop :=
  tokens.IsChain (fun first second => isRun first = true → isRun second = false)

/-- A tree of the grammar of expressions for readers. -/
structure WellFormed (tree : Reading WordAtom .alternation) : Prop where
  /-- No concatenation is empty. -/
  filled : tree.Filled
  /-- Runs consist of letters, digits and underscores. -/
  runs : ∀ run, .atom (.run run) ∈ tree.tokens → IsIdentifier run
  /-- Runs are as long as they can be. -/
  maximal : Apart tree.tokens

/-- A tree is a reading of a text. -/
structure IsReading (tree : Reading WordAtom .alternation) (text : String) : Prop
    extends WellFormed tree where
  written : tree.written tokenChars = text.toList

/-! ## Uniqueness of the reading -/

/-- The characters of a name are characters of names. -/
theorem isIdentifier_chars {run : String} (h : IsIdentifier run) :
    ∀ c ∈ run.toList, isNameChar c = true :=
  fun c hc => (isNameChar_iff c).mpr (h.2 c hc)

/-- Runs are names, and all other tokens are marks. -/
def scanner : Scanner WordAtom where
  chars := tokenChars
  Allowed a := ∀ run, a = .run run → IsIdentifier run
  isRun
    | .run _ => true
    | .nothing => false
  inRun := isNameChar
  first token htoken := by
    cases token with
    | opening => exact ⟨_, _, rfl, by decide⟩
    | closing => exact ⟨_, _, rfl, by decide⟩
    | bar => exact ⟨_, _, rfl, by decide⟩
    | star => exact ⟨_, _, rfl, by decide⟩
    | atom a =>
      cases a with
      | nothing => exact ⟨_, _, rfl, by decide⟩
      | run run =>
        have hname : IsIdentifier run := htoken run rfl
        have hnil : run.toList ≠ [] := mt String.toList_eq_nil_iff.mp hname.1
        obtain ⟨c, more, hrun⟩ := List.exists_cons_of_ne_nil hnil
        exact ⟨c, more, hrun, isIdentifier_chars hname c (by simp [hrun])⟩
  runs a ha hrun := by
    cases a with
    | nothing => cases hrun
    | run run => exact isIdentifier_chars (ha run rfl)
  run_inj a a' _ _ hrun hrun' h := by
    cases a with
    | nothing => cases hrun
    | run run =>
      cases a' with
      | nothing => cases hrun'
      | run run' => exact congrArg WordAtom.run (String.toList_inj.mp h)
  mark_inj mark mark' rest rest' h h' heq := by
    rcases mark with _ | _ | _ | _ | _ | _ <;> rcases mark' with _ | _ | _ | _ | _ | _ <;>
      simp_all [tokenChars, WordAtom.chars, Token.isAmong]

/-- A tree is well formed exactly if the scanner for names reads it back. -/
theorem wellFormed_iff_fits {tree : Reading WordAtom .alternation} :
    WellFormed tree ↔ scanner.Fits tree := by
  have hrun : Token.isAmong scanner.isRun = isRun := by
    funext token
    rcases token with _ | _ | _ | _ | _ | _ <;> rfl
  have hapart : scanner.Apart tree.tokens ↔ Apart tree.tokens := by
    unfold Scanner.Apart Apart
    rw [hrun]
  constructor
  · intro h
    exact
      { filled := h.filled
        allowed := by
          rintro a ha run rfl
          exact h.runs run ha
        apart := hapart.mpr h.maximal }
  · intro h
    exact
      { filled := h.filled
        runs := fun run hrun => h.allowed _ hrun run rfl
        maximal := hapart.mp h.apart }

/-- A text has at most one reading. -/
theorem IsReading.unique {tree tree' : Reading WordAtom .alternation} {text : String}
    (h : IsReading tree text) (h' : IsReading tree' text) : tree = tree' :=
  Scanner.eq_of_written_eq (wellFormed_iff_fits.mp h.toWellFormed)
    (wellFormed_iff_fits.mp h'.toWellFormed) (h.written.trans h'.written.symm)

/-! ## The reading of a written tree -/

/-- The parts of an expression for readers: a symbol is a run, and so is the empty word. -/
def lexicon : Lexicon WordAtom .words where
  chars := tokenChars
  nothing := .nothing
  epsilon := [.run "eps"]
  symbol text := [.run text]
  opening_eq := by decide
  closing_eq := by decide
  bar_eq := by decide
  star_eq := by decide
  nothing_eq := by decide
  epsilon_eq := by decide
  symbol_eq text := by simp [tokenChars, WordAtom.chars, Spelling.words]

/-- The written form of trees whose labels are names has a reading. -/
theorem isReading_whole {trees : List (CellTree String)}
    (hlabels : ∀ tree ∈ trees, ∀ label ∈ tree.labels, IsIdentifier label) :
    IsReading (lexicon.whole trees) (Builder.spellWhole .words trees) where
  toWellFormed := by
    have hepsilon : IsIdentifier "eps" := (isName_toList "eps").mp (by decide)
    have hrun : ∀ {text : String}, IsIdentifier text → scanner.Allowed (.run text) := by
      intro text htext run hrun
      rw [← WordAtom.run.inj hrun]
      exact htext
    refine wellFormed_iff_fits.mpr (Scanner.fits_whole (fun _ h => nomatch h)
      ⟨_, rfl, hrun hepsilon⟩ (fun tree htree label hlabel => ⟨_, rfl, hrun ?_⟩))
    exact hlabels tree htree label hlabel
  written := lexicon.written_whole trees

/-- The word that a label stands for: `Name.epsilon` for the empty one, another label for itself. -/
def labelWord (label : String) : List String :=
  if label = Name.epsilon then [] else [label]

/-- A reading of trees stands for the words of the trees, where each label stands for its word. -/
theorem mem_language_whole_of_labelWord {trees : List (CellTree String)}
    {code : String → List String}
    (hcode : ∀ tree ∈ trees, ∀ label ∈ tree.labels, code label = labelWord label)
    (word : List String) :
    word ∈ (lexicon.whole trees).language WordAtom.language ↔
      ∃ tree ∈ trees, word ∈ tree.language code := by
  refine lexicon.mem_language_whole rfl ?_ ?_
  · simp [lexicon, WordAtom.language]
  · intro tree htree label hlabel
    rw [hcode tree htree label hlabel, labelWord]
    have hepsilon : (Name.epsilon : String) = "eps" := rfl
    by_cases hlabel : label = "eps"
    · simp only [lexicon, WordAtom.language, hepsilon, hlabel, List.map_cons, List.map_nil,
        List.prod_singleton, if_true]
      rfl
    · simp [lexicon, WordAtom.language, hepsilon, hlabel]

/-- A reading of trees without the label `eps` stands for the words of the trees. -/
theorem mem_language_whole {trees : List (CellTree String)}
    (hlabels : ∀ tree ∈ trees, ∀ label ∈ tree.labels, label ≠ Name.epsilon) (word : List String) :
    word ∈ (lexicon.whole trees).language WordAtom.language ↔
      ∃ tree ∈ trees, word ∈ tree.language (fun label => [label]) :=
  mem_language_whole_of_labelWord
    (fun tree htree label hlabel => (if_neg (hlabels tree htree label hlabel)).symm) word

end WordExpression

open WordExpression in
/-- The report on the description of a valid automaton is an expression on a line of its own. It has
one reading, and this stands for the words that the automaton accepts. -/
theorem convertDescription_reading {text : String} {m : Automaton String}
    (hread : Automaton.ofDescription text = .ok m) (hvalid : m.validate = .ok ()) :
    ∃ expression, convertDescription text = .ok (expression ++ "\n") ∧
      ∃ tree : Reading WordAtom .alternation,
        (IsReading tree expression ∧ ∀ other, IsReading other expression → other = tree) ∧
        ∀ word, word ∈ tree.language WordAtom.language ↔ m.accepts word = .ok true := by
  have hbuilt := Automaton.built_of_ofDescription hread
  have hlabels : ∀ tree ∈ m.pathTrees, ∀ label ∈ tree.labels,
      label ≠ Name.epsilon ∧ IsIdentifier label := by
    intro tree htree label hlabel
    obtain ⟨hepsilon, hmem⟩ := Automaton.mem_alphabet_of_mem_labels hbuilt hvalid htree hlabel
    exact ⟨hepsilon, Automaton.isIdentifier_of_mem_alphabet hread hmem⟩
  have hreading := isReading_whole (fun tree htree label hlabel =>
    (hlabels tree htree label hlabel).2)
  refine ⟨Builder.spellWhole .words m.pathTrees, ?_, lexicon.whole m.pathTrees,
    ⟨hreading, fun other hother => hother.unique hreading⟩, ?_⟩
  · rw [convertDescription, hread]
    show reportOf (m.expression .words) = _
    rw [Automaton.expression_eq_spellWhole hbuilt hvalid]
    rfl
  · intro word
    rw [mem_language_whole (fun tree htree label hlabel => (hlabels tree htree label hlabel).1),
      Automaton.exists_mem_pathTrees_iff hbuilt hvalid]
    simp

/-- Two states with a move back and forth, as a description. -/
def shuttleText : String :=
  "states=[p,q]\nalpha=[a,bc]\ninitial=[p]\naccepting=[q]\ntrans=[p>a>q,q>bc>p]"

/-- The automaton of `shuttleText`. -/
def shuttle : Automaton String :=
  .replay [.addState "p", .addState "q", .addSymbol "a", .addSymbol "bc", .setInitial "p",
    .addAccepting "q", .addTransition "p" "a" "q", .addTransition "q" "bc" "p"]

open WordExpression in
/-- A description of a shuttle, the one reading of its report, and a word in the language of
that. -/
theorem convertDescription_reading_shuttle :
    Automaton.ofDescription shuttleText = .ok shuttle ∧ shuttle.validate = .ok () ∧
      ∃ expression, convertDescription shuttleText = .ok (expression ++ "\n") ∧
        ∃ tree, IsReading tree expression ∧
          ["a", "bc", "a"] ∈ tree.language WordAtom.language := by
  have hread : Automaton.ofDescription shuttleText = .ok shuttle := by decide
  have hvalid : shuttle.validate = .ok () := by decide
  have haccepts : shuttle.accepts ["a", "bc", "a"] = .ok true := by decide
  obtain ⟨expression, hreport, tree, ⟨hreading, -⟩, hlanguage⟩ :=
    convertDescription_reading hread hvalid
  exact ⟨hread, hvalid, expression, hreport, tree, hreading, (hlanguage _).mpr haccepts⟩

end Kleene
