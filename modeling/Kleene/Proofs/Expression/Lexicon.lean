import Kleene.Proofs.Expression.Grammar
import Kleene.Proofs.Expression.Table

/-!
# Readings of written trees

A `Lexicon` says how the parts of a spelling are made of the tokens of the grammar: which characters
a token is written in, and which atoms the empty set, the empty word and a symbol consist of. With
it every `CellTree` has a reading, and so have the trees of a whole expression. The characters of
the reading are those of the written tree (`written_reading`, `written_whole`), and if the atoms of
a symbol mean its text then the reading and the tree stand for the same texts (`language_reading`,
`mem_language_whole`).
-/

set_option autoImplicit false

open scoped Computability

namespace Kleene.Grammar

open Reading

/-- The characters in which a tree is written. -/
def Reading.written {α : Type} (chars : Token α → List Char) {p : Part} (tree : Reading α p) :
    List Char :=
  tree.tokens.flatMap chars

/-- How the parts of a spelling are made of tokens. -/
structure Lexicon (α : Type) (s : Spelling) where
  /-- The characters of a token. -/
  chars : Token α → List Char
  /-- The atom for the empty set. -/
  nothing : α
  /-- The atoms for the empty word. -/
  epsilon : List α
  /-- The atoms of a symbol. -/
  symbol : String → List α
  opening_eq : chars .opening = s.groupOpen.toList
  closing_eq : chars .closing = s.groupClose.toList
  bar_eq : chars .bar = s.alternation.toList
  star_eq : chars .star = s.star.toList
  nothing_eq : chars (.atom nothing) = s.emptySet.toList
  epsilon_eq : epsilon.flatMap (fun a => chars (.atom a)) = s.epsilon.toList
  symbol_eq : ∀ text, (symbol text).flatMap (fun a => chars (.atom a)) = (s.symbol text).toList

namespace Lexicon

variable {α β : Type} {s : Spelling} (lexicon : Lexicon α s)

/-- The reading of one symbol. -/
def symbolReading (label : String) : Reading α .alternation :=
  only (ofAtoms (lexicon.symbol label))

/-- The reading of the empty word. -/
def epsilonReading : Reading α .alternation :=
  only (ofAtoms lexicon.epsilon)

/-- The reading of the empty set. -/
def nothingReading : Reading α .alternation :=
  only (ofAtoms [lexicon.nothing])

/-- The reading of the single moves between two positions, and of staying. -/
def movesReading (labels : List String) (stays : Bool) : Reading α .alternation :=
  if stays then unions (labels.map lexicon.symbolReading ++ [lexicon.epsilonReading])
  else if labels.isEmpty then lexicon.nothingReading
  else unions (labels.map lexicon.symbolReading)

/-- The reading of a cell from those of the four cells with the bound below. -/
def throughReading (toBound loop fromBound without : Reading α .alternation) :
    Reading α .alternation :=
  or (cons (group toBound) false (cons (group loop) true (cons (group fromBound) false nil)))
    (only (cons (group without) false nil))

/-- The reading of a tree. -/
def reading : CellTree String → Reading α .alternation
  | .moves labels stays => lexicon.movesReading labels stays
  | .through toBound loop fromBound without =>
    throughReading (reading toBound) (reading loop) (reading fromBound) (reading without)

/-- The reading of the trees of a whole expression. -/
def whole (trees : List (CellTree String)) : Reading α .alternation :=
  if trees.isEmpty then lexicon.nothingReading else unions (trees.map lexicon.reading)

/-- What holds of the readings of some symbols, of the empty word and of the empty set, and is kept
when readings are put together, holds of the reading of every tree with only such symbols. -/
theorem reading_induction {P : Reading α .alternation → Prop} {ok : String → Prop}
    (hsymbol : ∀ a, ok a → P (lexicon.symbolReading a)) (hepsilon : P lexicon.epsilonReading)
    (hnothing : P lexicon.nothingReading)
    (hunions : ∀ trees, trees ≠ [] → (∀ tree ∈ trees, P tree) → P (unions trees))
    (hthrough : ∀ toBound loop fromBound without, P toBound → P loop → P fromBound → P without →
      P (throughReading toBound loop fromBound without))
    {tree : CellTree String} (hlabels : ∀ a ∈ tree.labels, ok a) : P (lexicon.reading tree) := by
  induction tree with
  | moves labels stays =>
    have hsymbols : ∀ reading ∈ labels.map lexicon.symbolReading, P reading := by
      intro reading hreading
      obtain ⟨a, ha, rfl⟩ := List.mem_map.mp hreading
      exact hsymbol a (hlabels a ha)
    rw [reading, movesReading]
    split
    · refine hunions _ (by simp) ?_
      intro reading hreading
      rcases List.mem_append.mp hreading with hreading | hreading
      · exact hsymbols reading hreading
      · obtain rfl := List.mem_singleton.mp hreading
        exact hepsilon
    · split
      · exact hnothing
      · next hne => exact hunions _ (by simpa using hne) hsymbols
  | through toBound loop fromBound without ihTo ihLoop ihFrom ihWithout =>
    simp only [CellTree.labels, List.mem_append, or_imp, forall_and] at hlabels
    obtain ⟨⟨⟨hto, hloop⟩, hfrom⟩, hwithout⟩ := hlabels
    exact hthrough _ _ _ _ (ihTo hto) (ihLoop hloop) (ihFrom hfrom) (ihWithout hwithout)

/-- The same for the reading of a whole expression. -/
theorem whole_induction {P : Reading α .alternation → Prop} {ok : String → Prop}
    (hsymbol : ∀ a, ok a → P (lexicon.symbolReading a)) (hepsilon : P lexicon.epsilonReading)
    (hnothing : P lexicon.nothingReading)
    (hunions : ∀ trees, trees ≠ [] → (∀ tree ∈ trees, P tree) → P (unions trees))
    (hthrough : ∀ toBound loop fromBound without, P toBound → P loop → P fromBound → P without →
      P (throughReading toBound loop fromBound without))
    {trees : List (CellTree String)} (hlabels : ∀ tree ∈ trees, ∀ a ∈ tree.labels, ok a) :
    P (lexicon.whole trees) := by
  rw [whole]
  split
  · exact hnothing
  · next hne =>
    refine hunions _ (by simpa using hne) ?_
    intro reading hreading
    obtain ⟨tree, htree, rfl⟩ := List.mem_map.mp hreading
    exact lexicon.reading_induction hsymbol hepsilon hnothing hunions hthrough (hlabels tree htree)

/-! ## The characters of a reading -/

/-- A single concatenation of atoms is written atom by atom. -/
theorem written_only_ofAtoms (atoms : List α) :
    (only (ofAtoms atoms)).written lexicon.chars =
      atoms.flatMap (fun a => lexicon.chars (.atom a)) := by
  simp [written, tokens, List.flatMap_map]

/-- A symbol is written as the spelling has it. -/
@[simp] theorem written_symbolReading (label : String) :
    (lexicon.symbolReading label).written lexicon.chars = (s.symbol label).toList := by
  rw [symbolReading, written_only_ofAtoms, lexicon.symbol_eq]

/-- The empty word is written as the spelling has it. -/
@[simp] theorem written_epsilonReading :
    lexicon.epsilonReading.written lexicon.chars = s.epsilon.toList := by
  rw [epsilonReading, written_only_ofAtoms, lexicon.epsilon_eq]

/-- The empty set is written as the spelling has it. -/
@[simp] theorem written_nothingReading :
    lexicon.nothingReading.written lexicon.chars = s.emptySet.toList := by
  rw [nothingReading, written_only_ofAtoms, List.flatMap_singleton, lexicon.nothing_eq]

/-- Alternations are written with the bar of the spelling between them. -/
theorem written_unions (trees : List (Reading α .alternation)) :
    (unions trees).written lexicon.chars =
      List.intercalate s.alternation.toList (trees.map (written lexicon.chars)) := by
  induction trees with
  | nil => rfl
  | cons tree trees ih =>
    cases trees with
    | nil => simp [unions]
    | cons next trees =>
      rw [List.map_cons, List.map_cons, List.intercalate_cons_cons, ← List.map_cons, ← ih,
        unions_cons_cons, written, tokens_append, List.flatMap_append, List.flatMap_cons,
        lexicon.bar_eq, List.append_assoc]
      rfl

/-- Readings of texts, as one alternation, are written as the union of the texts. -/
theorem written_unions_eq {trees : List (Reading α .alternation)} {texts : List String}
    (h : trees.map (written lexicon.chars) = texts.map String.toList) :
    (unions trees).written lexicon.chars = (s.union texts).toList := by
  rw [written_unions, Spelling.union, String.toList_intercalate, h]

/-- Single moves are written as the tree of a cell is spelled for them. -/
theorem written_movesReading (labels : List String) (stays : Bool) :
    (lexicon.movesReading labels stays).written lexicon.chars =
      (CellTree.spellMoves s labels stays).toList := by
  have hsymbols : written lexicon.chars ∘ lexicon.symbolReading =
      String.toList ∘ s.symbol := funext lexicon.written_symbolReading
  rw [movesReading, CellTree.spellMoves]
  split
  · exact lexicon.written_unions_eq (by simp [hsymbols])
  · split
    · exact lexicon.written_nothingReading
    · exact lexicon.written_unions_eq (by simp [hsymbols])

/-- The reading of a tree is written as the tree is. -/
theorem written_reading (tree : CellTree String) :
    (lexicon.reading tree).written lexicon.chars = (tree.spell s).toList := by
  induction tree with
  | moves labels stays => exact lexicon.written_movesReading labels stays
  | through toBound loop fromBound without ihTo ihLoop ihFrom ihWithout =>
    rw [written] at ihTo ihLoop ihFrom ihWithout
    simp [reading, throughReading, written, tokens, starTokens, CellTree.spell, Builder.combine,
      Spelling.union, Spelling.group, ihTo, ihLoop, ihFrom, ihWithout, lexicon.opening_eq,
      lexicon.closing_eq, lexicon.bar_eq, lexicon.star_eq]

/-- The whole expression is written as the trees of its cells are spelled. -/
theorem written_whole (trees : List (CellTree String)) :
    (lexicon.whole trees).written lexicon.chars = (Builder.spellWhole s trees).toList := by
  have htrees : written lexicon.chars ∘ lexicon.reading = String.toList ∘ CellTree.spell s :=
    funext lexicon.written_reading
  rw [whole, Builder.spellWhole]
  split
  · exact lexicon.written_nothingReading
  · exact lexicon.written_unions_eq (by simp [htrees])

/-! ## The language of a reading -/

section Language

variable {meaning : α → Language β} {code : String → List β}
  (hnothing : meaning lexicon.nothing = 0) (hepsilon : (lexicon.epsilon.map meaning).prod = 1)

include hnothing in
/-- The reading of the empty set means no word. -/
theorem language_nothingReading : lexicon.nothingReading.language meaning = 0 := by
  simp [nothingReading, language, ofAtoms, hnothing]

include hnothing hepsilon

/-- The reading of single moves stands for the texts of their labels and of staying. -/
theorem language_movesReading {labels : List String} (stays : Bool)
    (hsymbol : ∀ a ∈ labels, ((lexicon.symbol a).map meaning).prod = {code a}) :
    (lexicon.movesReading labels stays).language meaning =
      (CellTree.moves labels stays).language code := by
  ext text
  have hlabels : (∃ tree ∈ labels.map lexicon.symbolReading, text ∈ tree.language meaning) ↔
      ∃ a ∈ labels, code a = text := by
    simp only [List.mem_map, exists_exists_and_eq_and]
    refine exists_congr (fun a => and_congr_right (fun ha => ?_))
    rw [symbolReading, language, language_ofAtoms, hsymbol a ha]
    exact eq_comm
  have hstay : text ∈ lexicon.epsilonReading.language meaning ↔ text = [] := by
    rw [epsilonReading, language, language_ofAtoms, hepsilon, Language.mem_one]
  show _ ↔ (∃ a ∈ labels, code a = text) ∨ (stays = true ∧ text = [])
  rw [← hlabels, ← hstay, movesReading]
  cases stays with
  | true =>
    rw [if_pos rfl, mem_language_unions (by simp)]
    simp only [List.mem_append, List.mem_singleton, or_and_right, exists_or, exists_eq_left,
      true_and]
  | false =>
    cases labels with
    | nil => simp [lexicon.language_nothingReading hnothing]
    | cons a labels => simp [mem_language_unions]

/-- The reading of a tree means the words of the tree if every symbol in it means its code. -/
theorem language_reading {tree : CellTree String}
    (hsymbol : ∀ a ∈ tree.labels, ((lexicon.symbol a).map meaning).prod = {code a}) :
    (lexicon.reading tree).language meaning = tree.language code := by
  induction tree with
  | moves labels stays => exact lexicon.language_movesReading hnothing hepsilon stays hsymbol
  | through toBound loop fromBound without ihTo ihLoop ihFrom ihWithout =>
    simp only [CellTree.labels, List.mem_append, or_imp, forall_and] at hsymbol
    obtain ⟨⟨⟨hto, hloop⟩, hfrom⟩, hwithout⟩ := hsymbol
    rw [reading, CellTree.language, ← ihTo hto, ← ihLoop hloop, ← ihFrom hfrom,
      ← ihWithout hwithout]
    simp [throughReading, language, mul_assoc]

/-- The reading of a whole expression stands for the texts of its trees. -/
theorem mem_language_whole {trees : List (CellTree String)}
    (hsymbol : ∀ tree ∈ trees, ∀ a ∈ tree.labels,
      ((lexicon.symbol a).map meaning).prod = {code a}) {text : List β} :
    text ∈ (lexicon.whole trees).language meaning ↔ ∃ tree ∈ trees, text ∈ tree.language code := by
  rw [whole]
  cases trees with
  | nil => simp [lexicon.language_nothingReading hnothing]
  | cons tree trees =>
    rw [if_neg (by simp), mem_language_unions (by simp)]
    simp only [List.mem_map, exists_exists_and_eq_and]
    refine exists_congr (fun other => and_congr_right (fun hother => ?_))
    rw [lexicon.language_reading hnothing hepsilon (hsymbol other hother)]

end Language

end Lexicon

end Kleene.Grammar
