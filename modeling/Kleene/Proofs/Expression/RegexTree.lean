import Kleene.Proofs.Expression.CellTree

/-!
# Regular expressions and their written forms

A `RegexTree` is a regular expression with the groups that it is written with. `RegexTree.render`
writes it down part by part in the tokens of a spelling, and nothing else of the spelling matters.

Two shapes are all that path expressions need: a bare union of expressions (`RegexTree.unions`),
which is the empty set if there are none, and `(X)(Y)*(Z)|(W)` (`RegexTree.through`).
`CellTree.expand` makes a tree of these two shapes from the tree of a cell.
-/

set_option autoImplicit false

namespace Kleene

/-- A regular expression over labels, groups included. -/
inductive RegexTree (α : Type) where
  | symbol (label : α)
  | epsilon
  | emptySet
  | union (first rest : RegexTree α)
  | append (first rest : RegexTree α)
  | star (repeated : RegexTree α)
  | group (inner : RegexTree α)
  deriving Repr, DecidableEq

namespace Spelling

variable {ν : Type} [Name ν]

/-- How a label is written: a text as it is and another name as in a message, both in the form of a
symbol. -/
def write (s : Spelling) (label : ν) : String :=
  s.symbol ((Name.text? label).getD (Name.display label))

/-- The spelling can write every label of the automaton: those that are no texts too, or there are
none. -/
def Writes (s : Spelling) (m : Automaton ν) : Prop :=
  s.textsOnly = true → ∀ p q, ∀ label ∈ m.graph.labels p q, (Name.text? label).isSome = true

/-- Every spelling can write the labels of an automaton of texts. -/
theorem writes_string (s : Spelling) (m : Automaton String) : s.Writes m :=
  fun _ _ _ _ _ => rfl

/-- The spelling for readers can write every label. -/
theorem writes_words (m : Automaton ν) : words.Writes m :=
  fun htexts => nomatch htexts

end Spelling

namespace RegexTree

section Shapes

variable {α : Type}

/-- Any of the given expressions, side by side without groups. -/
def unions : List (RegexTree α) → RegexTree α
  | [] => emptySet
  | [tree] => tree
  | tree :: rest => union tree (unions rest)

/-- The union of many trees is that of the first one and of the union of the rest. -/
theorem unions_cons_cons (tree next : RegexTree α) (rest : List (RegexTree α)) :
    unions (tree :: next :: rest) = union tree (unions (next :: rest)) :=
  rfl

/-- The expression `(X)(Y)*(Z)|(W)`. -/
def through (toBound loop fromBound without : RegexTree α) : RegexTree α :=
  union (append (append (group toBound) (star (group loop))) (group fromBound)) (group without)

/-- The labels of the single moves from one position to another, and the empty word if one may stay.
-/
def moves (labels : List α) (stays : Bool) : RegexTree α :=
  unions (labels.map symbol ++ if stays then [epsilon] else [])

end Shapes

variable {ν : Type} [Name ν]

/-- The written form of an expression in a spelling. -/
def render (s : Spelling) : RegexTree ν → String
  | symbol label => s.write label
  | epsilon => s.epsilon
  | emptySet => s.emptySet
  | union first rest => first.render s ++ s.alternation ++ rest.render s
  | append first rest => first.render s ++ rest.render s
  | star repeated => repeated.render s ++ s.star
  | group inner => s.groupOpen ++ inner.render s ++ s.groupClose

/-- A union of trees is written as the spelling joins what they are written as. -/
theorem render_unions (s : Spelling) {trees : List (RegexTree ν)} (h : trees ≠ []) :
    (unions trees).render s = s.union (trees.map (render s)) := by
  induction trees with
  | nil => exact absurd rfl h
  | cons tree rest ih =>
    cases rest with
    | nil => simp [unions, Spelling.union]
    | cons next rest =>
      rw [unions_cons_cons, render, ih (List.cons_ne_nil _ _)]
      exact String.intercalate_cons_cons.symm

/-- The four parts of a cell are written as the spelling combines what they are written as. -/
theorem render_through (s : Spelling) (toBound loop fromBound without : RegexTree ν) :
    (through toBound loop fromBound without).render s =
      Builder.combine s (toBound.render s) (loop.render s) (fromBound.render s)
        (without.render s) := by
  simp [through, render, Builder.combine, Spelling.union, Spelling.group, String.append_assoc]

/-- Single moves are written label by label, with the empty word for staying, and as the empty set
if there are none. -/
theorem render_moves (s : Spelling) (labels : List ν) (stays : Bool) :
    (moves labels stays).render s =
      if stays then s.union (labels.map s.write ++ [s.epsilon])
      else if labels.isEmpty then s.emptySet
      else s.union (labels.map s.write) := by
  have hsymbols : render s ∘ symbol = s.write (ν := ν) := rfl
  cases stays with
  | true =>
    rw [moves, render_unions s (by simp)]
    simp [hsymbols, render]
  | false =>
    cases labels with
    | nil => rfl
    | cons label labels =>
      rw [moves, render_unions s (by simp)]
      simp [hsymbols, render]

end RegexTree

/-- What the tree of a cell says, as a regular expression. -/
def CellTree.expand {α : Type} : CellTree α → RegexTree α
  | .moves labels stays => RegexTree.moves labels stays
  | .through toBound loop fromBound without =>
    RegexTree.through toBound.expand loop.expand fromBound.expand without.expand

/-- The tree of a cell is written as its regular expression is. -/
theorem CellTree.render_expand (s : Spelling) (tree : CellTree String) :
    tree.expand.render s = tree.spell s := by
  induction tree with
  | moves labels stays => exact RegexTree.render_moves s labels stays
  | through toBound loop fromBound without ihTo ihLoop ihFrom ihWithout =>
    rw [CellTree.expand, RegexTree.render_through, ihTo, ihLoop, ihFrom, ihWithout]
    rfl

end Kleene
