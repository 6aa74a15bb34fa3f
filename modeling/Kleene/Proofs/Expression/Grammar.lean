import Mathlib

/-!
# The grammar of written expressions

A `Reading` is a parse tree for a list of tokens: an alternation is a list of concatenations with
bars between them, a concatenation is a list of operands, each of which may be starred, and an
operand is an atom or an alternation in parentheses. So a star binds tighter than a concatenation
and that tighter than an alternation. A concatenation may be empty; `Reading.Filled` says that none
is.

`Reading.tokens` writes a tree down and `Reading.language` is the set of words that it stands for.
The main statement is `Reading.eq_of_tokens_eq`: the tokens determine the tree.
-/

set_option autoImplicit false

open scoped Computability

namespace Kleene.Grammar

/-- The tokens of a written expression over atoms. -/
inductive Token (α : Type) where
  | opening
  | closing
  | bar
  | star
  | atom (a : α)
  deriving Repr, DecidableEq

/-- The kinds of trees. -/
inductive Part where
  | alternation
  | concatenation
  | operand
  deriving Repr, DecidableEq

/-- A parse tree of one of the kinds. -/
inductive Reading (α : Type) : Part → Type where
  /-- An alternation of one concatenation. -/
  | only (first : Reading α .concatenation) : Reading α .alternation
  | or (first : Reading α .concatenation) (rest : Reading α .alternation) : Reading α .alternation
  | nil : Reading α .concatenation
  | cons (first : Reading α .operand) (starred : Bool) (rest : Reading α .concatenation) :
      Reading α .concatenation
  | atom (a : α) : Reading α .operand
  | group (inner : Reading α .alternation) : Reading α .operand

namespace Reading

variable {α β : Type}

/-- The star of an operand, if it has one. -/
def starTokens (starred : Bool) : List (Token α) :=
  if starred then [.star] else []

/-- The tokens of a tree. -/
def tokens {p : Part} : Reading α p → List (Token α)
  | only first => first.tokens
  | or first rest => first.tokens ++ .bar :: rest.tokens
  | nil => []
  | cons first starred rest => first.tokens ++ (starTokens starred ++ rest.tokens)
  | atom a => [.atom a]
  | group inner => .opening :: (inner.tokens ++ [.closing])

/-- The words that a tree stands for, where `meaning` are those of an atom. -/
def language (meaning : α → Language β) {p : Part} : Reading α p → Language β
  | only first => first.language meaning
  | or first rest => first.language meaning + rest.language meaning
  | nil => 1
  | cons first starred rest =>
    (if starred then (first.language meaning)∗ else first.language meaning) * rest.language meaning
  | atom a => meaning a
  | group inner => inner.language meaning

/-- No concatenation in the tree is empty. -/
def Filled {p : Part} : Reading α p → Prop
  | only first => first ≠ nil ∧ first.Filled
  | or first rest => first ≠ nil ∧ first.Filled ∧ rest.Filled
  | nil => True
  | cons first _ rest => first.Filled ∧ rest.Filled
  | atom _ => True
  | group inner => inner.Filled

/-! ## Uniqueness -/

/-- What may stand after a tree of a kind, so that the tree ends there: nothing or a closing
parenthesis after an alternation, also a bar after a concatenation, and anything after an operand.
-/
def Ends : Part → List (Token α) → Prop
  | .alternation, rest => rest.head? = none ∨ rest.head? = some .closing
  | .concatenation, rest =>
    rest.head? = none ∨ rest.head? = some .closing ∨ rest.head? = some .bar
  | .operand, _ => True

/-- What ends an alternation ends its last concatenation. -/
theorem Ends.concatenation {rest : List (Token α)} (h : Ends .alternation rest) :
    Ends .concatenation rest :=
  h.imp_right .inl

/-- An operand has a first token, which is no closing parenthesis, no bar and no star. -/
theorem exists_tokens_operand (operand : Reading α .operand) :
    ∃ first more, operand.tokens = first :: more ∧
      first ≠ .closing ∧ first ≠ .bar ∧ first ≠ .star := by
  cases operand with
  | atom a => exact ⟨.atom a, [], rfl, by simp, by simp, by simp⟩
  | group inner => exact ⟨.opening, _, rfl, by simp, by simp, by simp⟩

/-- No concatenation ends before an operand. -/
theorem not_ends_operand (operand : Reading α .operand) (rest : List (Token α)) :
    ¬ Ends .concatenation (operand.tokens ++ rest) := by
  obtain ⟨first, more, htokens, hclosing, hbar, -⟩ := exists_tokens_operand operand
  simp [Ends, htokens, hclosing, hbar]

/-- No concatenation begins with a star. -/
theorem head?_concatenation_ne_star (c : Reading α .concatenation) {rest : List (Token α)}
    (hrest : Ends .concatenation rest) : (c.tokens ++ rest).head? ≠ some .star := by
  cases c with
  | nil => rcases hrest with h | h | h <;> simp [tokens, h]
  | cons first starred more =>
    obtain ⟨token, others, htokens, -, -, hstar⟩ := exists_tokens_operand first
    simp [tokens, htokens, hstar]

/-- If the tokens of two trees of a kind begin one list and the trees end where they do, then they
are one tree. The induction is on the first tree; the second one is split by its constructor, and
where the constructors differ the token after the common part tells them apart. -/
theorem eq_of_tokens_append_eq {p : Part} {tree tree' : Reading α p} {rest rest' : List (Token α)}
    (hrest : Ends p rest) (hrest' : Ends p rest')
    (h : tree.tokens ++ rest = tree'.tokens ++ rest') : tree = tree' ∧ rest = rest' := by
  induction tree generalizing rest rest' with
  | only first ih =>
    cases tree' with
    | only first' =>
      obtain ⟨rfl, hrests⟩ := ih hrest.concatenation hrest'.concatenation h
      exact ⟨rfl, hrests⟩
    | or first' more' =>
      simp only [tokens, List.append_assoc] at h
      obtain ⟨-, rfl⟩ := ih hrest.concatenation (.inr (.inr rfl)) h
      simp [Ends] at hrest
  | or first more ih ihmore =>
    cases tree' with
    | only first' =>
      simp only [tokens, List.append_assoc] at h
      obtain ⟨-, rfl⟩ := ih (.inr (.inr rfl)) hrest'.concatenation h
      simp [Ends] at hrest'
    | or first' more' =>
      simp only [tokens, List.append_assoc] at h
      obtain ⟨rfl, hmore⟩ := ih (.inr (.inr rfl)) (.inr (.inr rfl)) h
      obtain ⟨rfl, hrests⟩ := ihmore hrest hrest' (List.cons.inj hmore).2
      exact ⟨rfl, hrests⟩
  | nil =>
    cases tree' with
    | nil => exact ⟨rfl, h⟩
    | cons first' starred' more' =>
      simp only [tokens, List.nil_append, List.append_assoc] at h
      rw [h] at hrest
      exact absurd hrest (not_ends_operand first' _)
  | cons first starred more ih ihmore =>
    cases tree' with
    | nil =>
      simp only [tokens, List.nil_append, List.append_assoc] at h
      rw [← h] at hrest'
      exact absurd hrest' (not_ends_operand first _)
    | cons first' starred' more' =>
      simp only [tokens, List.append_assoc] at h
      obtain ⟨rfl, hmore⟩ := ih trivial trivial h
      have hstar := head?_concatenation_ne_star more hrest
      have hstar' := head?_concatenation_ne_star more' hrest'
      cases starred <;> cases starred'
      · obtain ⟨rfl, hrests⟩ := ihmore hrest hrest' hmore
        exact ⟨rfl, hrests⟩
      · exact absurd (congrArg List.head? hmore) hstar
      · exact absurd (congrArg List.head? hmore).symm hstar'
      · obtain ⟨rfl, hrests⟩ := ihmore hrest hrest' (List.cons.inj hmore).2
        exact ⟨rfl, hrests⟩
  | atom a =>
    cases tree' with
    | atom a' =>
      obtain ⟨ha, hrests⟩ := List.cons.inj h
      exact ⟨congrArg atom (Token.atom.inj ha), hrests⟩
    | group inner' => cases (List.cons.inj h).1
  | group inner ih =>
    cases tree' with
    | atom a' => cases (List.cons.inj h).1
    | group inner' =>
      simp only [tokens, List.cons_append, List.append_assoc, List.cons.injEq, true_and] at h
      obtain ⟨rfl, hclosing⟩ := ih (.inr rfl) (.inr rfl) h
      exact ⟨rfl, (List.cons.inj hclosing).2⟩

/-- An alternation can be read off its tokens. -/
theorem eq_of_tokens_eq {tree tree' : Reading α .alternation} (h : tree.tokens = tree'.tokens) :
    tree = tree' := by
  have hend : Ends .alternation ([] : List (Token α)) := .inl rfl
  exact (eq_of_tokens_append_eq hend hend (congrArg (· ++ []) h)).1

/-! ## Putting trees together -/

/-- The concatenation of atoms without stars. -/
def ofAtoms : List α → Reading α .concatenation
  | [] => nil
  | a :: atoms => cons (atom a) false (ofAtoms atoms)

/-- Two alternations as one. -/
def append : Reading α .alternation → Reading α .alternation → Reading α .alternation
  | only first, others => or first others
  | or first rest, others => or first (rest.append others)

/-- All alternations of a list as one. -/
def unions : List (Reading α .alternation) → Reading α .alternation
  | [] => only nil
  | [tree] => tree
  | tree :: trees => tree.append (unions trees)

/-- A concatenation of atoms has one token for each. -/
@[simp] theorem tokens_ofAtoms (atoms : List α) : (ofAtoms atoms).tokens = atoms.map .atom := by
  induction atoms with
  | nil => rfl
  | cons a atoms ih => simp [ofAtoms, tokens, starTokens, ih]

/-- A concatenation of atoms means what their meanings make one after the other. -/
@[simp] theorem language_ofAtoms (meaning : α → Language β) (atoms : List α) :
    (ofAtoms atoms).language meaning = (atoms.map meaning).prod := by
  induction atoms with
  | nil => rfl
  | cons a atoms ih => simp [ofAtoms, language, ih]

/-- Atoms are no empty concatenations. -/
theorem filled_ofAtoms (atoms : List α) : (ofAtoms atoms).Filled := by
  induction atoms with
  | nil => trivial
  | cons a atoms ih => exact ⟨trivial, ih⟩

/-- A single concatenation of atoms is filled if there is an atom. -/
theorem filled_only_ofAtoms {atoms : List α} (h : atoms ≠ []) : (only (ofAtoms atoms)).Filled := by
  refine ⟨?_, filled_ofAtoms atoms⟩
  cases atoms with
  | nil => exact absurd rfl h
  | cons a atoms => simp [ofAtoms]

/-- Two alternations are joined by a bar. -/
theorem tokens_append : ∀ tree tree' : Reading α .alternation,
    (tree.append tree').tokens = tree.tokens ++ .bar :: tree'.tokens
  | only first, tree' => by rw [append, tokens, tokens]
  | or first rest, tree' => by
    rw [append, tokens, tokens_append rest tree', tokens, List.append_assoc, List.cons_append]

/-- Two alternations that are joined mean what either of them means. -/
theorem language_append (meaning : α → Language β) : ∀ tree tree' : Reading α .alternation,
    (tree.append tree').language meaning = tree.language meaning + tree'.language meaning
  | only first, tree' => by rw [append, language, language]
  | or first rest, tree' => by
    rw [append, language, language_append meaning rest tree', language, add_assoc]

/-- Two filled alternations that are joined are filled. -/
theorem filled_append : ∀ {tree tree' : Reading α .alternation}, tree.Filled → tree'.Filled →
    (tree.append tree').Filled
  | only first, tree', h, h' => by
    rw [append]
    exact ⟨h.1, h.2, h'⟩
  | or first rest, tree', h, h' => by
    rw [append]
    exact ⟨h.1, h.2.1, filled_append h.2.2 h'⟩

/-- The first of many alternations is joined to the rest of them. -/
theorem unions_cons_cons (tree next : Reading α .alternation)
    (trees : List (Reading α .alternation)) :
    unions (tree :: next :: trees) = tree.append (unions (next :: trees)) :=
  rfl

/-- All alternations of a list stand for the words of any of them. -/
theorem mem_language_unions {meaning : α → Language β} {trees : List (Reading α .alternation)}
    (h : trees ≠ []) {word : List β} :
    word ∈ (unions trees).language meaning ↔ ∃ tree ∈ trees, word ∈ tree.language meaning := by
  induction trees with
  | nil => exact absurd rfl h
  | cons tree trees ih =>
    cases trees with
    | nil => simp [unions]
    | cons next trees =>
      rw [unions_cons_cons, language_append, Language.mem_add, ih (by simp)]
      simp

end Reading

end Kleene.Grammar
