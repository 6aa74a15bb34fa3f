import Kleene.Proofs.Expression.Lexicon
import Mathlib.Data.List.Chain

/-!
# Texts that determine their tokens

A `Scanner` says how tokens are told apart in a text. Some atoms are runs: they go on as long as
their characters do. The other tokens are marks, which no character of a run begins. Tokens among
which no two runs stand side by side are determined by their characters
(`Scanner.eq_of_flatMap_chars_eq`), and so are the trees of such tokens
(`Scanner.eq_of_written_eq`).

The reading of a written expression is such a tree if its atoms are ones that the scanner allows,
since every atom in it has a mark after it: `Scanner.fits_whole`.
-/

set_option autoImplicit false

namespace Kleene.Grammar

open Reading

/-- The token is a mark or one of certain atoms. -/
def Token.OneOf {α : Type} (atoms : α → Prop) : Token α → Prop
  | .atom a => atoms a
  | _ => True

/-- Whether the token is one of certain atoms. -/
def Token.isAmong {α : Type} (atoms : α → Bool) : Token α → Bool
  | .atom a => atoms a
  | _ => false

/-- How tokens are told apart in a text. -/
structure Scanner (α : Type) where
  chars : Token α → List Char
  Allowed : α → Prop
  isRun : α → Bool
  /-- The characters that runs consist of. -/
  inRun : Char → Bool
  first : ∀ token : Token α, token.OneOf Allowed →
    ∃ c more, chars token = c :: more ∧ inRun c = token.isAmong isRun
  runs : ∀ a, Allowed a → isRun a = true → ∀ c ∈ chars (.atom a), inRun c = true
  run_inj : ∀ a a', Allowed a → Allowed a' → isRun a = true → isRun a' = true →
    chars (.atom a) = chars (.atom a') → a = a'
  mark_inj : ∀ (mark mark' : Token α) (rest rest' : List Char), mark.isAmong isRun = false →
    mark'.isAmong isRun = false → chars mark ++ rest = chars mark' ++ rest' →
    mark = mark' ∧ rest = rest'

namespace Scanner

variable {α : Type} (scanner : Scanner α)

/-- No two runs stand side by side, where they would be one. -/
def Apart (tokens : List (Token α)) : Prop :=
  tokens.IsChain (fun token next =>
    token.isAmong scanner.isRun = true → next.isAmong scanner.isRun = false)

variable {scanner}

/-- After a run comes no character that it would go on with. -/
theorem inRun_head?_of_apart {token : Token α} {tokens : List (Token α)}
    (hrun : token.isAmong scanner.isRun = true) (hapart : scanner.Apart (token :: tokens))
    (hallowed : ∀ next ∈ tokens, next.OneOf scanner.Allowed) :
    ∀ c ∈ (tokens.flatMap scanner.chars).head?, scanner.inRun c = false := by
  cases tokens with
  | nil => simp
  | cons next tokens =>
    have hnext : next.isAmong scanner.isRun = false := (List.isChain_cons.mp hapart).1 next rfl hrun
    obtain ⟨d, more, hchars, hd⟩ := scanner.first next (hallowed next List.mem_cons_self)
    intro c hc
    rw [List.flatMap_cons, hchars] at hc
    obtain rfl : d = c := by simpa using hc
    rw [hd, hnext]

/-- A run is what can be taken from the text that it begins. -/
theorem takeWhile_run {a : α} (hallowed : scanner.Allowed a) (hrun : scanner.isRun a = true)
    {rest : List Char} (hrest : ∀ c ∈ rest.head?, scanner.inRun c = false) :
    (scanner.chars (.atom a) ++ rest).takeWhile scanner.inRun = scanner.chars (.atom a) := by
  have hstop : rest.takeWhile scanner.inRun = [] := by
    cases rest with
    | nil => rfl
    | cons c more => simp [hrest c rfl]
  rw [List.takeWhile_append_of_pos (scanner.runs a hallowed hrun), hstop, List.append_nil]

/-- Only an atom is among atoms. -/
theorem exists_atom_of_isAmong {atoms : α → Bool} {token : Token α}
    (h : token.isAmong atoms = true) : ∃ a, token = .atom a ∧ atoms a = true := by
  cases token with
  | atom a => exact ⟨a, rfl, h⟩
  | opening => cases h
  | closing => cases h
  | bar => cases h
  | star => cases h

/-- Tokens among which runs are apart are determined by their characters. The induction is on the
first list; the first characters tell whether a run comes next, and which token does. -/
theorem eq_of_flatMap_chars_eq {tokens tokens' : List (Token α)}
    (hallowed : ∀ token ∈ tokens, token.OneOf scanner.Allowed)
    (hallowed' : ∀ token ∈ tokens', token.OneOf scanner.Allowed)
    (hapart : scanner.Apart tokens) (hapart' : scanner.Apart tokens')
    (h : tokens.flatMap scanner.chars = tokens'.flatMap scanner.chars) : tokens = tokens' := by
  induction tokens generalizing tokens' with
  | nil =>
    cases tokens' with
    | nil => rfl
    | cons token' tokens' =>
      obtain ⟨c, more, hchars, -⟩ := scanner.first token' (hallowed' token' List.mem_cons_self)
      simp [hchars] at h
  | cons token tokens ih =>
    obtain ⟨htoken, htokens⟩ := List.forall_mem_cons.mp hallowed
    obtain ⟨c, more, hchars, hc⟩ := scanner.first token htoken
    cases tokens' with
    | nil => simp [hchars] at h
    | cons token' tokens' =>
      obtain ⟨htoken', htokens'⟩ := List.forall_mem_cons.mp hallowed'
      obtain ⟨c', more', hchars', hc'⟩ := scanner.first token' htoken'
      have hrest := ih htokens htokens' (List.isChain_cons.mp hapart).2
        (List.isChain_cons.mp hapart').2
      rw [List.flatMap_cons, List.flatMap_cons] at h
      have hkind : token.isAmong scanner.isRun = token'.isAmong scanner.isRun := by
        have hfirst : c = c' := by
          rw [hchars, hchars'] at h
          exact (List.cons.inj h).1
        rw [← hc, ← hc', hfirst]
      cases hrun : token.isAmong scanner.isRun with
      | false =>
        obtain ⟨rfl, hsame⟩ := scanner.mark_inj token token' _ _ hrun (hkind ▸ hrun) h
        rw [hrest hsame]
      | true =>
        have hrun' := hkind ▸ hrun
        have hend := inRun_head?_of_apart hrun hapart htokens
        have hend' := inRun_head?_of_apart hrun' hapart' htokens'
        obtain ⟨a, rfl, ha⟩ := exists_atom_of_isAmong hrun
        obtain ⟨a', rfl, ha'⟩ := exists_atom_of_isAmong hrun'
        have hsame : scanner.chars (.atom a) = scanner.chars (.atom a') := by
          rw [← takeWhile_run htoken ha hend, ← takeWhile_run htoken' ha' hend']
          exact congrArg (List.takeWhile scanner.inRun) h
        obtain rfl := scanner.run_inj a a' htoken htoken' ha ha' hsame
        rw [hrest (List.append_cancel_left h)]

/-! ## Trees -/

variable (scanner) in
/-- A tree that the scanner can find in a text. -/
structure Fits (tree : Reading α .alternation) : Prop where
  filled : tree.Filled
  allowed : ∀ a, .atom a ∈ tree.tokens → scanner.Allowed a
  apart : scanner.Apart tree.tokens

/-- A text is the written form of one tree at most. -/
theorem eq_of_written_eq {tree tree' : Reading α .alternation} (h : scanner.Fits tree)
    (h' : scanner.Fits tree')
    (hwritten : tree.written scanner.chars = tree'.written scanner.chars) : tree = tree' := by
  have htokens : ∀ {tree : Reading α .alternation}, scanner.Fits tree →
      ∀ token ∈ tree.tokens, token.OneOf scanner.Allowed := by
    intro tree h token htoken
    cases token with
    | atom a => exact h.allowed a htoken
    | _ => trivial
  exact Reading.eq_of_tokens_eq
    (eq_of_flatMap_chars_eq (htokens h) (htokens h') h.apart h'.apart hwritten)

/-- A mark keeps the runs before it and after it apart. -/
theorem apart_append_cons {mark : Token α} (hmark : mark.isAmong scanner.isRun = false)
    {before after : List (Token α)} :
    scanner.Apart (before ++ mark :: after) ↔ scanner.Apart before ∧ scanner.Apart after := by
  unfold Apart
  rw [List.isChain_append, List.isChain_cons]
  simp [hmark]

/-- A mark before it makes no difference to whether runs are kept apart. -/
theorem apart_cons {mark : Token α} (hmark : mark.isAmong scanner.isRun = false)
    {after : List (Token α)} : scanner.Apart (mark :: after) ↔ scanner.Apart after := by
  unfold Apart
  rw [List.isChain_cons]
  simp [hmark]

/-- A single atom that is allowed fits. -/
theorem fits_atom {a : α} (h : scanner.Allowed a) : scanner.Fits (.only (.ofAtoms [a])) where
  filled := Reading.filled_only_ofAtoms (by simp)
  allowed other hother := by
    obtain rfl : other = a := by simpa [Reading.tokens] using hother
    exact h
  apart := List.isChain_singleton _

/-- Two readings that fit can be joined by a bar. -/
theorem Fits.append {tree tree' : Reading α .alternation} (h : scanner.Fits tree)
    (h' : scanner.Fits tree') : scanner.Fits (tree.append tree') where
  filled := Reading.filled_append h.filled h'.filled
  allowed a ha := by
    rw [Reading.tokens_append, List.mem_append, List.mem_cons] at ha
    rcases ha with ha | ha | ha
    · exact h.allowed a ha
    · cases ha
    · exact h'.allowed a ha
  apart := by
    rw [Reading.tokens_append, apart_append_cons rfl]
    exact ⟨h.apart, h'.apart⟩

/-- Readings that fit can be joined by bars, if there is one. -/
theorem fits_unions (trees : List (Reading α .alternation)) (hne : trees ≠ [])
    (h : ∀ tree ∈ trees, scanner.Fits tree) : scanner.Fits (Reading.unions trees) := by
  induction trees with
  | nil => exact absurd rfl hne
  | cons tree trees ih =>
    obtain ⟨htree, htrees⟩ := List.forall_mem_cons.mp h
    cases trees with
    | nil => exact htree
    | cons next trees => exact htree.append (ih (by simp) htrees)

/-- The parentheses of a cell keep the runs of its parts apart. -/
theorem fits_through (toBound loop fromBound without : Reading α .alternation)
    (hto : scanner.Fits toBound) (hloop : scanner.Fits loop) (hfrom : scanner.Fits fromBound)
    (hwithout : scanner.Fits without) :
    scanner.Fits (Lexicon.throughReading toBound loop fromBound without) where
  filled := ⟨by simp, ⟨hto.filled, hloop.filled, hfrom.filled, trivial⟩, by simp, hwithout.filled,
    trivial⟩
  allowed a ha := by
    simp only [Lexicon.throughReading, Reading.tokens, Reading.starTokens, List.mem_append,
      List.mem_cons, List.not_mem_nil, reduceCtorEq, Bool.false_eq_true, if_false, if_true,
      false_or, or_false] at ha
    rcases ha with (ha | ha | ha) | ha
    · exact hto.allowed a ha
    · exact hloop.allowed a ha
    · exact hfrom.allowed a ha
    · exact hwithout.allowed a ha
  apart := by
    simp only [Lexicon.throughReading, Reading.tokens, Reading.starTokens, List.append_assoc,
      List.cons_append, List.nil_append, if_true, if_false, Bool.false_eq_true]
    rw [apart_cons rfl, apart_append_cons rfl, apart_cons rfl, apart_append_cons rfl,
      apart_cons rfl, apart_cons rfl, apart_append_cons rfl, apart_cons rfl, apart_cons rfl,
      apart_append_cons rfl]
    exact ⟨hto.apart, hloop.apart, hfrom.apart, hwithout.apart, List.isChain_nil⟩

/-- The reading of a whole expression fits if the atoms of its parts are allowed, one for each. -/
theorem fits_whole {s : Spelling} {lexicon : Lexicon α s}
    (hnothing : scanner.Allowed lexicon.nothing)
    (hepsilon : ∃ a, lexicon.epsilon = [a] ∧ scanner.Allowed a) {trees : List (CellTree String)}
    (hlabels : ∀ tree ∈ trees, ∀ label ∈ tree.labels,
      ∃ a, lexicon.symbol label = [a] ∧ scanner.Allowed a) :
    scanner.Fits (lexicon.whole trees) := by
  refine lexicon.whole_induction (fun label hlabel => ?_) ?_ (fits_atom hnothing) fits_unions
    fits_through hlabels
  · obtain ⟨a, hsymbol, ha⟩ := hlabel
    unfold Lexicon.symbolReading
    rw [hsymbol]
    exact fits_atom ha
  · obtain ⟨a, hepsilon, ha⟩ := hepsilon
    unfold Lexicon.epsilonReading
    rw [hepsilon]
    exact fits_atom ha

end Scanner

end Kleene.Grammar
