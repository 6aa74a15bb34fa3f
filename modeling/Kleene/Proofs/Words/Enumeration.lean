import Kleene.Words.Enumeration
import Mathlib.Algebra.BigOperators.Group.Finset.Basic
import Mathlib.Data.List.Pairwise
import Mathlib.Data.List.Shortlex

/-!
# The words that are listed

`wordsUpTo` lists exactly the words over an alphabet up to a length, and no word after a longer one.
So the first listed word with a property is a shortest one with it (`length_le_of_listed`).

The main statement is `wordsUpTo_enumerates`: if the symbols of the alphabet are distinct then every
word stands in the list once, in the order of lengths and, among words of one length, in the
lexicographic order of the places that their symbols have in the alphabet.
-/

set_option autoImplicit false

namespace Kleene

variable {α : Type} {alphabet : List α}

/-- The words of a length are listed. -/
theorem mem_wordsOfLength {length : Nat} {word : List α} :
    word ∈ wordsOfLength alphabet length ↔
      word.length = length ∧ ∀ symbol ∈ word, symbol ∈ alphabet := by
  induction length generalizing word with
  | zero =>
    rw [wordsOfLength, List.mem_singleton, List.length_eq_zero_iff, iff_self_and]
    rintro rfl
    simp
  | succ length ih =>
    simp only [wordsOfLength, List.mem_flatMap, List.mem_map, ih]
    constructor
    · rintro ⟨symbol, hsymbol, rest, ⟨rfl, hrest⟩, rfl⟩
      exact ⟨rfl, List.forall_mem_cons.mpr ⟨hsymbol, hrest⟩⟩
    · rintro ⟨hlength, hword⟩
      obtain ⟨symbol, rest, rfl⟩ := List.exists_cons_of_length_eq_add_one hlength
      obtain ⟨hsymbol, hrest⟩ := List.forall_mem_cons.mp hword
      exact ⟨symbol, hsymbol, rest, ⟨Nat.succ.inj hlength, hrest⟩, rfl⟩

/-- The words up to a length are those over the alphabet that are not longer. -/
theorem mem_wordsUpTo {maxLength : Int} {word : List α} :
    word ∈ wordsUpTo alphabet maxLength ↔
      (word.length : Int) ≤ maxLength ∧ ∀ symbol ∈ word, symbol ∈ alphabet := by
  simp only [wordsUpTo, List.mem_flatMap, List.mem_range, mem_wordsOfLength]
  constructor
  · rintro ⟨length, hlt, rfl, hword⟩
    exact ⟨by omega, hword⟩
  · rintro ⟨hle, hword⟩
    exact ⟨word.length, by omega, rfl, hword⟩

/-- The listed words are in an order if those of each length are and shorter words come before
longer ones in it. -/
theorem pairwise_wordsUpTo {r : List α → List α → Prop}
    (hsame : ∀ length, (wordsOfLength alphabet length).Pairwise r)
    (hlonger : ∀ word later : List α, word.length < later.length → r word later)
    (maxLength : Int) : (wordsUpTo alphabet maxLength).Pairwise r := by
  rw [wordsUpTo, List.pairwise_flatMap]
  refine ⟨fun length _ => hsame length, ?_⟩
  refine List.pairwise_lt_range.imp (fun {length longer} hlt word hword later hlater => ?_)
  have hlength := (mem_wordsOfLength.mp hword).1
  have hlater := (mem_wordsOfLength.mp hlater).1
  exact hlonger word later (by omega)

/-- No word is listed after a longer one. -/
theorem pairwise_length_wordsUpTo (alphabet : List α) (maxLength : Int) :
    (wordsUpTo alphabet maxLength).Pairwise (fun word later => word.length ≤ later.length) := by
  refine pairwise_wordsUpTo (fun length => ?_) (fun _ _ => Nat.le_of_lt) maxLength
  refine List.pairwise_of_forall_mem_list (fun word hword later hlater => ?_)
  have hlength := (mem_wordsOfLength.mp hword).1
  have hlater := (mem_wordsOfLength.mp hlater).1
  omega

/-- A listed word is not longer than a word that is not among those before it. -/
theorem length_le_of_listed {maxLength : Int} {before after : List (List α)} {word other : List α}
    (hlisted : wordsUpTo alphabet maxLength = before ++ word :: after)
    (hother : other ∈ wordsUpTo alphabet maxLength) (hbefore : other ∉ before) :
    word.length ≤ other.length := by
  have hpairwise := pairwise_length_wordsUpTo alphabet maxLength
  rw [hlisted] at hpairwise hother
  have hafter := (List.pairwise_cons.mp (List.pairwise_append.mp hpairwise).2.1).1
  rcases List.mem_append.mp hother with hmem | hmem
  · exact absurd hmem hbefore
  · rcases List.mem_cons.mp hmem with rfl | hmem
    · exact Nat.le_refl _
    · exact hafter other hmem

/-! ## How many words there are -/

/-- There are as many words of a length as ways to choose each symbol. -/
theorem length_wordsOfLength (alphabet : List α) (length : Nat) :
    (wordsOfLength alphabet length).length = alphabet.length ^ length := by
  induction length with
  | zero => rfl
  | succ length ih =>
    simp only [wordsOfLength, List.length_flatMap, List.length_map, ih, List.map_const',
      List.sum_replicate_nat]
    rw [Nat.pow_succ, Nat.mul_comm]

/-- There are as many words up to a length as there are of each length together. -/
theorem length_wordsUpTo (alphabet : List α) (maxLength : Int) :
    (wordsUpTo alphabet maxLength).length =
      ∑ length ∈ Finset.range (maxLength + 1).toNat, alphabet.length ^ length := by
  simp only [wordsUpTo, List.length_flatMap, length_wordsOfLength]
  rfl

/-- Without symbols there is the empty word alone. -/
theorem wordsUpTo_nil {maxLength : Int} (h : 0 ≤ maxLength) :
    wordsUpTo ([] : List α) maxLength = [[]] := by
  obtain ⟨bound, hbound⟩ : ∃ bound, (maxLength + 1).toNat = bound + 1 :=
    ⟨maxLength.toNat, by omega⟩
  -- of the lengths only zero has a word
  have hlonger : (List.range bound).flatMap (fun length => wordsOfLength ([] : List α) (length + 1)) =
      [] := List.flatMap_eq_nil_iff.mpr (fun _ _ => rfl)
  rw [wordsUpTo, hbound, List.range_succ_eq_map, List.flatMap_cons, List.flatMap_map, hlonger]
  rfl

/-- No word has a negative length. -/
theorem wordsUpTo_of_neg (alphabet : List α) {maxLength : Int} (h : maxLength < 0) :
    wordsUpTo alphabet maxLength = [] := by
  rw [wordsUpTo, Int.toNat_of_nonpos (by omega)]
  rfl

/-! ## Their order -/

section Order

variable [DecidableEq α]

/-- A symbol has its place in the alphabet before that of another one. -/
def Precedes (alphabet : List α) (symbol other : α) : Prop :=
  alphabet.idxOf symbol < alphabet.idxOf other

instance : Std.Asymm (Precedes alphabet) :=
  ⟨fun _ _ => Nat.lt_asymm⟩

/-- The symbols of an alphabet without repetitions stand in their order. -/
theorem pairwise_precedes (hdistinct : alphabet.Nodup) : alphabet.Pairwise (Precedes alphabet) := by
  rw [List.pairwise_iff_getElem]
  intro i j hi hj hlt
  rw [Precedes, hdistinct.idxOf_getElem, hdistinct.idxOf_getElem]
  exact hlt

/-- The words of one length are listed in the lexicographic order. -/
theorem pairwise_lex_wordsOfLength (hdistinct : alphabet.Nodup) (length : Nat) :
    (wordsOfLength alphabet length).Pairwise (List.Lex (Precedes alphabet)) := by
  induction length with
  | zero => exact List.pairwise_singleton _ _
  | succ length ih =>
    rw [wordsOfLength, List.pairwise_flatMap]
    refine ⟨?_, ?_⟩
    · -- the same first symbol: the rest decides
      intro symbol _
      exact List.pairwise_map.mpr (ih.imp List.Lex.cons)
    · -- two first symbols: they decide
      refine (pairwise_precedes hdistinct).imp ?_
      intro symbol other hprecedes word hword later hlater
      obtain ⟨rest, -, rfl⟩ := List.mem_map.mp hword
      obtain ⟨rest', -, rfl⟩ := List.mem_map.mp hlater
      exact List.Lex.rel hprecedes

/-- Shorter words are listed first, and words of one length in the order of their first
difference. -/
theorem pairwise_shortlex_wordsUpTo (hdistinct : alphabet.Nodup) (maxLength : Int) :
    (wordsUpTo alphabet maxLength).Pairwise (List.Shortlex (Precedes alphabet)) := by
  refine pairwise_wordsUpTo (fun length => ?_) (fun _ _ => List.Shortlex.of_length_lt) maxLength
  refine (pairwise_lex_wordsOfLength hdistinct length).imp_of_mem ?_
  intro word later hword hlater hlex
  have hlength := (mem_wordsOfLength.mp hword).1
  have hlater := (mem_wordsOfLength.mp hlater).1
  exact List.Shortlex.of_lex (by omega) hlex

/-- No word is listed twice. -/
theorem nodup_wordsUpTo (hdistinct : alphabet.Nodup) (maxLength : Int) :
    (wordsUpTo alphabet maxLength).Nodup :=
  (pairwise_shortlex_wordsUpTo hdistinct maxLength).nodup

/-- If the symbols of an alphabet are distinct, every word over it up to a length is listed exactly
once and no other word is. The words are listed in strictly increasing order, of their lengths first
and then of the places of their symbols in the alphabet. So their number is the sum of the powers of
the number of symbols; only the empty word is listed if there are no symbols, and none at all if the
length is negative. -/
theorem wordsUpTo_enumerates (hdistinct : alphabet.Nodup) (maxLength : Int) :
    (∀ word : List α, (wordsUpTo alphabet maxLength).count word =
      if (word.length : Int) ≤ maxLength ∧ ∀ symbol ∈ word, symbol ∈ alphabet then 1 else 0) ∧
    (wordsUpTo alphabet maxLength).Pairwise (List.Shortlex (Precedes alphabet)) ∧
    (wordsUpTo alphabet maxLength).length =
      ∑ length ∈ Finset.range (maxLength + 1).toNat, alphabet.length ^ length ∧
    (alphabet = [] → 0 ≤ maxLength → wordsUpTo alphabet maxLength = [[]]) ∧
    (maxLength < 0 → wordsUpTo alphabet maxLength = []) := by
  refine ⟨?_, pairwise_shortlex_wordsUpTo hdistinct maxLength, length_wordsUpTo alphabet maxLength,
    ?_, wordsUpTo_of_neg alphabet⟩
  · intro word
    rw [(nodup_wordsUpTo hdistinct maxLength).count]
    simp only [mem_wordsUpTo]
  · rintro rfl hmax
    exact wordsUpTo_nil hmax

/-- An alphabet that is not in the usual order, and its words in its own order. -/
theorem wordsUpTo_enumerates_backwards :
    ['b', 'a'].Nodup ∧ (wordsUpTo ['b', 'a'] 2).count ['a', 'b'] = 1 ∧
      (wordsUpTo ['b', 'a'] 2).length = 7 ∧
      (wordsUpTo ['b', 'a'] 2).Pairwise (List.Shortlex (Precedes ['b', 'a'])) := by
  have hdistinct : ['b', 'a'].Nodup := by decide
  obtain ⟨hcount, horder, hlength, -⟩ := wordsUpTo_enumerates hdistinct 2
  refine ⟨hdistinct, ?_, ?_, horder⟩
  · rw [hcount]
    decide
  · rw [hlength]
    decide

end Order

end Kleene
