import Kleene.Words.Sampling
import Mathlib.Data.List.Basic

/-!
# The words that are drawn

A generator is fair if every number that it draws is within its bound and every item that it chooses
is among those on offer (`Generator.Fair`). `Generator.requests` is what a generator is asked for
while it draws words: it is asked through `Generator.recorded`, which keeps a record and answers as
the generator does.

The main statement is `sampleWords_attains`: whatever a fair generator draws are as many words as
asked for, over the alphabet and up to the length, and every such list of words is drawn by some
generator that takes its choices from a list of numbers.
-/

set_option autoImplicit false

namespace Kleene

namespace Generator

variable {γ α : Type} {g : Generator γ α} {alphabet : List α}

/-! ## What is drawn -/

/-- A generator that draws within the bound and chooses among the items. -/
structure Fair (g : Generator γ α) : Prop where
  upTo_le : ∀ bound state, (g.upTo bound state).1 ≤ bound
  choose_mem : ∀ items (h : items ≠ []) state, (g.choose items h state).1 ∈ items

/-- One symbol after another is drawn. -/
theorem symbols_succ (g : Generator γ α) (h : alphabet ≠ []) (count : Nat) (state : γ) :
    g.symbols alphabet h (count + 1) state =
      ((g.choose alphabet h state).1 :: (g.symbols alphabet h count (g.choose alphabet h state).2).1,
        (g.symbols alphabet h count (g.choose alphabet h state).2).2) :=
  rfl

/-- One word after another is drawn. -/
theorem words_succ (g : Generator γ α) (alphabet : List α) (maxLength count : Nat) (state : γ) :
    g.words alphabet maxLength (count + 1) state =
      ((g.word alphabet maxLength state).1 ::
          (g.words alphabet maxLength count (g.word alphabet maxLength state).2).1,
        (g.words alphabet maxLength count (g.word alphabet maxLength state).2).2) :=
  rfl

/-- As many symbols are drawn as are asked for. -/
@[simp] theorem length_symbols (g : Generator γ α) (h : alphabet ≠ []) (count : Nat) (state : γ) :
    (g.symbols alphabet h count state).1.length = count := by
  induction count generalizing state with
  | zero => rfl
  | succ count ih => exact congrArg (· + 1) (ih _)

/-- A fair generator draws symbols of the alphabet. -/
theorem Fair.mem_of_mem_symbols (hfair : g.Fair) (h : alphabet ≠ []) {count : Nat} {state : γ}
    {symbol : α} (hsymbol : symbol ∈ (g.symbols alphabet h count state).1) : symbol ∈ alphabet := by
  induction count generalizing state with
  | zero => cases hsymbol
  | succ count ih =>
    rcases List.mem_cons.mp hsymbol with rfl | hrest
    · exact hfair.choose_mem alphabet h state
    · exact ih hrest

/-- Without symbols the word is empty, whatever length is drawn. -/
theorem word_nil (g : Generator γ α) (maxLength : Nat) (state : γ) :
    g.word [] maxLength state = ([], (g.upTo maxLength state).2) := by
  simp [word]

/-- A word is drawn by its length first and then by its symbols. -/
theorem word_of_ne_nil (g : Generator γ α) (h : alphabet ≠ []) (maxLength : Nat) (state : γ) :
    g.word alphabet maxLength state =
      g.symbols alphabet h (g.upTo maxLength state).1 (g.upTo maxLength state).2 := by
  simp [word, h]

/-- A word is drawn over the alphabet and up to the length. -/
theorem Fair.word (hfair : g.Fair) (alphabet : List α) (maxLength : Nat) (state : γ) :
    (g.word alphabet maxLength state).1.length ≤ maxLength ∧
      ∀ symbol ∈ (g.word alphabet maxLength state).1, symbol ∈ alphabet := by
  by_cases h : alphabet = []
  · subst h
    simp [word_nil]
  · rw [word_of_ne_nil g h, length_symbols]
    exact ⟨hfair.upTo_le maxLength state, fun symbol => hfair.mem_of_mem_symbols h⟩

/-- As many words are drawn as are asked for. -/
@[simp] theorem length_words (g : Generator γ α) (alphabet : List α) (maxLength count : Nat)
    (state : γ) : (g.words alphabet maxLength count state).1.length = count := by
  induction count generalizing state with
  | zero => rfl
  | succ count ih => exact congrArg (· + 1) (ih _)

/-- What holds of every word that is drawn next holds of all words that are drawn. -/
theorem forall_mem_words {p : List α → Prop} {maxLength : Nat}
    (h : ∀ state, p (g.word alphabet maxLength state).1) (count : Nat) (state : γ) :
    ∀ word ∈ (g.words alphabet maxLength count state).1, p word := by
  induction count generalizing state with
  | zero => exact fun word hword => nomatch hword
  | succ count ih => exact List.forall_mem_cons.mpr ⟨h state, ih _⟩

/-! ## What is asked for -/

/-- What a generator is asked for. -/
inductive Request (α : Type) where
  /-- A number from zero up to a bound. -/
  | upTo (bound : Nat)
  /-- One of some items. -/
  | choose (items : List α)
  deriving Repr, DecidableEq

/-- The generator with a record of what it was asked for, oldest first. -/
def recorded (g : Generator γ α) : Generator (γ × List (Request α)) α where
  upTo bound state :=
    ((g.upTo bound state.1).1, (g.upTo bound state.1).2, state.2 ++ [.upTo bound])
  choose items h state :=
    ((g.choose items h state.1).1, (g.choose items h state.1).2, state.2 ++ [.choose items])
  fault? := g.fault?

/-- What a generator is asked for while it draws words. -/
def requests (g : Generator γ α) (alphabet : List α) (maxLength count : Nat) (state : γ) :
    List (Request α) :=
  (g.recorded.words alphabet maxLength count (state, [])).2.2

/-- What is asked for a word: its length, and each of its symbols. -/
def requestsFor (alphabet : List α) (maxLength : Nat) (word : List α) : List (Request α) :=
  .upTo maxLength :: List.replicate word.length (.choose alphabet)

/-- A choice is recorded for every symbol, and the symbols are the same. -/
theorem recorded_symbols (g : Generator γ α) (h : alphabet ≠ []) (count : Nat) (state : γ)
    (record : List (Request α)) :
    g.recorded.symbols alphabet h count (state, record) =
      ((g.symbols alphabet h count state).1, (g.symbols alphabet h count state).2,
        record ++ List.replicate count (.choose alphabet)) := by
  induction count generalizing state record with
  | zero => simp [symbols]
  | succ count ih =>
    have hchoose : g.recorded.choose alphabet h (state, record) =
        ((g.choose alphabet h state).1, (g.choose alphabet h state).2,
          record ++ [.choose alphabet]) := rfl
    rw [symbols_succ, symbols_succ, hchoose, ih, List.replicate_succ, List.append_assoc]
    rfl

/-- What is asked for a word is recorded, and the word is the same. -/
theorem recorded_word (g : Generator γ α) (alphabet : List α) (maxLength : Nat) (state : γ)
    (record : List (Request α)) :
    g.recorded.word alphabet maxLength (state, record) =
      ((g.word alphabet maxLength state).1, (g.word alphabet maxLength state).2,
        record ++ requestsFor alphabet maxLength (g.word alphabet maxLength state).1) := by
  by_cases h : alphabet = []
  · subst h
    simp [word_nil, recorded, requestsFor]
  · rw [word_of_ne_nil g h, word_of_ne_nil g.recorded h]
    show g.recorded.symbols alphabet h (g.upTo maxLength state).1
      ((g.upTo maxLength state).2, record ++ [.upTo maxLength]) = _
    rw [recorded_symbols, requestsFor, length_symbols, List.append_assoc]
    rfl

/-- The record changes nothing about the words, and holds what is asked for each of them. -/
theorem recorded_words (g : Generator γ α) (alphabet : List α) (maxLength count : Nat) (state : γ)
    (record : List (Request α)) :
    g.recorded.words alphabet maxLength count (state, record) =
      ((g.words alphabet maxLength count state).1, (g.words alphabet maxLength count state).2,
        record ++ (g.words alphabet maxLength count state).1.flatMap
          (requestsFor alphabet maxLength)) := by
  induction count generalizing state record with
  | zero => simp [words]
  | succ count ih =>
    simp only [words_succ, recorded_word, ih, List.flatMap_cons, List.append_assoc]

/-- The requests are those for each of the words, one after the other. -/
theorem requests_eq (g : Generator γ α) (alphabet : List α) (maxLength count : Nat) (state : γ) :
    g.requests alphabet maxLength count state =
      (g.words alphabet maxLength count state).1.flatMap (requestsFor alphabet maxLength) := by
  rw [requests, recorded_words, List.nil_append]

/-! ## Choices from a list of numbers -/

section Scripted

variable {draws rest : List Int} {taken : Nat}

/-- A generator that follows a script is fair, whatever is in the script. -/
theorem scripted_fair (draws : List Int) : (scripted draws : Generator Nat α).Fair where
  upTo_le bound taken := by
    have hle := Int.emod_lt_of_pos (scripted.draw draws taken) (b := bound + 1) (by omega)
    show (scripted.draw draws taken % (bound + 1 : Int)).toNat ≤ bound
    omega
  choose_mem items h taken := by
    show (items[(scripted.draw draws taken % (items.length : Int)).toNat]?).getD _ ∈ items
    cases hitem : items[(scripted.draw draws taken % (items.length : Int)).toNat]? with
    | none => exact List.head_mem h
    | some item => exact List.mem_of_getElem? hitem

/-- The next draw is the one that is due. -/
theorem draw_of_drop {draw : Int} (hdue : draws.drop taken = draw :: rest) :
    scripted.draw draws taken = draw := by
  have hdraw : draws[taken]? = some draw := by
    rw [← List.head?_drop, hdue, List.head?_cons]
  obtain ⟨hlt, -⟩ := List.getElem?_eq_some_iff.mp hdraw
  rw [scripted.draw, Nat.mod_eq_of_lt hlt, hdraw, Option.getD_some]

/-- After a draw the rest of the script is due. -/
theorem drop_succ_of_drop {draw : Int} (hdue : draws.drop taken = draw :: rest) :
    draws.drop (taken + 1) = rest := by
  rw [← List.drop_drop, hdue, List.drop_one, List.tail_cons]

/-- A number within the bound is drawn as the script has it. -/
theorem upTo_of_drop {bound value : Nat} (hdue : draws.drop taken = (value : Int) :: rest)
    (hle : value ≤ bound) :
    (scripted draws : Generator Nat α).upTo bound taken = (value, taken + 1) := by
  have hvalue : (scripted.draw draws taken % (bound + 1 : Int)).toNat = value := by
    rw [draw_of_drop hdue, Int.emod_eq_of_lt (by omega) (by omega), Int.toNat_natCast]
  exact congrArg (·, taken + 1) hvalue

variable [BEq α] [LawfulBEq α]

/-- A symbol is chosen by its place, as the script has it. -/
theorem choose_of_drop (h : alphabet ≠ []) {symbol : α} (hsymbol : symbol ∈ alphabet)
    (hdue : draws.drop taken = (alphabet.idxOf symbol : Int) :: rest) :
    (scripted draws).choose alphabet h taken = (symbol, taken + 1) := by
  have hlt := List.idxOf_lt_length_of_mem hsymbol
  have hplace : (scripted.draw draws taken % (alphabet.length : Int)).toNat =
      alphabet.idxOf symbol := by
    rw [draw_of_drop hdue, Int.emod_eq_of_lt (by omega) (by omega), Int.toNat_natCast]
  have hitem : alphabet[(scripted.draw draws taken % (alphabet.length : Int)).toNat]? =
      some symbol := by
    rw [hplace, List.getElem?_idxOf hsymbol]
  exact congrArg (·, taken + 1) (congrArg (Option.getD · (alphabet.head h)) hitem)

/-- The numbers that make the symbols of a word: their places in the alphabet. -/
def placesOf (alphabet word : List α) : List Int :=
  word.map (fun symbol => (alphabet.idxOf symbol : Int))

/-- The numbers that make words: for each its length and the places of its symbols. -/
def drawsOf (alphabet : List α) (words : List (List α)) : List Int :=
  words.flatMap (fun word => (word.length : Int) :: placesOf alphabet word)

/-- The symbols of a word are drawn if their places are due. -/
theorem symbols_of_drop (h : alphabet ≠ []) {word : List α}
    (hword : ∀ symbol ∈ word, symbol ∈ alphabet)
    (hdue : draws.drop taken = placesOf alphabet word ++ rest) :
    (scripted draws).symbols alphabet h word.length taken = (word, taken + word.length) ∧
      draws.drop (taken + word.length) = rest := by
  induction word generalizing taken with
  | nil => exact ⟨rfl, hdue⟩
  | cons symbol word ih =>
    obtain ⟨hsymbol, hrest⟩ := List.forall_mem_cons.mp hword
    have hplace : draws.drop taken =
        (alphabet.idxOf symbol : Int) :: (placesOf alphabet word ++ rest) := hdue
    obtain ⟨hsymbols, hnext⟩ := ih hrest (drop_succ_of_drop hplace)
    have htaken : taken + (word.length + 1) = taken + 1 + word.length := by omega
    rw [List.length_cons, symbols_succ, choose_of_drop h hsymbol hplace, hsymbols, htaken]
    exact ⟨rfl, hnext⟩

/-- A word is drawn if its length and the places of its symbols are due. -/
theorem word_of_drop {word : List α} {maxLength : Nat} (hlength : word.length ≤ maxLength)
    (hword : ∀ symbol ∈ word, symbol ∈ alphabet)
    (hdue : draws.drop taken = (word.length : Int) :: (placesOf alphabet word ++ rest)) :
    (scripted draws).word alphabet maxLength taken = (word, taken + 1 + word.length) ∧
      draws.drop (taken + 1 + word.length) = rest := by
  have hupTo : (scripted draws : Generator Nat α).upTo maxLength taken = (word.length, taken + 1) :=
    upTo_of_drop hdue hlength
  by_cases h : alphabet = []
  · -- without symbols the word is empty
    obtain rfl : word = [] := List.eq_nil_iff_forall_not_mem.mpr (by simp_all)
    subst h
    rw [word_nil, hupTo]
    exact ⟨rfl, drop_succ_of_drop hdue⟩
  · rw [word_of_ne_nil _ h, hupTo]
    exact symbols_of_drop h hword (drop_succ_of_drop hdue)

/-- Words are drawn if the draws for each of them are due. -/
theorem words_of_drop {words : List (List α)} {maxLength : Nat}
    (hwords : ∀ word ∈ words, word.length ≤ maxLength ∧ ∀ symbol ∈ word, symbol ∈ alphabet)
    (hdue : draws.drop taken = drawsOf alphabet words) :
    ((scripted draws).words alphabet maxLength words.length taken).1 = words := by
  induction words generalizing taken with
  | nil => rfl
  | cons word words ih =>
    obtain ⟨⟨hlength, hword⟩, hmore⟩ := List.forall_mem_cons.mp hwords
    have hfirst : draws.drop taken =
        (word.length : Int) :: (placesOf alphabet word ++ drawsOf alphabet words) := hdue
    obtain ⟨hdrawn, hnext⟩ := word_of_drop hlength hword hfirst
    rw [List.length_cons, words_succ, hdrawn]
    exact congrArg (word :: ·) (ih hmore hnext)

end Scripted

end Generator

/-! ## Samples -/

/-- Numbers that are not negative are taken as they are. -/
theorem sampleWords_natCast {ν γ α : Type} (g : Generator γ α) (alphabet : List α)
    (count maxLength : Nat) (state : γ) :
    (sampleWords g alphabet count maxLength state : Except (Failure ν) (List (List α))) =
      .ok (g.words alphabet maxLength count state).1 := by
  have hno : ¬((count : Int) > 0 ∧ (maxLength : Int) < 0) := by omega
  simp only [sampleWords, if_neg hno, Int.toNat_natCast]

/-- A fair generator draws as many words as asked for, over the alphabet and up to the length. It is
asked for the length of each word and then for each of its symbols, so without symbols for one
number a word and nothing else. Every list of such words is drawn by a fair generator, one that
takes its choices from some numbers. -/
theorem sampleWords_attains {ν α : Type} (alphabet : List α) (count maxLength : Nat) :
    (∀ (γ : Type) (g : Generator γ α) (state : γ), g.Fair → ∃ words,
      (sampleWords g alphabet count maxLength state : Except (Failure ν) (List (List α))) =
        .ok words ∧
      words.length = count ∧
      (∀ word ∈ words, word.length ≤ maxLength ∧ ∀ symbol ∈ word, symbol ∈ alphabet) ∧
      g.requests alphabet maxLength count state =
        words.flatMap (Generator.requestsFor alphabet maxLength) ∧
      (alphabet = [] → words = List.replicate count [] ∧
        g.requests alphabet maxLength count state = List.replicate count (.upTo maxLength))) ∧
    ∀ words : List (List α), words.length = count →
      (∀ word ∈ words, word.length ≤ maxLength ∧ ∀ symbol ∈ word, symbol ∈ alphabet) →
        ∃ draws : List Int, (Generator.scripted draws : Generator Nat α).Fair ∧
          (sampleWords (Generator.scripted draws) alphabet count maxLength 0 :
            Except (Failure ν) (List (List α))) = .ok words := by
  refine ⟨?_, ?_⟩
  · intro γ g state hfair
    have hlength := g.length_words alphabet maxLength count state
    have hwords : ∀ word ∈ (g.words alphabet maxLength count state).1,
        word.length ≤ maxLength ∧ ∀ symbol ∈ word, symbol ∈ alphabet :=
      Generator.forall_mem_words (fun state => hfair.word alphabet maxLength state) count state
    have hrequests := g.requests_eq alphabet maxLength count state
    refine ⟨_, sampleWords_natCast g alphabet count maxLength state, hlength, hwords, hrequests, ?_⟩
    rintro rfl
    have hempty : (g.words [] maxLength count state).1 = List.replicate count [] := by
      refine List.eq_replicate_iff.mpr ⟨hlength, fun word hword => ?_⟩
      exact List.eq_nil_iff_forall_not_mem.mpr
        (fun symbol hsymbol => List.not_mem_nil ((hwords word hword).2 symbol hsymbol))
    refine ⟨hempty, ?_⟩
    rw [hrequests, hempty, List.flatMap_replicate]
    exact List.flatten_replicate_singleton
  · classical
    rintro words rfl hwords
    refine ⟨Generator.drawsOf alphabet words, Generator.scripted_fair _, ?_⟩
    rw [sampleWords_natCast, Generator.words_of_drop hwords rfl]

/-- A generator that draws two letters, and then the same two again. -/
def syllables : Generator Nat String :=
  .scripted [2, -1, 0]

/-- A generator that repeats itself, with what it is asked, and a script for two other words. -/
theorem sampleWords_attains_syllables :
    syllables.Fair ∧
      (sampleWords syllables ["a", "b"] 2 3 0 : Except (Failure String) (List (List String))) =
        .ok [["b", "a"], ["b", "a"]] ∧
      syllables.requests ["a", "b"] 3 2 0 =
        [.upTo 3, .choose ["a", "b"], .choose ["a", "b"],
          .upTo 3, .choose ["a", "b"], .choose ["a", "b"]] ∧
      ∃ draws : List Int, (sampleWords (Generator.scripted draws) ["a", "b"] 2 3 0 :
        Except (Failure String) (List (List String))) = .ok [["b", "b", "a"], []] := by
  have hfair : syllables.Fair := Generator.scripted_fair _
  have hdrawn : (sampleWords syllables ["a", "b"] 2 3 0 :
      Except (Failure String) (List (List String))) = .ok [["b", "a"], ["b", "a"]] := by decide
  obtain ⟨hsound, hreach⟩ := sampleWords_attains (ν := String) ["a", "b"] 2 3
  obtain ⟨words, hwords, -, -, hrequests, -⟩ := hsound Nat syllables 0 hfair
  obtain rfl : words = [["b", "a"], ["b", "a"]] := Except.ok.inj (hwords.symm.trans hdrawn)
  obtain ⟨draws, -, hdraws⟩ := hreach [["b", "b", "a"], []] rfl (by decide)
  exact ⟨hfair, hdrawn, hrequests, draws, hdraws⟩

end Kleene
