import Kleene.Expression.Equivalence
import Kleene.Proofs.Automaton.Order
import Kleene.Proofs.Expression.Encoding
import Kleene.Proofs.Words.Enumeration

/-!
# What a comparison with the expression can find

An automaton and its expression can disagree for one reason only: a word that is rejected may have
the same encoding as a word that is accepted (`Automaton.Deceives`). Where no symbol contains the
separator the encoding tells words apart, and nothing is found.

The main statement is `counterexample_deceives`: it says which word a comparison finds, in a given
list and among the words up to a length.
-/

set_option autoImplicit false

namespace Kleene

namespace Automaton

/-! ## The two judges -/

/-- Of two judges that always answer, the first disagreement is the first word on which the answers
differ. -/
theorem firstDisagreement_eq_find? {α ε : Type} {judge other : α → Except ε Bool}
    {answer answer' : α → Bool} (hjudge : ∀ word, judge word = .ok (answer word))
    (hother : ∀ word, other word = .ok (answer' word)) (words : List α) :
    firstDisagreement judge other words =
      .ok (words.find? (fun word => answer word != answer' word)) := by
  induction words with
  | nil => rfl
  | cons word rest ih =>
    rw [firstDisagreement, hjudge, hother, List.find?_cons]
    cases hdiffer : answer word != answer' word with
    | true => exact if_pos hdiffer
    | false => exact (if_neg (by simp [hdiffer])).trans ih

/-- A word of texts is judged by the matcher without a failure. -/
theorem patternAccepts_string {μ : Type} (pattern : Regex Char) (word : List String) :
    (patternAccepts pattern word : Except (Failure μ) Bool) = .ok (pattern.matchesWord word) := by
  have htexts : (symbolTexts word : Except (Failure μ) (List String)) = .ok word := by
    have hmap : word.map (fun symbol => symbol) = word := List.map_id'' (fun _ => rfl) word
    exact List.mapM_pure.trans (congrArg Except.ok hmap)
  rw [patternAccepts, htexts]
  rfl

/-- The symbols of a word that is read on a walk are labels of edges. -/
theorem Walk.exists_mem_labels {m : Automaton String} {first last : String} {word : List String}
    (h : m.Walk first word last) : ∀ symbol ∈ word, ∃ p q, symbol ∈ m.graph.labels p q := by
  induction h with
  | nil => simp
  | cons move _ ih =>
    obtain ⟨p, q, -, -, hlabel⟩ := move
    exact List.forall_mem_cons.mpr ⟨⟨p, q, hlabel⟩, ih⟩

/-! ## What is found -/

/-- A word that is rejected although a word with the same encoding is accepted. -/
def Deceives (m : Automaton String) (word : List String) : Prop :=
  m.accepts word = .ok false ∧
    ∃ other, m.accepts other = .ok true ∧ encodeWord other = encodeWord word

section Found

variable {m : Automaton String}

/-- The comparison goes through the words until one deceives. -/
theorem exists_find_counterexample (hbuilt : m.Built) (hvalid : m.validate = .ok ()) :
    ∃ deceives : List String → Bool, (∀ word, deceives word = true ↔ m.Deceives word) ∧
      ∀ words, m.counterexample words = .ok (words.find? deceives) := by
  obtain ⟨text, r, htext, hread, hr⟩ := exists_read_expression hbuilt hvalid
  have hrecognizer : m.recognizer = .ok r := by
    rw [recognizer, htext]
    exact congrArg (fun pattern? => Except.ok (Option.getD pattern? Regex.nothing)) hread
  choose answer hanswer _ using exists_accepts hbuilt hvalid
  refine ⟨fun word => answer word != r.matchesWord word, ?_, ?_⟩
  · intro word
    have hmatch : r.matchesWord word = true ↔
        ∃ other, m.accepts other = .ok true ∧ encodeWord other = encodeWord word := hr _
    rw [Deceives, ← hmatch, hanswer, Except.ok.injEq, bne_iff_ne]
    by_cases hm : r.matchesWord word = true
    · simp [hm]
    · -- an accepted word matches itself
      have hrejected : answer word ≠ true :=
        fun h => hm (hmatch.mpr ⟨word, by rw [hanswer, h], rfl⟩)
      simp [hm, hrejected]
  · intro words
    rw [counterexample, hrecognizer]
    exact firstDisagreement_eq_find? hanswer (patternAccepts_string r) words

/-- Where no symbol contains the separator no word deceives. -/
theorem not_deceives_of_no_separator (hbuilt : m.Built) (hvalid : m.validate = .ok ())
    (hlabels : ∀ p q, ∀ label ∈ m.graph.labels p q, Spelling.separator ∉ label.toList)
    {word : List String} (hword : ∀ symbol ∈ word, Spelling.separator ∉ symbol.toList) :
    ¬m.Deceives word := by
  rintro ⟨hrejected, other, haccepted, hencode⟩
  obtain ⟨_, _, -, -, hwalk⟩ := (accepts_iff_walk hbuilt hvalid other).mp haccepted
  have hother : ∀ symbol ∈ other, Spelling.separator ∉ symbol.toList := by
    intro symbol hsymbol
    obtain ⟨p, q, hlabel⟩ := hwalk.exists_mem_labels symbol hsymbol
    exact hlabels p q symbol hlabel
  obtain rfl := eq_of_encodeWord_eq hother hword hencode
  cases hrejected.symm.trans haccepted

/-- A comparison of a valid automaton with its expression always ends. It finds the first of the
given words that deceives, so never one that is accepted, and nothing if none deceives; in
particular it finds nothing if no label and no symbol of the words contains the separator. Among the
words over the alphabet up to a length it finds a shortest one of those that deceive. -/
theorem counterexample_deceives (hbuilt : m.Built) (hvalid : m.validate = .ok ()) :
    (∀ words : List (List String), ∃ found, m.counterexample words = .ok found ∧
      (∀ word, found = some word ↔ ∃ before after, words = before ++ word :: after ∧
        m.Deceives word ∧ ∀ earlier ∈ before, ¬m.Deceives earlier) ∧
      (found = none ↔ ∀ word ∈ words, ¬m.Deceives word) ∧
      (∀ word, found = some word → m.accepts word ≠ .ok true) ∧
      ((∀ p q, ∀ label ∈ m.graph.labels p q, Spelling.separator ∉ label.toList) →
        (∀ word ∈ words, ∀ symbol ∈ word, Spelling.separator ∉ symbol.toList) → found = none)) ∧
    ∀ maxLength : Int, ∃ found, m.counterexampleUpTo maxLength = .ok found ∧
      (∀ word, found = some word →
        (word.length : Int) ≤ maxLength ∧ (∀ symbol ∈ word, symbol ∈ m.alphabet) ∧
        m.Deceives word ∧
        ∀ other : List String, (other.length : Int) ≤ maxLength →
          (∀ symbol ∈ other, symbol ∈ m.alphabet) → m.Deceives other →
          word.length ≤ other.length) ∧
      (found = none ↔ ∀ word : List String, (word.length : Int) ≤ maxLength →
        (∀ symbol ∈ word, symbol ∈ m.alphabet) → ¬m.Deceives word) := by
  obtain ⟨deceives, hdeceives, hfind⟩ := exists_find_counterexample hbuilt hvalid
  have hfirst : ∀ (words : List (List String)) word, words.find? deceives = some word ↔
      ∃ before after, words = before ++ word :: after ∧
        m.Deceives word ∧ ∀ earlier ∈ before, ¬m.Deceives earlier := by
    intro words word
    simp only [List.find?_eq_some_iff_append, Bool.not_eq_true', ← Bool.not_eq_true, hdeceives]
    constructor
    · rintro ⟨hword, before, after, hwords, hbefore⟩
      exact ⟨before, after, hwords, hword, hbefore⟩
    · rintro ⟨before, after, hwords, hword, hbefore⟩
      exact ⟨hword, before, after, hwords, hbefore⟩
  have hnone : ∀ words : List (List String),
      words.find? deceives = none ↔ ∀ word ∈ words, ¬m.Deceives word := by
    intro words
    simp only [List.find?_eq_none, hdeceives]
  refine ⟨?_, ?_⟩
  · intro words
    refine ⟨_, hfind words, hfirst words, hnone words, ?_, ?_⟩
    · intro word hfound
      obtain ⟨_, _, -, ⟨hrejected, -⟩, -⟩ := (hfirst words word).mp hfound
      simp [hrejected]
    · intro hlabels hwords
      exact (hnone words).mpr
        (fun word hword => not_deceives_of_no_separator hbuilt hvalid hlabels (hwords word hword))
  · intro maxLength
    refine ⟨_, hfind _, ?_, ?_⟩
    · intro word hfound
      obtain ⟨before, after, hlisted, hword, hbefore⟩ := (hfirst _ word).mp hfound
      obtain ⟨hlength, halphabet⟩ := mem_wordsUpTo.mp (hlisted ▸ List.mem_append_cons_self)
      refine ⟨hlength, halphabet, hword, ?_⟩
      intro other hother hotherAlphabet hdeceiver
      exact length_le_of_listed hlisted (mem_wordsUpTo.mpr ⟨hother, hotherAlphabet⟩)
        (fun hmem => hbefore other hmem hdeceiver)
    · rw [hnone]
      simp only [mem_wordsUpTo, and_imp]

end Found

/-- Two states and one move between them, whose symbol contains the separator. -/
def hyphenated : Automaton String :=
  replay [.addState "p", .addState "q", .addSymbol "a\x1fb", .setInitial "p", .addAccepting "q",
    .addTransition "p" "a\x1fb" "q"]

/-- A rejected word that is found because another word with its encoding is accepted. -/
theorem counterexample_deceives_hyphenated :
    hyphenated.Built ∧ hyphenated.validate = .ok () ∧
      hyphenated.counterexample [["a\x1fb"], ["a", "b"]] = .ok (some ["a", "b"]) := by
  have hbuilt : hyphenated.Built := ⟨_, rfl⟩
  have hvalid : hyphenated.validate = .ok () := by decide
  have haccepts : hyphenated.accepts ["a\x1fb"] = .ok true := by decide
  have hdeceives : hyphenated.Deceives ["a", "b"] := ⟨by decide, ["a\x1fb"], haccepts, by decide⟩
  obtain ⟨hfound, -⟩ := counterexample_deceives hbuilt hvalid
  obtain ⟨found, hcounterexample, hfirst, -⟩ := hfound [["a\x1fb"], ["a", "b"]]
  have hbefore : ∀ earlier ∈ [["a\x1fb"]], ¬hyphenated.Deceives earlier := by
    rintro earlier hearlier ⟨hrejected, -⟩
    rw [List.mem_singleton.mp hearlier] at hrejected
    cases hrejected.symm.trans haccepts
  have hlast : found = some ["a", "b"] := (hfirst _).mpr ⟨_, [], rfl, hdeceives, hbefore⟩
  exact ⟨hbuilt, hvalid, hlast ▸ hcounterexample⟩

end Automaton

end Kleene
