import Kleene.Proofs.Expression.Pattern

/-!
# The encoding of words

An encoded word is the text of its symbols with the separator after each of them. A symbol that does
not contain the separator ends at the first separator of what is left of the text, so a word of such
symbols can be read off its encoding from the front, whatever follows it.

The main statement is `encodeWord_prefix_code`: the encodings of two such words are one at the front
of the other only if the words are.
-/

set_option autoImplicit false

namespace Kleene

namespace Pattern

/-- A symbol without the separator ends at the first separator of what is encoded. -/
theorem encodeSymbol_append_inj {symbol symbol' : String} {rest rest' : List Char}
    (hsymbol : Spelling.separator ∉ symbol.toList) (hsymbol' : Spelling.separator ∉ symbol'.toList)
    (h : encodeSymbol symbol ++ rest = encodeSymbol symbol' ++ rest') :
    symbol = symbol' ∧ rest = rest' := by
  have hcut : ∀ {text : String} (more : List Char), Spelling.separator ∉ text.toList →
      (encodeSymbol text ++ more).span (· != Spelling.separator) =
        (text.toList, Spelling.separator :: more) := by
    intro text more htext
    have hkeep : ∀ c ∈ text.toList, (c != Spelling.separator) = true := by
      rintro c hc
      exact bne_iff_ne.mpr (fun heq => htext (heq ▸ hc))
    rw [encodeSymbol, List.append_assoc, List.span_eq_takeWhile_dropWhile,
      List.takeWhile_append_of_pos hkeep, List.dropWhile_append_of_pos hkeep]
    simp
  have hspan := congrArg (List.span (· != Spelling.separator)) h
  rw [hcut rest hsymbol, hcut rest' hsymbol', Prod.mk.injEq, String.toList_inj,
    List.cons.injEq] at hspan
  exact ⟨hspan.1, hspan.2.2⟩

/-- A word at the front of an encoding is at the front of what is encoded. -/
theorem isPrefix_of_flatMap_encodeSymbol {word longer : List String} {rest : List Char}
    (hword : ∀ symbol ∈ word, Spelling.separator ∉ symbol.toList)
    (hlonger : ∀ symbol ∈ longer, Spelling.separator ∉ symbol.toList)
    (h : word.flatMap encodeSymbol ++ rest = longer.flatMap encodeSymbol) : word <+: longer := by
  -- both words lose their first symbol at the first separator
  induction word generalizing longer with
  | nil => exact List.nil_prefix
  | cons symbol word ih =>
    cases longer with
    | nil => simp [encodeSymbol] at h
    | cons symbol' longer =>
      obtain ⟨hfirst, hmore⟩ := List.forall_mem_cons.mp hword
      obtain ⟨hfirst', hmore'⟩ := List.forall_mem_cons.mp hlonger
      rw [List.flatMap_cons, List.flatMap_cons, List.append_assoc] at h
      obtain ⟨hsame, hrest⟩ := encodeSymbol_append_inj hfirst hfirst' h
      exact List.cons_prefix_cons.mpr ⟨hsame, ih hmore hmore' hrest⟩

end Pattern

/-- Words put together have their encodings put together. -/
theorem encodeWord_append (word more : List String) :
    encodeWord (word ++ more) = encodeWord word ++ encodeWord more := by
  rw [← String.toList_inj, String.toList_append]
  simp only [Pattern.toList_encodeWord, List.flatMap_append]

section Separable

variable {word longer : List String}
  (hword : ∀ symbol ∈ word, Spelling.separator ∉ symbol.toList)
  (hlonger : ∀ symbol ∈ longer, Spelling.separator ∉ symbol.toList)

include hword hlonger

/-- A word whose encoding is at the front of another one is at the front of the other word, where no
symbol has the separator in it. -/
theorem isPrefix_of_encodeWord_append_eq {rest : String}
    (h : encodeWord longer = encodeWord word ++ rest) : word <+: longer := by
  have hchars := congrArg String.toList h
  rw [String.toList_append, Pattern.toList_encodeWord, Pattern.toList_encodeWord] at hchars
  exact Pattern.isPrefix_of_flatMap_encodeSymbol hword hlonger hchars.symm

/-- Words whose symbols do not contain the separator are told apart by their encodings. -/
theorem eq_of_encodeWord_eq (h : encodeWord word = encodeWord longer) : word = longer := by
  have hfront : word <+: longer :=
    isPrefix_of_encodeWord_append_eq hword hlonger (h.symm.trans String.append_empty.symm)
  have hback : longer <+: word :=
    isPrefix_of_encodeWord_append_eq hlonger hword (h.trans String.append_empty.symm)
  exact hfront.eq_of_length_le hback.length_le

end Separable

/-- The encodings of words whose symbols do not contain the separator are a prefix code: one of them
is at the front of another exactly if its word is at the front of the other word, and two of them
are the same exactly if their words are. Words with any symbols are encoded one part after the
other. -/
theorem encodeWord_prefix_code :
    (∀ word longer : List String,
      (∀ symbol ∈ word, Spelling.separator ∉ symbol.toList) →
      (∀ symbol ∈ longer, Spelling.separator ∉ symbol.toList) →
        ((∃ rest, encodeWord longer = encodeWord word ++ rest) ↔ word <+: longer) ∧
        (encodeWord word = encodeWord longer ↔ word = longer)) ∧
    ∀ word more : List String, encodeWord (word ++ more) = encodeWord word ++ encodeWord more := by
  refine ⟨?_, encodeWord_append⟩
  intro word longer hword hlonger
  refine ⟨⟨?_, ?_⟩, eq_of_encodeWord_eq hword hlonger, congrArg encodeWord⟩
  · rintro ⟨rest, hrest⟩
    exact isPrefix_of_encodeWord_append_eq hword hlonger hrest
  · rintro ⟨more, rfl⟩
    exact ⟨encodeWord more, encodeWord_append word more⟩

/-- Words with empty symbols, and with symbols of which one begins another. -/
theorem encodeWord_prefix_code_blank :
    (∀ symbol ∈ ["", "ab", "", "a"], Spelling.separator ∉ symbol.toList) ∧
      (∃ rest, encodeWord ["", "ab", ""] = encodeWord ["", "ab"] ++ rest) ∧
      ¬∃ rest, encodeWord ["", "ab", ""] = encodeWord ["", "a"] ++ rest := by
  have hlonger : ∀ symbol ∈ ["", "ab", ""], Spelling.separator ∉ symbol.toList := by decide
  have hfront := (encodeWord_prefix_code.1 ["", "ab"] ["", "ab", ""] (by decide) hlonger).1
  have hcut := (encodeWord_prefix_code.1 ["", "a"] ["", "ab", ""] (by decide) hlonger).1
  refine ⟨by decide, hfront.mpr ⟨[""], rfl⟩, ?_⟩
  rw [hcut]
  decide

end Kleene
