import Kleene.Text.Lines
import Mathlib.Data.List.Basic

/-!
# The lines of a text

A character opens a line or ends one, unless it is the first half of a line end of two characters
(`splitLines_cons`). So lines with line feeds after them are read off one after the other
(`splitLines_flatMap`), and the lines stay when line feeds are written for all line ends
(`splitLines_withLineFeeds`).
-/

set_option autoImplicit false

namespace Kleene.Text

/-- The first character of a text, unless it ends a line together with the next one. -/
theorem splitLines_cons {c : Char} {rest : List Char}
    (hpair : ∀ more, c = '\r' → rest = '\n' :: more → False) :
    splitLines (c :: rest) =
      if isLineBreak c then [] :: splitLines rest else consLine c (splitLines rest) := by
  conv => lhs; unfold splitLines
  split
  · next hnil => cases hnil
  · next more hcons =>
    obtain ⟨hreturn, hfeed⟩ := List.cons.inj hcons
    exact (hpair more hreturn hfeed).elim
  · next hcons =>
    obtain ⟨rfl, rfl⟩ := List.cons.inj hcons
    rfl

/-! ## Lines with line feeds after them -/

/-- A line without a line break of its own is read off up to the line feed after it. -/
theorem splitLines_append_newline {line : List Char} (h : ∀ c ∈ line, isLineBreak c = false)
    (rest : List Char) : splitLines (line ++ '\n' :: rest) = line :: splitLines rest := by
  induction line with
  | nil => rfl
  | cons c line ih =>
    obtain ⟨hc, hline⟩ := List.forall_mem_cons.mp h
    have hreturn : c ≠ '\r' := by
      rintro rfl
      cases hc
    rw [List.cons_append, splitLines_cons (fun _ h => absurd h hreturn), if_neg (by simp [hc]),
      ih hline, consLine]

/-- Lines without breaks in them are what a text of them with line feeds is split into. -/
theorem splitLines_flatMap {lines : List (List Char)}
    (h : ∀ line ∈ lines, ∀ c ∈ line, isLineBreak c = false) :
    splitLines (lines.flatMap (fun line => line ++ ['\n'])) = lines := by
  induction lines with
  | nil => rfl
  | cons line lines ih =>
    obtain ⟨hline, hlines⟩ := List.forall_mem_cons.mp h
    rw [List.flatMap_cons, List.append_assoc, List.singleton_append,
      splitLines_append_newline hline, ih hlines]

/-! ## Line feeds for all line ends -/

/-- Characters are split into the same lines with line feeds for all line ends. -/
theorem splitLines_unifyLineEnds (text : List Char) :
    splitLines (unifyLineEnds text) = splitLines text := by
  fun_induction unifyLineEnds text with
  | case1 => rfl
  | case2 rest ih =>
    -- the two characters end one line, not two
    exact congrArg (List.cons []) ih
  | case3 c rest hpair ih =>
    rw [splitLines_cons hpair]
    by_cases hreturn : c = '\r'
    · subst hreturn
      exact congrArg (List.cons []) ih
    · have hsame : (if c == '\r' then '\n' else c) = c := if_neg (by simpa using hreturn)
      rw [hsame, splitLines_cons (fun _ h => absurd h hreturn), ih]

/-- The text with line feeds for all its line ends. -/
def withLineFeeds (text : String) : String :=
  String.ofList (unifyLineEnds text.toList)

/-- A text has the same lines with line feeds for all its line ends. -/
theorem splitLines_withLineFeeds (text : String) :
    splitLines (withLineFeeds text).toList = splitLines text.toList := by
  rw [withLineFeeds, String.toList_ofList, splitLines_unifyLineEnds]

end Kleene.Text
