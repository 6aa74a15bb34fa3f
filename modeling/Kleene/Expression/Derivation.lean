import Kleene.Automaton.Properties
import Kleene.Automaton.Run
import Kleene.Expression.Builder
import Kleene.Expression.Pattern

/-!
# Expressions of automata

`Automaton.expression` is the regular expression of a valid automaton in a spelling. As a pattern
the expression can be matched against encoded words; `Automaton.recognizer` reads the pattern back,
so that what is matched is the very text that was written.
-/

set_option autoImplicit false

namespace Kleene

/-- A word as one text: each symbol is followed by the separator. -/
def encodeWord (word : List String) : String :=
  String.join (word.map (fun symbol => symbol ++ String.singleton Spelling.separator))

namespace Automaton

variable {ν : Type} [Name ν]

/-- The regular expression of a valid automaton, written in a spelling. -/
def expression (m : Automaton ν) (spelling : Spelling) : Except (Failure ν) String := do
  m.validate
  ((Builder.ofAutomaton m spelling).build m).1

/-- The pattern of a valid automaton, read back from its written form. A text that is no pattern
matches nothing. -/
def recognizer (m : Automaton ν) : Except (Failure ν) (Regex Char) := do
  let text ← m.expression .pattern
  return (Pattern.read? text.toList).getD .nothing

end Automaton

namespace Regex

/-- Whether the text of a word belongs to a pattern. -/
def matchesWord (pattern : Regex Char) (word : List String) : Bool :=
  pattern.accepts (encodeWord word).toList

end Regex

end Kleene
