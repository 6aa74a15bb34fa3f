import Kleene.Automaton.Description
import Kleene.Expression.Derivation

/-!
# Reports

`convertDescription` answers the description of an automaton by a report: the expression of the
automaton on a line of its own, or the diagnostic of the first failure.
-/

set_option autoImplicit false

namespace Kleene

/-- The report on a conversion. A cause without a number has no diagnostic and stays a failure. -/
def reportOf {ν : Type} [Name ν] :
    Except (Failure ν) String → Except (Failure ν) String
  | .ok expression => .ok (expression ++ "\n")
  | .error failure => match failure.report? with
    | some report => .ok report
    | none => .error failure

/-- The report on the automaton that a text describes. -/
def convertDescription (text : String) : Except (Failure String) String :=
  reportOf do
    let m ← Automaton.ofDescription text
    m.expression .words

end Kleene
