/-!
# All words over an alphabet

`wordsUpTo` lists all words up to a length, shorter words first and words of one length in the order
of the alphabet.
-/

set_option autoImplicit false

namespace Kleene

/-- All words of a length, the first symbol varying slowest. -/
def wordsOfLength {α : Type} (alphabet : List α) : Nat → List (List α)
  | 0 => [[]]
  | length + 1 =>
    alphabet.flatMap (fun symbol => (wordsOfLength alphabet length).map (fun word => symbol :: word))

/-- All words up to a length, shortest first; none if the length is negative. -/
def wordsUpTo {α : Type} (alphabet : List α) (maxLength : Int) : List (List α) :=
  (List.range (maxLength + 1).toNat).flatMap (wordsOfLength alphabet)

end Kleene
