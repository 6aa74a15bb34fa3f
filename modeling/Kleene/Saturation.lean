/-!
# Saturation of a finite set under a step

`saturate step fuel frontier seen` adds to `seen` whatever repeated steps from `frontier` lead to,
one generation after the other, and stops at the first generation that brings nothing new. Lists
stand for finite sets here. As every generation but the last adds a member, a fuel of the number of
members that can turn up at all is enough.
-/

set_option autoImplicit false

namespace Kleene

/-- The members of `seen`, then generation after generation of what `step` finds anew. -/
def saturate {α : Type} [BEq α] (step : List α → List α) : Nat → List α → List α → List α
  | 0, _, seen => seen
  | fuel + 1, frontier, seen =>
    let fresh := (step frontier).eraseDups.filter (fun a => !seen.contains a)
    if fresh.isEmpty then seen else saturate step fuel fresh (seen ++ fresh)

end Kleene
