import Kleene.Automaton.Basic
import Kleene.Expression.Spelling

/-!
# The table of path expressions

A `Builder` writes, in one spelling, the expressions for the paths of an automaton. Its order of the
states is fixed when it is made. The cell `(i, j, k)` is the expression for all paths from the state
at position `i` to the one at position `j` that pass, in between, through states at positions up to
`k` only; for a negative `k` these are the single moves, and staying where one is if `i = j`. For
`k ≥ 0`

    cell (i, j, k) = cell (i, k, k - 1) cell (k, k, k - 1)* cell (k, j, k - 1) | cell (i, j, k - 1)

Every cell that was computed is kept in a table and not computed again, also if the automaton has
changed since. The moves and the accepting states are those of the automaton at the time of asking.
A position outside the order is a failure; the cells computed up to it stay in the table.
-/

set_option autoImplicit false

namespace Kleene

/-- The position of a path's start, the position of its end, and the bound on what lies between. -/
abbrev CellKey := Int × Int × Int

/-- The cells that were computed, newest first. -/
abbrev CellTable := List (CellKey × String)

/-- A computation that may fail and keeps the cells computed before it failed. -/
abbrev TableM (ν : Type) := ExceptT (Failure ν) (StateM CellTable)

/-- An order of the states, a spelling and the table of the cells computed so far. -/
structure Builder (ν : Type) where
  spelling : Spelling
  order : List ν
  /-- The vertices of the ordered states. -/
  vertices : List Nat
  table : CellTable := []

namespace Builder

variable {ν : Type} [Name ν]

/-- The builder for an automaton as it is, with no cell computed. -/
def ofAutomaton (m : Automaton ν) (spelling : Spelling) : Builder ν where
  spelling := spelling
  order := m.orderedStates
  vertices := m.orderedStates.filterMap m.vertex?

/-- The position of a state in the order. -/
def position? (b : Builder ν) (state : ν) : Option Nat :=
  b.order.findIdx? (fun name => name == state)

/-- The states with their positions. -/
def positions (b : Builder ν) : List (ν × Nat) :=
  b.order.zipIdx

/-- The vertex at a position of the order; a negative position counts from the end. -/
def vertexAt (b : Builder ν) (position : Int) : Except (Failure ν) Nat :=
  match (place? b.vertices.length position).bind (fun i => b.vertices[i]?) with
  | some v => .ok v
  | none => .error (.noEntry position)

/-- The written form of a label. -/
def labelText (b : Builder ν) (label : ν) : Except (Failure ν) String :=
  match Name.text? label with
  | some text => .ok (b.spelling.symbol text)
  | none =>
    if b.spelling.textsOnly then .error (.notWritable (Name.kind label))
    else .ok (b.spelling.symbol (Name.display label))

/-- The expression for the single moves from one position to another, and for staying if the two
are the same. -/
def direct (b : Builder ν) (m : Automaton ν) (i j : Int) : Except (Failure ν) String := do
  let v ← b.vertexAt i
  let w ← b.vertexAt j
  let symbols ← (m.graph.labels v w).mapM b.labelText
  if i = j then
    return b.spelling.union (symbols ++ [b.spelling.epsilon])
  else if symbols.isEmpty then
    return b.spelling.emptySet
  else
    return b.spelling.union symbols

/-- The expression of a cell from the four cells with the bound below. -/
def combine (s : Spelling) (toBound loop fromBound without : String) : String :=
  s.union [s.group toBound ++ s.group loop ++ s.star ++ s.group fromBound, s.group without]

/-- The cell under a key: as the table has it, or else computed and put into the table. -/
def remember (key : CellKey) (compute : TableM ν String) : TableM ν String := do
  match (← get).lookup key with
  | some expression => return expression
  | none =>
    let expression ← compute
    modify (fun table => (key, expression) :: table)
    return expression

/-- The cell for the states at positions below `bound` in between. -/
def cellBelow (b : Builder ν) (m : Automaton ν) : Nat → Int → Int → TableM ν String
  | 0, i, j => remember (i, j, -1) (liftM (b.direct m i j))
  | k + 1, i, j => remember (i, j, k) do
    let toBound ← b.cellBelow m k i k
    let loop ← b.cellBelow m k k k
    let fromBound ← b.cellBelow m k k j
    let without ← b.cellBelow m k i j
    return combine b.spelling toBound loop fromBound without

/-- The cell `(i, j, k)`. Each negative `k` has cells of its own. -/
def cell (b : Builder ν) (m : Automaton ν) (i j : Int) : Int → TableM ν String
  | .ofNat k => b.cellBelow m (k + 1) i j
  | .negSucc k => remember (i, j, .negSucc k) (liftM (b.direct m i j))

/-- The expression for all paths from the first state to the accepting ones. -/
def wholeExpression (b : Builder ν) (m : Automaton ν) : TableM ν String := do
  if m.accepting.isEmpty then
    return b.spelling.emptySet
  else
    let alternatives ← m.accepting.eraseDups.mapM (fun state =>
      match b.position? state with
      | some position => b.cell m 0 position ((b.order.length : Int) - 1)
      | none => throw (.noPosition state))
    return b.spelling.union alternatives

/-- Runs a computation on the builder's table and keeps what it computed, also if it fails. -/
def run {α : Type} (b : Builder ν) (computation : TableM ν α) :
    Except (Failure ν) α × Builder ν :=
  let (result, table) := computation.run.run b.table
  (result, { b with table })

/-- The cell `(i, j, k)`, and the builder with the cells computed for it. -/
def paths (b : Builder ν) (m : Automaton ν) (i j k : Int) :
    Except (Failure ν) String × Builder ν :=
  b.run (b.cell m i j k)

/-- The expression of the whole automaton, and the builder with the cells computed for it. -/
def build (b : Builder ν) (m : Automaton ν) : Except (Failure ν) String × Builder ν :=
  b.run (b.wholeExpression m)

/-- The keys of the table, in increasing order. -/
def keys (b : Builder ν) : List CellKey :=
  (b.table.map Prod.fst).mergeSort (fun a b =>
    a.1 < b.1 || (a.1 == b.1 && (a.2.1 < b.2.1 || (a.2.1 == b.2.1 && a.2.2 ≤ b.2.2))))

end Builder

end Kleene
