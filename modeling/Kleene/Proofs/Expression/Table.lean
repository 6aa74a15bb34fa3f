import Kleene.Proofs.Distinct
import Kleene.Proofs.Expression.RegexTree
import Kleene.Proofs.Results

/-!
# The table of path expressions and the recurrence

`Builder.plain` and `Builder.plainWhole` compute a cell and the whole expression by the recurrence
alone, without a table. A table is faithful if each of its entries is the plain value of its key.
`Builder.Computes` says that a computation on a faithful table has a given outcome and leaves a
faithful table, also if the outcome is a failure; `computes_cell` and `computes_wholeExpression` are
the two statements of that form that matter.

If the spelling can write all labels, the plain values for positions that the order has are the
written forms of regular expressions (`plainBelow_eq_render`, `plainWhole_eq_render`). For an
automaton named by texts these are the written forms of the trees (`plainBelow_eq_spell`,
`plainWhole_eq_spell`).
-/

set_option autoImplicit false

namespace Kleene.Builder

section Plain

variable {ν : Type}

/-- The second of two computations starts from the table that the first one leaves. -/
theorem run_bind {α β : Type} (first : TableM ν α) (rest : α → TableM ν β) (table : CellTable) :
    (first >>= rest).run.run table =
      match first.run.run table with
      | (.ok a, next) => (rest a).run.run next
      | (.error failure, next) => (.error failure, next) := by
  rw [ExceptT.run_bind, StateT.run_bind]
  rcases first.run.run table with ⟨_ | _, next⟩ <;> rfl

/-- A cell is looked up first; it is computed and put into the table if it is not there. -/
theorem run_remember (key : CellKey) (compute : TableM ν String) (table : CellTable) :
    (remember key compute).run.run table =
      match table.lookup key with
      | some expression => (.ok expression, table)
      | none =>
        match compute.run.run table with
        | (.ok expression, next) => (.ok expression, (key, expression) :: next)
        | (.error failure, next) => (.error failure, next) := by
  rw [remember, run_bind]
  show (match table.lookup key with
    | some expression => _
    | none => _ : TableM ν String).run.run table = _
  cases table.lookup key with
  | some expression => rfl
  | none =>
    rw [run_bind]
    rcases compute.run.run table with ⟨_ | _, next⟩ <;> rfl

/-- A position in range has a vertex. -/
theorem vertexAt_eq {b : Builder ν} {i : Nat} (hi : i < b.vertices.length) :
    b.vertexAt i = .ok b.vertices[i] := by
  have hplace : place? b.vertices.length (i : Int) = some i := if_pos hi
  simp [vertexAt, hplace, hi]

variable [Name ν]

/-- The cell for the states at positions below `bound` in between, without a table. -/
def plainBelow (b : Builder ν) (m : Automaton ν) : Nat → Int → Int → Except (Failure ν) String
  | 0, i, j => b.direct m i j
  | k + 1, i, j => do
    let toBound ← b.plainBelow m k i k
    let loop ← b.plainBelow m k k k
    let fromBound ← b.plainBelow m k k j
    let without ← b.plainBelow m k i j
    return combine b.spelling toBound loop fromBound without

/-- The cell `(i, j, k)` without a table. -/
def plain (b : Builder ν) (m : Automaton ν) (i j : Int) : Int → Except (Failure ν) String
  | .ofNat k => b.plainBelow m (k + 1) i j
  | .negSucc _ => b.direct m i j

/-- The expression for all paths from the first state to an accepting one, without a table. -/
def plainTo (b : Builder ν) (m : Automaton ν) (state : ν) : Except (Failure ν) String :=
  match b.position? state with
  | some position => b.plain m 0 position ((b.order.length : Int) - 1)
  | none => .error (.noPosition state)

/-- The expression for all paths from the first state to the accepting ones, without a table. -/
def plainWhole (b : Builder ν) (m : Automaton ν) : Except (Failure ν) String := do
  if m.accepting.isEmpty then
    return b.spelling.emptySet
  else
    let alternatives ← m.accepting.eraseDups.mapM (b.plainTo m)
    return b.spelling.union alternatives

/-- A table in which each entry is the plain value of its key. -/
def Faithful (b : Builder ν) (m : Automaton ν) (table : CellTable) : Prop :=
  ∀ i j k expression, ((i, j, k), expression) ∈ table → b.plain m i j k = .ok expression

/-- A computation that has the outcome on every faithful table and leaves a faithful table. -/
def Computes (b : Builder ν) (m : Automaton ν) {α : Type} (computation : TableM ν α)
    (outcome : Except (Failure ν) α) : Prop :=
  ∀ table, b.Faithful m table →
    ∃ next, computation.run.run table = (outcome, next) ∧ b.Faithful m next

variable {b : Builder ν} {m : Automaton ν}

/-- The cell whose last key is one less than a bound is about the positions below the bound. -/
theorem plain_sub_one (bound : Nat) (i j : Int) :
    b.plain m i j ((bound : Int) - 1) = b.plainBelow m bound i j := by
  cases bound with
  | zero => rfl
  | succ k =>
    have hkey : ((k + 1 : Nat) : Int) - 1 = Int.ofNat k := by simp
    rw [hkey]
    rfl

/-- An empty table is faithful. -/
theorem faithful_nil : b.Faithful m [] := by
  intro i j k expression h
  cases h

/-- What the table has under a key is the plain value of the key. -/
theorem Faithful.plain_eq {table : CellTable} (h : b.Faithful m table) {i j k : Int}
    {expression : String} (hlookup : table.lookup (i, j, k) = some expression) :
    b.plain m i j k = .ok expression := by
  obtain ⟨before, after, rfl, -⟩ := List.lookup_eq_some_iff.mp hlookup
  exact h i j k expression (by simp)

namespace Computes

variable {α β : Type}

/-- A result by itself is computed as it is. -/
theorem pure (a : α) : b.Computes m (Pure.pure a) (.ok a) :=
  fun table h => ⟨table, rfl, h⟩

/-- A failure by itself is computed as it is. -/
theorem throw (failure : Failure ν) : b.Computes m (MonadExcept.throw failure : TableM ν α)
    (.error failure) :=
  fun table h => ⟨table, rfl, h⟩

/-- An outcome that is there already is computed as it is. -/
theorem lift (outcome : Except (Failure ν) α) :
    b.Computes m (liftM outcome : TableM ν α) outcome := by
  intro table h
  cases outcome with
  | error failure => exact ⟨table, rfl, h⟩
  | ok a => exact ⟨table, rfl, h⟩

/-- One computation after the other; a failure of the first is the outcome of both. -/
theorem bind {first : TableM ν α} {outcome : Except (Failure ν) α} {rest : α → TableM ν β}
    {outcomes : α → Except (Failure ν) β} (hfirst : b.Computes m first outcome)
    (hrest : ∀ a, b.Computes m (rest a) (outcomes a)) :
    b.Computes m (first >>= rest) (outcome >>= outcomes) := by
  intro table h
  obtain ⟨next, hrun, hnext⟩ := hfirst table h
  rw [run_bind, hrun]
  cases outcome with
  | error failure => exact ⟨next, rfl, hnext⟩
  | ok a => exact hrest a next hnext

/-- The same computation for each item of a list. -/
theorem mapM {f : α → TableM ν β} {g : α → Except (Failure ν) β}
    (h : ∀ a, b.Computes m (f a) (g a)) (items : List α) :
    b.Computes m (items.mapM f) (items.mapM g) := by
  induction items with
  | nil => exact pure []
  | cons a rest ih =>
    rw [List.mapM_cons, List.mapM_cons]
    exact bind (h a) (fun first => bind ih (fun others => pure (first :: others)))

/-- A cell that is remembered has its plain value, whether the table has it or not. -/
theorem remember {i j k : Int} {compute : TableM ν String}
    (h : b.Computes m compute (b.plain m i j k)) :
    b.Computes m (Builder.remember (i, j, k) compute) (b.plain m i j k) := by
  intro table hfaithful
  rw [run_remember]
  cases hlookup : table.lookup (i, j, k) with
  | some expression =>
    rw [hfaithful.plain_eq hlookup]
    exact ⟨table, rfl, hfaithful⟩
  | none =>
    obtain ⟨next, hrun, hnext⟩ := h table hfaithful
    simp only [hrun]
    cases hplain : b.plain m i j k with
    | error failure => exact ⟨next, rfl, hnext⟩
    | ok expression =>
      refine ⟨_, rfl, ?_⟩
      intro p q bound other hmem
      rcases List.mem_cons.mp hmem with heq | hmem
      · cases heq
        exact hplain
      · exact hnext p q bound other hmem

end Computes

/-- On a faithful table every cell has its plain value. -/
theorem computes_cellBelow (k : Nat) (i j : Int) :
    b.Computes m (b.cellBelow m k i j) (b.plainBelow m k i j) := by
  induction k generalizing i j with
  | zero => exact Computes.remember (Computes.lift _)
  | succ k ih =>
    refine Computes.remember (i := i) (j := j) (k := (k : Int)) ?_
    exact (ih i k).bind fun _ => (ih k k).bind fun _ => (ih k j).bind fun _ =>
      (ih i j).bind fun _ => Computes.pure _

/-- With a faithful table a cell is what the recurrence says. -/
theorem computes_cell (i j k : Int) : b.Computes m (b.cell m i j k) (b.plain m i j k) := by
  cases k with
  | ofNat k => exact computes_cellBelow (k + 1) i j
  | negSucc k => exact Computes.remember (k := .negSucc k) (Computes.lift _)

/-- On a faithful table the whole expression is the plain one. -/
theorem computes_wholeExpression : b.Computes m (b.wholeExpression m) (b.plainWhole m) := by
  rw [wholeExpression, plainWhole]
  split
  · exact Computes.pure _
  · refine (Computes.mapM ?_ _).bind fun _ => Computes.pure _
    intro state
    rw [plainTo]
    cases b.position? state with
    | none => exact Computes.throw _
    | some position => exact computes_cell 0 position _

/-- Building with a faithful table gives the plain expression and keeps the table faithful. -/
theorem build_eq (h : b.Faithful m b.table) :
    (b.build m).1 = b.plainWhole m ∧ b.Faithful m (b.build m).2.table := by
  obtain ⟨next, hrun, hnext⟩ := computes_wholeExpression b.table h
  rw [build, run, hrun]
  exact ⟨rfl, hnext⟩

end Plain

section Rendering

variable {ν : Type} [Name ν] {b : Builder ν} {m : Automaton ν} {edges : Nat → Nat → List ν}
  (hs : b.spelling.Writes m)
  (hedges : ∀ i j (hi : i < b.vertices.length) (hj : j < b.vertices.length),
    edges i j = m.graph.labels b.vertices[i] b.vertices[j])

include hs

/-- The label of an edge is written as the spelling has it. -/
theorem labelText_eq_write {p q : Nat} {label : ν} (hlabel : label ∈ m.graph.labels p q) :
    b.labelText label = .ok (b.spelling.write label) := by
  unfold labelText Spelling.write
  cases htext : Name.text? label with
  | some text => rfl
  | none =>
    cases htexts : b.spelling.textsOnly with
    | false => rfl
    | true =>
      have hsome := hs htexts p q label hlabel
      rw [htext] at hsome
      cases hsome

include hedges

/-- The expression for single moves is the tree of the labels as it is written. -/
theorem direct_eq_render {i j : Nat} (hi : i < b.vertices.length) (hj : j < b.vertices.length) :
    b.direct m i j = .ok ((RegexTree.moves (edges i j) (i == j)).render b.spelling) := by
  have hsymbols : (m.graph.labels b.vertices[i] b.vertices[j]).mapM b.labelText =
      .ok ((edges i j).map b.spelling.write) := by
    rw [hedges i j hi hj]
    exact mapM_eq_ok (fun label hlabel => labelText_eq_write hs hlabel)
  rw [direct, vertexAt_eq hi, vertexAt_eq hj]
  show ((m.graph.labels b.vertices[i] b.vertices[j]).mapM b.labelText >>= _) = _
  rw [hsymbols, RegexTree.render_moves]
  by_cases hij : i = j
  · simp [hij, Bind.bind, Except.bind, Pure.pure, Except.pure]
  · have hcast : (i : Int) ≠ j := by omega
    by_cases hempty : edges i j = [] <;>
      simp [hij, hcast, hempty, Bind.bind, Except.bind, Pure.pure, Except.pure]

/-- A cell for positions of the order is the written form of a regular expression. -/
theorem plainBelow_eq_render {k i j : Nat} (hk : k ≤ b.vertices.length)
    (hi : i < b.vertices.length) (hj : j < b.vertices.length) :
    b.plainBelow m k i j = .ok ((CellTree.ofCell edges k i j).expand.render b.spelling) := by
  induction k generalizing i j with
  | zero => exact direct_eq_render hs hedges hi hj
  | succ k ih =>
    have hbelow : k ≤ b.vertices.length := by omega
    have hlast : k < b.vertices.length := by omega
    rw [plainBelow, ih hbelow hi hlast, ih hbelow hlast hlast, ih hbelow hlast hj, ih hbelow hi hj,
      CellTree.ofCell, CellTree.expand, RegexTree.render_through]
    rfl

/-- The whole expression is the written form of the regular expressions for the accepting states,
side by side. -/
theorem plainWhole_eq_render (hvertices : b.vertices.length = b.order.length) {place : ν → Nat}
    (hplace : ∀ state ∈ m.accepting, b.position? state = some (place state)) :
    b.plainWhole m = .ok ((RegexTree.unions (m.accepting.eraseDups.map (fun state =>
      (CellTree.ofCell edges b.order.length 0 (place state)).expand))).render b.spelling) := by
  have hto : ∀ state ∈ m.accepting.eraseDups, b.plainTo m state =
      .ok ((CellTree.ofCell edges b.order.length 0 (place state)).expand.render b.spelling) := by
    intro state hstate
    have hposition := hplace state (mem_of_mem_eraseDups hstate)
    have hlt : place state < b.order.length :=
      (List.findIdx?_eq_some_iff_findIdx_eq.mp hposition).1
    rw [plainTo, hposition]
    show b.plain m ((0 : Nat) : Int) _ _ = _
    rw [plain_sub_one]
    exact plainBelow_eq_render hs hedges (by omega) (by omega) (by omega)
  rw [plainWhole, mapM_eq_ok hto]
  cases haccept : m.accepting with
  | nil => rfl
  | cons state rest =>
    rw [RegexTree.render_unions _ (by simp [List.eraseDups_cons]), List.map_map]
    rfl

end Rendering

section Trees

variable (b : Builder String) (m : Automaton String)

/-- The labels of the moves from one position of the order to another. -/
def edges (i j : Nat) : List String :=
  match b.vertices[i]?, b.vertices[j]? with
  | some v, some w => m.graph.labels v w
  | _, _ => []

/-- The trees of the paths from the first state to each accepting one. -/
def trees : List (CellTree String) :=
  m.accepting.eraseDups.map fun state =>
    CellTree.ofCell (b.edges m) b.order.length 0 (b.order.idxOf state)

variable {b m}

/-- A state has its place in the order for a position. -/
theorem position?_eq {state : String} (h : state ∈ b.order) :
    b.position? state = some (b.order.idxOf state) := by
  exact (findIdx?_beq b.order state).trans (if_pos h)

/-- The labels between two positions are those between their vertices. -/
theorem edges_eq (i j : Nat) (hi : i < b.vertices.length) (hj : j < b.vertices.length) :
    b.edges m i j = m.graph.labels b.vertices[i] b.vertices[j] := by
  simp [edges, hi, hj]

/-- A cell for positions of the order is the written form of its tree. -/
theorem plainBelow_eq_spell {k i j : Nat} (hk : k ≤ b.vertices.length)
    (hi : i < b.vertices.length) (hj : j < b.vertices.length) :
    b.plainBelow m k i j = .ok ((CellTree.ofCell (b.edges m) k i j).spell b.spelling) := by
  rw [plainBelow_eq_render (Spelling.writes_string _ m) edges_eq hk hi hj, CellTree.render_expand]

/-- The written form of the whole expression: all trees side by side. -/
def spellWhole (s : Spelling) (trees : List (CellTree String)) : String :=
  if trees.isEmpty then s.emptySet else s.union (trees.map (CellTree.spell s))

/-- The whole expression is the written form of the trees for the accepting states. -/
theorem plainWhole_eq_spell (hvertices : b.vertices.length = b.order.length)
    (haccepting : ∀ state ∈ m.accepting, state ∈ b.order) :
    b.plainWhole m = .ok (spellWhole b.spelling (b.trees m)) := by
  have hplace : ∀ state ∈ m.accepting, b.position? state = some (b.order.idxOf state) :=
    fun state hstate => position?_eq (haccepting state hstate)
  have hspell : RegexTree.render b.spelling ∘ CellTree.expand = CellTree.spell b.spelling :=
    funext (CellTree.render_expand b.spelling)
  rw [plainWhole_eq_render (Spelling.writes_string _ m) edges_eq hvertices hplace, spellWhole]
  cases haccept : m.accepting with
  | nil => simp [trees, haccept, RegexTree.unions, RegexTree.render]
  | cons state rest =>
    have hfilled : (b.trees m).isEmpty = false := by simp [trees, haccept, List.eraseDups_cons]
    rw [if_neg (by simp [hfilled]), RegexTree.render_unions _ (by simp [List.eraseDups_cons]), trees,
      haccept, ← hspell, List.map_map, List.map_map]
    rfl

end Trees

end Kleene.Builder
