import Kleene.Proofs.Expression.Table

/-!
# Requests to one builder

A builder is asked for cells and for the whole expression again and again, and keeps its table from
one request to the next, also after a request that fails half-way. `Builder.answers` is what it
answers to a list of requests if the automaton stays as it is.

A computation puts new entries in front of the table and takes none away (`Builder.Grows`). So the
tables that a builder goes through are the ends of the last one, and whatever holds of all entries
of the last one holds at every moment before.

The main statement is `answers_eq_plain`: each answer is that of the recurrence without a table, and
every entry of the table is at every moment the value that the recurrence gives its key.
-/

set_option autoImplicit false

namespace Kleene.Builder

variable {ν : Type}

/-! ## The table only grows -/

/-- A computation that leaves every table in place behind what it puts in front. -/
def Grows {α : Type} (computation : TableM ν α) : Prop :=
  ∀ table, table <:+ (computation.run.run table).2

namespace Grows

variable {α β : Type}

/-- A result by itself leaves the table as it is. -/
theorem pure (a : α) : Grows (Pure.pure a : TableM ν α) :=
  fun table => List.suffix_refl table

/-- A failure leaves the table as it is. -/
theorem throw (failure : Failure ν) : Grows (MonadExcept.throw failure : TableM ν α) :=
  fun table => List.suffix_refl table

/-- An outcome that is there already leaves the table as it is. -/
theorem lift (outcome : Except (Failure ν) α) : Grows (liftM outcome : TableM ν α) := by
  intro table
  cases outcome with
  | error failure => exact List.suffix_refl table
  | ok a => exact List.suffix_refl table

/-- The table grows by one computation after another if it does by each of them. -/
theorem bind {first : TableM ν α} {rest : α → TableM ν β} (hfirst : Grows first)
    (hrest : ∀ a, Grows (rest a)) : Grows (first >>= rest) := by
  intro table
  have hbefore := hfirst table
  rw [run_bind]
  cases hrun : first.run.run table with
  | mk outcome next =>
    rw [hrun] at hbefore
    cases outcome with
    | error failure => exact hbefore
    | ok a => exact hbefore.trans (hrest a next)

/-- The table grows by a list of computations if it does by each of them. -/
theorem mapM {f : α → TableM ν β} (h : ∀ a, Grows (f a)) (items : List α) :
    Grows (items.mapM f) := by
  induction items with
  | nil => exact pure []
  | cons a rest ih =>
    rw [List.mapM_cons]
    exact bind (h a) (fun first => bind ih (fun others => pure (first :: others)))

/-- A cell is put on top of what its computation adds. -/
theorem remember {key : CellKey} {compute : TableM ν String} (h : Grows compute) :
    Grows (Builder.remember key compute) := by
  intro table
  have hcompute := h table
  rw [run_remember]
  cases table.lookup key with
  | some expression => exact List.suffix_refl table
  | none =>
    cases hrun : compute.run.run table with
    | mk outcome next =>
      rw [hrun] at hcompute
      cases outcome with
      | error failure => exact hcompute
      | ok expression => exact hcompute.trans (List.suffix_cons _ next)

end Grows

variable [Name ν]

/-- To ask for a cell below a bound takes nothing out of the table. -/
theorem grows_cellBelow (b : Builder ν) (m : Automaton ν) (k : Nat) (i j : Int) :
    Grows (b.cellBelow m k i j) := by
  induction k generalizing i j with
  | zero => exact Grows.remember (Grows.lift _)
  | succ k ih =>
    apply Grows.remember
    exact (ih i k).bind fun _ => (ih k k).bind fun _ => (ih k j).bind fun _ =>
      (ih i j).bind fun _ => Grows.pure _

/-- To ask for a cell takes nothing out of the table. -/
theorem grows_cell (b : Builder ν) (m : Automaton ν) (i j k : Int) : Grows (b.cell m i j k) := by
  cases k with
  | ofNat k => exact grows_cellBelow b m (k + 1) i j
  | negSucc k => exact Grows.remember (Grows.lift _)

/-- To ask for the whole expression takes nothing out of the table. -/
theorem grows_wholeExpression (b : Builder ν) (m : Automaton ν) : Grows (b.wholeExpression m) := by
  rw [wholeExpression]
  split
  · exact Grows.pure _
  · refine (Grows.mapM ?_ _).bind fun _ => Grows.pure _
    intro state
    cases b.position? state with
    | none => exact Grows.throw _
    | some position => exact grows_cell b m 0 position _

/-! ## One request -/

/-- What a builder can be asked for: one cell, or the whole expression. -/
inductive Request where
  | paths (i j k : Int)
  | build
  deriving Repr, DecidableEq

/-- The answer to a request, and the builder with the cells computed for it. -/
def answer (b : Builder ν) (m : Automaton ν) : Request → Except (Failure ν) String × Builder ν
  | .paths i j k => b.paths m i j k
  | .build => b.build m

/-- The answer of the recurrence alone, without a table. -/
def plainAnswer (b : Builder ν) (m : Automaton ν) : Request → Except (Failure ν) String
  | .paths i j k => b.plain m i j k
  | .build => b.plainWhole m

variable {b : Builder ν} {m : Automaton ν}

/-- A computation on a faithful table answers as it should and leaves a builder that differs in its
table only; this is faithful again and ends with the table from before. -/
theorem Computes.run_eq {α : Type} {computation : TableM ν α} {outcome : Except (Failure ν) α}
    (h : b.Computes m computation outcome) (hgrows : Grows computation)
    (hfaithful : b.Faithful m b.table) :
    ∃ next, b.run computation = (outcome, { b with table := next }) ∧ b.Faithful m next ∧
      b.table <:+ next := by
  obtain ⟨next, hrun, hnext⟩ := h b.table hfaithful
  have hsuffix := hgrows b.table
  rw [hrun] at hsuffix
  exact ⟨next, by rw [run, hrun], hnext, hsuffix⟩

/-- Any request on a faithful table is answered as without one, and leaves a faithful table that has
grown. -/
theorem answer_eq (h : b.Faithful m b.table) (request : Request) :
    ∃ next, b.answer m request = (b.plainAnswer m request, { b with table := next }) ∧
      b.Faithful m next ∧ b.table <:+ next := by
  cases request with
  | paths i j k => exact (computes_cell i j k).run_eq (grows_cell b m i j k) h
  | build => exact computes_wholeExpression.run_eq (grows_wholeExpression b m) h

/-! ## The recurrence does not look at the table -/

section Table

variable (b : Builder ν) (m : Automaton ν) (table : CellTable)

/-- The recurrence below a bound does not look at the table. -/
theorem plainBelow_table (k : Nat) (i j : Int) :
    ({ b with table := table } : Builder ν).plainBelow m k i j = b.plainBelow m k i j := by
  induction k generalizing i j with
  | zero => rfl
  | succ k ih => simp only [plainBelow, ih]

/-- The recurrence does not look at the table. -/
theorem plain_table (i j k : Int) :
    ({ b with table := table } : Builder ν).plain m i j k = b.plain m i j k := by
  cases k with
  | ofNat k => exact plainBelow_table b m table (k + 1) i j
  | negSucc k => rfl

/-- What a request has for an answer without a table does not depend on the table. -/
theorem plainAnswer_table (request : Request) :
    ({ b with table := table } : Builder ν).plainAnswer m request = b.plainAnswer m request := by
  cases request with
  | paths i j k => exact plain_table b m table i j k
  | build =>
    have hto : ({ b with table := table } : Builder ν).plainTo m = b.plainTo m := by
      funext state
      simp only [plainTo, plain_table]
      rfl
    simp only [plainAnswer, plainWhole, hto]

/-- Whether a table is faithful does not depend on the one that the builder has. -/
theorem faithful_table (other : CellTable) :
    ({ b with table := table } : Builder ν).Faithful m other ↔ b.Faithful m other := by
  simp only [Faithful, plain_table]

end Table

/-! ## Many requests -/

/-- The answers to requests, one after the other, and the builder after the last of them. -/
def answers (b : Builder ν) (m : Automaton ν) :
    List Request → List (Except (Failure ν) String) × Builder ν
  | [] => ([], b)
  | request :: rest =>
    let (first, next) := b.answer m request
    let (others, last) := next.answers m rest
    (first :: others, last)

/-- What a faithful table was before is faithful too. -/
theorem Faithful.of_suffix {table moment : CellTable} (h : b.Faithful m table)
    (hmoment : moment <:+ table) : b.Faithful m moment :=
  fun i j k expression hmem => h i j k expression (hmoment.subset hmem)

/-- With a faithful table all requests are answered by the recurrence, whatever was asked before,
and the table stays faithful. -/
theorem answers_eq (h : b.Faithful m b.table) (requests : List Request) :
    ∃ last, b.answers m requests = (requests.map (b.plainAnswer m), { b with table := last }) ∧
      b.Faithful m last ∧ b.table <:+ last := by
  induction requests generalizing b with
  | nil => exact ⟨b.table, rfl, h, List.suffix_refl _⟩
  | cons request rest ih =>
    obtain ⟨next, hanswer, hnext, hgrown⟩ := answer_eq h request
    obtain ⟨last, hrest, hlast, hmore⟩ := ih ((faithful_table b m next next).mpr hnext)
    refine ⟨last, ?_, (faithful_table b m next last).mp hlast, hgrown.trans hmore⟩
    have hplain : ({ b with table := next } : Builder ν).plainAnswer m = b.plainAnswer m :=
      funext (plainAnswer_table b m next)
    rw [answers, hanswer]
    simp only [hrest, hplain, List.map_cons]

/-- A request that comes after others is answered by the recurrence too. -/
theorem answer_answers (h : b.Faithful m b.table) (requests : List Request) (request : Request) :
    ((b.answers m requests).2.answer m request).1 = b.plainAnswer m request := by
  obtain ⟨last, hanswers, hlast, -⟩ := answers_eq h requests
  obtain ⟨_, hanswer, -, -⟩ := answer_eq ((faithful_table b m last last).mpr hlast) request
  rw [hanswers, hanswer]
  exact plainAnswer_table b m last request

/-- Later requests are answered with the table that the earlier ones leave. -/
theorem answers_append (b : Builder ν) (m : Automaton ν) (earlier later : List Request) :
    (b.answers m (earlier ++ later)).2 = ((b.answers m earlier).2.answers m later).2 := by
  induction earlier generalizing b with
  | nil => rfl
  | cons request rest ih => exact ih (b.answer m request).2

/-- Whatever is asked of the builder of an automaton that stays as it is, in whatever order and with
failures among it, each answer is that of the recurrence without a table. At every moment, within
the requests too, each entry of the table is the value that the recurrence gives its key: the table
after a part of the requests is an end of the table after all of them, as it only grows in front,
and every end of that has this property. -/
theorem answers_eq_plain (m : Automaton ν) (s : Spelling) (requests : List Request) :
    ((ofAutomaton m s).answers m requests).1 = requests.map ((ofAutomaton m s).plainAnswer m) ∧
      (∀ moment, moment <:+ ((ofAutomaton m s).answers m requests).2.table →
        ∀ i j k expression, ((i, j, k), expression) ∈ moment →
          (ofAutomaton m s).plain m i j k = .ok expression) ∧
      ∀ earlier, earlier <+: requests →
        ((ofAutomaton m s).answers m earlier).2.table <:+
          ((ofAutomaton m s).answers m requests).2.table := by
  obtain ⟨last, hanswers, hlast, -⟩ := answers_eq (b := ofAutomaton m s) faithful_nil requests
  refine ⟨by rw [hanswers], ?_, ?_⟩
  · intro moment hmoment
    rw [hanswers] at hmoment
    exact hlast.of_suffix hmoment
  · rintro earlier ⟨later, rfl⟩
    obtain ⟨table, hearlier, hfaithful, -⟩ :=
      answers_eq (b := ofAutomaton m s) faithful_nil earlier
    rw [answers_append, hearlier]
    obtain ⟨_, hlater, -, hgrown⟩ :=
      answers_eq ((faithful_table (ofAutomaton m s) m table table).mpr hfaithful) later
    rw [hlater]
    exact hgrown

end Kleene.Builder
