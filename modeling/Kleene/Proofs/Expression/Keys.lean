import Kleene.Proofs.Expression.Requests
import Kleene.Proofs.Expression.Totality
import Mathlib.Data.Finset.Prod
import Mathlib.Data.Int.Interval

/-!
# Which cells are computed

A computation that succeeds changes the keys of the table in a way that does not depend on what is
written under them (`Builder.Visits`). For a cell this is `visitBelow`: a key that is there changes
nothing, and one that is not is put in front after the cells that it needs were visited.

`Needs` says in closed form which cells the recurrence comes to: the bound decreases, and each of
the two ends is that of the cell at the beginning or a position that was a bound on the way
(`needs_succ`). As a table has with each cell all those that it needs (`Settled`), a visit adds
exactly these (`mem_visitBelow`), however many of them were there before.

The main statement is `keys_build`: which keys a new builder has after it built the expression of an
automaton, at most how many these are, and that building again adds none.
-/

set_option autoImplicit false

namespace Kleene.Builder

/-! ## What a computation does to the keys -/

section Visits

variable {ν α β : Type}

/-- Whenever the computation has a result, it turns the keys of the table into what `visit` makes of
them. -/
def Visits (computation : TableM ν α) (visit : List CellKey → List CellKey) : Prop :=
  ∀ table a next, computation.run.run table = (.ok a, next) →
    next.map Prod.fst = visit (table.map Prod.fst)

namespace Visits

/-- A result by itself visits no cell. -/
theorem pure (a : α) : Visits (Pure.pure a : TableM ν α) id := by
  intro table b next hrun
  cases hrun
  rfl

/-- A failure has no result, so any cells may be said to be visited. -/
theorem throw (failure : Failure ν) (visit : List CellKey → List CellKey) :
    Visits (MonadExcept.throw failure : TableM ν α) visit := by
  intro table b next hrun
  cases hrun

/-- An outcome that is there already visits no cell. -/
theorem lift (outcome : Except (Failure ν) α) : Visits (liftM outcome : TableM ν α) id := by
  intro table b next hrun
  cases outcome with
  | error failure => cases hrun
  | ok a =>
    cases hrun
    rfl

/-- One computation after another visits what they visit one after the other. -/
theorem bind {first : TableM ν α} {rest : α → TableM ν β} {visit visit' : List CellKey → List CellKey}
    (hfirst : Visits first visit) (hrest : ∀ a, Visits (rest a) visit') :
    Visits (first >>= rest) (fun seen => visit' (visit seen)) := by
  intro table b last hrun
  rw [run_bind] at hrun
  rcases hmiddle : first.run.run table with ⟨_ | a, next⟩
  · rw [hmiddle] at hrun
    cases hrun
  · rw [hmiddle] at hrun
    rw [hrest a next b last hrun, hfirst table a next hmiddle]

/-- What is made of a result visits no more cells. -/
theorem bind_pure {first : TableM ν α} {visit : List CellKey → List CellKey} (h : Visits first visit)
    (f : α → β) : Visits (first >>= fun a => Pure.pure (f a)) visit :=
  h.bind (fun a => pure (f a))

/-- A list of computations visits what they visit one after the other. -/
theorem mapM {f : α → TableM ν β} {visit : α → List CellKey → List CellKey}
    (h : ∀ a, Visits (f a) (visit a)) (items : List α) :
    Visits (items.mapM f) (fun seen => items.foldl (fun seen a => visit a seen) seen) := by
  induction items with
  | nil => exact pure []
  | cons a rest ih =>
    rw [List.mapM_cons]
    exact bind (h a) (fun first => bind ih (fun others => pure (first :: others)))

/-- A cell that is remembered is computed and put in front if its key is not there. -/
theorem remember {key : CellKey} {compute : TableM ν String} {visit : List CellKey → List CellKey}
    (h : Visits compute visit) :
    Visits (Builder.remember key compute)
      (fun seen => if key ∈ seen then seen else key :: visit seen) := by
  intro table expression last hrun
  rw [run_remember] at hrun
  cases hlookup : table.lookup key with
  | some known =>
    have hmem : key ∈ table.map Prod.fst := by
      obtain ⟨before, after, rfl, -⟩ := List.lookup_eq_some_iff.mp hlookup
      simp
    rw [hlookup] at hrun
    cases hrun
    exact (if_pos hmem).symm
  | none =>
    have hmem : key ∉ table.map Prod.fst := by
      intro hmem
      obtain ⟨entry, hentry, rfl⟩ := List.mem_map.mp hmem
      simpa using List.lookup_eq_none_iff.mp hlookup entry hentry
    rw [hlookup] at hrun
    rcases hcompute : compute.run.run table with ⟨_ | a, next⟩
    · simp only [hcompute] at hrun
      cases hrun
    · simp only [hcompute] at hrun
      cases hrun
      have hkeys := h table expression next hcompute
      exact (congrArg (List.cons key) hkeys).trans (if_neg hmem).symm

end Visits

end Visits

/-! ## The cells that a cell needs -/

section Needs

variable {i j : Int} {key : CellKey} {seen : List CellKey}

/-- The keys after a visit of the cell for the states at positions below a bound in between. -/
def visitBelow : Nat → Int → Int → List CellKey → List CellKey
  | 0, i, j, seen => if (i, j, -1) ∈ seen then seen else (i, j, -1) :: seen
  | k + 1, i, j, seen =>
    if (i, j, (k : Int)) ∈ seen then seen
    else (i, j, (k : Int)) ::
      visitBelow k i j (visitBelow k k j (visitBelow k k k (visitBelow k i k seen)))

/-- Where the paths of a needed cell with the bound `r` may end if those of the given one end at
`i`: there, or at a position that was a bound on the way. -/
def MayEnd (bound i r p : Int) : Prop :=
  p = i ∨ r < p ∧ p < bound

/-- The cells that the one from `i` to `j` below a bound needs, this one included. -/
def Needs (bound i j : Int) : CellKey → Prop
  | (p, q, r) => -1 ≤ r ∧ r < bound ∧ MayEnd bound i r p ∧ MayEnd bound j r q

/-- With one more state in between, the paths may end where they did before or, from that state,
where its paths may end. -/
theorem mayEnd_succ {k i r p : Int} (h : r < k) :
    MayEnd (k + 1) i r p ↔ MayEnd k i r p ∨ MayEnd k k r p := by
  simp only [MayEnd]
  omega

/-- With all states in between, paths end where they did. -/
theorem mayEnd_last {bound i r p : Int} (h : bound ≤ r + 1) : MayEnd bound i r p ↔ p = i :=
  or_iff_left (by omega)

/-- A cell for single moves needs itself alone. -/
theorem needs_zero : Needs 0 i j key ↔ key = (i, j, -1) := by
  obtain ⟨p, q, r⟩ := key
  simp only [Needs, MayEnd, Prod.mk.injEq]
  omega

/-- What the recurrence says about the needed cells: the cell itself has the bound that is given up,
and those with a lower one are needed by one of the four others. -/
theorem needs_succ (k : Nat) :
    Needs (k + 1 : Nat) i j key ↔ key = (i, j, (k : Int)) ∨
      Needs k i k key ∨ Needs k k k key ∨ Needs k k j key ∨ Needs k i j key := by
  obtain ⟨p, q, r⟩ := key
  rw [Nat.cast_succ]
  simp only [Needs, Prod.mk.injEq]
  rcases lt_trichotomy r k with hr | rfl | hr
  · simp only [mayEnd_succ hr, hr, hr.ne, Int.lt_add_one_of_le hr.le, true_and, and_false, false_or]
    tauto
  · simp only [mayEnd_last (le_refl _), lt_irrefl, false_and, and_false, or_false, and_true,
      lt_add_one, true_and]
    exact and_iff_right (by omega)
  · simp only [hr.ne', hr.not_gt, not_lt.mpr (Int.add_one_le_of_lt hr), false_and, and_false,
      or_false]

/-- Where the paths of a needed cell may end, those of the cells that it needs may end too. -/
theorem MayEnd.trans {bound i r p r' p' : Int} (h : MayEnd bound i r p) (hr : r' ≤ r)
    (hbound : r < bound) (h' : MayEnd (r + 1) p r' p') : MayEnd bound i r' p' := by
  simp only [MayEnd] at h h' ⊢
  omega

/-- A cell needs itself. -/
theorem needs_last (bound : Nat) : Needs bound i j (i, j, (bound : Int) - 1) :=
  ⟨by omega, by omega, .inl rfl, .inl rfl⟩

/-- What a needed cell needs is needed. -/
theorem Needs.trans {bound p q r : Int} (h : Needs bound i j (p, q, r))
    (hkey : Needs (r + 1) p q key) : Needs bound i j key := by
  obtain ⟨p', q', r'⟩ := key
  obtain ⟨hlow, hhigh, hstart, hend⟩ := h
  obtain ⟨hlow', hhigh', hstart', hend'⟩ := hkey
  exact ⟨hlow', by omega, hstart.trans (by omega) (by omega) hstart',
    hend.trans (by omega) (by omega) hend'⟩

/-- With each cell all cells that it needs have been visited. -/
def Settled (seen : List CellKey) : Prop :=
  ∀ p q r, (p, q, r) ∈ seen → ∀ key, Needs (r + 1) p q key → key ∈ seen

/-- Without a visit nothing is needed. -/
theorem settled_nil : Settled [] := by
  intro p q r h
  cases h

/-- What is needed by a needed cell is needed, so that a table stays settled if a cell is added with
all that it needs. -/
theorem Settled.of_mem_iff {bound : Int} {after : List CellKey} (h : Settled seen)
    (hafter : ∀ key, key ∈ after ↔ key ∈ seen ∨ Needs bound i j key) : Settled after := by
  intro p q r hmem key hkey
  rcases (hafter _).mp hmem with hmem | hneeds
  · exact (hafter key).mpr (.inl (h p q r hmem key hkey))
  · exact (hafter key).mpr (.inr (hneeds.trans hkey))

/-- A visit adds the cell and all cells that it needs, and nothing else. -/
theorem mem_visitBelow (h : Settled seen) (k : Nat) (i j : Int) (key : CellKey) :
    key ∈ visitBelow k i j seen ↔ key ∈ seen ∨ Needs k i j key := by
  induction k generalizing i j key seen with
  | zero =>
    rw [visitBelow, Nat.cast_zero, needs_zero]
    split
    · next hmem => exact (or_iff_left_of_imp (fun hkey => hkey ▸ hmem)).symm
    · rw [List.mem_cons, or_comm]
  | succ k ih =>
    rw [visitBelow]
    split
    · next hmem =>
      have hneeds : Needs (k + 1 : Nat) i j key → key ∈ seen := by
        rw [Nat.cast_succ]
        exact h i j k hmem key
      exact (or_iff_left_of_imp hneeds).symm
    · have hto := h.of_mem_iff (ih h i k)
      have hloop := hto.of_mem_iff (ih hto k k)
      have hfrom := hloop.of_mem_iff (ih hloop k j)
      rw [List.mem_cons, ih hfrom, ih hloop, ih hto, ih h, needs_succ]
      tauto

/-- A visit of a cell comes to all that the cell needs. -/
theorem Settled.visitBelow (h : Settled seen) (k : Nat) (i j : Int) :
    Settled (visitBelow k i j seen) :=
  h.of_mem_iff (mem_visitBelow h k i j)

/-- No visit puts a key into the table a second time: those that it makes before are of cells with a
lower bound. -/
theorem nodup_visitBelow (h : Settled seen) (hnodup : seen.Nodup) (k : Nat) (i j : Int) :
    (visitBelow k i j seen).Nodup := by
  induction k generalizing i j seen with
  | zero =>
    rw [Builder.visitBelow]
    split
    · exact hnodup
    · next hmem => exact List.nodup_cons.mpr ⟨hmem, hnodup⟩
  | succ k ih =>
    rw [Builder.visitBelow]
    split
    · exact hnodup
    · next hmem =>
      have hto := h.visitBelow k i k
      have hloop := hto.visitBelow k k k
      have hfrom := hloop.visitBelow k k j
      refine List.nodup_cons.mpr ⟨?_, ih hfrom (ih hloop (ih hto (ih h hnodup i k) k k) k j) i j⟩
      have hlower : ∀ p q, ¬ Needs k p q (i, j, (k : Int)) := by
        intro p q hneeds
        exact absurd hneeds.2.1 (lt_irrefl _)
      rw [mem_visitBelow hfrom, mem_visitBelow hloop, mem_visitBelow hto, mem_visitBelow h]
      simp only [hmem, hlower, or_self, not_false_eq_true]

/-- A visit of a cell that is there changes nothing. -/
theorem visitBelow_of_mem {k : Nat} (h : (i, j, (k : Int) - 1) ∈ seen) :
    visitBelow k i j seen = seen := by
  cases k with
  | zero => exact if_pos h
  | succ k =>
    have hkey : ((k + 1 : Nat) : Int) - 1 = k := by omega
    rw [hkey] at h
    exact if_pos h

/-- The keys after visits of the cells from the first position to each of the given ones. -/
def visitEnds (bound : Nat) (ends : List Nat) (seen : List CellKey) : List CellKey :=
  ends.foldl (fun seen (j : Nat) => visitBelow bound 0 j seen) seen

/-- The visits come to what the cells to the ends need, and to nothing else. -/
theorem mem_visitEnds (h : Settled seen) (bound : Nat) (ends : List Nat) :
    key ∈ visitEnds bound ends seen ↔ key ∈ seen ∨ ∃ j ∈ ends, Needs bound 0 j key := by
  induction ends generalizing seen with
  | nil => simp [visitEnds]
  | cons j rest ih =>
    have hrest : visitEnds bound (j :: rest) seen =
        visitEnds bound rest (visitBelow bound 0 j seen) := rfl
    rw [hrest, ih (h.visitBelow bound 0 j), mem_visitBelow h, List.exists_mem_cons_iff, or_assoc]

/-- The visits come to no cell twice. -/
theorem nodup_visitEnds (h : Settled seen) (hnodup : seen.Nodup) (bound : Nat) (ends : List Nat) :
    (visitEnds bound ends seen).Nodup := by
  induction ends generalizing seen with
  | nil => exact hnodup
  | cons j rest ih => exact ih (h.visitBelow bound 0 j) (nodup_visitBelow h hnodup bound 0 j)

/-- Visits of cells that were visited change nothing. -/
theorem visitEnds_of_mem {bound : Nat} {ends : List Nat}
    (h : ∀ j ∈ ends, ((0 : Int), (j : Int), (bound : Int) - 1) ∈ seen) :
    visitEnds bound ends seen = seen := by
  induction ends with
  | nil => rfl
  | cons j rest ih =>
    obtain ⟨hj, hrest⟩ := List.forall_mem_cons.mp h
    rw [visitEnds, List.foldl_cons, visitBelow_of_mem hj]
    exact ih hrest

end Needs

/-! ## The keys of a builder -/

section Keys

variable {ν : Type} {b : Builder ν}

/-- The keys of a builder are those of its table. -/
theorem mem_keys {key : CellKey} : key ∈ b.keys ↔ key ∈ b.table.map Prod.fst := by
  rw [keys, List.mem_mergeSort]

/-- The keys of a builder repeat exactly if those of its table do. -/
theorem nodup_keys : b.keys.Nodup ↔ (b.table.map Prod.fst).Nodup :=
  (List.mergeSort_perm _ _).nodup_iff

variable [Name ν] {m : Automaton ν}

/-- To ask for a cell is to visit it. -/
theorem visits_cellBelow (b : Builder ν) (m : Automaton ν) (k : Nat) (i j : Int) :
    Visits (b.cellBelow m k i j) (visitBelow k i j) := by
  induction k generalizing i j with
  | zero => exact Visits.remember (Visits.lift _)
  | succ k ih =>
    apply Visits.remember
    exact (ih i k).bind fun _ => (ih k k).bind fun _ => (ih k j).bind fun _ =>
      (ih i j).bind fun _ => Visits.pure _

/-- The cell up to the last position below a bound is the cell below the bound. -/
theorem cell_sub_one (b : Builder ν) (m : Automaton ν) (bound : Nat) (i j : Int) :
    b.cell m i j ((bound : Int) - 1) = b.cellBelow m bound i j := by
  cases bound with
  | zero => rfl
  | succ k =>
    have hkey : ((k + 1 : Nat) : Int) - 1 = Int.ofNat k := by simp
    rw [hkey]
    rfl

/-- The positions of the accepting states. -/
def ends (b : Builder ν) (m : Automaton ν) : List Nat :=
  m.accepting.eraseDups.filterMap b.position?

/-- To ask for the whole expression is to visit the cells to the accepting states. -/
theorem visits_wholeExpression (haccepting : m.accepting ≠ []) :
    Visits (b.wholeExpression m) (visitEnds b.order.length (b.ends m)) := by
  have hends : ∀ seen, visitEnds b.order.length (b.ends m) seen =
      m.accepting.eraseDups.foldl (fun seen state => (b.position? state).elim seen
        (fun position => visitBelow b.order.length 0 position seen)) seen := by
    intro seen
    rw [visitEnds, ends, List.foldl_filterMap]
    congr 1
    funext seen state
    cases b.position? state <;> rfl
  rw [wholeExpression, if_neg (by simpa using haccepting), funext hends]
  refine Visits.bind_pure (Visits.mapM (fun state => ?_) _) _
  cases b.position? state with
  | none => exact Visits.throw _ _
  | some position =>
    simp only [cell_sub_one]
    exact visits_cellBelow b m _ _ _

/-- After a successful build the keys are those from before with the ones visited for it. -/
theorem keys_of_build {text : String} {built : Builder ν} (haccepting : m.accepting ≠ [])
    (h : b.build m = (.ok text, built)) :
    built.table.map Prod.fst =
      visitEnds b.order.length (b.ends m) (b.table.map Prod.fst) := by
  refine visits_wholeExpression haccepting b.table text built.table ?_
  rw [build, run] at h
  obtain ⟨houtcome, rfl⟩ := Prod.mk.inj h
  exact Prod.ext houtcome rfl

/-- The needed cells of the paths from the first position to several ends. -/
theorem exists_needs_iff {ends : List Nat} (hends : ends ≠ []) {bound i j k : Int} :
    (∃ last ∈ ends, Needs bound 0 (last : Nat) (i, j, k)) ↔
      -1 ≤ k ∧ k < bound ∧ (i = 0 ∨ k < i ∧ i < bound) ∧
        ((∃ last ∈ ends, j = (last : Nat)) ∨ k < j ∧ j < bound) := by
  constructor
  · rintro ⟨last, hlast, hlow, hhigh, hstart, hend⟩
    exact ⟨hlow, hhigh, hstart, Or.imp_left (fun hj => ⟨last, hlast, hj⟩) hend⟩
  · rintro ⟨hlow, hhigh, hstart, ⟨last, hlast, hj⟩ | hend⟩
    · exact ⟨last, hlast, hlow, hhigh, hstart, .inl hj⟩
    · obtain ⟨last, hlast⟩ := List.exists_mem_of_ne_nil ends hends
      exact ⟨last, hlast, hlow, hhigh, hstart, .inr hend⟩

/-- Different keys between places of an order are at most as many as there are places, squared, and
one more than there are places. -/
theorem length_le_of_mem_range {keys : List CellKey} (hnodup : keys.Nodup) {n : Nat}
    (h : ∀ i j k : Int, (i, j, k) ∈ keys →
      (0 ≤ i ∧ i < n) ∧ (0 ≤ j ∧ j < n) ∧ -1 ≤ k ∧ k < n) :
    keys.length ≤ n * n * (n + 1) := by
  have hsubset : keys.toFinset ⊆
      Finset.Ico (0 : Int) n ×ˢ Finset.Ico (0 : Int) n ×ˢ Finset.Ico (-1 : Int) n := by
    rintro ⟨i, j, k⟩ hkey
    simpa only [Finset.mem_product, Finset.mem_Ico] using h i j k (List.mem_toFinset.mp hkey)
  calc keys.length = keys.toFinset.card := (List.toFinset_card_of_nodup hnodup).symm
    _ ≤ _ := Finset.card_le_card hsubset
    _ = n * n * (n + 1) := by
      simp only [Finset.card_product, Int.card_Ico, sub_zero, Int.toNat_natCast]
      have hlast : ((n : Int) - -1).toNat = n + 1 := by omega
      rw [hlast, Nat.mul_assoc]

/-- What a builder has built it has at hand: building again gives the same and leaves the table as
it is. -/
theorem build_again {text : String} {built : Builder ν} (hfaithful : b.Faithful m b.table)
    (hsettled : Settled (b.table.map Prod.fst)) (haccepting : m.accepting ≠ [])
    (h : b.build m = (.ok text, built)) : built.build m = (.ok text, built) := by
  obtain ⟨table, hfirst, htable, -⟩ := answer_eq hfaithful .build
  obtain ⟨htext, rfl⟩ := Prod.mk.inj (h.symm.trans hfirst)
  obtain ⟨last, hsecond, -, hgrown⟩ := answer_eq ((faithful_table b m table table).mpr htable) .build
  rw [plainAnswer_table, ← htext] at hsecond
  have hkeys : table.map Prod.fst = visitEnds b.order.length (b.ends m) (b.table.map Prod.fst) :=
    keys_of_build haccepting h
  have hvisited : last.map Prod.fst = table.map Prod.fst := by
    refine (keys_of_build haccepting hsecond).trans (visitEnds_of_mem (fun j hj => ?_))
    rw [hkeys, mem_visitEnds hsettled]
    exact .inr ⟨j, hj, needs_last _⟩
  have hlength : table.length = last.length := by
    simpa using (congrArg List.length hvisited).symm
  rw [← hgrown.eq_of_length hlength] at hsecond
  exact hsecond

variable [EquivBEq ν]

/-- The ends are the positions of the accepting states. -/
theorem mem_ends {j : Nat} :
    j ∈ b.ends m ↔ ∃ state ∈ m.accepting, b.position? state = some j := by
  constructor
  · intro hj
    obtain ⟨state, hstate, hposition⟩ := List.mem_filterMap.mp hj
    exact ⟨state, mem_of_mem_eraseDups hstate, hposition⟩
  · rintro ⟨state, hstate, hposition⟩
    obtain ⟨kept, hkept, hsame⟩ := exists_mem_eraseDups_beq hstate
    refine List.mem_filterMap.mpr ⟨kept, hkept, ?_⟩
    rw [← hposition, position?, position?]
    simp only [BEq.congr_right hsame]

/-- The positions of the accepting states are places of the order, and there is one. -/
theorem ends_ofAutomaton (h : m.Registered) (haccepting : m.accepting ≠ []) (s : Spelling) :
    (ofAutomaton m s).ends m ≠ [] ∧ ∀ j ∈ (ofAutomaton m s).ends m, j < m.states.length := by
  constructor
  · obtain ⟨state, hstate⟩ := List.exists_mem_of_ne_nil m.accepting haccepting
    obtain ⟨known, hknown, hname⟩ := Automaton.exists_mem_orderedStates (h.accepting state hstate)
    have hsome : ((ofAutomaton m s).position? state).isSome = true := by
      rw [position?, List.findIdx?_isSome, List.any_eq_true]
      exact ⟨known, hknown, hname⟩
    obtain ⟨position, hposition⟩ := Option.isSome_iff_exists.mp hsome
    exact List.ne_nil_of_mem (mem_ends.mpr ⟨state, hstate, hposition⟩)
  · intro j hj
    obtain ⟨state, -, hposition⟩ := mem_ends.mp hj
    rw [← h.length_orderedStates]
    exact (List.findIdx?_eq_some_iff_findIdx_eq.mp hposition).1

/-- After a new builder has built the expression of an automaton with `n` states, of which some are
accepting, its table has exactly the cells `(i, j, k)` with `-1 ≤ k ≤ n - 1` for which `i` is the
first position or between `k` and `n`, and `j` is the position of an accepting state or between `k`
and `n`. Each of them is there once, so that there are at most `n * n * (n + 1)`, and building again
gives the same expression and leaves the table as it is. The expression is built whenever the
spelling can write the labels. -/
theorem keys_build (h : m.Registered) (haccepting : m.accepting ≠ []) (s : Spelling) :
    (s.Writes m → ∃ text, ((ofAutomaton m s).build m).1 = .ok text) ∧
    ∀ text built, (ofAutomaton m s).build m = (.ok text, built) →
      (∀ i j k : Int, (i, j, k) ∈ built.keys ↔
        -1 ≤ k ∧ k ≤ (m.states.length : Int) - 1 ∧
          (i = 0 ∨ k < i ∧ i < m.states.length) ∧
          ((∃ state ∈ m.accepting, ∃ position : Nat,
              (ofAutomaton m s).position? state = some position ∧ j = position) ∨
            k < j ∧ j < m.states.length)) ∧
      built.keys.Nodup ∧
      built.keys.length ≤ m.states.length * m.states.length * (m.states.length + 1) ∧
      built.build m = (.ok text, built) := by
  constructor
  · intro hs
    exact ⟨_, (build_eq faithful_nil).1.trans (plainWhole_ofAutomaton h s hs)⟩
  intro text built hbuild
  have hsettled : Settled ((ofAutomaton m s).table.map Prod.fst) := settled_nil
  have hkeys := keys_of_build haccepting hbuild
  have hlength : (ofAutomaton m s).order.length = m.states.length := h.length_orderedStates
  obtain ⟨hends, hlt⟩ := ends_ofAutomaton h haccepting s
  have hmem : ∀ i j k : Int, (i, j, k) ∈ built.keys ↔
      -1 ≤ k ∧ k < m.states.length ∧ (i = 0 ∨ k < i ∧ i < m.states.length) ∧
        ((∃ last ∈ (ofAutomaton m s).ends m, j = (last : Nat)) ∨ k < j ∧ j < m.states.length) := by
    intro i j k
    rw [mem_keys, hkeys, mem_visitEnds hsettled, hlength, exists_needs_iff hends]
    exact or_iff_right List.not_mem_nil
  have hnodup : built.keys.Nodup := by
    rw [nodup_keys, hkeys]
    exact nodup_visitEnds hsettled List.nodup_nil _ _
  refine ⟨?_, hnodup, ?_, build_again faithful_nil hsettled haccepting hbuild⟩
  · intro i j k
    rw [hmem, Int.le_sub_one_iff]
    refine and_congr_right' (and_congr_right' (and_congr_right' (or_congr_left ?_)))
    simp only [mem_ends]
    tauto
  · refine length_le_of_mem_range hnodup (fun i j k hkey => ?_)
    obtain ⟨last, hlast⟩ := List.exists_mem_of_ne_nil _ hends
    have hpos := hlt last hlast
    obtain ⟨hlow, hhigh, hstart, ⟨last', hlast', rfl⟩ | hend⟩ := (hmem i j k).mp hkey
    · have := hlt last' hlast'
      omega
    · omega

end Keys

/-- A visitor who waits, is called in or leaves. Leaving is named as an end twice, and where the
visitor begins was not registered first. -/
def reception : Automaton String :=
  .replay [.addState "office", .addState "queue", .addState "street", .addSymbol "call",
    .addSymbol "leave", .setInitial "queue", .addAccepting "street", .addAccepting "street",
    .addTransition "queue" "call" "office", .addTransition "office" "leave" "street",
    .addTransition "queue" "leave" "street"]

/-- An expression is built twice: some cells are in the table, some are not, and the second time
adds none. -/
theorem keys_build_reception :
    reception.Registered ∧ reception.accepting ≠ [] ∧
      ∃ text built, (ofAutomaton reception .words).build reception = (.ok text, built) ∧
        (1, 2, 0) ∈ built.keys ∧ (0, 1, 1) ∉ built.keys ∧
        built.build reception = (.ok text, built) := by
  have hregistered : reception.Registered := Automaton.kept_registered.replay _
  have haccepting : reception.accepting ≠ [] := by decide
  obtain ⟨hbuilds, hkeys⟩ := keys_build hregistered haccepting .words
  obtain ⟨text, htext⟩ := hbuilds (fun htexts => nomatch htexts)
  have hbuild : (ofAutomaton reception .words).build reception =
      (.ok text, ((ofAutomaton reception .words).build reception).2) := Prod.ext htext rfl
  have hleaving : ∀ state ∈ reception.accepting, state = "street" := by decide
  have hend : (ofAutomaton reception .words).position? "street" = some 2 := by decide
  obtain ⟨hmem, -, -, hagain⟩ := hkeys text _ hbuild
  refine ⟨hregistered, haccepting, text, _, hbuild, (hmem 1 2 0).mpr ?_, ?_, hagain⟩
  · exact ⟨by decide, by decide, .inr (by decide), .inl ⟨"street", by decide, 2, hend, rfl⟩⟩
  · intro hkey
    obtain ⟨-, -, -, ⟨state, hstate, position, hposition, hone⟩ | hbetween⟩ := (hmem 0 1 1).mp hkey
    · obtain rfl := hleaving state hstate
      obtain rfl := Option.some.inj (hend.symm.trans hposition)
      cases hone
    · omega

end Kleene.Builder
