import Kleene.Proofs.Distinct
import Kleene.Proofs.Graph.Search
import Mathlib.Data.List.Perm.Basic

/-!
# The searches as loops

`LabeledGraph.reachable` is stated by generations of vertices and `LabeledGraph.findCycle` by a
recursion. Here the same searches are loops: `drain` takes vertices off the front of a queue, and
`unwind` works on a stack of vertices, each with the edges that are left to follow from it.

The main statements are `drain_perm_reachable` and `findCycle_eq_unwind`: both loops end, and they
answer what the searches answer, the second one down to which cycle it is.
-/

set_option autoImplicit false

namespace Kleene.LabeledGraph

variable {V L : Type} {g : LabeledGraph V L} {next : Nat → List Nat} {n : Nat}

/-! ## A queue -/

/-- The vertices that a vertex leads to and that were not met before, each of them once. -/
def newlyMet (next : Nat → List Nat) (v : Nat) (met : List Nat) : List Nat :=
  (next v).eraseDups.filter (fun w => !met.contains w)

/-- Takes one vertex after the other off the front of a queue. What it leads to and was not met
before is met now, and joins the queue at its end. The answer is all that was met. -/
def drain (next : Nat → List Nat) : Nat → List Nat → List Nat → List Nat
  | 0, _, met => met
  | _ + 1, [], met => met
  | fuel + 1, v :: queue, met =>
    drain next fuel (queue ++ newlyMet next v met) (met ++ newlyMet next v met)

/-- What the loop keeps: the vertices that were met differ, are among those below `n`, the start is
one of them and leads to each, and from all but those in the queue every edge was followed. -/
structure Meets (next : Nat → List Nat) (n start : Nat) (queue met : List Nat) : Prop where
  nodup : met.Nodup
  lt : ∀ v ∈ met, v < n
  start_mem : start ∈ met
  queued : queue ⊆ met
  reached : ∀ v ∈ met, Relation.ReflTransGen (fun v w => w ∈ next v) start v
  followed : ∀ v ∈ met, v ∉ queue → ∀ w ∈ next v, w ∈ met

/-- A vertex is newly met if an edge leads to it and it was not met before. -/
theorem mem_newlyMet {v w : Nat} {met : List Nat} :
    w ∈ newlyMet next v met ↔ w ∈ next v ∧ w ∉ met := by
  simp [newlyMet]

/-- Only the start has been met before the loop begins. -/
theorem meets_start {start : Nat} (hstart : start < n) : Meets next n start [start] [start] where
  nodup := List.nodup_singleton start
  lt := List.forall_mem_singleton.mpr hstart
  start_mem := List.mem_singleton_self start
  queued := List.Subset.refl _
  reached := List.forall_mem_singleton.mpr .refl
  followed := fun _ hv hqueue => absurd hv hqueue

/-- The loop keeps its invariant when it follows the edges from the front of the queue. -/
theorem Meets.follow (hnext : ∀ v, ∀ w ∈ next v, w < n) {start v : Nat} {queue met : List Nat}
    (h : Meets next n start (v :: queue) met) :
    Meets next n start (queue ++ newlyMet next v met) (met ++ newlyMet next v met) where
  nodup := by
    refine List.Nodup.append h.nodup ?_ (fun w hw hnew => (mem_newlyMet.mp hnew).2 hw)
    exact (nodup_eraseDups _).filter _
  lt := by
    intro w hw
    rcases List.mem_append.mp hw with hw | hw
    · exact h.lt w hw
    · exact hnext v w (mem_newlyMet.mp hw).1
  start_mem := List.mem_append_left _ h.start_mem
  queued := by
    intro w hw
    rcases List.mem_append.mp hw with hw | hw
    · exact List.mem_append_left _ (h.queued (List.mem_cons_of_mem v hw))
    · exact List.mem_append_right _ hw
  reached := by
    intro w hw
    rcases List.mem_append.mp hw with hw | hw
    · exact h.reached w hw
    · exact (h.reached v (h.queued List.mem_cons_self)).tail (mem_newlyMet.mp hw).1
  followed := by
    intro u hu hqueue w hw
    rw [List.mem_append, not_or] at hqueue
    rw [List.mem_append]
    rcases List.mem_append.mp hu with hu | hu
    · by_cases hfront : u = v
      · subst hfront
        by_cases hmet : w ∈ met
        · exact .inl hmet
        · exact .inr (mem_newlyMet.mpr ⟨hw, hmet⟩)
      · refine .inl (h.followed u hu ?_ w hw)
        exact fun hmem => (List.mem_cons.mp hmem).elim hfront hqueue.1
    · exact absurd hu hqueue.2

/-- The loop ends with an empty queue if there is fuel for every vertex that it has yet to take off
the queue: for all but those that were met and are not in it any more. -/
theorem meets_drain (hnext : ∀ v, ∀ w ∈ next v, w < n) {start fuel : Nat} {queue met : List Nat}
    (h : Meets next n start queue met) (hfuel : n + queue.length ≤ met.length + fuel) :
    Meets next n start [] (drain next fuel queue met) := by
  induction fuel generalizing queue met with
  | zero =>
    have hle := (h.nodup.subperm (fun v hv => List.mem_range.mpr (h.lt v hv))).length_le
    rw [List.length_range] at hle
    obtain rfl : queue = [] := List.eq_nil_of_length_eq_zero (by omega)
    exact h
  | succ fuel ih =>
    cases queue with
    | nil => exact h
    | cons v queue =>
      refine ih (h.follow hnext) ?_
      rw [List.length_cons] at hfuel
      rw [List.length_append, List.length_append]
      omega

/-- With an empty queue everything that the start leads to has been met. -/
theorem Meets.mem_iff {start : Nat} {met : List Nat} (h : Meets next n start [] met) {w : Nat} :
    w ∈ met ↔ Relation.ReflTransGen (fun v w => w ∈ next v) start w := by
  refine ⟨h.reached w, fun hreach => ?_⟩
  induction hreach with
  | refl => exact h.start_mem
  | tail _ hstep ih => exact h.followed _ ih List.not_mem_nil _ hstep

/-- The loop with a queue meets the vertices that the search by generations lists, each once. -/
theorem drain_perm_reachable (h : g.InBounds) {start fuel : Nat} (hstart : start < g.size)
    (hfuel : g.size ≤ fuel) :
    (drain g.successors fuel [start] [start]).Perm (g.reachable start) := by
  have hmeets : Meets g.successors g.size start [] (drain g.successors fuel [start] [start]) :=
    meets_drain (fun v w => h v w) (meets_start hstart) (by simp; omega)
  have hlisted : (g.reachable start).Nodup := List.nodup_range.filter _
  refine (List.perm_ext_iff_of_nodup hmeets.nodup hlisted).mpr (fun w => ?_)
  rw [hmeets.mem_iff, mem_reachable_iff h hstart]
  rfl

/-! ## A stack -/

/-- Works on a stack of vertices, each with the edges that are left to follow from it; the newest
vertex is on top. A vertex without edges left is done. An edge to a vertex on the stack closes a
cycle, which is the answer then; an edge to a new vertex puts this on the stack. -/
def unwind (next : Nat → List Nat) :
    Nat → List (Nat × List Nat) → List Nat → Except (List Nat) (List Nat)
  | 0, _, done => .ok done
  | _ + 1, [], done => .ok done
  | fuel + 1, (v, []) :: stack, done => unwind next fuel stack (v :: done)
  | fuel + 1, (v, w :: left) :: stack, done =>
    if (v :: stack.map Prod.fst).contains w then .error (closedCycle w (v :: stack.map Prod.fst))
    else if done.contains w then unwind next fuel ((v, left) :: stack) done
    else unwind next fuel ((w, next w) :: (v, left) :: stack) done

/-- Works on a stack with one vertex at a time, for every vertex that is not done yet. -/
def unwindRoots (next : Nat → List Nat) (fuel : Nat) (roots : List Nat) :
    Except (List Nat) (List Nat) :=
  roots.foldlM (fun done v =>
    if done.contains v then .ok done else unwind next fuel [(v, next v)] done) []

/-- The rest of the loop after a part of the search: the stack below is worked on with what was done
by then, unless the part closed a cycle. -/
def resume (next : Nat → List Nat) (fuel : Nat) (stack : List (Nat × List Nat)) :
    Except (List Nat) (List Nat) → Except (List Nat) (List Nat)
  | .error cycle => .error cycle
  | .ok done => unwind next fuel stack done

/-- The loop follows the edges from a vertex as the recursion does, if it does so for the vertices
that they lead to: after some steps it is where the recursion goes on. -/
theorem unwind_foldlM {visit : List Nat → Nat → Except (List Nat) (List Nat)} {v : Nat}
    {path : List Nat} {targets : List Nat}
    (hvisit : ∀ w ∈ targets, w ∉ v :: path → ∀ done, ∃ steps, ∀ fuel stack,
      stack.map Prod.fst = v :: path →
        unwind next (fuel + steps) ((w, next w) :: stack) done =
          resume next fuel stack (visit done w)) (done : List Nat) :
    ∃ steps, ∀ fuel stack, stack.map Prod.fst = path →
      unwind next (fuel + steps) ((v, targets) :: stack) done =
        resume next fuel ((v, []) :: stack) (targets.foldlM (fun done w =>
          if (v :: path).contains w then .error (closedCycle w (v :: path))
          else if done.contains w then .ok done else visit done w) done) := by
  induction targets generalizing done with
  | nil => exact ⟨0, fun _ _ _ => rfl⟩
  | cons w left ih =>
    have hleft := ih (fun u hu => hvisit u (List.mem_cons_of_mem w hu))
    by_cases hback : (v :: path).contains w = true
    · -- the edge leads back to the path
      refine ⟨1, ?_⟩
      rintro fuel stack rfl
      rw [List.foldlM_cons, if_pos hback, unwind, if_pos hback]
      rfl
    by_cases hknown : done.contains w = true
    · -- the edge leads to a vertex that is done
      obtain ⟨steps, hsteps⟩ := hleft done
      refine ⟨steps + 1, ?_⟩
      rintro fuel stack rfl
      rw [List.foldlM_cons, if_neg hback, if_pos hknown, ← Nat.add_assoc, unwind, if_neg hback,
        if_pos hknown]
      exact hsteps fuel stack rfl
    · -- the edge leads to a new vertex
      obtain ⟨first, hfirst⟩ :=
        hvisit w List.mem_cons_self (fun hw => hback (List.contains_iff_mem.mpr hw)) done
      cases hresult : visit done w with
      | error cycle =>
        refine ⟨first + 1, ?_⟩
        rintro fuel stack rfl
        rw [List.foldlM_cons, if_neg hback, if_neg hknown, ← Nat.add_assoc, unwind, if_neg hback,
          if_neg hknown, hfirst fuel _ rfl, hresult]
        rfl
      | ok more =>
        obtain ⟨steps, hsteps⟩ := hleft more
        refine ⟨steps + first + 1, ?_⟩
        rintro fuel stack rfl
        rw [List.foldlM_cons, if_neg hback, if_neg hknown, ← Nat.add_assoc, ← Nat.add_assoc, unwind,
          if_neg hback, if_neg hknown, hfirst (fuel + steps) _ rfl, hresult]
        exact hsteps fuel stack rfl

/-- Started on a vertex that is put on top of a stack, the loop comes in some steps to what the
recursion answers for the vertex, and goes on with the stack. -/
theorem unwind_explore (hnext : ∀ v, ∀ w ∈ next v, w < n) {depth : Nat} {path : List Nat} {v : Nat}
    (htrail : IsTrail next n (v :: path)) (hdepth : n ≤ depth + path.length) (done : List Nat) :
    ∃ steps, ∀ fuel stack, stack.map Prod.fst = path →
      unwind next (fuel + steps) ((v, next v) :: stack) done =
        resume next fuel stack (explore next depth path v done) := by
  induction depth generalizing path v done with
  | zero =>
    have hlength := htrail.length_lt
    omega
  | succ depth ih =>
    have hvisit : ∀ w ∈ next v, w ∉ v :: path → ∀ done, ∃ steps, ∀ fuel stack,
        stack.map Prod.fst = v :: path →
          unwind next (fuel + steps) ((w, next w) :: stack) done =
            resume next fuel stack (explore next depth (v :: path) w done) :=
      fun w hw hnew done => ih (htrail.cons hnext hw hnew) (by rw [List.length_cons]; omega) done
    obtain ⟨steps, hsteps⟩ := unwind_foldlM hvisit done
    refine ⟨1 + steps, fun fuel stack hpath => ?_⟩
    rw [← Nat.add_assoc, hsteps (fuel + 1) stack hpath, explore]
    cases (next v).foldlM (fun done w =>
        if (v :: path).contains w then .error (closedCycle w (v :: path))
        else if done.contains w then .ok done else explore next depth (v :: path) w done) done with
    | error cycle => rfl
    | ok more => rfl

/-- With nothing below on the stack the loop ends with what the recursion answers. -/
theorem resume_nil (fuel : Nat) (result : Except (List Nat) (List Nat)) :
    resume next fuel [] result = result := by
  cases result with
  | error cycle => rfl
  | ok done => cases fuel <;> rfl

/-- Whatever is done already, the loop over the roots ends and answers what the recursion
answers. -/
theorem foldlM_unwind_eq (hnext : ∀ v, ∀ w ∈ next v, w < n) {roots : List Nat}
    (hroots : ∀ v ∈ roots, v < n) (done : List Nat) :
    ∃ enough, ∀ fuel, enough ≤ fuel →
      roots.foldlM (fun done v =>
        if done.contains v then .ok done else unwind next fuel [(v, next v)] done) done =
      roots.foldlM (fun done v =>
        if done.contains v then .ok done else explore next n [] v done) done := by
  induction roots generalizing done with
  | nil => exact ⟨0, fun _ _ => rfl⟩
  | cons v rest ih =>
    obtain ⟨hv, hrest⟩ := List.forall_mem_cons.mp hroots
    by_cases hknown : done.contains v = true
    · obtain ⟨enough, henough⟩ := ih hrest done
      refine ⟨enough, fun fuel hfuel => ?_⟩
      rw [List.foldlM_cons, List.foldlM_cons, if_pos hknown, if_pos hknown]
      exact henough fuel hfuel
    · obtain ⟨steps, hsteps⟩ := unwind_explore hnext (isTrail_singleton hv) (Nat.le_refl n) done
      have hroot : ∀ fuel, steps ≤ fuel →
          unwind next fuel [(v, next v)] done = explore next n [] v done := by
        intro fuel hfuel
        obtain ⟨more, rfl⟩ : ∃ more, fuel = more + steps := ⟨fuel - steps, by omega⟩
        rw [hsteps more [] rfl, resume_nil]
      cases hresult : explore next n [] v done with
      | error cycle =>
        refine ⟨steps, fun fuel hfuel => ?_⟩
        rw [List.foldlM_cons, List.foldlM_cons, if_neg hknown, if_neg hknown, hroot fuel hfuel,
          hresult]
        rfl
      | ok done' =>
        obtain ⟨enough, henough⟩ := ih hrest done'
        refine ⟨max steps enough, fun fuel hfuel => ?_⟩
        rw [List.foldlM_cons, List.foldlM_cons, if_neg hknown, if_neg hknown,
          hroot fuel (by omega), hresult]
        exact henough fuel (by omega)

/-- The loop over the roots ends, and answers what the recursion answers. -/
theorem unwindRoots_eq (hnext : ∀ v, ∀ w ∈ next v, w < n) {roots : List Nat}
    (hroots : ∀ v ∈ roots, v < n) :
    ∃ enough, ∀ fuel, enough ≤ fuel → unwindRoots next fuel roots = searchRoots next n roots :=
  foldlM_unwind_eq hnext hroots []

/-- The loop with a stack finds the cycle that the recursion finds, or none if it finds none. -/
theorem findCycle_eq_unwind (h : g.InBounds) :
    ∃ enough, ∀ fuel, enough ≤ fuel → g.findCycle =
      match unwindRoots g.successors fuel (List.range g.size) with
      | .error cycle => some cycle
      | .ok _ => none := by
  obtain ⟨enough, henough⟩ :=
    unwindRoots_eq (fun v w => h v w) (fun v (hv : v ∈ List.range g.size) => List.mem_range.mp hv)
  refine ⟨enough, fun fuel hfuel => ?_⟩
  rw [henough fuel hfuel]
  rfl

end Kleene.LabeledGraph
