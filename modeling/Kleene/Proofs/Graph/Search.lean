import Kleene.Graph.Search
import Kleene.Proofs.Graph.Edges
import Kleene.Proofs.Results
import Kleene.Proofs.Saturation
import Mathlib.Data.List.Chain
import Mathlib.Data.List.Nodup
import Mathlib.Data.List.Perm.Subperm

/-!
# What the two searches of a graph find

The breadth first search from a vertex finds what any number of edges lead to
(`mem_reachable_iff`). The depth first search closes a cycle if some vertex can be come back to, and
what it answers is then a cycle (`isCycle_of_findCycle`, `findCycle_eq_none_iff`).

The depth first search keeps the vertices that are done in an order in which every edge leads to a
vertex that was done before (`Settled`), and the vertices on its path along edges (`IsTrail`).
`Settles` is what a part of the search comes to.
-/

set_option autoImplicit false

namespace Kleene.LabeledGraph

variable {V L : Type}

/-- There is an edge from `i` to `j`. -/
def Leads (g : LabeledGraph V L) (i j : Nat) : Prop :=
  j ∈ g.successors i

/-- No edge leads out of the graph. -/
def InBounds (g : LabeledGraph V L) : Prop :=
  ∀ i j, g.Leads i j → j < g.size

/-- A vertex leads to another one exactly if the entry between them has a label. -/
theorem leads_iff {g : LabeledGraph V L} {i j : Nat} :
    g.Leads i j ↔ ∃ label, label ∈ g.labels i j := by
  rw [Leads, successors, List.mem_map]
  constructor
  · rintro ⟨edge, hmem, rfl⟩
    obtain ⟨hedge, rfl⟩ := mem_edgesFrom_iff.mp hmem
    obtain ⟨hlabels, hne⟩ := isEdge_iff.mp hedge
    rw [← hlabels]
    exact List.exists_mem_of_ne_nil _ hne
  · rintro ⟨label, hlabel⟩
    have hedge : g.IsEdge ⟨i, j, g.labels i j⟩ :=
      isEdge_iff.mpr ⟨rfl, List.ne_nil_of_mem hlabel⟩
    exact ⟨_, mem_edgesFrom_iff.mpr ⟨hedge, rfl⟩, rfl⟩

/-! ## Breadth first -/

section Reachable

variable {g : LabeledGraph V L} {start : Nat}

/-- The search by generations lists what any number of edges lead to. -/
theorem mem_reachable_iff (h : g.InBounds) (hstart : start < g.size) {j : Nat} :
    j ∈ g.reachable start ↔ Relation.ReflTransGen g.Leads start j := by
  have hstep : ∀ (frontier : List Nat) b,
      b ∈ frontier.flatMap g.successors ↔ ∃ a ∈ frontier, g.Leads a b := by
    intro frontier b
    rw [List.mem_flatMap]
    rfl
  have hclosed : ∀ a ∈ List.range g.size, ∀ b, g.Leads a b → b ∈ List.range g.size :=
    fun a _ b hab => List.mem_range.mpr (h a b hab)
  have hmem : j ∈ saturate (fun frontier => frontier.flatMap g.successors) g.size [start] [start] ↔
      ∃ a ∈ [start], Relation.ReflTransGen g.Leads a j :=
    mem_saturate_iff hstep hclosed (by simpa using hstart) (by simp)
  have hlt : Relation.ReflTransGen g.Leads start j → j < g.size := by
    intro hreach
    cases hreach with
    | refl => exact hstart
    | tail _ hlast => exact h _ _ hlast
  simp only [reachable, List.mem_filter, List.mem_range, List.contains_iff_mem, hmem]
  simpa using hlt

/-- The graph is joint if every vertex can be reached. -/
theorem isJoint_iff (h : g.InBounds) (hstart : start < g.size) :
    g.isJoint start = true ↔ ∀ j < g.size, Relation.ReflTransGen g.Leads start j := by
  have hsize : (List.range g.size).length = g.size := List.length_range
  rw [isJoint, beq_iff_eq, ← hsize, reachable, List.length_filter_eq_length_iff]
  refine forall_congr' (fun j => ?_)
  rw [List.mem_range, List.length_range]
  refine imp_congr_right (fun hj => ?_)
  rw [← mem_reachable_iff h hstart, reachable, List.mem_filter, List.mem_range]
  simp [hj]

end Reachable

/-! ## Cycles -/

/-- Different vertices, each of which leads to the one after it, and the last one to the first. -/
structure IsCycle (next : Nat → List Nat) (cycle : List Nat) : Prop where
  nodup : cycle.Nodup
  chain : cycle.IsChain (fun v w => w ∈ next v)
  closes : ∃ first last, cycle.head? = some first ∧ cycle.getLast? = some last ∧ first ∈ next last

/-- The vertices below `n` on a path, newest first. -/
structure IsTrail (next : Nat → List Nat) (n : Nat) (path : List Nat) : Prop where
  lt : ∀ v ∈ path, v < n
  nodup : path.Nodup
  chain : path.IsChain (fun w v => w ∈ next v)

/-- Every vertex of the list leads to vertices after it only. -/
def Settled (next : Nat → List Nat) : List Nat → Prop
  | [] => True
  | v :: rest => v ∉ rest ∧ (∀ w ∈ next v, w ∈ rest) ∧ Settled next rest

section Search

variable {next : Nat → List Nat} {n : Nat}

/-- Different vertices below `n` are no more than `n`. -/
theorem IsTrail.length_lt {v : Nat} {path : List Nat} (h : IsTrail next n (v :: path)) :
    path.length < n := by
  have hle := (h.nodup.subperm (fun u hu => List.mem_range.mpr (h.lt u hu))).length_le
  rwa [List.length_range, List.length_cons] at hle

/-- A path can go on to a vertex that is not on it yet. -/
theorem IsTrail.cons {v w : Nat} {path : List Nat} (h : IsTrail next n (v :: path))
    (hnext : ∀ v, ∀ w ∈ next v, w < n) (hw : w ∈ next v) (hnew : w ∉ v :: path) :
    IsTrail next n (w :: v :: path) where
  lt := List.forall_mem_cons.mpr ⟨hnext v w hw, h.lt⟩
  nodup := List.nodup_cons.mpr ⟨hnew, h.nodup⟩
  chain := List.isChain_cons_cons.mpr ⟨hw, h.chain⟩

/-- A vertex by itself is a path. -/
theorem isTrail_singleton {v : Nat} (hv : v < n) : IsTrail next n [v] where
  lt := List.forall_mem_singleton.mpr hv
  nodup := List.nodup_singleton v
  chain := List.isChain_singleton v

/-- From every vertex on a cycle some edges lead back to it: on to the last vertex, from there to
the first one, and on from there. -/
theorem IsCycle.transGen_of_mem {cycle : List Nat} (h : IsCycle next cycle) {v : Nat}
    (hv : v ∈ cycle) : Relation.TransGen (fun v w => w ∈ next v) v v := by
  obtain ⟨first, last, hfirst, hlast, hback⟩ := h.closes
  obtain ⟨before, after, rfl⟩ := List.append_of_mem hv
  have hchain := h.chain
  have hbefore : (before ++ [v]).IsChain (fun v w => w ∈ next v) :=
    hchain.prefix ⟨after, by simp⟩
  have hafter : (v :: after).IsChain (fun v w => w ∈ next v) := hchain.suffix ⟨before, rfl⟩
  have hto := List.relationReflTransGen_of_exists_isChain _ hbefore (by simp)
  have hon := List.relationReflTransGen_of_exists_isChain _ hafter (by simp)
  have hhead : (before ++ [v]).head (by simp) = first := by
    apply List.head_of_head?_eq_some
    rw [← hfirst]
    cases before <;> rfl
  have hend : (v :: after).getLast (by simp) = last := by
    apply List.getLast_of_getLast?_eq_some
    rw [← hlast, List.getLast?_append_cons]
  rw [hhead, List.getLast_append_singleton] at hto
  rw [hend, List.head_cons] at hon
  exact Relation.TransGen.trans_right hon (Relation.TransGen.head' hback hto)

/-- From a vertex on a cycle some edges lead back to it. -/
theorem IsCycle.exists_transGen {cycle : List Nat} (h : IsCycle next cycle) :
    ∃ v, Relation.TransGen (fun v w => w ∈ next v) v v := by
  obtain ⟨first, -, hfirst, -, -⟩ := h.closes
  exact ⟨first, h.transGen_of_mem (List.mem_of_head? hfirst)⟩

/-- Edges lead from settled vertices to settled vertices only. -/
theorem Settled.closed {settled : List Nat} (h : Settled next settled) {v w : Nat}
    (hv : v ∈ settled) (hreach : Relation.ReflTransGen (fun v w => w ∈ next v) v w) :
    w ∈ settled := by
  have hstep : ∀ v ∈ settled, ∀ w ∈ next v, w ∈ settled := by
    clear hv hreach
    induction settled with
    | nil => simp
    | cons u rest ih =>
      obtain ⟨-, hu, hrest⟩ := h
      intro v hv w hw
      rcases List.mem_cons.mp hv with rfl | hv
      · exact List.mem_cons_of_mem _ (hu w hw)
      · exact List.mem_cons_of_mem _ (ih hrest v hv w hw)
  induction hreach with
  | refl => exact hv
  | tail _ hlast ih => exact hstep _ ih _ hlast

/-- Nothing leads back to a vertex that is done. -/
theorem Settled.not_transGen {settled : List Nat} (h : Settled next settled) {v : Nat}
    (hv : v ∈ settled) : ¬ Relation.TransGen (fun v w => w ∈ next v) v v := by
  induction settled with
  | nil => cases hv
  | cons u rest ih =>
    obtain ⟨hnew, hu, hrest⟩ := h
    rcases List.mem_cons.mp hv with rfl | hv
    · intro hback
      obtain ⟨w, hw, hreach⟩ := Relation.TransGen.head'_iff.mp hback
      exact hnew (hrest.closed (hu w hw) hreach)
    · exact ih hrest hv

/-- An edge from the newest vertex of a path back to a vertex on it closes a cycle. -/
theorem isCycle_closedCycle {v w : Nat} {path : List Nat} (h : IsTrail next n (v :: path))
    (hw : w ∈ v :: path) (hback : w ∈ next v) : IsCycle next (closedCycle w (v :: path)) := by
  obtain ⟨recent, older, hpath, hfirst⟩ := List.eq_append_cons_of_mem hw
  have hrecent : (v :: path).takeWhile (fun u => u != w) = recent := by
    rw [hpath, List.takeWhile_append_of_pos (fun u hu => bne_iff_ne.mpr (ne_of_mem_of_not_mem hu
      hfirst))]
    simp
  have hcycle : closedCycle w (v :: path) = (recent ++ [w]).reverse := by
    simp [closedCycle, hrecent]
  have hpart : recent ++ [w] <+: v :: path := ⟨older, by simp [hpath]⟩
  have hnewest : (recent ++ [w]).head? = some v := by
    cases recent with
    | nil => exact congrArg List.head? hpath.symm
    | cons u rest => exact congrArg List.head? hpath.symm
  have hchain := List.IsChain.prefix h.chain hpart
  rw [hcycle]
  exact
    { nodup := List.nodup_reverse.mpr (h.nodup.sublist hpart.sublist)
      chain := List.isChain_reverse.mpr hchain
      closes := ⟨w, v, by simp, by rw [List.getLast?_reverse, hnewest], hback⟩ }

/-- What a part of the search comes to that has to settle `targets` when `done` is settled: a cycle,
or a list with more that is settled, which the path stays out of. -/
def Settles (next : Nat → List Nat) (path targets done : List Nat) :
    Except (List Nat) (List Nat) → Prop
  | .error cycle => IsCycle next cycle
  | .ok more => Settled next more ∧ path.Disjoint more ∧ done ⊆ more ∧ ∀ v ∈ targets, v ∈ more

/-- Nothing is to be done for a vertex that is done already. -/
theorem Settles.known {path done : List Nat} {w : Nat} (hdone : Settled next done)
    (hpath : path.Disjoint done) (hw : done.contains w = true) :
    Settles next path [w] done (.ok done) := by
  rw [List.contains_iff_mem] at hw
  exact ⟨hdone, hpath, List.Subset.refl done, List.forall_mem_singleton.mpr hw⟩

/-- A vertex is settled once everything that it leads to is. -/
theorem Settles.leave {path done : List Nat} {v : Nat} (hv : v ∉ path)
    {result : Except (List Nat) (List Nat)} (h : Settles next (v :: path) (next v) done result) :
    Settles next path [v] done (result >>= fun more => .ok (v :: more)) := by
  cases result with
  | error cycle => exact h
  | ok more =>
    obtain ⟨hsettled, hapart, hkept, hall⟩ := h
    obtain ⟨hnew, hapart⟩ := List.disjoint_cons_left.mp hapart
    refine ⟨⟨hnew, hall, hsettled⟩, ?_, List.subset_cons_of_subset _ hkept, ?_⟩
    · exact List.disjoint_cons_right.mpr ⟨hv, hapart⟩
    · exact List.forall_mem_singleton.mpr List.mem_cons_self

/-- Targets can be settled one after the other. -/
theorem Settles.foldlM {path : List Nat} {visit : List Nat → Nat → Except (List Nat) (List Nat)}
    {targets done : List Nat}
    (hvisit : ∀ w ∈ targets, ∀ done, Settled next done → path.Disjoint done →
      Settles next path [w] done (visit done w))
    (hdone : Settled next done) (hpath : path.Disjoint done) :
    Settles next path targets done (targets.foldlM visit done) := by
  induction targets generalizing done with
  | nil => exact ⟨hdone, hpath, List.Subset.refl done, List.forall_mem_nil _⟩
  | cons w rest ih =>
    have hfirst := hvisit w List.mem_cons_self done hdone hpath
    rw [List.foldlM_cons]
    cases hresult : visit done w with
    | error cycle =>
      rw [hresult] at hfirst
      exact hfirst
    | ok more =>
      rw [hresult] at hfirst
      obtain ⟨hsettled, hapart, hkept, hw⟩ := hfirst
      have hrest := ih (fun u hu => hvisit u (List.mem_cons_of_mem _ hu)) hsettled hapart
      show Settles next path (w :: rest) done (rest.foldlM visit more)
      cases hlast : rest.foldlM visit more with
      | error cycle =>
        rw [hlast] at hrest
        exact hrest
      | ok last =>
        rw [hlast] at hrest
        obtain ⟨hsettled', hapart', hkept', hrest'⟩ := hrest
        refine ⟨hsettled', hapart', List.Subset.trans hkept hkept', ?_⟩
        exact List.forall_mem_cons.mpr ⟨hkept' (hw w List.mem_cons_self), hrest'⟩

/-- The search from a vertex settles it or closes a cycle. A depth that makes up for the vertices
which are not on the path is enough. -/
theorem settles_explore (hnext : ∀ v, ∀ w ∈ next v, w < n) {depth : Nat} {path : List Nat} {v : Nat}
    {done : List Nat} (htrail : IsTrail next n (v :: path)) (hdepth : n ≤ depth + path.length)
    (hdone : Settled next done) (hpath : (v :: path).Disjoint done) :
    Settles next path [v] done (explore next depth path v done) := by
  -- with each step down the depth falls by one and the path grows by one
  induction depth generalizing path v done with
  | zero =>
    have hlength := htrail.length_lt
    omega
  | succ depth ih =>
    have hfold : Settles next (v :: path) (next v) done ((next v).foldlM (fun done w =>
        if (v :: path).contains w then .error (closedCycle w (v :: path))
        else if done.contains w then .ok done
        else explore next depth (v :: path) w done) done) := by
      refine Settles.foldlM (fun w hw done hdone hpath => ?_) hdone hpath
      split
      · next hback => exact isCycle_closedCycle htrail (List.contains_iff_mem.mp hback) hw
      · next hback =>
        split
        · next hknown => exact .known hdone hpath hknown
        · next hknown =>
          rw [List.contains_iff_mem] at hback hknown
          refine ih (htrail.cons hnext hw hback) ?_ hdone
            (List.disjoint_cons_left.mpr ⟨hknown, hpath⟩)
          rw [List.length_cons]
          omega
    exact hfold.leave (List.nodup_cons.mp htrail.nodup).1

/-- The whole search settles every root or closes a cycle. -/
theorem settles_searchRoots (hnext : ∀ v, ∀ w ∈ next v, w < n) {roots : List Nat}
    (hroots : ∀ v ∈ roots, v < n) : Settles next [] roots [] (searchRoots next n roots) := by
  refine Settles.foldlM (fun v hv done hdone hpath => ?_) trivial (List.disjoint_nil_left _)
  split
  · next hknown => exact .known hdone hpath hknown
  · next hknown =>
    rw [List.contains_iff_mem] at hknown
    exact settles_explore hnext (isTrail_singleton (hroots v hv)) (Nat.le_refl _) hdone
      (List.disjoint_cons_left.mpr ⟨hknown, hpath⟩)

/-! ## The depth of the search -/

/-- The search from a vertex comes to vertices below `n` only, and ends before its depth is used up.
What vertices lead to makes no difference above, and neither does the depth if it makes up for the
vertices that are not on the path. -/
theorem explore_congr {next' : Nat → List Nat} (hsame : ∀ v < n, next v = next' v)
    (hnext : ∀ v, ∀ w ∈ next v, w < n) {depth depth' : Nat} {path : List Nat} {v : Nat}
    (htrail : IsTrail next n (v :: path)) (hdepth : n ≤ depth + path.length)
    (hdepth' : n ≤ depth' + path.length) (done : List Nat) :
    explore next depth path v done = explore next' depth' path v done := by
  induction depth generalizing depth' path v done with
  | zero =>
    have hlength := htrail.length_lt
    omega
  | succ depth ih =>
    have hlength := htrail.length_lt
    obtain ⟨less, rfl⟩ : ∃ less, depth' = less + 1 := ⟨depth' - 1, by omega⟩
    have hstep : ∀ w ∈ next v, ∀ done : List Nat,
        (if (v :: path).contains w then .error (closedCycle w (v :: path))
        else if done.contains w then .ok done
        else explore next depth (v :: path) w done : Except (List Nat) (List Nat)) =
        if (v :: path).contains w then .error (closedCycle w (v :: path))
        else if done.contains w then .ok done
        else explore next' less (v :: path) w done := by
      intro w hw done
      split
      · rfl
      · next hback =>
        rw [List.contains_iff_mem] at hback
        -- the path grows by one where both depths fall by one
        have hlonger : (v :: path).length = path.length + 1 := List.length_cons
        have hrest : explore next depth (v :: path) w done =
            explore next' less (v :: path) w done :=
          ih (htrail.cons hnext hw hback) (by omega) (by omega) done
        rw [hrest]
    rw [explore, explore, ← hsame v (htrail.lt v List.mem_cons_self), foldlM_congr hstep]

/-- The whole search comes to vertices below `n` only and ends by itself: every depth that is not
below the number of vertices gives the same answer. -/
theorem searchRoots_congr {next' : Nat → List Nat} (hsame : ∀ v < n, next v = next' v)
    (hnext : ∀ v, ∀ w ∈ next v, w < n) {depth depth' : Nat} (hdepth : n ≤ depth)
    (hdepth' : n ≤ depth') {roots : List Nat} (hroots : ∀ v ∈ roots, v < n) :
    searchRoots next depth roots = searchRoots next' depth' roots := by
  refine foldlM_congr (fun v hv done => ?_) []
  rw [explore_congr hsame hnext (isTrail_singleton (hroots v hv)) hdepth hdepth' done]

end Search

variable {g : LabeledGraph V L}

/-- What is found is a cycle. -/
theorem isCycle_of_findCycle (h : g.InBounds) {cycle : List Nat}
    (hfound : g.findCycle = some cycle) : IsCycle g.successors cycle := by
  have hsettles := settles_searchRoots (fun v w => h v w) (fun v => List.mem_range.mp)
  rw [findCycle] at hfound
  cases hresult : searchRoots g.successors g.size (List.range g.size) with
  | error found =>
    rw [hresult] at hfound hsettles
    obtain rfl := Option.some.inj hfound
    exact hsettles
  | ok done =>
    rw [hresult] at hfound
    cases hfound

/-- No cycle is found if no vertex can be come back to. -/
theorem findCycle_eq_none_iff (h : g.InBounds) :
    g.findCycle = none ↔ ∀ v, ¬ Relation.TransGen g.Leads v v := by
  have hsettles := settles_searchRoots (fun v w => h v w) (fun v => List.mem_range.mp)
  rw [findCycle]
  cases hresult : searchRoots g.successors g.size (List.range g.size) with
  | error cycle =>
    rw [hresult] at hsettles
    obtain ⟨v, hv⟩ := hsettles.exists_transGen
    exact iff_of_false (by simp) (fun hnone => hnone v hv)
  | ok done =>
    rw [hresult] at hsettles
    obtain ⟨hsettled, -, -, hall⟩ := hsettles
    refine iff_of_true rfl (fun v hback => ?_)
    obtain ⟨u, -, huv⟩ := Relation.TransGen.tail'_iff.mp hback
    exact hsettled.not_transGen (hall v (List.mem_range.mpr (h u v huv))) hback

end Kleene.LabeledGraph
