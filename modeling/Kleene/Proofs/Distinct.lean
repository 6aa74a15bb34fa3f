import Mathlib.Data.List.Induction
import Mathlib.Data.List.Nodup

/-!
# Lists whose items differ

Facts about keeping the first occurrence of each item of a list, about the place of an item, and
about changing the entry of one item in a list that is indexed by another list of different items.
-/

set_option autoImplicit false

namespace Kleene

variable {α β : Type}

/-- The first occurrences of the items of a list differ. -/
theorem nodup_eraseDups [BEq α] [LawfulBEq α] (items : List α) : items.eraseDups.Nodup := by
  induction hn : items.length using Nat.strongRecOn generalizing items with
  | ind n ih =>
    cases items with
    | nil => simp
    | cons a rest =>
      rw [List.eraseDups_cons, List.nodup_cons]
      refine ⟨by simp [List.mem_eraseDups], ih _ ?_ _ rfl⟩
      have := List.length_filter_le (fun b => !b == a) rest
      simp only [List.length_cons] at hn
      omega

/-- Different items are fewer than two if any two of them are the same. -/
theorem length_lt_two_iff_of_nodup {items : List α} (h : items.Nodup) :
    items.length < 2 ↔ ∀ a ∈ items, ∀ b ∈ items, a = b := by
  match items, h with
  | [], _ => simp
  | [a], _ => simp
  | a :: b :: rest, h =>
    have hne : a ≠ b := fun hsame => (List.nodup_cons.mp h).1 (hsame ▸ List.mem_cons_self)
    refine iff_of_false (by simp) (fun hall => hne ?_)
    exact hall a List.mem_cons_self b (List.mem_cons_of_mem a List.mem_cons_self)

/-- What is kept of a list is in the list, also if names of the same item differ. -/
theorem mem_of_mem_eraseDups [BEq α] {items : List α} {a : α} (h : a ∈ items.eraseDups) :
    a ∈ items := by
  induction hn : items.length using Nat.strongRecOn generalizing items with
  | ind n ih =>
    cases items with
    | nil => exact h
    | cons first rest =>
      rw [List.eraseDups_cons, List.mem_cons] at h
      rcases h with rfl | h
      · exact List.mem_cons_self
      · have hle := List.length_filter_le (fun b => !b == first) rest
        have hlt : (rest.filter (fun b => !b == first)).length < n := by
          rw [← hn, List.length_cons]
          omega
        exact List.mem_cons_of_mem _ (List.mem_of_mem_filter (ih _ hlt h rfl))

/-- Each item of a list is kept, if maybe under another name of the same item. -/
theorem exists_mem_eraseDups_beq [BEq α] [ReflBEq α] {items : List α} {a : α} (h : a ∈ items) :
    ∃ kept ∈ items.eraseDups, (a == kept) = true := by
  induction hn : items.length using Nat.strongRecOn generalizing items with
  | ind n ih =>
    cases items with
    | nil => cases h
    | cons first rest =>
      rw [List.eraseDups_cons]
      cases hsame : a == first with
      | true => exact ⟨first, List.mem_cons_self, hsame⟩
      | false =>
        rcases List.mem_cons.mp h with rfl | hmem
        · rw [BEq.rfl] at hsame
          cases hsame
        · have hle := List.length_filter_le (fun b => !b == first) rest
          have hlt : (rest.filter (fun b => !b == first)).length < n := by
            rw [← hn, List.length_cons]
            omega
          obtain ⟨kept, hkept, hbeq⟩ :=
            ih _ hlt (List.mem_filter.mpr ⟨hmem, by rw [hsame]; rfl⟩) rfl
          exact ⟨kept, List.mem_cons_of_mem first hkept, hbeq⟩

/-- Nothing is left without repetitions only if nothing was there. -/
theorem eraseDups_eq_nil_iff [BEq α] {items : List α} : items.eraseDups = [] ↔ items = [] := by
  cases items with
  | nil => simp
  | cons first rest => simp [List.eraseDups_cons]

/-- What does not repeat is left as it is. -/
theorem eraseDups_of_nodup [BEq α] [LawfulBEq α] {items : List α} (h : items.Nodup) :
    items.eraseDups = items := by
  induction items with
  | nil => rfl
  | cons a rest ih =>
    obtain ⟨ha, hrest⟩ := List.nodup_cons.mp h
    have hkeep : rest.filter (fun b => !b == a) = rest := by
      rw [List.filter_eq_self]
      intro b hb
      simpa using fun hba : b = a => ha (hba ▸ hb)
    rw [List.eraseDups_cons, hkeep, ih hrest]

/-- A new item is kept at the end, and one that came before is dropped. -/
theorem eraseDups_append_singleton [BEq α] [LawfulBEq α] (items : List α) (a : α) :
    (items ++ [a]).eraseDups =
      if items.contains a then items.eraseDups else items.eraseDups ++ [a] := by
  rw [List.eraseDups_append]
  cases h : items.contains a with
  | true => simp only [List.removeAll, List.filter_cons, h]; simp
  | false => simp only [List.removeAll, List.filter_cons, h]; simp [List.eraseDups_cons]

/-- The first place of an item, if it has one. -/
theorem findIdx?_beq [BEq α] [LawfulBEq α] [DecidableEq α] (items : List α) (a : α) :
    items.findIdx? (fun b => b == a) = if a ∈ items then some (items.idxOf a) else none := by
  rw [List.findIdx?_eq_guard_findIdx_lt]
  by_cases h : a ∈ items <;> simp [h, List.idxOf, List.findIdx_lt_length]

/-- A list is made from one item alone if the other items contribute nothing. -/
theorem flatMap_eq_of_mem_of_nodup {items : List α} (h : items.Nodup) {a : α}
    (ha : a ∈ items) {f : α → List β} (hf : ∀ b ∈ items, b ≠ a → f b = []) :
    items.flatMap f = f a := by
  induction items with
  | nil => cases ha
  | cons b rest ih =>
    obtain ⟨hb, hrest⟩ := List.nodup_cons.mp h
    rw [List.flatMap_cons]
    rcases List.mem_cons.mp ha with rfl | hmem
    · have hnone : rest.flatMap f = [] := by
        rw [List.flatMap_eq_nil_iff]
        intro c hc
        exact hf c (List.mem_cons_of_mem _ hc) (fun hca => hb (hca ▸ hc))
      rw [hnone, List.append_nil]
    · have hne : b ≠ a := fun hba => hb (hba ▸ hmem)
      have hothers : ∀ c ∈ rest, c ≠ a → f c = [] :=
        fun c hc => hf c (List.mem_cons_of_mem _ hc)
      rw [hf b List.mem_cons_self hne, ih hrest hmem hothers, List.nil_append]

/-- Renaming items so that different ones stay different keeps their first occurrences. -/
theorem eraseDups_map_of_injOn [BEq α] [LawfulBEq α] [BEq β] [LawfulBEq β]
    {f : α → β} {items : List α} (hf : ∀ a ∈ items, ∀ b ∈ items, f a = f b → a = b) :
    (items.map f).eraseDups = items.eraseDups.map f := by
  induction items using List.reverseRecOn with
  | nil => rfl
  | append_singleton items a ih =>
    have hbefore : ∀ b ∈ items, ∀ c ∈ items, f b = f c → b = c := by
      intro b hb c hc
      exact hf b (List.mem_append_left _ hb) c (List.mem_append_left _ hc)
    have hmem : f a ∈ items.map f ↔ a ∈ items := by
      rw [List.mem_map]
      constructor
      · rintro ⟨b, hb, hba⟩
        exact hf b (List.mem_append_left _ hb) a (by simp) hba ▸ hb
      · intro ha
        exact ⟨a, ha, rfl⟩
    have hcontains : (items.map f).contains (f a) = items.contains a := by
      rw [Bool.eq_iff_iff, List.contains_iff_mem, List.contains_iff_mem, hmem]
    rw [List.map_append, List.map_singleton, eraseDups_append_singleton,
      eraseDups_append_singleton, hcontains, ih hbefore]
    split <;> simp

/-- Items that are picked out of first occurrences, list by list, first occur in the same order. The
induction takes the lists from the end: what the last one adds is new to the picked items too. -/
theorem eraseDups_flatMap_filter [BEq α] [LawfulBEq α] {lists : β → List α}
    {keys : List β} {all : List α} (hall : all.Nodup)
    (hfirst : (keys.flatMap lists).eraseDups <+: all) :
    (keys.flatMap (fun key => all.filter (fun a => (lists key).contains a))).eraseDups =
      (keys.flatMap lists).eraseDups := by
  induction keys using List.reverseRecOn with
  | nil => rfl
  | append_singleton keys key ih =>
    rw [List.flatMap_append, List.flatMap_singleton, List.eraseDups_append] at hfirst ⊢
    rw [List.flatMap_append, List.flatMap_singleton, List.eraseDups_append,
      ih ((List.prefix_append _ _).trans hfirst)]
    have hpicked : ∀ a, a ∈ keys.flatMap (fun key => all.filter (fun a => (lists key).contains a)) ↔
        a ∈ keys.flatMap lists := by
      intro a
      rw [← List.mem_eraseDups, ih ((List.prefix_append _ _).trans hfirst), List.mem_eraseDups]
    generalize keys.flatMap (fun key => all.filter (fun a => (lists key).contains a)) = picked at *
    generalize keys.flatMap lists = before at *
    have hfresh : ∀ a, a ∈ ((lists key).removeAll before).eraseDups ↔ a ∈ lists key ∧ a ∉ before := by
      simp [List.removeAll]
    obtain ⟨after, rfl⟩ := hfirst
    generalize ((lists key).removeAll before).eraseDups = fresh at *
    obtain ⟨hnodup, -, hapart⟩ := List.nodup_append.mp hall
    obtain ⟨-, hfreshNodup, -⟩ := List.nodup_append.mp hnodup
    have hold : (before.eraseDups.filter (fun a => (lists key).contains a)).filter
        (fun a => !picked.contains a) = [] := by
      rw [List.filter_filter, List.filter_eq_nil_iff]
      intro a ha
      simp [(hpicked a).mpr (List.mem_eraseDups.mp ha)]
    have hnew : (fresh.filter (fun a => (lists key).contains a)).filter
        (fun a => !picked.contains a) = fresh := by
      rw [List.filter_filter, List.filter_eq_self]
      intro a ha
      obtain ⟨hlist, hbefore⟩ := (hfresh a).mp ha
      simp [hlist, mt (hpicked a).mp hbefore]
    have hrest : (after.filter (fun a => (lists key).contains a)).filter
        (fun a => !picked.contains a) = [] := by
      rw [List.filter_filter, List.filter_eq_nil_iff]
      intro a ha hkeep
      simp only [Bool.and_eq_true, Bool.not_eq_true', List.contains_eq_mem, decide_eq_true_eq,
        decide_eq_false_iff_not, hpicked] at hkeep
      exact hapart a (List.mem_append_right _ ((hfresh a).mpr hkeep.symm)) a ha rfl
    rw [List.removeAll, List.filter_append, List.filter_append, List.filter_append,
      List.filter_append]
    rw [hold, hnew, hrest, List.nil_append, List.append_nil, eraseDups_of_nodup hfreshNodup]

/-- To keep an item or to drop it, one by one, is to filter. -/
theorem flatMap_ite_singleton (p : α → Bool) (items : List α) :
    items.flatMap (fun a => if p a then [a] else []) = items.filter p := by
  induction items with
  | nil => rfl
  | cons a rest ih =>
    rw [List.flatMap_cons, List.filter_cons, ih]
    split <;> rfl

/-- Of items that differ at most one is equal to a given one. -/
theorem filter_beq_of_nodup {items : List String} (h : items.Nodup) (a : String) :
    items.filter (fun b => b == a) = if items.contains a then [a] else [] := by
  rw [List.filter_beq]
  by_cases ha : a ∈ items
  · simp [List.count_eq_one_of_mem h ha, ha]
  · simp [List.count_eq_zero_of_not_mem ha, ha]

/-- Changing the entry of one item changes the entry at its place only. -/
theorem modify_map_of_nodup [DecidableEq α] {items : List α} (h : items.Nodup) {i : Nat} {a : α}
    (hi : items[i]? = some a) (f : α → β) (g : β → β) :
    (items.map f).modify i g = items.map (fun b => if b = a then g (f b) else f b) := by
  apply List.ext_getElem?
  intro j
  rw [List.getElem?_modify, List.getElem?_map, List.getElem?_map]
  cases hj : items[j]? with
  | none => rfl
  | some b =>
    have hplace : i = j ↔ b = a := by
      constructor
      · intro hij
        subst hij
        exact Option.some.inj (hj.symm.trans hi)
      · intro hba
        subst hba
        obtain ⟨hlt, -⟩ := List.getElem?_eq_some_iff.mp hi
        exact (List.getElem?_inj hlt h).mp (hi.trans hj.symm)
    by_cases hij : i = j
    · simp [hij, hplace.mp hij]
    · have hba : b ≠ a := fun hba => hij (hplace.mpr hba)
      simp [hij, hba]

end Kleene
