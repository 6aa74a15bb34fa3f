import Kleene.Expression.Builder
import Mathlib

/-!
# The trees of path expressions

A `CellTree` is what a cell of the table says before it is written down in a spelling: at the bottom
the labels of the single moves from one position to another, above them one tree from the four cells
with the bound below. `CellTree.ofCell` is the tree of a cell over given edges, `CellTree.spell`
writes a tree down and `CellTree.language` is the set of texts that a tree stands for, where each
label stands for a text of its own.

`WalkBelow` says which labels are read on the way from one position to another through positions
below a bound. The main statement is `language_ofCell`: a cell stands for the texts of these
walks. It rests on `walksBelow_succ`, which splits the walks below `k + 1` at the places where they
pass through `k`.
-/

set_option autoImplicit false

open scoped Computability

namespace Kleene

/-- What a cell says: the labels of single moves and whether one may stay, or how the four cells
with the bound below are put together. -/
inductive CellTree (α : Type) where
  | moves (labels : List α) (stays : Bool)
  | through (toBound loop fromBound without : CellTree α)
  deriving Repr, DecidableEq

namespace CellTree

variable {α β : Type}

/-- The tree of the cell from one position to another for the positions below a bound in between. -/
def ofCell (edges : Nat → Nat → List α) : Nat → Nat → Nat → CellTree α
  | 0, i, j => moves (edges i j) (i == j)
  | k + 1, i, j =>
    through (ofCell edges k i k) (ofCell edges k k k) (ofCell edges k k j) (ofCell edges k i j)

/-- The labels in a tree. -/
def labels : CellTree α → List α
  | moves labels _ => labels
  | through toBound loop fromBound without =>
    toBound.labels ++ loop.labels ++ fromBound.labels ++ without.labels

/-- The texts that a tree stands for, where `code` is the text of a label. -/
def language (code : α → List β) : CellTree α → Language β
  | moves labels stays => {text | (∃ a ∈ labels, code a = text) ∨ (stays = true ∧ text = [])}
  | through toBound loop fromBound without =>
    toBound.language code * (loop.language code)∗ * fromBound.language code + without.language code

/-- The written form of the single moves between two positions, and of staying. -/
def spellMoves (s : Spelling) (labels : List String) (stays : Bool) : String :=
  if stays then s.union (labels.map s.symbol ++ [s.epsilon])
  else if labels.isEmpty then s.emptySet
  else s.union (labels.map s.symbol)

/-- The written form of a tree. -/
def spell (s : Spelling) : CellTree String → String
  | moves labels stays => spellMoves s labels stays
  | through toBound loop fromBound without =>
    Builder.combine s (toBound.spell s) (loop.spell s) (fromBound.spell s) (without.spell s)

/-- The labels in the tree of a cell are those of edges. -/
theorem exists_edge_of_mem_labels {edges : Nat → Nat → List α} {a : α} {k i j : Nat}
    (h : a ∈ (ofCell edges k i j).labels) : ∃ p q, a ∈ edges p q := by
  induction k generalizing i j with
  | zero => exact ⟨i, j, h⟩
  | succ k ih =>
    simp only [ofCell, labels, List.mem_append] at h
    rcases h with ((h | h) | h) | h <;> exact ih h

end CellTree

/-- The labels read on a walk from one position to another that passes, in between, through
positions below the bound only. -/
inductive WalkBelow {α : Type} (edges : Nat → Nat → List α) (bound : Nat) :
    Nat → List α → Nat → Prop
  | stay (i : Nat) : WalkBelow edges bound i [] i
  | last {i j : Nat} {a : α} (edge : a ∈ edges i j) : WalkBelow edges bound i [a] j
  | step {i v j : Nat} {a : α} {word : List α} (edge : a ∈ edges i v) (below : v < bound)
      (walk : WalkBelow edges bound v word j) : WalkBelow edges bound i (a :: word) j

namespace WalkBelow

variable {α : Type} {edges : Nat → Nat → List α} {bound i v j : Nat} {word rest : List α}

/-- A walk through states below a bound is one below every larger bound. -/
theorem mono {bound' : Nat} (h : WalkBelow edges bound i word j) (hle : bound ≤ bound') :
    WalkBelow edges bound' i word j := by
  induction h with
  | stay i => exact .stay i
  | last edge => exact .last edge
  | step edge below _ ih => exact .step edge (Nat.lt_of_lt_of_le below hle) ih

/-- Two walks can be joined at a position below the bound. -/
theorem append (h : WalkBelow edges bound i word v) (hv : v < bound)
    (hrest : WalkBelow edges bound v rest j) : WalkBelow edges bound i (word ++ rest) j := by
  induction h with
  | stay i => exact hrest
  | last edge => exact .step edge hv hrest
  | step edge below _ ih => exact .step edge below (ih hv hrest)

end WalkBelow

/-- The texts of the walks from one position to another through positions below a bound. -/
def walksBelow {α β : Type} (code : α → List β) (edges : Nat → Nat → List α) (bound i j : Nat) :
    Language β :=
  {text | ∃ word, WalkBelow edges bound i word j ∧ word.flatMap code = text}

section WalksBelow

variable {α β : Type} (code : α → List β) (edges : Nat → Nat → List α)

/-- A larger bound leaves all words of the walks and may add some. -/
theorem walksBelow_mono {bound bound' : Nat} (h : bound ≤ bound') (i j : Nat) :
    walksBelow code edges bound i j ≤ walksBelow code edges bound' i j := by
  rintro text ⟨word, hwalk, rfl⟩
  exact ⟨word, hwalk.mono h, rfl⟩

/-- A walk to a state below the bound goes on with a walk from it. -/
theorem walksBelow_mul_le {bound v : Nat} (h : v < bound) (i j : Nat) :
    walksBelow code edges bound i v * walksBelow code edges bound v j ≤
      walksBelow code edges bound i j := by
  intro text htext
  obtain ⟨_, ⟨word, hword, rfl⟩, _, ⟨rest, hrest, rfl⟩, rfl⟩ := Language.mem_mul.mp htext
  exact ⟨word ++ rest, hword.append h hrest, List.flatMap_append⟩

/-- The empty word is read on the walk that stays. -/
theorem one_le_walksBelow (bound i : Nat) : 1 ≤ walksBelow code edges bound i i := by
  intro text htext
  obtain rfl := (Language.mem_one text).mp htext
  exact ⟨[], .stay i, rfl⟩

/-- Without positions in between there are only the single moves, and staying where one is. -/
theorem walksBelow_zero (i j : Nat) :
    walksBelow code edges 0 i j = (CellTree.ofCell edges 0 i j).language code := by
  ext text
  constructor
  · rintro ⟨word, hwalk, rfl⟩
    cases hwalk with
    | stay => exact .inr ⟨by simp, rfl⟩
    | last edge => exact .inl ⟨_, edge, by simp⟩
    | step edge below => omega
  · rintro (⟨a, ha, rfl⟩ | ⟨hij, rfl⟩)
    · exact ⟨[a], .last ha, by simp⟩
    · obtain rfl := beq_iff_eq.mp hij
      exact ⟨[], .stay i, rfl⟩

/-- A walk that comes to `k` again and again and ends there is a walk below `k + 1`. -/
theorem kstar_walksBelow_le (k : Nat) :
    (walksBelow code edges k k k)∗ ≤ walksBelow code edges (k + 1) k k := by
  refine kstar_le_of_mul_le_left (one_le_walksBelow code edges (k + 1) k) ?_
  calc walksBelow code edges (k + 1) k k * walksBelow code edges k k k
      ≤ walksBelow code edges (k + 1) k k * walksBelow code edges (k + 1) k k :=
        mul_le_mul_right (walksBelow_mono code edges (Nat.le_succ k) k k) _
    _ ≤ walksBelow code edges (k + 1) k k :=
        walksBelow_mul_le code edges (Nat.lt_succ_self k) k k

/-- A text of a walk below `k + 1` is split where the walk is at `k`, if it ever is there. The
induction is on the walk: its first move either leads to `k` or to a position below `k`. -/
theorem walksBelow_succ_le (k i j : Nat) :
    walksBelow code edges (k + 1) i j ≤
      walksBelow code edges k i k * (walksBelow code edges k k k)∗ * walksBelow code edges k k j +
        walksBelow code edges k i j := by
  rintro _ ⟨word, hwalk, rfl⟩
  induction hwalk with
  | stay i => exact .inr ⟨[], .stay i, rfl⟩
  | last edge => exact .inr ⟨_, .last edge, rfl⟩
  | @step i v j a word edge below _ ih =>
    have hmove : code a ∈ walksBelow code edges k i v := ⟨[a], .last edge, by simp⟩
    rw [List.flatMap_cons]
    rcases Nat.lt_succ_iff_lt_or_eq.mp below with hv | rfl
    · rcases ih with h | h
      · -- the rest of the walk comes to `k`, so the whole walk does
        refine .inl ?_
        rw [mul_assoc] at h ⊢
        obtain ⟨first, hfirst, rest, hrest, htext⟩ := Language.mem_mul.mp h
        have hprefix := walksBelow_mul_le code edges hv i k (Language.append_mem_mul hmove hfirst)
        exact Language.mem_mul.mpr
          ⟨_, hprefix, rest, hrest, by rw [List.append_assoc, htext]⟩
      · exact .inr (walksBelow_mul_le code edges hv i j (Language.append_mem_mul hmove h))
    · refine .inl ?_
      rw [mul_assoc]
      refine Language.append_mem_mul hmove ?_
      rcases ih with h | h
      · have hstar : walksBelow code edges v v v * (walksBelow code edges v v v)∗ ≤
            (walksBelow code edges v v v)∗ := mul_kstar_le_kstar
        exact Set.mem_of_mem_of_subset h (mul_le_mul_left hstar _)
      · exact Language.mem_mul.mpr ⟨[], Language.nil_mem_kstar _, _, h, rfl⟩

/-- The walks below `k + 1` are those that pass through `k`, any number of times, and those below
`k`. -/
theorem walksBelow_succ (k i j : Nat) :
    walksBelow code edges (k + 1) i j =
      walksBelow code edges k i k * (walksBelow code edges k k k)∗ * walksBelow code edges k k j +
        walksBelow code edges k i j := by
  refine le_antisymm (walksBelow_succ_le code edges k i j) ?_
  have hmono := fun p q => walksBelow_mono code edges (Nat.le_succ k) p q
  have hjoin := fun p q => walksBelow_mul_le code edges (Nat.lt_succ_self k) p q
  refine add_le ?_ (hmono i j)
  calc walksBelow code edges k i k * (walksBelow code edges k k k)∗ * walksBelow code edges k k j
      ≤ walksBelow code edges (k + 1) i k * walksBelow code edges (k + 1) k k *
          walksBelow code edges (k + 1) k j :=
        mul_le_mul' (mul_le_mul' (hmono i k) (kstar_walksBelow_le code edges k)) (hmono k j)
    _ ≤ walksBelow code edges (k + 1) i k * walksBelow code edges (k + 1) k j :=
        mul_le_mul_left (hjoin i k) _
    _ ≤ walksBelow code edges (k + 1) i j := hjoin i j

/-- The tree of a cell stands for the texts of the walks that the cell is about. -/
theorem language_ofCell (k i j : Nat) :
    (CellTree.ofCell edges k i j).language code = walksBelow code edges k i j := by
  induction k generalizing i j with
  | zero => exact (walksBelow_zero code edges i j).symm
  | succ k ih => rw [CellTree.ofCell, CellTree.language, ih, ih, ih, ih, walksBelow_succ]

end WalksBelow

end Kleene
