import Kleene.Proofs.Expression.Requests
import Kleene.Proofs.Expression.Words

/-!
# What each cell of the table says

A cell of a new builder is the written form of its tree (`paths_eq_spell`), and the tree stands for
the words that are read on the paths between its two states which pass, in between, through states
at positions up to its bound only (`mem_language_cellTree_iff`). The automaton may offer choices,
have moves that read nothing and have states that are not reached.

The main statement is `paths_reading`: if the symbols are names, the text of a cell has one reading,
and this stands for these words.
-/

set_option autoImplicit false

namespace Kleene

open Description WordExpression

/-- The word that a move reads: its symbol, or nothing if this is `Name.epsilon`. -/
def Move.word (move : Move String) : List String :=
  labelWord move.symbol

namespace Builder

/-- The states between the moves of a path are at positions up to `k` of the order. -/
def PassesUpTo (b : Builder String) (k : Int) (path : List (Move String)) : Prop :=
  ∀ state ∈ (path.map Move.target).dropLast,
    ∃ position : Nat, b.order[position]? = some state ∧ (position : Int) ≤ k

variable {m : Automaton String} {bound i j : Nat}

/-- There are as many positions as states. -/
theorem length_order (hbuilt : m.Built) (s : Spelling) :
    (ofAutomaton m s).order.length = m.states.length := by
  obtain ⟨l, hclosed, rfl⟩ := hbuilt.exists_listing
  exact hclosed.orderedStates_perm.length_eq

/-- There are as many vertices in the order of the positions as states. -/
theorem length_vertices (hbuilt : m.Built) (s : Spelling) :
    (ofAutomaton m s).vertices.length = m.states.length := by
  rw [← length_order hbuilt s]
  obtain ⟨l, hclosed, rfl⟩ := hbuilt.exists_listing
  exact hclosed.length_vertices s

/-- A new builder answers the request for a cell with the written form of its tree. -/
theorem paths_eq_spell (hbuilt : m.Built) (hbound : bound ≤ m.states.length)
    (hi : i < m.states.length) (hj : j < m.states.length) :
    ((ofAutomaton m .words).paths m i j ((bound : Int) - 1)).1 =
      .ok ((m.cellTree bound i j).spell .words) := by
  rw [← length_vertices hbuilt .words] at hbound hi hj
  obtain ⟨next, hanswer, -, -⟩ := answer_eq (b := ofAutomaton m .words) (m := m) faithful_nil
    (.paths i j ((bound : Int) - 1))
  calc ((ofAutomaton m .words).paths m i j ((bound : Int) - 1)).1
      = (ofAutomaton m .words).plain m i j ((bound : Int) - 1) := congrArg Prod.fst hanswer
    _ = (ofAutomaton m .words).plainBelow m bound i j := plain_sub_one bound i j
    _ = .ok ((m.cellTree bound i j).spell .words) := plainBelow_eq_spell hbound hi hj

/-- A path passes positions up to one exactly if all targets but its last have positions below the
next one. -/
theorem passesUpTo_iff (b : Builder String) (path : List (Move String)) :
    b.PassesUpTo ((bound : Int) - 1) path ↔
      ∀ state ∈ (path.map Move.target).dropLast, ∃ v < bound, b.order[v]? = some state := by
  refine forall₂_congr (fun state _ => exists_congr (fun v => ?_))
  rw [and_comm]
  exact and_congr_left' (by omega)

/-- The tree of a cell stands for the words of the paths between its two states through states at
positions below its bound. -/
theorem mem_language_cellTree_iff (hbuilt : m.Built) {source target : String}
    (hi : (ofAutomaton m .words).order[i]? = some source)
    (hj : (ofAutomaton m .words).order[j]? = some target) (word : List String) :
    word ∈ (m.cellTree bound i j).language labelWord ↔
      ∃ path, m.Trace source path target ∧
        (ofAutomaton m .words).PassesUpTo ((bound : Int) - 1) path ∧
        path.flatMap Move.word = word := by
  obtain ⟨l, hclosed, rfl⟩ := hbuilt.exists_listing
  have hreads : ∀ path : List (Move String),
      (path.map Move.symbol).flatMap labelWord = path.flatMap Move.word :=
    fun path => List.flatMap_map ..
  simp only [passesUpTo_iff]
  rw [Automaton.cellTree, language_ofCell]
  constructor
  · rintro ⟨symbols, hsymbols, rfl⟩
    obtain ⟨path, htrace, hbelow, rfl⟩ :=
      (hclosed.walkBelow_iff_trace .words hi hj symbols).mp hsymbols
    exact ⟨path, htrace, hbelow, (hreads path).symm⟩
  · rintro ⟨path, htrace, hbelow, rfl⟩
    have hwalk := (hclosed.walkBelow_iff_trace .words hi hj _).mpr ⟨path, htrace, hbelow, rfl⟩
    exact ⟨_, hwalk, hreads path⟩

/-- The written form of the tree of a cell has a reading if the symbols are names. -/
theorem isReading_cellTree (hbuilt : m.Built) (hsymbols : ∀ symbol ∈ m.alphabet, IsIdentifier symbol)
    (bound i j : Nat) :
    IsReading (lexicon.whole [m.cellTree bound i j]) ((m.cellTree bound i j).spell .words) := by
  refine isReading_whole ?_
  intro tree htree label hlabel
  obtain rfl := List.mem_singleton.mp htree
  obtain ⟨_, _, hmove⟩ := Automaton.exists_hasMove_of_mem_cellTree hbuilt hlabel
  obtain ⟨l, hclosed, rfl⟩ := hbuilt.exists_listing
  rcases hclosed.symbol _ ((Listing.hasMove_automaton hclosed).mp hmove) with rfl | hsymbol
  · exact (isName_toList "eps").mp (by decide)
  · exact hsymbols label (List.mem_eraseDups.mpr hsymbol)

/-- For an automaton whose symbols are names, deterministic or not, with or without moves that read
nothing and with all states reached or not, every cell of a new builder between positions of its
order is an expression with one reading. The reading stands for the words that are read on the paths
from the state at the first position to that at the second through states at positions up to the
bound only; staying where one is reads the empty word. -/
theorem paths_reading (hbuilt : m.Built) (hsymbols : ∀ symbol ∈ m.alphabet, IsIdentifier symbol)
    {k : Int} (hi : i < m.states.length) (hj : j < m.states.length) (hlow : -1 ≤ k)
    (hhigh : k < m.states.length) :
    ∃ source target expression, (ofAutomaton m .words).order[i]? = some source ∧
      (ofAutomaton m .words).order[j]? = some target ∧
      ((ofAutomaton m .words).paths m i j k).1 = .ok expression ∧
      ∃ tree, (IsReading tree expression ∧ ∀ other, IsReading other expression → other = tree) ∧
        ∀ word, word ∈ tree.language WordAtom.language ↔
          ∃ path, m.Trace source path target ∧ (ofAutomaton m .words).PassesUpTo k path ∧
            path.flatMap Move.word = word := by
  obtain ⟨bound, rfl⟩ : ∃ bound : Nat, k = (bound : Int) - 1 := ⟨(k + 1).toNat, by omega⟩
  rw [← length_order hbuilt .words] at hi hj
  have hsource := List.getElem?_eq_getElem hi
  have htarget := List.getElem?_eq_getElem hj
  rw [length_order hbuilt .words] at hi hj
  have hreading := isReading_cellTree hbuilt hsymbols bound i j
  refine ⟨_, _, _, hsource, htarget, paths_eq_spell hbuilt (by omega) hi hj, _,
    ⟨hreading, fun other hother => hother.unique hreading⟩, ?_⟩
  intro word
  rw [mem_language_whole_of_labelWord (fun _ _ _ _ => rfl)]
  simp only [List.mem_singleton, exists_eq_left]
  exact mem_language_cellTree_iff hbuilt hsource htarget word

/-- A clerk who may pass a case on or keep it, and hands it back unread; nobody gets to the archive.
The clerk is the initial state, but was not registered first. -/
def office : Automaton String :=
  .replay [.addState "desk", .addState "clerk", .addState "out", .addState "archive",
    .addSymbol "pass", .addSymbol "keep", .setInitial "clerk",
    .addTransition "clerk" "pass" "desk", .addTransition "clerk" "pass" "out",
    .addTransition "desk" "keep" "desk", .addTransition "desk" "eps" "out",
    .addTransition "out" "eps" "clerk"]

/-- A cell between two of three positions, through one of them, whose expression has a word that
goes around. -/
theorem paths_reading_office :
    office.Built ∧ (∀ symbol ∈ office.alphabet, IsIdentifier symbol) ∧
      ∃ expression tree, ((ofAutomaton office .words).paths office 0 2 1).1 = .ok expression ∧
        IsReading tree expression ∧
        ["pass", "keep", "keep"] ∈ tree.language WordAtom.language := by
  have hbuilt : office.Built := ⟨_, rfl⟩
  have hnames : ∀ symbol ∈ office.alphabet, isName symbol.toList = true := by decide
  have hsymbols : ∀ symbol ∈ office.alphabet, IsIdentifier symbol :=
    fun symbol hsymbol => (isName_toList symbol).mp (hnames symbol hsymbol)
  obtain ⟨source, target, expression, hsource, htarget, hpaths, tree, ⟨hreading, -⟩, hlanguage⟩ :=
    paths_reading hbuilt hsymbols (i := 0) (j := 2) (k := 1) (by decide) (by decide) (by decide)
      (by decide)
  obtain rfl : "clerk" = source := Option.some.inj hsource
  obtain rfl : "out" = target := Option.some.inj htarget
  refine ⟨hbuilt, hsymbols, expression, tree, hpaths, hreading, (hlanguage _).mpr ?_⟩
  refine ⟨[⟨"clerk", "pass", "desk"⟩, ⟨"desk", "keep", "desk"⟩, ⟨"desk", "keep", "desk"⟩,
    ⟨"desk", "eps", "out"⟩], ?_, ?_, by decide⟩
  · exact .cons ⟨1, 0, by decide⟩ (.cons ⟨0, 0, by decide⟩ (.cons ⟨0, 0, by decide⟩
      (.cons ⟨0, 2, by decide⟩ (.nil _))))
  · intro state hstate
    obtain rfl : state = "desk" := by simpa using hstate
    exact ⟨1, rfl, by decide⟩

end Builder

end Kleene
