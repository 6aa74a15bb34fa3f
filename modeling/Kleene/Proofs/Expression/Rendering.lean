import Kleene.Proofs.Expression.Requests
import Kleene.Proofs.Expression.Totality

/-!
# Every spelling renders the same expressions

The tokens of a spelling decide how an expression is written and not what is written. Whatever has
been asked of a builder before, what it answers is the written form of a regular expression that
depends on the automaton alone, in the spelling of the builder (`answers_render`). So the pattern
that an automaton is compared with and the expression that a reader gets are written forms of one
regular expression.
-/

set_option autoImplicit false

namespace Kleene.Builder

variable {ν : Type} [Name ν]

/-- The regular expressions of the cells and of the whole of an automaton have the shape that the
recurrence gives them. -/
structure Shapes (m : Automaton ν) (cells : Nat → Nat → Int → RegexTree ν) (whole : RegexTree ν) :
    Prop where
  /-- With nothing in between there are the symbols of the moves from the one state to the other,
  and the empty word where one may stay; if there is neither, the empty set. -/
  below : ∀ i < m.states.length, ∀ j < m.states.length, ∃ source target v w,
    (m.orderedStates[i]? = some source ∧ m.vertex? source = some v) ∧
    (m.orderedStates[j]? = some target ∧ m.vertex? target = some w) ∧
    ∀ k < 0, cells i j k = RegexTree.unions
      ((m.graph.labels v w).map RegexTree.symbol ++ if i = j then [RegexTree.epsilon] else [])
  above : ∀ i j k : Nat, cells i j k = RegexTree.through (cells i k ((k : Int) - 1))
    (cells k k ((k : Int) - 1)) (cells k j ((k : Int) - 1)) (cells i j ((k : Int) - 1))
  /-- The accepting states have positions. -/
  accepting : ∀ state ∈ m.accepting, m.orderedStates.findIdx (· == state) < m.states.length
  /-- The whole are the cells for the accepting states, each once and in the order in which they
  were named; if there is none, the empty set. -/
  whole : whole = RegexTree.unions (m.accepting.eraseDups.map (fun state =>
    cells 0 (m.orderedStates.findIdx (· == state)) ((m.states.length : Int) - 1)))

variable [EquivBEq ν] {m : Automaton ν}

/-- The trees of the cells and of the whole have the shapes that the recurrence gives them. -/
theorem shapes_cellRegex (h : m.Registered) : Shapes m m.cellRegex m.wholeRegex where
  below := by
    have hplace : ∀ i < m.states.length, ∃ state v,
        m.orderedStates[i]? = some state ∧ m.vertex? state = some v := by
      intro i hi
      rw [← h.length_orderedStates] at hi
      obtain ⟨v, hv⟩ := Option.isSome_iff_exists.mp (h.vertex?_isSome (List.getElem_mem hi))
      exact ⟨_, v, List.getElem?_eq_getElem hi, hv⟩
    intro i hi j hj
    obtain ⟨source, v, hsource, hv⟩ := hplace i hi
    obtain ⟨target, w, htarget, hw⟩ := hplace j hj
    refine ⟨source, target, v, w, ⟨hsource, hv⟩, ⟨htarget, hw⟩, fun k hk => ?_⟩
    have hbound : (k + 1).toNat = 0 := by omega
    have hlabels : m.labelsBetween i j = m.graph.labels v w := by
      rw [Automaton.labelsBetween, hsource, htarget, Option.bind_some, Option.bind_some, hv, hw]
    rw [Automaton.cellRegex, hbound, CellTree.ofCell, CellTree.expand, RegexTree.moves, hlabels]
    simp only [beq_iff_eq]
  above := by
    intro i j k
    have hbound : ((k : Int) + 1).toNat = k + 1 := by omega
    have hbelow : ((k : Int) - 1 + 1).toNat = k := by omega
    simp only [Automaton.cellRegex, hbound, hbelow]
    rfl
  accepting := by
    intro state hstate
    obtain ⟨known, hknown, hname⟩ := Automaton.exists_mem_orderedStates (h.accepting state hstate)
    rw [← h.length_orderedStates]
    exact List.findIdx_lt_length_of_exists ⟨known, hknown, hname⟩
  whole := rfl

/-- For every automaton there is one regular expression for each cell and one for the whole, of the
shapes that the recurrence gives them, such that every builder for the automaton, whatever its
spelling and whatever it has been asked before, answers with their written forms in its spelling. If
the automaton is valid, the expression for readers and the pattern that it is compared with are
written forms of the same one. A spelling that refuses names that are no texts has to be able to
write the labels. -/
theorem answers_render (h : m.Registered) :
    ∃ cells whole, Shapes m cells whole ∧
      (∀ s : Spelling, s.Writes m → ∀ requests,
        (∀ (i j : Nat) (k : Int), i < m.states.length → j < m.states.length →
          k < m.states.length →
          (((ofAutomaton m s).answers m requests).2.paths m i j k).1 =
            .ok ((cells i j k).render s)) ∧
        (((ofAutomaton m s).answers m requests).2.build m).1 = .ok (whole.render s)) ∧
      (m.validate = .ok () → m.expression .words = .ok (whole.render .words) ∧
        (Spelling.pattern.Writes m →
          m.recognizer = .ok ((Pattern.read? (whole.render .pattern).toList).getD .nothing))) := by
  refine ⟨m.cellRegex, m.wholeRegex, shapes_cellRegex h, ?_, ?_⟩
  · intro s hs requests
    constructor
    · intro i j k hi hj hk
      exact (answer_answers faithful_nil requests (.paths i j k)).trans
        (plain_ofAutomaton h s hs hi hj hk)
    · exact (answer_answers faithful_nil requests .build).trans (plainWhole_ofAutomaton h s hs)
  · intro hvalid
    refine ⟨Automaton.expression_eq_render h hvalid (Spelling.writes_words m), fun hs => ?_⟩
    rw [Automaton.recognizer, Automaton.expression_eq_render h hvalid hs]
    rfl

/-- A turnstile that a coin opens and a push locks again; more coins change nothing. -/
def turnstile : Automaton String :=
  .replay [.addState "locked", .addState "open", .addSymbol "coin", .addSymbol "push",
    .setInitial "locked", .addAccepting "locked", .addTransition "locked" "coin" "open",
    .addTransition "open" "coin" "open", .addTransition "open" "push" "locked"]

/-- One tree for the whole that is written by two spellings. -/
theorem answers_render_turnstile :
    turnstile.Registered ∧ turnstile.validate = .ok () ∧ Spelling.pattern.Writes turnstile ∧
      ∃ whole : RegexTree String, turnstile.expression .words = .ok (whole.render .words) ∧
        ((ofAutomaton turnstile .pattern).build turnstile).1 = .ok (whole.render .pattern) := by
  have hregistered : turnstile.Registered := Automaton.kept_registered.replay _
  have hvalid : turnstile.validate = .ok () := by decide
  have hwrites := Spelling.writes_string .pattern turnstile
  obtain ⟨cells, whole, -, hrenders, hexpressions⟩ := answers_render hregistered
  obtain ⟨-, hbuild⟩ := hrenders .pattern hwrites []
  exact ⟨hregistered, hvalid, hwrites, whole, (hexpressions hvalid).1, hbuild⟩

end Kleene.Builder
