import Kleene.Proofs.Expression.Totality
import Kleene.Service.Endpoint

/-!
# The two endpoints agree

Both endpoints read the body of a request in the same way: `Endpoint.load` is the automaton that the
body holds, or the answer if it holds none. From then on the answer with the properties of the
automaton tells what a conversion makes of it. The main statement is `convert_agrees_with_check`.

Behind it stand two facts about automata whatever their names are: the flags decide which condition
for a conversion fails first (`Automaton.verdict`), and a valid automaton that was loaded always has
an expression.
-/

set_option autoImplicit false

namespace Kleene

namespace Response

/-- What an answer holds under a key. -/
def field? (response : Response) (key : String) : Option Json :=
  response.body.bind (Json.field? key)

/-- What an answer holds under a key of its properties. -/
def property? (response : Response) (key : String) : Option Json :=
  (response.field? "properties").bind (Json.field? key)

end Response

/-- Truth values are the same as JSON values only if they are. -/
@[simp] theorem Json.bool_inj {value other : Bool} :
    Json.bool value = Json.bool other ↔ value = other := by
  simp [Json.bool]

/-- Numbers are the same as JSON values only if they are. -/
@[simp] theorem Json.nat_inj {value other : Nat} :
    Json.nat value = Json.nat other ↔ value = other := by
  simp [Json.nat]

namespace Automaton

variable {ν : Type} [Name ν]

/-- The flags of an automaton and the check for a conversion: the check fails for the first of the
three flags that is not set. -/
inductive Verdict (m : Automaton ν) : Prop
  | noInitialState (hinitial : m.hasInitialState = false)
      (hvalidate : m.validate = .error .noInitialState)
  | disjoint (hinitial : m.hasInitialState = true) (hjoint : m.isJoint = false)
      (hvalidate : m.validate = .error .disjoint)
  | nondeterministic (hinitial : m.hasInitialState = true) (hjoint : m.isJoint = true)
      (hdeterministic : m.isDeterministic = false) (state : ν)
      (hvalidate : m.validate = .error (.nondeterministic (some state)))
  | valid (hinitial : m.hasInitialState = true) (hjoint : m.isJoint = true)
      (hdeterministic : m.isDeterministic = true) (hvalidate : m.validate = .ok ())

/-- Every automaton is valid, or its flags say why it is not. -/
theorem verdict (m : Automaton ν) : m.Verdict := by
  cases hinitial : m.hasInitialState with
  | false => exact .noInitialState hinitial (by simp [validate, hinitial])
  | true =>
    cases hjoint : m.isJoint with
    | false => exact .disjoint hinitial hjoint (by simp [validate, hinitial, hjoint])
    | true =>
      cases hstate : m.nondeterministicState with
      | some state =>
        exact .nondeterministic hinitial hjoint (by simp [isDeterministic, hstate]) state
          (by simp [validate, hinitial, hjoint, hstate])
      | none =>
        exact .valid hinitial hjoint (by simp [isDeterministic, hstate])
          (by simp [validate, hinitial, hjoint, hstate])

end Automaton

/-- What the data of a request hold is an automaton that names registered states only. -/
theorem registered_requestedAutomaton {data : Json} {m : Automaton Scalar}
    (h : requestedAutomaton data = .ok (some m)) : m.Registered := by
  have hsome : ∀ {computation : Except (Failure Scalar) (Automaton Scalar)},
      Yields Automaton.Registered computation → some <$> computation = .ok (some m) →
        m.Registered := by
    intro computation hyields hcomputation
    cases computation with
    | error failure => cases hcomputation
    | ok loaded =>
      obtain rfl := Option.some.inj (Except.ok.inj hcomputation)
      exact hyields loaded rfl
  unfold requestedAutomaton at h
  extract_lets given at h
  split at h
  · exact hsome (Automaton.kept_registered.ofJson _) h
  · exact hsome (Automaton.kept_registered.ofDescription _) h
  · cases h
  · cases h

namespace Endpoint

variable {limits : Limits} {settings : Settings} {body : List UInt8} {m : Automaton Scalar}

/-- What an automaton that is loaded refers to is registered. -/
theorem registered_of_load (h : load limits body = .ok m) : m.Registered := by
  unfold load at h
  split at h
  · cases h
  · split at h
    · cases h
    · split at h
      · cases h
      · cases h
      · next hrequested => exact registered_requestedAutomaton (Except.ok.inj h ▸ hrequested)

/-- A check answers with the properties of the automaton. -/
theorem respondToBody_check (h : load limits body = .ok m) :
    respondToBody limits settings check body = answerCheck m := by
  rw [respondToBody, h]
  rfl

/-- The flags that the check answers with. -/
theorem flags_check (settings : Settings) (h : load limits body = .ok m) :
    (respondToBody limits settings check body).property? "has_initial_state" =
        some (.bool m.hasInitialState) ∧
      (respondToBody limits settings check body).property? "joint" = some (.bool m.isJoint) ∧
      (respondToBody limits settings check body).property? "deterministic" =
        some (.bool m.isDeterministic) ∧
      (respondToBody limits settings check body).field? "convertible" =
        some (.bool (m.hasInitialState && m.isJoint && m.isDeterministic)) := by
  rw [respondToBody_check h]
  exact ⟨rfl, rfl, rfl, rfl⟩

section Limit

variable {limit : Int}
  (hlimit : settings.get (ν := Scalar) Settings.maxStates = .ok (.scalar (.int limit)))

include hlimit

/-- An automaton with too many states is answered by their number alone. -/
theorem answerConvert_of_above (habove : limit < m.states.length) :
    answerConvert settings m = .ok
      (.badRequest ("Automaton has " ++ toString m.states.length ++ " states; at most " ++
        toString limit ++ " are supported")) := by
  have hexceeds : exceedsLimit m.states.length (.scalar (.int limit)) = .ok true :=
    congrArg Except.ok (decide_eq_true habove)
  unfold answerConvert
  simp only [hlimit, hexceeds, Bind.bind, Except.bind]
  rfl

/-- Up to the limit it is answered by its expression. -/
theorem answerConvert_of_le (hle : m.states.length ≤ limit) :
    answerConvert settings m = (fun regex => .json 200
      [("regex", .text regex), ("states", .array (m.orderedStates.map Json.name)),
        ("accepting_states", .array (m.accepting.map Json.name))]) <$> m.expression .words := by
  have hexceeds : exceedsLimit m.states.length (.scalar (.int limit)) = .ok false :=
    congrArg Except.ok (decide_eq_false (by omega))
  unfold answerConvert
  simp only [hlimit, hexceeds, Bind.bind, Except.bind]
  cases m.expression .words <;> rfl

/-- An automaton with too many states is answered by a sentence about the limit, without a
number. -/
theorem respondToBody_convert_of_above (h : load limits body = .ok m)
    (habove : limit < m.states.length) :
    respondToBody limits settings convert body =
      .badRequest ("Automaton has " ++ toString m.states.length ++ " states; at most " ++
        toString limit ++ " are supported") := by
  rw [respondToBody, h]
  simp only [answer, answerConvert_of_above hlimit habove]

/-- An automaton that is not valid is answered by its failure. -/
theorem respondToBody_convert_of_invalid (h : load limits body = .ok m)
    (hle : m.states.length ≤ limit) {failure : Failure Scalar}
    (hvalidate : m.validate = .error failure) :
    respondToBody limits settings convert body = failure.response := by
  have hexpression : m.expression .words = .error failure := by
    rw [Automaton.expression, hvalidate]
    rfl
  rw [respondToBody, h]
  simp only [answer, answerConvert_of_le hlimit hle, hexpression]
  rfl

/-- A valid automaton that was loaded always has an expression to answer with. -/
theorem respondToBody_convert_of_valid (h : load limits body = .ok m)
    (hle : m.states.length ≤ limit) (hvalid : m.validate = .ok ()) :
    (respondToBody limits settings convert body).status = 200 := by
  obtain ⟨regex, hregex⟩ := Automaton.exists_expression_words (registered_of_load h) hvalid
  rw [respondToBody, h]
  simp only [answer, answerConvert_of_le hlimit hle, hregex]
  rfl

end Limit

/-- Whatever the body of a request is, the two endpoints agree. If no automaton is loaded, they
answer the same. Otherwise the check succeeds, and the conversion succeeds exactly if the automaton
has not too many states and the check calls it convertible. With too many states the answer states
their number, and nothing is derived. Up to the limit the number in the answer for an automaton that
is not convertible is that of the first property which the check finds missing. -/
theorem convert_agrees_with_check {limit : Int}
    (hlimit : settings.get (ν := Scalar) Settings.maxStates = .ok (.scalar (.int limit)))
    (limits : Limits) (body : List UInt8) :
    (∀ response, load limits body = .error response →
      respondToBody limits settings convert body = response ∧
        respondToBody limits settings check body = response) ∧
    ∀ m, load limits body = .ok m →
      (respondToBody limits settings check body).status = 200 ∧
      ((respondToBody limits settings convert body).status = 200 ↔ m.states.length ≤ limit ∧
        (respondToBody limits settings check body).field? "convertible" = some (.bool true)) ∧
      (limit < m.states.length →
        (respondToBody limits settings convert body).status = 400 ∧
        (respondToBody limits settings convert body).field? "code" = none ∧
        respondToBody limits settings convert body =
          .badRequest ("Automaton has " ++ toString m.states.length ++ " states; at most " ++
            toString limit ++ " are supported")) ∧
      (m.states.length ≤ limit →
        (respondToBody limits settings check body).field? "convertible" ≠ some (.bool true) →
          (respondToBody limits settings convert body).status = 400 ∧
          ((respondToBody limits settings convert body).field? "code" = some (.nat 4) ↔
            (respondToBody limits settings check body).property? "has_initial_state" =
              some (.bool false)) ∧
          ((respondToBody limits settings convert body).field? "code" = some (.nat 2) ↔
            (respondToBody limits settings check body).property? "has_initial_state" =
              some (.bool true) ∧
            (respondToBody limits settings check body).property? "joint" = some (.bool false)) ∧
          ((respondToBody limits settings convert body).field? "code" = some (.nat 5) ↔
            (respondToBody limits settings check body).property? "has_initial_state" =
              some (.bool true) ∧
            (respondToBody limits settings check body).property? "joint" = some (.bool true) ∧
            (respondToBody limits settings check body).property? "deterministic" =
              some (.bool false))) := by
  refine ⟨?_, ?_⟩
  · intro response hload
    rw [respondToBody, respondToBody, hload]
    exact ⟨rfl, rfl⟩
  intro m hload
  obtain ⟨hinitial, hjoint, hdeterministic, hconvertible⟩ := flags_check settings hload
  rw [hinitial, hjoint, hdeterministic, hconvertible, respondToBody_check hload]
  -- the answer to a failure holds the number of the failure
  have hfailed : ∀ {failure : Failure Scalar} {code : Nat}, m.states.length ≤ limit →
      m.validate = .error failure → failure.code? = some code → failure.summary?.isSome = true →
      (respondToBody limits settings convert body).status = 400 ∧
        (respondToBody limits settings convert body).field? "code" = some (.nat code) := by
    intro failure code hle hvalidate hcode hsummary
    obtain ⟨summary, hsummary⟩ := Option.isSome_iff_exists.mp hsummary
    rw [respondToBody_convert_of_invalid hlimit hload hle hvalidate, Failure.response, hcode,
      hsummary]
    exact ⟨rfl, rfl⟩
  refine ⟨rfl, ?_, ?_, ?_⟩
  · by_cases hle : m.states.length ≤ limit
    · cases m.verdict with
      | noInitialState hinitial hvalidate => simp [hfailed hle hvalidate rfl rfl, hinitial]
      | disjoint hinitial hjoint hvalidate => simp [hfailed hle hvalidate rfl rfl, hjoint]
      | nondeterministic _ _ hdeterministic state hvalidate =>
        simp [hfailed hle hvalidate rfl rfl, hdeterministic]
      | valid hinitial hjoint hdeterministic hvalid =>
        simp [respondToBody_convert_of_valid hlimit hload hle hvalid, hle, hinitial, hjoint,
          hdeterministic]
    · have habove : (respondToBody limits settings convert body).status = 400 := by
        rw [respondToBody_convert_of_above hlimit hload (by omega)]
        rfl
      simp [habove, hle]
  · intro habove
    rw [respondToBody_convert_of_above hlimit hload habove]
    exact ⟨rfl, rfl, rfl⟩
  · intro hle hnot
    cases m.verdict with
    | noInitialState hinitial hvalidate => simp [hfailed hle hvalidate rfl rfl, hinitial]
    | disjoint hinitial hjoint hvalidate => simp [hfailed hle hvalidate rfl rfl, hinitial, hjoint]
    | nondeterministic hinitial hjoint hdeterministic state hvalidate =>
      simp [hfailed hle hvalidate rfl rfl, hinitial, hjoint, hdeterministic]
    | valid hinitial hjoint hdeterministic _ =>
      exact absurd (by simp [hinitial, hjoint, hdeterministic]) hnot

/-- A request with numbers for states, one of which cannot be reached from the other. -/
def islandBody : List UInt8 :=
  ("\x7b\"fsa\":\x7b\"states\":[0,1],\"alphabet\":[true],\"startingState\":1," ++
    "\"acceptingStates\":[0]," ++
    "\"transitions\":\x7b\"1\":\x7b\"2\":[]\x7d\x7d\x7d\x7d").toUTF8.data.toList

/-- The automaton in `islandBody`. -/
def island : Automaton Scalar where
  graph := { vertices := [.int 0, .int 1], rows := [[[], []], [[], []]] }
  alphabet := [.bool true]
  initial := some (.int 1)
  accepting := [.int 0]

/-- A body with a state apart, which both endpoints load, and which a conversion answers by the
number of that failure. -/
theorem convert_agrees_with_check_island :
    Settings.get [] Settings.maxStates = (.ok (.scalar (.int 7)) : Except (Failure Scalar) Json) ∧
      load {} islandBody = .ok island ∧ (respondToBody {} [] convert islandBody).status = 400 ∧
      (respondToBody {} [] convert islandBody).field? "code" = some (.nat 2) := by
  have hlimit : Settings.get [] Settings.maxStates =
      (.ok (.scalar (.int 7)) : Except (Failure Scalar) Json) := rfl
  have hload : load {} islandBody = .ok island := by
    have hloaded : (load {} islandBody).toOption = some island := by decide +kernel
    cases hbody : load {} islandBody <;> simp_all [Except.toOption]
  have hinitial : island.hasInitialState = true := by decide
  have hjoint : island.isJoint = false := by decide
  obtain ⟨hhas, hjointFlag, -, hconvertible⟩ := flags_check [] hload
  rw [hinitial] at hhas hconvertible
  rw [hjoint] at hjointFlag hconvertible
  obtain ⟨-, -, -, hinvalid⟩ := (convert_agrees_with_check hlimit {} islandBody).2 island hload
  obtain ⟨hstatus, -, hcode, -⟩ := hinvalid (by decide) (by simp [hconvertible])
  exact ⟨hlimit, hload, hstatus, hcode.mpr ⟨hhas, hjointFlag⟩⟩

end Endpoint

end Kleene
