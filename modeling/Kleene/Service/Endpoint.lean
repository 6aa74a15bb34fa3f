import Kleene.Automaton.Definition
import Kleene.Automaton.Description
import Kleene.Expression.Derivation
import Kleene.Json.Reader
import Kleene.Service.Address
import Kleene.Service.Settings
import Kleene.Text.Capitals

/-!
# The two endpoints

A request names one of two endpoints by its path and carries a JSON dictionary with an automaton,
either as a definition or as a description. `Endpoint.convert` answers with the expression of the
automaton, `Endpoint.check` with its properties. Both answer to `POST` alone.

`respond` is the whole of the answer to a request: a function of the settings, the request and the
bounds to what the service takes in (`Limits`).
-/

set_option autoImplicit false

namespace Kleene

/-- The endpoints. -/
inductive Endpoint where
  /-- Converts an automaton into an expression. -/
  | convert
  /-- Checks the properties that a conversion needs. -/
  | check
  deriving Repr, DecidableEq

/-- A request: the method, the address, and the bytes of the body. -/
structure Request where
  method : String := "POST"
  address : Address
  body : List UInt8 := []
  deriving Repr, DecidableEq

/-- An answer: its status, the headers that say what else to ask, and a JSON body. -/
structure Response where
  status : Nat
  /-- The methods that are allowed, where the one asked for is not. -/
  allow : Option String := none
  /-- Where to ask instead. -/
  location : Option String := none
  body : Option Json := none
  deriving Repr

namespace Response

/-- An answer with a JSON dictionary. -/
def json (status : Nat) (entries : List (String × Json)) : Response where
  status := status
  body := some (.object entries)

/-- An answer that states an error of the request. -/
def badRequest (message : String) : Response :=
  json 400 [("error", .text message)]

/-- An answer that states an error of the service. -/
def serverError (message : String) : Response :=
  json 500 [("error", .text ("Server error: " ++ message))]

end Response

/-- A name as a JSON value. -/
def Json.name (name : Scalar) : Json :=
  .scalar name

/-- The automaton in the data of a request: the one of a definition if there is a definition, or
else the one of a description; `none` if the data hold neither. -/
def requestedAutomaton (data : Json) : Except (Failure Scalar) (Option (Automaton Scalar)) :=
  let given := fun (key : String) => (data.field? key).filter (fun value => !value.isBlank)
  match given "fsa", given "description" with
  | some fsa, _ => some <$> Automaton.ofJson fsa
  | none, some (.scalar (.text text)) => some <$> Automaton.ofDescription text
  | none, some value => .error (.notDescription value.kind)
  | none, none => .ok none

/-- The answer to a failure: a numbered one lies with the request, any other with the service. -/
def Failure.response (failure : Failure Scalar) : Response :=
  match failure.code?, failure.summary? with
  | some code, some summary =>
    .json 400 [("error", .text summary), ("code", .nat code), ("detail", .text failure.message)]
  | _, _ => .serverError failure.message

/-- The answer to bytes that are not read: a text that goes too deep is too much for the service. -/
def Json.Refusal.response : Json.Refusal → Response
  | .invalid message => .badRequest message
  | .tooDeep message => .serverError message

/-- Whether a number of states is above a limit, which has to be a number. -/
def exceedsLimit (count : Nat) (limit : Json) : Except (Failure Scalar) Bool :=
  match limit with
  | .scalar (.int value) => .ok ((count : Int) > value)
  | .scalar (.bool value) => .ok (count > (if value then 1 else 0))
  | .scalar (.real value) => .ok (value.isBelow count)
  | other => .error (.notComparable other.kind)

/-- A limit as it stands in a message. -/
def displayLimit : Json → String
  | .scalar value => value.display
  | other => other.kind

/-- The bounds to what the service takes in. They are set by what it runs on and not by the service,
which never names them. -/
structure Limits where
  /-- The most bytes that a body may have; two and a half mebibytes are the default of the framework
  for requests. -/
  body : Nat := 2621440
  /-- The bounds to the JSON text in a body. -/
  json : Json.Bounds := {}
  /-- The most characters of an address that a request is sent on to; the framework has no setting
  for it. -/
  location : Nat := 2048
  deriving Repr, DecidableEq

namespace Endpoint

/-- The path of an endpoint, without the slash at its end. -/
def path : Endpoint → String
  | convert => "/api/fsa-to-regex"
  | check => "/api/check-fsa-properties"

/-- The answer with the expression of an automaton, unless it has too many states. -/
def answerConvert (settings : Settings) (m : Automaton Scalar) : Except (Failure Scalar) Response := do
  let limit ← settings.get Settings.maxStates
  let count := m.states.length
  if ← exceedsLimit count limit then
    return .badRequest
      s!"Automaton has {count} states; at most {displayLimit limit} are supported"
  else
    let regex ← m.expression .words
    return .json 200 [("regex", .text regex), ("states", .array (m.orderedStates.map Json.name)),
      ("accepting_states", .array (m.accepting.map Json.name))]

/-- The answer with the properties of an automaton. -/
def answerCheck (m : Automaton Scalar) : Response :=
  let p := m.properties
  .json 200
    [("properties", .object
        [("has_initial_state", .bool p.hasInitialState), ("joint", .bool p.joint),
          ("deterministic", .bool p.deterministic), ("has_cycle", .bool p.hasCycle)]),
      ("convertible", .bool (p.hasInitialState && p.joint && p.deterministic)),
      ("summary", .object
        [("total_states", .nat m.states.length), ("alphabet_size", .nat m.alphabet.length),
          ("starting_state", .name (m.initial.getD .null)),
          ("accepting_states_count", .nat m.accepting.eraseDups.length)])]

/-- The answer to an automaton. -/
def answer (settings : Settings) (endpoint : Endpoint) (m : Automaton Scalar) :
    Except (Failure Scalar) Response :=
  match endpoint with
  | convert => answerConvert settings m
  | check => .ok (answerCheck m)

/-- The automaton that the bytes of a body hold, or the answer to bytes that hold none: there are
too many of them, they are not read, no automaton can be built from what they say, or they say
nothing about one. -/
def load (limits : Limits) (body : List UInt8) : Except Response (Automaton Scalar) :=
  if body.length > limits.body then
    .error (.serverError "Request body exceeded settings.DATA_UPLOAD_MAX_MEMORY_SIZE.")
  else
    match Json.ofBytes body limits.json with
    | .error refusal => .error refusal.response
    | .ok data =>
      match requestedAutomaton data with
      | .error failure => .error failure.response
      | .ok none => .error (.badRequest "Missing FSA definition")
      | .ok (some m) => .ok m

/-- The answer to the bytes of a body. An endpoint has a say only after an automaton is loaded. -/
def respondToBody (limits : Limits) (settings : Settings) (endpoint : Endpoint)
    (body : List UInt8) : Response :=
  match load limits body with
  | .error response => response
  | .ok m => match answer settings endpoint m with
    | .ok response => response
    | .error failure => failure.response

/-- The endpoint whose path, with the given ending, has the given bytes. -/
def find? (ending : String) (bytes : List UInt8) : Option Endpoint :=
  [convert, check].find? (fun endpoint => Text.encodeUtf8 (endpoint.path ++ ending) == bytes)

end Endpoint

/-- The answer that sends a request on to another address, which must not be too long. -/
def Response.moved (limits : Limits) (location : String) : Response :=
  if location.length > limits.location then { status := 400 }
  else { status := 301, location := some location }

/-- The answer to a request. A path that lacks the slash at its end is answered by the address with
it. -/
def respond (settings : Settings) (request : Request) (limits : Limits := {}) : Response :=
  let bytes := request.address.pathBytes
  match Endpoint.find? "/" bytes, Endpoint.find? "" bytes with
  | some endpoint, _ =>
    if Text.capitals request.method == "POST" then
      endpoint.respondToBody limits settings request.body
    else { status := 405, allow := some "POST" }
  | none, some endpoint =>
    let query := request.address.repeatedQuery
    let query := if query.isEmpty then [] else '?' :: query
    .moved limits (endpoint.path ++ "/" ++ String.ofList query)
  | none, none => { status := 404 }

end Kleene
