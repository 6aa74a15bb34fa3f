import Kleene.Automaton.Basic
import Kleene.Text.Lines

/-!
# Descriptions of automata in five lines

A description names the parts of an automaton line by line:

    states=[q0,q1]
    alpha=[a,b]
    initial=[q0]
    accepting=[q1]
    trans=[q0>a>q1,q1>b>q0]

Names are made of ASCII letters, digits and underscores. The list of states and the alphabet have at
least one name; `initial` may be empty, `accepting` too, and so may any entry of `trans`. Lines
after the fifth are not read.

`Automaton.ofDescription` applies one line at a time, so a state that is not registered is reported
before a later line that does not fit its form. `Automaton.description` writes the five lines.
-/

set_option autoImplicit false

namespace Kleene

namespace Description

/-- The characters of names: ASCII letters and digits and the underscore. -/
def isNameChar (c : Char) : Bool :=
  c.isAlphanum || c == '_'

/-- Whether a text is a name. -/
def isName (text : List Char) : Bool :=
  !text.isEmpty && text.all isNameChar

/-- What a line of the form `key=[…]` has between its brackets. -/
def content? (key : String) (line : List Char) : Option (List Char) := do
  let opening := key.toList ++ ['=', '[']
  guard (opening.isPrefixOf line)
  let rest := line.drop opening.length
  guard (rest.getLast? == some ']')
  return rest.dropLast

/-- Names separated by commas, at least one. -/
def names? (content : List Char) : Option (List String) :=
  let parts := Text.split ',' content
  if parts.all isName then some (parts.map String.ofList) else none

/-- Names separated by commas, or nothing. -/
def optionalNames? (content : List Char) : Option (List String) :=
  if content.isEmpty then some [] else names? content

/-- One name or nothing. -/
def optionalName? (content : List Char) : Option (Option String) :=
  if content.isEmpty then some none
  else if isName content then some (some (String.ofList content)) else none

/-- A move as it stands in the last line. -/
structure Entry where
  source : String
  symbol : String
  target : String
  deriving Repr, DecidableEq

/-- An entry of the last line: three names separated by arrow heads. -/
def entry? (part : List Char) : Option Entry :=
  match Text.split '>' part with
  | [source, symbol, target] =>
    if isName source && isName symbol && isName target then
      some ⟨String.ofList source, String.ofList symbol, String.ofList target⟩
    else none
  | _ => none

/-- The entries of the last line, of which the empty ones are skipped. -/
def entries? (content : List Char) : Option (List Entry) :=
  ((Text.split ',' content).filter (fun part => !part.isEmpty)).mapM entry?

/-- Reads the line with the given number, counted from one: `key` opens it and `read?` reads what it
has between its brackets. -/
def field {ν α : Type} (lines : List (List Char)) (number : Nat) (key : String)
    (read? : List Char → Option α) : Except (Failure ν) α :=
  match lines[number - 1]? with
  | none => .error (.malformed (.missingLine number))
  | some line => match (content? key line).bind read? with
    | none => .error (.malformed (.badLine number (String.ofList line)))
    | some value => .ok value

/-- Joins names by commas; an item that is no text cannot be joined. -/
def joinNames {ν : Type} [Name ν] (names : List ν) : Except (Failure ν) String :=
  match names.findIdx? (fun name => (Name.text? name).isNone) with
  | some position =>
    .error (.notText position ((names[position]?.map Name.kind).getD ""))
  | none => .ok (String.intercalate "," (names.filterMap Name.text?))

end Description

namespace Automaton

variable {ν : Type} [Name ν]

open Description in
/-- The automaton that a description in five lines describes. -/
def ofDescription (text : String) : Except (Failure ν) (Automaton ν) := do
  let lines := Text.splitLines text.toList
  let states ← field lines 1 "states" names?
  let m := states.foldl (fun m state => addState m (Name.ofText state)) empty
  let symbols ← field lines 2 "alpha" names?
  let m := symbols.foldl (fun m symbol => addSymbol m (Name.ofText symbol)) m
  let initial ← field lines 3 "initial" optionalName?
  let m ← match initial with
    | some state => m.setInitial (Name.ofText state)
    | none => pure m
  let accepting ← field lines 4 "accepting" optionalNames?
  let m ← accepting.foldlM (fun m state => m.addAccepting (Name.ofText state)) m
  let moves ← field lines 5 "trans" entries?
  moves.foldlM (fun m move =>
    m.addTransition (Name.ofText move.source) (Name.ofText move.symbol)
      (Name.ofText move.target)) m

/-- The entries of the last line: vertex by vertex, edge by edge, label by label. -/
def moveEntries (m : Automaton ν) : List String :=
  m.states.zipIdx.flatMap (fun state =>
    (m.graph.edgesFrom state.2).flatMap (fun edge =>
      edge.labels.map (fun label =>
        let target := (m.graph.vertices[edge.target]?.map Name.display).getD ""
        Name.display state.1 ++ ">" ++ Name.display label ++ ">" ++ target)))

/-- The description of an automaton whose names are texts. -/
def description (m : Automaton ν) : Except (Failure ν) String := do
  let states ← Description.joinNames m.states
  let alphabet ← Description.joinNames m.alphabet
  let initial := (m.initial.map Name.display).getD ""
  let accepting ← Description.joinNames m.accepting
  return "states=[" ++ states ++ "]\nalpha=[" ++ alphabet ++ "]\ninitial=[" ++ initial ++
    "]\naccepting=[" ++ accepting ++ "]\ntrans=[" ++ String.intercalate "," m.moveEntries ++ "]\n"

end Automaton

end Kleene
