import Kleene.Automaton.Definition
import Kleene.Automaton.Description
import Kleene.Expression.Equivalence
import Kleene.Graph.Search
import Kleene.Graph.Unplaced
import Kleene.Json.Reader
import Kleene.Json.Writer
import Kleene.Main
import Kleene.Service.Command
import Kleene.Service.Endpoint
import Kleene.Words.Sampling
import Kleene.Words.Values
import Kleene.Proofs.Graph.Search
import Kleene.Proofs.Graph.Edges
import Kleene.Proofs.Graph.Growth
import Kleene.Proofs.Graph.Loops
import Kleene.Proofs.Graph.Unplaced
import Kleene.Proofs.Graph.Exploration
import Kleene.Proofs.Text.Lines
import Kleene.Proofs.Automaton.Listing
import Kleene.Proofs.Automaton.History
import Kleene.Proofs.Automaton.Lines
import Kleene.Proofs.Automaton.LinePatterns
import Kleene.Proofs.Automaton.Description
import Kleene.Proofs.Automaton.Walk
import Kleene.Proofs.Automaton.Runs
import Kleene.Proofs.Automaton.Simulation
import Kleene.Proofs.Automaton.Length
import Kleene.Proofs.Automaton.Matrix
import Kleene.Proofs.Automaton.Writing
import Kleene.Proofs.Automaton.Document
import Kleene.Proofs.Automaton.Renaming
import Kleene.Proofs.Automaton.Import
import Kleene.Proofs.Automaton.Export
import Kleene.Proofs.Automaton.Properties
import Kleene.Proofs.Automaton.Order
import Kleene.Proofs.Automaton.Construction
import Kleene.Proofs.Automaton.Registration
import Kleene.Proofs.Automaton.Transitions
import Kleene.Proofs.Automaton.NullStates
import Kleene.Proofs.Expression.CellTree
import Kleene.Proofs.Expression.RegexTree
import Kleene.Proofs.Expression.Table
import Kleene.Proofs.Expression.Requests
import Kleene.Proofs.Expression.Matching
import Kleene.Proofs.Expression.Derivation
import Kleene.Proofs.Expression.Emptiness
import Kleene.Proofs.Expression.Grammar
import Kleene.Proofs.Expression.Lexicon
import Kleene.Proofs.Expression.Tokens
import Kleene.Proofs.Expression.Pattern
import Kleene.Proofs.Expression.Words
import Kleene.Proofs.Expression.Encoding
import Kleene.Proofs.Expression.Cells
import Kleene.Proofs.Expression.Ambiguity
import Kleene.Proofs.Expression.Comparison
import Kleene.Proofs.Expression.Totality
import Kleene.Proofs.Expression.Keys
import Kleene.Proofs.Expression.Rendering
import Kleene.Proofs.Words.Enumeration
import Kleene.Proofs.Words.Sampling
import Kleene.Proofs.Text.Encoding
import Kleene.Proofs.Service.Report
import Kleene.Proofs.Service.Endpoint
import Kleene.Proofs.Service.Directory
import Kleene.Proofs.Service.Command
