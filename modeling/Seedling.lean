import Seedling.SortedSet
import Seedling.SortedMap
import Seedling.Text.Quoted
import Seedling.Source.Lines
import Seedling.Json.Decode
import Seedling.Automaton.Subset
import Seedling.Automaton.Minimize
import Seedling.Automaton.Recognizer
import Seedling.Automaton.Diagram
import Seedling.Automaton.Document
import Seedling.Regex.Automaton
import Seedling.Regex.Document
import Seedling.Regex.Pattern
import Seedling.Lexer.Basic
import Seedling.Tree.Print
import Seedling.Grammar.Builder
import Seedling.Grammar.Diagram
import Seedling.Grammar.Document
import Seedling.Grammar.Lint
import Seedling.Parse.Parser
import Seedling.Ebnf.Language
import Seedling.Proofs.Automaton.Path
import Seedling.Proofs.Automaton.Dfa
import Seedling.Proofs.Automaton.Subset
import Seedling.Proofs.Automaton.Build
import Seedling.Proofs.Automaton.Complement
import Seedling.Proofs.Regex.Fragment
import Seedling.Proofs.Regex.Operators
import Seedling.Proofs.Automaton.Minimize
import Seedling.Proofs.Automaton.Recognizer
import Seedling.Proofs.Regex.LongestMatch
import Seedling.Proofs.Grammar.LeftEdge
import Seedling.Proofs.Parse.Meaning
import Seedling.Proofs.Parse.Terminal
import Seedling.Proofs.Parse.LeftEdge
import Seedling.Proofs.Parse.Reference
import Seedling.Proofs.Parse.Evaluation
import Seedling.Proofs.Parse.Session
import Seedling.Proofs.Parse.Application
import Seedling.Proofs.Parse.Refinement
import Seedling.Proofs.Parse.Replay
import Seedling.Proofs.Text.Utf8
import Seedling.Proofs.Source.Lines
import Seedling.Proofs.Parse.Derivation
import Seedling.Proofs.Parse.Quotation
import Seedling.Proofs.Automaton.Equivalence
import Seedling.Proofs.Automaton.Determinize
import Seedling.Proofs.Regex.Tagged
import Seedling.Proofs.Lexer.MaximalMunch
import Seedling.Proofs.Parse.Unlimited
import Seedling.Proofs.Parse.Termination
import Seedling.Proofs.Parse.Steps
import Seedling.Proofs.Parse.Comparison
import Seedling.Proofs.Parse.Depth
import Seedling.Proofs.Parse.Recursion
import Seedling.Proofs.Parse.Hopeless
import Seedling.Proofs.Parse.Failure
import Seedling.Proofs.Parse.Rerun
import Seedling.Proofs.Parse.Report
import Seedling.Proofs.Parse.Truthful
import Seedling.Proofs.Parse.Brackets
import Seedling.Proofs.Parse.Traces
import Seedling.Proofs.Regex.Acceptance
import Seedling.Proofs.Regex.Combinators
import Seedling.Proofs.Regex.Term
import Seedling.Proofs.Regex.Printing
import Seedling.Proofs.Parse.Reuse
import Seedling.Proofs.Grammar.Algebra
import Seedling.Proofs.Grammar.Unchained
import Seedling.Proofs.Grammar.Alike
import Seedling.Proofs.Grammar.Building
import Seedling.Proofs.Parse.Chains
import Seedling.Proofs.Parse.Nesting
import Seedling.Proofs.Parse.Phrases
import Seedling.Proofs.Grammar.Ascending
import Seedling.Proofs.Ebnf.Writing
import Seedling.Proofs.Ebnf.Lexemes
import Seedling.Proofs.Ebnf.MetaGrammar
import Seedling.Proofs.Ebnf.Ranks
import Seedling.Proofs.Ebnf.RoundTrip
import Seedling.Proofs.Json.Reader
import Seedling.Proofs.Json.Decode
import Seedling.Proofs.Automaton.Document
import Seedling.Proofs.Grammar.Document
import Seedling.Proofs.Tree.Document
import Seedling.Proofs.RoundTrip
import Seedling.Proofs.Parse.Course
import Seedling.Proofs.Parse.Standing
import Seedling.Proofs.Parse.Duplicates
import Seedling.Proofs.Parse.Sure
import Seedling.Proofs.Parse.Unreachable
import Seedling.Proofs.Parse.Packrat
import Seedling.Proofs.Parse.Repetition
import Seedling.Proofs.Automaton.LongestMatch
import Seedling.Proofs.Grammar.Validation
import Seedling.Proofs.Ebnf.Vocabulary
import Seedling.Proofs.Ebnf.Lowering
import Seedling.Proofs.Regex.Untagged
import Seedling.Proofs.Ebnf.Keywords
import Seedling.Proofs.Grammar.Checked
import Seedling.Proofs.Parse.Checked
import Seedling.Proofs.Automaton.Boolean
import Seedling.Proofs.Automaton.Construction
import Seedling.Proofs.Regex.Lookahead
import Seedling.Proofs.Regex.Counted
import Seedling.Proofs.Source.Partition
import Seedling.Proofs.Source.Excerpt
import Seedling.Proofs.Text.Lossy
import Seedling.Proofs.Lexer.Spans
import Seedling.Proofs.Parse.Pieces
import Seedling.Proofs.Parse.Buffer
import Seedling.Proofs.Automaton.Simulation
