import Gel.Runtime
import Gel.Machine
import Gel.Building
import Gel.Core
import Gel.Correctness
import Gel.Clauses
import Gel.Legs
import Gel.Cond
import Gel.Disassembler
import Gel.RoundTrip
import Gel.Scoping
import Gel.Calls
import Gel.Balance
import Gel.Folding
import Gel.MacroExpander
import Gel.Substitution
import Gel.Termination
import Gel.Completeness
import Gel.Collector
import Gel.StackDepth
import Gel.Arguments
import Gel.Lexer
import Gel.Parser
import Gel.ParserSteps
import Gel.ScopeBalance
import Gel.Tokens
import Gel.ScriptParsing
import Gel.Scanning
import Gel.Parsing
import Gel.Printing
import Gel.Grammar
import Gel.WholeForms
import Gel.Arity
import Gel.NativeArgument
import Gel.ScopeIndex
import Gel.Parameters
import Gel.BlockInfo
import Gel.NewZone
import Gel.CodeBuffer
import Gel.TokenBuffer
import Gel.Lexemes
import Gel.Depth
import Gel.QuotedData
import Gel.Naming
import Gel.Operands
import Gel.DispatchLiterals
import Gel.ScopeIterator
import Gel.SymbolPool
import Gel.Division
import Gel.ListEquality
import Gel.Keys
import Gel.LongLiterals
import Gel.Arrays
import Gel.Modules
import Gel.Children
import Gel.CallTarget
import Gel.Tag
import Gel.NodeTrie
import Gel.Ranges
import Gel.Links
import Gel.Buffer
import Gel.Sequencing
import Gel.Bodies
import Gel.Homes
import Gel.Labels
import Gel.BuilderSteps
import Gel.Growth
import Gel.Formulas
import Gel.Evaluating
import Gel.Reading
import Gel.Repl
import Gel.Sessions
