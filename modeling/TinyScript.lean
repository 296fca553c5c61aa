import TinyScript.Token
import TinyScript.Token.Lexeme
import TinyScript.Token.Cursor
import TinyScript.Token.Stream
import TinyScript.Decimal.Basic
import TinyScript.Decimal.Division
import TinyScript.Decimal.Order
import TinyScript.Decimal.Binary64
import TinyScript.Decimal.Shortest
import TinyScript.Numeral
import TinyScript.Literal
import TinyScript.Operator
import TinyScript.Tree
import TinyScript.Tree.Parser
import TinyScript.Tree.ExprParser
import TinyScript.Tree.StmtParser
import TinyScript.Tree.SourceParser
import TinyScript.Table
import TinyScript.Ty
import TinyScript.Range
import TinyScript.Value.Error
import TinyScript.Value.Basic
import TinyScript.World
import TinyScript.Value.Arithmetic
import TinyScript.Scope
import TinyScript.Registry
import TinyScript.Registry.Native
import TinyScript.Typing.Error
import TinyScript.Typing.Analysis
import TinyScript.Typing.Check
import TinyScript.Typing.Expr
import TinyScript.Typing.Stmt
import TinyScript.Typing.Source
import TinyScript.Machine
import TinyScript.Machine.Eval
import TinyScript.Machine.Exec
import TinyScript.Program
import TinyScript.CommandLine
import TinyScript.Main
import TinyScript.Proofs.Outcome
import TinyScript.Proofs.Tree.Parts
import TinyScript.Proofs.Tree.Primitive
import TinyScript.Proofs.Tree.Numbering
import TinyScript.Proofs.Tree.Grammar
import TinyScript.Proofs.Token.Lexed
import TinyScript.Proofs.Token.Form
import TinyScript.Proofs.Tree.Acceptance
import TinyScript.Proofs.Tree.ExprCompleteness
import TinyScript.Proofs.Tree.SourceCompleteness
import TinyScript.Proofs.Typing.Rules
import TinyScript.Proofs.Typing.Growth
import TinyScript.Proofs.Typing.ExprChecker
import TinyScript.Proofs.Typing.StmtChecker
import TinyScript.Proofs.Typing.SourceChecker
import TinyScript.Proofs.Typing.Facts
import TinyScript.Proofs.Typing.Universe
import TinyScript.Proofs.Machine.Step
import TinyScript.Proofs.Machine.Activity
import TinyScript.Proofs.Machine.Origin
import TinyScript.Proofs.Machine.Correspondence
import TinyScript.Proofs.Machine.Discipline
import TinyScript.Proofs.Machine.Preservation
import TinyScript.Proofs.Machine.Ready
import TinyScript.Proofs.Machine.Resolution
import TinyScript.Proofs.Machine.Store
import TinyScript.Proofs.Machine.Soundness
import TinyScript.Proofs.Token.Tokenization
import TinyScript.Proofs.Literal
import TinyScript.Proofs.Machine.Control
import TinyScript.Proofs.Machine.Safety
import TinyScript.Proofs.Relation
import TinyScript.Proofs.Machine.Simulation
import TinyScript.Proofs.Machine.Termination
import TinyScript.Proofs.Machine.Likeness
import TinyScript.Proofs.Machine.Isolation
import TinyScript.Proofs.Token.Fault
import TinyScript.Proofs.Token.Layout
import TinyScript.Proofs.Tree.Unplaced
import TinyScript.Proofs.Typing.Unplaced
import TinyScript.Proofs.Layout
import TinyScript.Proofs.Typing.Capability
import TinyScript.Proofs.Typing.Weakening
import TinyScript.Proofs.MethodOrder
import TinyScript.Proofs.Machine.Extension
import TinyScript.Proofs.Tree.Session
import TinyScript.Proofs.Machine.Binding
import TinyScript.Proofs.Machine.Callers
import TinyScript.Proofs.Tree.Prediction
import TinyScript.Proofs.Tree.ExprPrediction
import TinyScript.Proofs.Tree.FirstFault
import TinyScript.Proofs.Machine.Rounds
import TinyScript.Proofs.Decimal.Division
import TinyScript.Proofs.Decimal.Rounding
import TinyScript.Proofs.Decimal.Value
import TinyScript.Proofs.Comparison
import TinyScript.Proofs.Spelling
import TinyScript.Proofs.Tree.Blame
import TinyScript.Proofs.Token.Matching
import TinyScript.Proofs.Typing.Restoration
import TinyScript.Proofs.Typing.Forwarding
import TinyScript.Proofs.Tree.Placement
import TinyScript.Proofs.Range
import TinyScript.Proofs.Machine.Fields
