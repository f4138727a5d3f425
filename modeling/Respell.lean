import Respell.Command.Arguments
import Respell.Command.Run
import Respell.Compile
import Respell.Diagnostic.Basic
import Respell.Diagnostic.Message
import Respell.Engine.Check
import Respell.Engine.Compile
import Respell.Engine.Parse
import Respell.Engine.Print
import Respell.Helper
import Respell.Json.Basic
import Respell.Json.Number
import Respell.Json.Record
import Respell.Json.Skip
import Respell.Main
import Respell.Output.Piece
import Respell.Output.Pieces
import Respell.Parse.Basic
import Respell.Parse.Expr
import Respell.Parse.Precedence
import Respell.Parse.Program
import Respell.Parse.Stmt
import Respell.Path
import Respell.Project.Compile
import Respell.Project.File
import Respell.Project.Load
import Respell.Project.Options
import Respell.Scope.Check
import Respell.Scope.Declared
import Respell.Scope.Env
import Respell.Scope.Group
import Respell.Scope.Program
import Respell.Storage.Basic
import Respell.Storage.Disk
import Respell.Text.Blank
import Respell.Text.Identifier
import Respell.Text.IdentifierTable
import Respell.Text.Place
import Respell.Text.Span
import Respell.Token.Basic
import Respell.Token.Cursor
import Respell.Token.Kind
import Respell.Token.Lexeme
import Respell.Token.Quoted
import Respell.Token.Scan
import Respell.Token.Stream
import Respell.Token.Trivia
import Respell.Tree.Basic
import Respell.Tree.Form
import Respell.Tree.Separated
import Respell.Tree.Tokens
import Respell.Proofs.Command.Isolation
import Respell.Proofs.Command.Sources
import Respell.Proofs.Diagnostic.Located
import Respell.Proofs.Engine.Check
import Respell.Proofs.Engine.Compile
import Respell.Proofs.Engine.Parse
import Respell.Proofs.Engine.Print
import Respell.Proofs.Engine.Walkers
import Respell.Proofs.Output.Adjacent
import Respell.Proofs.Output.Capture
import Respell.Proofs.Output.Desugar
import Respell.Proofs.Output.Gaps
import Respell.Proofs.Output.Included
import Respell.Proofs.Output.Inserted
import Respell.Proofs.Output.Layout
import Respell.Proofs.Output.Lines
import Respell.Proofs.Output.Opening
import Respell.Proofs.Output.Operands
import Respell.Proofs.Output.Plain
import Respell.Proofs.Output.Relaid
import Respell.Proofs.Output.Rescan
import Respell.Proofs.Output.Separation
import Respell.Proofs.Output.Signs
import Respell.Proofs.Output.Standard
import Respell.Proofs.Output.Translation
import Respell.Proofs.Parse.Combinators
import Respell.Proofs.Parse.Completeness
import Respell.Proofs.Parse.Elementary
import Respell.Proofs.Parse.ExprRules
import Respell.Proofs.Parse.Formed
import Respell.Proofs.Parse.Grouping
import Respell.Proofs.Parse.Joined
import Respell.Proofs.Parse.Limit
import Respell.Proofs.Parse.Location
import Respell.Proofs.Parse.Lossless
import Respell.Proofs.Parse.Nesting
import Respell.Proofs.Parse.Parallel
import Respell.Proofs.Parse.Parentheses
import Respell.Proofs.Parse.Placed
import Respell.Proofs.Parse.Replay
import Respell.Proofs.Parse.ReplayRules
import Respell.Proofs.Parse.ReplayStmts
import Respell.Proofs.Parse.Sequence
import Respell.Proofs.Parse.Simulation
import Respell.Proofs.Parse.Spaced
import Respell.Proofs.Parse.Spots
import Respell.Proofs.Parse.Statements
import Respell.Proofs.Parse.StmtRules
import Respell.Proofs.Parse.Strength
import Respell.Proofs.Parse.Subexprs
import Respell.Proofs.Parse.Termination
import Respell.Proofs.Parse.Unlimited
import Respell.Proofs.Path.Names
import Respell.Proofs.Project.Partition
import Respell.Proofs.Project.Targets
import Respell.Proofs.Project.Turns
import Respell.Proofs.Project.Worker
import Respell.Proofs.Scope.Binding
import Respell.Proofs.Scope.Contained
import Respell.Proofs.Scope.Earliest
import Respell.Proofs.Scope.Exact
import Respell.Proofs.Scope.Layout
import Respell.Proofs.Scope.Lexical
import Respell.Proofs.Scope.Order
import Respell.Proofs.Scope.Rule
import Respell.Proofs.Scope.Stage
import Respell.Proofs.Storage.Script
import Respell.Proofs.Storage.Tree
import Respell.Proofs.Text.ByteOrder
import Respell.Proofs.Text.Measure
import Respell.Proofs.Text.Runs
import Respell.Proofs.Token.Apart
import Respell.Proofs.Token.Fidelity
import Respell.Proofs.Token.Lexeme
import Respell.Proofs.Token.Literal
import Respell.Proofs.Token.Reading
import Respell.Proofs.Token.Segments
import Respell.Proofs.Token.Session
import Respell.Proofs.Token.Spelling
import Respell.Proofs.Token.Trivia
import Respell.Proofs.Tree.Chain
import Respell.Proofs.Tree.Relayout
