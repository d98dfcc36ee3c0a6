import DistanceField.Builtin
import DistanceField.Diagnostic
import DistanceField.Error
import DistanceField.Eval
import DistanceField.Expr
import DistanceField.Expr.Parser
import DistanceField.Kernel
import DistanceField.Number.Decimal
import DistanceField.Number.Numeral
import DistanceField.Number.Scalar
import DistanceField.Operation
import DistanceField.Operation.Resolve
import DistanceField.Options
import DistanceField.Pos
import DistanceField.Program
import DistanceField.Proofs.Agreement
import DistanceField.Proofs.Atomicity
import DistanceField.Proofs.Branchless
import DistanceField.Proofs.Broadcast
import DistanceField.Proofs.ClosureConversion
import DistanceField.Proofs.CompileSteps
import DistanceField.Proofs.Denotation
import DistanceField.Proofs.DepthLimit
import DistanceField.Proofs.DraftChanges
import DistanceField.Proofs.FailureAgreement
import DistanceField.Proofs.FlatCode
import DistanceField.Proofs.FragmentRuns
import DistanceField.Proofs.Grammar
import DistanceField.Proofs.Induction
import DistanceField.Proofs.InputName
import DistanceField.Proofs.KernelTyping
import DistanceField.Proofs.Lexemes
import DistanceField.Proofs.Lexical
import DistanceField.Proofs.ParserComplete
import DistanceField.Proofs.ParserReads
import DistanceField.Proofs.ParserRuns
import DistanceField.Proofs.ParserSound
import DistanceField.Proofs.Printing
import DistanceField.Proofs.Renaming
import DistanceField.Proofs.Representation
import DistanceField.Proofs.ScopedCompilation
import DistanceField.Proofs.ScopedRuns
import DistanceField.Proofs.Scoping
import DistanceField.Proofs.Simulation
import DistanceField.Proofs.StraightLine
import DistanceField.Shader.Code
import DistanceField.Shader.Compile
import DistanceField.Shader.Emission
import DistanceField.Shader.Fragment
import DistanceField.Shader.Run
import DistanceField.Shader.Type
import DistanceField.Shader.Typing
import DistanceField.Shape
import DistanceField.Slots
import DistanceField.Text.Blank
import DistanceField.Text.Hidden
import DistanceField.Text.Name
import DistanceField.Text.Quoted
import DistanceField.Token
import DistanceField.Token.Lexer
import DistanceField.Value
import DistanceField.Value.Fields
import DistanceField.Proofs.Tiling
import DistanceField.Proofs.SlotDiscipline
import DistanceField.Proofs.Locations
import DistanceField.Proofs.ScopeErrors
import DistanceField.Proofs.BoundNames
import DistanceField.Proofs.CompileFailures
import DistanceField.Proofs.UniformEmission
import DistanceField.Proofs.ClosureRank
import DistanceField.Proofs.Sessions
import DistanceField.Proofs.ExactTyping
import DistanceField.Proofs.ParserProgress
import DistanceField.Proofs.Backtraces
import DistanceField.Proofs.FieldOrder
import DistanceField.Proofs.Equality
import DistanceField.Proofs.Widening
import DistanceField.Proofs.Lookahead
