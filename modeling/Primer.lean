import Primer.Text.Cursor
import Primer.Text.Location
import Primer.Decimal
import Primer.Binary64
import Primer.Ty
import Primer.Operator
import Primer.Expr
import Primer.Instruction
import Primer.Program
import Primer.Program.Edit
import Primer.Grammar.Parser
import Primer.Grammar.Lexical
import Primer.Grammar.Literal
import Primer.Grammar.Chain
import Primer.Grammar.Expr
import Primer.Grammar.Instruction
import Primer.Grammar.Declaration
import Primer.Grammar.Program
import Primer.Typing.Conversion
import Primer.Typing.Method
import Primer.Typing.Diagnostic
import Primer.Typing.Scope
import Primer.Typing.Check
import Primer.Layout
import Primer.Canonical
import Primer.Target.Name
import Primer.Target.Expr
import Primer.Target.Program
import Primer.Build
import Primer.Proofs.Parser.Giving
import Primer.Proofs.Grammar.Lexical
import Primer.Proofs.Syntax.Erasure
import Primer.Proofs.Syntax.Nodes
import Primer.Proofs.Grammar.Declaration
import Primer.Proofs.Binary64
import Primer.Proofs.RoundTrip.Lexical
import Primer.Proofs.RoundTrip.Literal
import Primer.Proofs.RoundTrip.Expr
import Primer.Proofs.Layout
import Primer.Proofs.RoundTrip.Instruction
import Primer.Proofs.RoundTrip.Declaration
import Primer.Proofs.RoundTrip.Program
import Primer.Proofs.Typing.Conversion
import Primer.Proofs.Typing.Rules
import Primer.Proofs.Typing.Scope
import Primer.Proofs.Typing.Check
import Primer.Proofs.Typing.Nodes
import Primer.Proofs.Typing.Writes
import Primer.Proofs.Target.Typed
import Primer.Proofs.Target.Names
import Primer.Proofs.Target.Form
import Primer.Proofs.Target.StaticType
import Primer.Proofs.Parser.Parallel
import Primer.Proofs.Respacing.Lexical
import Primer.Proofs.Respacing.Expr
import Primer.Proofs.Respacing.Instruction
import Primer.Proofs.Respacing.Program
import Primer.Proofs.Respacing.Progress
import Primer.Proofs.LineEnds.Space
import Primer.Proofs.LineEnds.CarriageReturn
import Primer.Proofs.LineEnds.Program
import Primer.Proofs.Target.EntryPoint
import Primer.Proofs.Syntax.Items
import Primer.Proofs.Parser.Tracing
import Primer.Proofs.Places.Expr
import Primer.Proofs.Places.Instruction
import Primer.Proofs.Places.Program
import Primer.Proofs.Typing.Diagnostics
import Primer.Proofs.Typing.Erasure
import Primer.Proofs.Target.Erasure
import Primer.Proofs.Truncation
import Primer.Proofs.Target.Order
import Primer.Proofs.Relayout.Region
import Primer.Proofs.Relayout.Seam
import Primer.Proofs.Relayout.Program
import Primer.Proofs.Typing.Signatures
import Primer.Proofs.Typing.Reordering
import Primer.Proofs.ReadErrors.Parts
import Primer.Proofs.ReadErrors.Origin
import Primer.Proofs.Places.Boundaries
import Primer.Proofs.Appending.Resuming
import Primer.Proofs.Appending.Text
import Primer.Proofs.Appending.Program
import Primer.Proofs.Grammar.Chain
import Primer.Proofs.Grammar.Climbing
import Primer.Proofs.Target.Modularity
import Primer.Proofs.RoundTrip.Precedence
import Primer.Proofs.Embedding.Expr
import Primer.Proofs.Embedding.Contexts
import Primer.Proofs.Target.Escapes
import Primer.Proofs.Target.Brackets
import Primer.Proofs.Target.Grouping
import Primer.Proofs.Target.Indentation
import Primer.Proofs.ReadErrors.Impasse
import Primer.Proofs.RoundTrip.Infinite
import Primer.Proofs.Typing.Lookup
import Primer.Proofs.Places.Lines
import Primer.Proofs.ReadErrors.Values
import Primer.Proofs.Target.Numbers
import Primer.Proofs.Layout.Lines
import Primer.Proofs.Typing.Closure
import Primer.Proofs.Grammar.Termination
