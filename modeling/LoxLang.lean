import LoxLang.Main
import LoxLang.Render.TokenTable
import LoxLang.Proofs.Grammar.Depth
import LoxLang.Cursor
import LoxLang.Render.Source
import LoxLang.Proofs.Grammar.Expression
import LoxLang.Proofs.Grammar.Slips
import LoxLang.Proofs.Grammar.Statement
import LoxLang.Proofs.Grammar.Sentence
import LoxLang.Proofs.Number.Binary64
import LoxLang.Proofs.Number.ReadBack
import LoxLang.Proofs.Scan.Reading
import LoxLang.Proofs.Syntax.MapTokens
import LoxLang.Proofs.Grammar.Relabel
import LoxLang.Proofs.Render.Source
import LoxLang.Proofs.Scan.Newline
import LoxLang.Proofs.Scan.Longest
import LoxLang.Proofs.Grammar.Append
import LoxLang.Proofs.Evaluation.Lines
import LoxLang.Proofs.Evaluation.Steps
import LoxLang.Proofs.Console.Sequence
import LoxLang.Proofs.Evaluation.Trace
import LoxLang.Proofs.Store.Shape
import LoxLang.Proofs.Evaluation.Discipline
import LoxLang.Proofs.Console.Scopes
import LoxLang.Proofs.Console.Complaints
import LoxLang.Proofs.Console.Encapsulation
import LoxLang.Proofs.Grammar.Whole
import LoxLang.Proofs.Evaluation.Blame
import LoxLang.Proofs.Console.Accepted
import LoxLang.Proofs.Console.Bare
import LoxLang.Proofs.Evaluation.Limits
import LoxLang.Proofs.Console.Limits
import LoxLang.Proofs.Evaluation.Correspondence
import LoxLang.Proofs.Evaluation.Listing
import LoxLang.Proofs.Evaluation.Returns
import LoxLang.Proofs.Evaluation.Worlds
import LoxLang.Proofs.Evaluation.Simulation
import LoxLang.Proofs.Evaluation.Core
import LoxLang.Proofs.Grammar.WellFormed
import LoxLang.Proofs.Evaluation.Braces
import LoxLang.Proofs.Console.Braces
import LoxLang.Proofs.Evaluation.Names
import LoxLang.Proofs.Syntax.Retoken
import LoxLang.Proofs.Evaluation.Printed
import LoxLang.Proofs.Evaluation.Renaming
import LoxLang.Proofs.Grammar.Reader
import LoxLang.Proofs.Grammar.Follows
import LoxLang.Proofs.Grammar.ReadExpression
import LoxLang.Proofs.Grammar.ReadStatement
import LoxLang.Proofs.Grammar.Nesting
import LoxLang.Proofs.Grammar.Progress
import LoxLang.Proofs.Grammar.Recovery
import LoxLang.Proofs.Grammar.ForLoop
import LoxLang.Proofs.Evaluation.ForLoop
import LoxLang.Proofs.Grammar.Prefix
import LoxLang.Proofs.Grammar.Firm
import LoxLang.Proofs.Grammar.FirstFailure
import LoxLang.Proofs.Grammar.Earliest
import LoxLang.Proofs.Scan.Spacing
import LoxLang.Proofs.Store.Aliasing
import LoxLang.Proofs.Console.Rebinding
import LoxLang.Proofs.Render.Number
import LoxLang.Proofs.Render.Form
import LoxLang.Proofs.Grammar.Parts
import LoxLang.Proofs.Grammar.LongSum
import LoxLang.Proofs.Render.Tree
import LoxLang.Proofs.Evaluation.Equality
import LoxLang.Proofs.Evaluation.Provenance
import LoxLang.Proofs.Evaluation.Handed
import LoxLang.Proofs.Evaluation.Passing
import LoxLang.Proofs.Console.Identity
import LoxLang.Proofs.Number.Nearest
import LoxLang.Proofs.Number.Display
import LoxLang.Proofs.Console.Flags
import LoxLang.Proofs.Command.Modes
import LoxLang.Proofs.Command.Order
import LoxLang.Proofs.Render.TokenTable
import LoxLang.Proofs.Command.Prompt
