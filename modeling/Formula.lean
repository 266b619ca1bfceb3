import Formula.Plot.Settings
import Formula.Proofs.Memo.Session
import Formula.Proofs.Token.Tiling
import Formula.Proofs.Phrase.Acceptance
import Formula.Proofs.Expr.RoundTrip
import Formula.Proofs.Phrase.Stack
import Formula.Proofs.Phrase.Unrolling
import Formula.Proofs.Token.Pulls
import Formula.Proofs.Phrase.Burden
import Formula.Proofs.Phrase.Viability
import Formula.Proofs.Phrase.Laziness
import Formula.Proofs.Expr.Terse
import Formula.Proofs.Expr.Rereading
import Formula.Proofs.Memo.Recency
import Formula.Proofs.Memo.Sharing
import Formula.Proofs.Expr.Binding
import Formula.Proofs.Plot.Sampling
import Formula.Proofs.Expr.Juxtaposition
import Formula.Proofs.Phrase.Cost
import Formula.Proofs.Number.Identity
import Formula.Proofs.Expr.Readability
import Formula.Proofs.Token.Spacing
import Formula.Proofs.Token.Writing
import Formula.Proofs.Expr.DoubleStar
import Formula.Proofs.Expr.Conservation
import Formula.Proofs.Expr.Signs
import Formula.Proofs.Plot.Traversal
