import WindowLayout.Binary64.Basic
import WindowLayout.Proofs.Binary64.Nearest
import WindowLayout.Binary64.Bits
import WindowLayout.Decimal
import WindowLayout.Text
import WindowLayout.Expr.Basic
import WindowLayout.Expr.Token
import WindowLayout.Expr.Parser
import WindowLayout.Expr.Printer
import WindowLayout.Expr.Evaluate
import WindowLayout.Layout
import WindowLayout.Memory
import WindowLayout.Session.Basic
import WindowLayout.Proofs.Session.Answers
import WindowLayout.Proofs.Session.Recency
import WindowLayout.Proofs.Decimal
import WindowLayout.Proofs.Decimal.Normal
import WindowLayout.Proofs.Decimal.Significant
import WindowLayout.Proofs.Binary64.Shortest
import WindowLayout.Proofs.Binary64.Arithmetic
import WindowLayout.Proofs.Binary64.Whole
import WindowLayout.Proofs.Binary64.Deviation
import WindowLayout.Proofs.Binary64.Product
import WindowLayout.Proofs.Binary64.Exact
import WindowLayout.Proofs.Binary64.Order
import WindowLayout.Proofs.Binary64.Opposite
import WindowLayout.Proofs.Binary64.Agreement
import WindowLayout.Proofs.Binary64.FifteenDigits
import WindowLayout.Proofs.Binary64.FewestDigits
import WindowLayout.Proofs.Expr.Spelling
import WindowLayout.Proofs.Expr.Alternation
import WindowLayout.Proofs.Expr.Acceptance
import WindowLayout.Proofs.Expr.Rejection
import WindowLayout.Proofs.Expr.Concatenation
import WindowLayout.Proofs.Expr.Grammar
import WindowLayout.Proofs.Expr.Percentage
import WindowLayout.Proofs.Expr.NeighbourSearch
import WindowLayout.Proofs.Expr.ShortPercentage
import WindowLayout.Proofs.Expr.FewestDigits
import WindowLayout.Proofs.Expr.Canonical
import WindowLayout.Proofs.Expr.Normal
import WindowLayout.Proofs.Expr.RoundTrip
import WindowLayout.Proofs.Expr.OnePass
import WindowLayout.Proofs.Expr.Terms
import WindowLayout.Proofs.Expr.Portion
import WindowLayout.Proofs.Expr.Scaling
import WindowLayout.Proofs.Expr.WholeSum
import WindowLayout.Proofs.Expr.Monotone
import WindowLayout.Proofs.Expr.Mirror
import WindowLayout.Proofs.Expr.ZeroContainer
import WindowLayout.Proofs.Expr.LeftLeaning
import WindowLayout.Proofs.Expr.Equality
import WindowLayout.Proofs.Layout.FullSize
import WindowLayout.Proofs.Layout.Pixels
import WindowLayout.Proofs.Layout.Validation
