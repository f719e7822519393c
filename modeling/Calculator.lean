import Calculator.Main
import Calculator.Proofs.Grammar.Acceptance
import Calculator.Proofs.Grammar.Repair
import Calculator.Proofs.Grammar.Spelling
import Calculator.Proofs.Grammar.Limits
import Calculator.Proofs.Token.Munch
import Calculator.Proofs.Display
import Calculator.Proofs.Continuation
import Calculator.Proofs.Trigonometry
import Calculator.Proofs.Composition
import Calculator.Proofs.Fusion
import Calculator.Proofs.Evaluation.Location
import Calculator.Proofs.Evaluation.Stack
import Calculator.Proofs.Session.Bookkeeping
import Calculator.Proofs.Session.Failure
import Calculator.Proofs.Session.Independence
import Calculator.Proofs.Session.Reentry
import Calculator.Proofs.Shorthand.Placement
import Calculator.Proofs.Shorthand.Settled
import Calculator.Proofs.Console
import Calculator.Proofs.Float.Opposite
import Calculator.Proofs.Grammar.Adjacent
import Calculator.Proofs.Grammar.Quotient
import Calculator.Proofs.Token.Broken
import Calculator.Proofs.Percent
import Calculator.Proofs.Shorthand.Order
import Calculator.Proofs.Token.LeadingNumber
import Calculator.Proofs.Number.Layout
import Calculator.Proofs.Evaluation.Undefined
import Calculator.Proofs.Evaluation.Answer
import Calculator.Proofs.Grammar.Miscount
import Calculator.Proofs.Token.Spread
import Calculator.Proofs.Text.Bounds
