import FuzzyInference.Config.Text
import FuzzyInference.Controller
import FuzzyInference.Decimal.Scientific
import FuzzyInference.ErrorText
import FuzzyInference.Rule.Text
import FuzzyInference.Proofs.Items
import FuzzyInference.Proofs.Progress
import FuzzyInference.Proofs.PremiseRun
import FuzzyInference.Proofs.ConsequentRun
import FuzzyInference.Proofs.Settings
import FuzzyInference.Proofs.Frame
import FuzzyInference.Proofs.History
import FuzzyInference.Proofs.Grammar
import FuzzyInference.Proofs.Strength
import FuzzyInference.Proofs.Protocol
import FuzzyInference.Proofs.Screened
import FuzzyInference.Proofs.Firing
import FuzzyInference.Proofs.Sampling
import FuzzyInference.Proofs.Configuration
import FuzzyInference.Proofs.Weighted
import FuzzyInference.Proofs.Lawful
import FuzzyInference.Proofs.Double
import FuzzyInference.Proofs.Sessions
import FuzzyInference.Proofs.Ranges
import FuzzyInference.Proofs.Cleared
import FuzzyInference.Proofs.Residue
import FuzzyInference.Proofs.Lending
import FuzzyInference.Proofs.WellFormed
import FuzzyInference.Proofs.Regions
import FuzzyInference.Proofs.LongLived
import FuzzyInference.Proofs.Widening
import FuzzyInference.Proofs.Rearranged
import FuzzyInference.Proofs.Splitting
import FuzzyInference.Proofs.Exact
import FuzzyInference.Proofs.RuleOrder
import FuzzyInference.Proofs.Checked
import FuzzyInference.Proofs.Harmless
import FuzzyInference.Proofs.Silent
import FuzzyInference.Proofs.Viable
import FuzzyInference.Proofs.Stops
import FuzzyInference.Proofs.Leftmost
import FuzzyInference.Proofs.RuleCount
import FuzzyInference.Proofs.Refusals
import FuzzyInference.Proofs.Feeding
import FuzzyInference.Proofs.Bisection
import FuzzyInference.Proofs.Maxima
import FuzzyInference.Proofs.Hull
import FuzzyInference.Proofs.Recording
import FuzzyInference.Proofs.Duality
import FuzzyInference.Proofs.Flanks
import FuzzyInference.Proofs.Elementary
import FuzzyInference.Proofs.ExactFormulas
import FuzzyInference.Proofs.Degrees
import FuzzyInference.Proofs.Inversion
import FuzzyInference.Proofs.SignedZero
import FuzzyInference.Proofs.Neutral
import FuzzyInference.Proofs.Alike
import FuzzyInference.Proofs.Skipping
import FuzzyInference.Proofs.OperatorAlgebra
import FuzzyInference.Proofs.Monotonicity
import FuzzyInference.Proofs.Sentences
