import Intonation.Engine
import Intonation.Ratio.Order
import Intonation.Proofs.Interval.Linear
import Intonation.Proofs.Interval.Realization
import Intonation.Proofs.Interval.Sizes
import Intonation.Proofs.Monzo.Comparison
import Intonation.Proofs.Literal.Faults
import Intonation.Proofs.Monzo.Root
import Intonation.Proofs.Interval.Crossing
import Intonation.Proofs.Interval.GivingUp
import Intonation.Proofs.Value.Delegation
import Intonation.Proofs.Value.Order
import Intonation.Proofs.Value.Subgroup
import Intonation.Proofs.Value.Units
import Intonation.Proofs.Interval.Provenance
import Intonation.Proofs.Engine.Registry
import Intonation.Proofs.Engine.History
import Intonation.Proofs.Monzo.Logarithm
import Intonation.Proofs.Prime.Cents
import Intonation.Proofs.Monzo.Holding
import Intonation.Proofs.Monzo.CommonBase
import Intonation.Proofs.Monzo.Periods
import Intonation.Proofs.Double.Opposite
import Intonation.Proofs.Interval.Distance
import Intonation.Proofs.Ratio.Valuation
import Intonation.Proofs.Monzo.Divisors
import Intonation.Proofs.Monzo.Predicates
import Intonation.Proofs.Monzo.Coordinates
import Intonation.Proofs.Monzo.Folding
import Intonation.Proofs.Interval.Mapping
import Intonation.Proofs.Literal.Mapping
import Intonation.Proofs.Monzo.Resizing
import Intonation.Proofs.Monzo.Equave
import Intonation.Proofs.Interval.Duality
import Intonation.Proofs.Interval.Superparticular
import Intonation.Proofs.Interval.Harmonic
import Intonation.Proofs.Literal.Decimals
import Intonation.Proofs.Literal.Respelling
import Intonation.Proofs.FJS.Octaves
import Intonation.Proofs.Monzo.Rendering
import Intonation.Proofs.FJS.Intervals
import Intonation.Proofs.Ratio.Signed
import Intonation.Proofs.Prime.Factorization
