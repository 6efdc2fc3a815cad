import Sampling.Bytes
import Sampling.Sha256
import Sampling.ChaCha
import Sampling.Derivation
import Sampling.Keystream
import Sampling.Entropy
import Sampling.Reader
import Sampling.Source.Locked
import Sampling.Source.Replay
import Sampling.Source.Seeded
import Sampling.Source.Recorded
import Sampling.Source.Metered
import Sampling.Source.Relay
import Sampling.Source.Circuit
import Sampling.Rounding
import Sampling.Arith
import Sampling.Arith.Binary64
import Sampling.Instant
import Sampling.Fault
import Sampling.Draw
import Sampling.Unit
import Sampling.Machine
import Sampling.Uniform
import Sampling.Distribution.Discrete
import Sampling.Distribution.Continuous
import Sampling.Special.LogGamma
import Sampling.Distribution.Poisson
import Sampling.Bisection
import Sampling.Zipf
import Sampling.Weighted
import Sampling.Collection
import Sampling.Call
import Sampling.Session
import Sampling.Decimal.Text
import Sampling.Decimal.Shortest
import Sampling.Special.GammaTail
import Sampling.Special.Erfc
import Sampling.Battery.Verdict
import Sampling.Battery.Tails
import Sampling.Battery.Moments
import Sampling.Battery.Bits
import Sampling.Battery.Report
import Sampling.Text.Unprintable
import Sampling.Text.Quoted
import Sampling.Description
import Sampling.Setup
import Sampling.Proofs.Chunking
import Sampling.Proofs.Run
import Sampling.Proofs.SourceFailure
import Sampling.Proofs.Ensures
import Sampling.Proofs.Narrowing
import Sampling.Proofs.Vetted
import Sampling.Proofs.SessionStep
import Sampling.Proofs.ParameterFault
import Sampling.Proofs.SpareDeviate
import Sampling.Proofs.SessionAlike
import Sampling.Proofs.SourceIndependence
import Sampling.Proofs.Stacking
import Sampling.Proofs.WordStream
import Sampling.Proofs.Unbiased
import Sampling.Proofs.LabelSeparation
import Sampling.Proofs.Noninterference
import Sampling.Proofs.Range
import Sampling.Proofs.RejectionRate
import Sampling.Proofs.Nearest
import Sampling.Proofs.Packing
import Sampling.Proofs.Binary64
import Sampling.Proofs.SignedNumbers
import Sampling.Proofs.SquareRoot
import Sampling.Proofs.Verdicts
import Sampling.Proofs.OneByOne
import Sampling.Proofs.Arrangements
import Sampling.Proofs.Swaps
import Sampling.Proofs.EvenShuffle
import Sampling.Proofs.EvenSample
import Sampling.Proofs.Weighing
import Sampling.Proofs.Ranking
import Sampling.Proofs.KeyOrder
import Sampling.Proofs.Prefixes
import Sampling.Proofs.UniformBounds
import Sampling.Proofs.ClockShift
import Sampling.Proofs.Growth
import Sampling.Proofs.Selection
import Sampling.Proofs.RankSearch
import Sampling.Proofs.ReplayedBytes
import Sampling.Proofs.ReplayHalting
import Sampling.Proofs.ExactReads
import Sampling.Proofs.FactorCount
import Sampling.Proofs.EvenUnit
import Sampling.Proofs.Keeping
import Sampling.Proofs.OutOfRange
import Sampling.Proofs.Share
import Sampling.Proofs.Balance
import Sampling.Proofs.MissingNumbers
import Sampling.Proofs.BitRuns
import Sampling.Proofs.DomainSeparation
