/-
The text of a verdict's details.
-/
import Sampling.Arith.Binary64
import Sampling.Battery.Verdict
import Sampling.Decimal.Shortest

namespace Sampling.Battery

def fixed (places : Nat) (x : Float) : String := Decimal.fixed places (Arith.reading x)

def Details.text : Details Float → String
  | .insufficient needed got => "Insufficient data: need " ++ toString needed ++ ", got " ++ toString got
  | .buckets count total expected =>
    "buckets=" ++ toString count ++ ", n=" ++ toString total ++ ", expected_per_bucket=" ++ fixed 1 expected
  | .mean observed expected z band =>
    "mean=" ++ fixed 6 observed ++ " (exp " ++ fixed 6 expected ++ "), z=" ++ fixed 2 z ++
      ", band=" ++ Decimal.shortest (Arith.reading band)
  | .variance observed expected relative =>
    "var=" ++ fixed 6 observed ++ " (exp " ++ fixed 6 expected ++ "), rel_err=" ++ fixed 3 (relative * 100.0) ++ "%"
  | .bitSum s bits => "S=" ++ toString s ++ ", n=" ++ toString bits
  | .blocks count size => "blocks=" ++ toString count ++ ", M=" ++ toString size
  | .proportion ones => "Pre-test failed: proportion=" ++ fixed 4 ones
  | .runs count expected => "runs=" ++ toString count ++ ", expected=" ++ fixed 0 expected
  | .byteMoments m v e =>
    "mean=" ++ fixed 2 m ++ " (exp 127.5), var=" ++ fixed 1 v ++ " (exp " ++ fixed 1 e ++ ")"
  | .panicked => "Test panicked"

end Sampling.Battery
