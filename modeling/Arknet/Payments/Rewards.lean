import Arknet.Payments.Emission
import Arknet.Chain.Apply

/-!
The block reward of one job and its split. Multipliers are fixed-point with four decimals.
-/

namespace Arknet.Payments

open Machine Arknet.Chain

def sizeMult (paramBillions : U64) : U64 :=
  if paramBillions ≤ 7 then 10000
  else if paramBillions ≤ 13 then 15000
  else if paramBillions ≤ 30 then 25000
  else if paramBillions ≤ 70 then 40000
  else 100000

inductive ModelCategory where
  | text | embedding | image | audio | structured | multimodal
  deriving DecidableEq, Repr

def ModelCategory.mult : ModelCategory → U64
  | .text => 10000
  | .embedding => 3000
  | .image => 20000
  | .audio => 15000
  | .structured => 12000
  | .multimodal => 30000

def latencyMult (actualMs expectedMs : U64) : Exec U64 :=
  if expectedMs = 0 ∨ expectedMs ≤ actualMs then pure 10000
  else do
    let scaled ← mul actualMs 10000
    let ratio ← div scaled expectedMs
    let improvement ← sub 10000 ratio
    let scaled ← mul improvement 2000
    let bonus ← div scaled 10000
    add 10000 bonus

def uptimeMult (uptimeBps : U64) : U64 := if 9500 < uptimeBps then 11000 else 10000

def computeBlockReward (outputTokens : U32) (emissionPerToken : Amount) (category : ModelCategory)
    (paramBillions latencyMs expectedLatencyMs uptimeBps : U64) : Exec Amount := do
  let base := satMul (widen width32_le_128 outputTokens) emissionPerToken
  let sm := asAmount (sizeMult paramBillions)
  let cm := asAmount category.mult
  let lm ← latencyMult latencyMs expectedLatencyMs
  let um := asAmount (uptimeMult uptimeBps)
  let r ← div (satMul base sm) 10000
  let r ← mul r cm
  let r ← div r 10000
  let r ← mul r (asAmount lm)
  let r ← div r 10000
  let r ← mul r um
  div r 10000

/-- The shares are those of a settled payment; what rounding leaves goes to the treasury. -/
def distributeReward (totalValue : Amount) : Exec RewardSplit := rewardSplit totalValue

end Arknet.Payments
