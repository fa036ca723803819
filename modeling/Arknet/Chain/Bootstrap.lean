import Arknet.Chain.Types

/-!
Epochs, the bootstrap window and the base-fee rule.
-/

namespace Arknet.Chain

open Machine

def BOOTSTRAP_MAX_BLOCKS : Height := 15552000
def BOOTSTRAP_VALIDATOR_TARGET : U32 := 100
def EPOCH_LENGTH_BLOCKS : Height := 3600

def withinBootstrapWindow (height : Height) : Bool := height < BOOTSTRAP_MAX_BLOCKS

def inBootstrapEpoch (height : Height) (activeValidatorCount : U32) : Bool :=
  withinBootstrapWindow height && activeValidatorCount < BOOTSTRAP_VALIDATOR_TARGET

def isEpochBoundary (height : Height) : Bool := height ≠ 0 && height % EPOCH_LENGTH_BLOCKS = 0

/-! ## Fee market -/

def BASE_FEE_MAX_CHANGE_DENOM : Amount := 8
def MIN_BASE_FEE : Amount := 1
def TARGET_GAS_PER_BLOCK : Gas := 15000000

/-- `None` is the `FeeMarket` error of a zero gas target. -/
def nextBaseFee (parentBaseFee : Amount) (parentGasUsed parentGasTarget : Gas) : Option Amount :=
  if parentGasTarget = 0 then none
  else
    let target := asAmount parentGasTarget
    let used := asAmount parentGasUsed
    if used = target then some (max parentBaseFee MIN_BASE_FEE)
    else if target < used then
      let deltaNum := satMul parentBaseFee (used - target)
      let delta := max (deltaNum / target / BASE_FEE_MAX_CHANGE_DENOM) 1
      some (max (satAdd parentBaseFee delta) MIN_BASE_FEE)
    else
      let deltaNum := satMul parentBaseFee (target - used)
      let delta := deltaNum / target / BASE_FEE_MAX_CHANGE_DENOM
      some (max (satSub parentBaseFee delta) MIN_BASE_FEE)

theorem nextBaseFee_isSome {fee : Amount} {used target : Gas} (h : target ≠ 0) :
    (nextBaseFee fee used target).isSome := by
  simp only [nextBaseFee, h, ↓reduceIte]
  split
  · rfl
  · split <;> rfl

end Arknet.Chain
