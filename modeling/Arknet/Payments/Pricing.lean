import Arknet.Chain.Types

/-!
The pricing oracle: once an epoch the price moves towards `base × utilization^1.5`, by a weight that
depends on how far it has to go. All in integers; ratios are scaled by `PRICE_SCALE`.
-/

namespace Arknet.Payments

open Machine Arknet.Chain

def PRICE_SCALE : U128 := 1000000000
def GENESIS_BASE_PRICE : Amount := 10000
def PRICE_FLOOR : Amount := 0
def PRICE_CEILING : Amount := 10000000

def EMA_CURRENT_WEIGHT_STABLE : U64 := 7000
def EMA_NEW_WEIGHT_STABLE : U64 := 3000
def EMA_CURRENT_WEIGHT_MODERATE : U64 := 6000
def EMA_NEW_WEIGHT_MODERATE : U64 := 4000
def EMA_CURRENT_WEIGHT_FAST : U64 := 5000
def EMA_NEW_WEIGHT_FAST : U64 := 5000

structure PricingState where
  price : Amount
  epochJobs : U64
  epochCapacity : U64
  epoch : U64
  deriving DecidableEq, Repr

def PricingState.genesis : PricingState := ⟨GENESIS_BASE_PRICE, 0, 1, 0⟩

def PricingState.recordJob (s : PricingState) : PricingState :=
  { s with epochJobs := satAdd s.epochJobs 1 }

/-- The jobs over the capacity, capped at one. -/
def PricingState.utilizationScaled (s : PricingState) : Exec U128 :=
  if s.epochCapacity = 0 then pure 0
  else do
    let raw ← div (satMul (asAmount s.epochJobs) PRICE_SCALE) (asAmount s.epochCapacity)
    pure (min raw PRICE_SCALE)

/-! ## The integer square root -/

/-- `lo + (hi - lo).div_ceil(2)` -/
def bisectMid (lo hi : U128) : Exec U128 := do
  let gap ← sub hi lo
  add lo ⟨(gap.val + 1) / 2, by have := gap.isLt; omega⟩

theorem bisectMid_eq_ok {lo hi mid : U128} (h : bisectMid lo hi = .ok mid) :
    lo.val ≤ hi.val ∧ mid.val = lo.val + (hi.val - lo.val + 1) / 2 := by
  obtain ⟨gap, hgap, hmid⟩ := bind_eq_ok.mp h
  have hg := sub_eq_ok.mp hgap
  have hm := add_eq_ok.mp hmid
  simp only at hm
  omega

/-- The loop of `isqrt`. Both branches leave a shorter interval, so it ends whatever `n` is. -/
def isqrtLoop (n lo hi : U128) : Exec U128 :=
  if _hlt : lo.val < hi.val then
    match _hmid : bisectMid lo hi with
    | .error p => .error p
    | .ok mid =>
      match div n mid with
      | .error p => .error p
      | .ok q =>
        if mid.val ≤ q.val then isqrtLoop n mid hi
        else
          match _hhi : sub mid 1 with
          | .error p => .error p
          | .ok hi' => isqrtLoop n lo hi'
  else pure lo
termination_by hi.val - lo.val
decreasing_by
  · have := bisectMid_eq_ok _hmid
    omega
  · have hm := bisectMid_eq_ok _hmid
    have hs : hi'.val + 1 = mid.val := sub_eq_ok.mp _hhi
    omega

def isqrt (n : U128) : Exec U128 :=
  if n.val ≤ 1 then pure n else isqrtLoop n 1 (min n ⟨2 ^ 64, by decide⟩)

/-! ## The price of an epoch -/

/-- `base × u × √u / (S × √S)` -/
def computeRawPrice (basePrice : Amount) (utilScaled : U128) : Exec Amount :=
  if utilScaled = 0 then pure 0
  else do
    let sqrtU ← isqrt utilScaled
    let sqrtS ← isqrt PRICE_SCALE
    let numerator := satMul (satMul basePrice utilScaled) sqrtU
    let denominator := satMul PRICE_SCALE sqrtS
    if denominator = 0 then pure 0 else div numerator denominator

/-- The further the new price is from the current one, the more it weighs. -/
def adaptiveEmaWeights (current new : Amount) : Exec (U64 × U64) :=
  if current = 0 then pure (EMA_CURRENT_WEIGHT_FAST, EMA_NEW_WEIGHT_FAST)
  else do
    let delta ← (if current < new then sub new current else sub current new : Exec Amount)
    let scaled ← mul delta 10000
    let changePct ← div scaled current
    if 5000 < changePct then pure (EMA_CURRENT_WEIGHT_FAST, EMA_NEW_WEIGHT_FAST)
    else if 2000 < changePct then pure (EMA_CURRENT_WEIGHT_MODERATE, EMA_NEW_WEIGHT_MODERATE)
    else pure (EMA_CURRENT_WEIGHT_STABLE, EMA_NEW_WEIGHT_STABLE)

def emaSmoothWeighted (current new : Amount) (wCurrent wNew : U64) : Exec Amount := do
  let c ← mul current (asAmount wCurrent)
  let n ← mul new (asAmount wNew)
  let total ← add c n
  div total 10000

def PricingState.advanceEpoch (s : PricingState) (newEpoch newCapacity : U64) : Exec PricingState :=
  if newEpoch ≤ s.epoch then pure s
  else do
    let util ← s.utilizationScaled
    let rawPrice ← computeRawPrice GENESIS_BASE_PRICE util
    let (wCurrent, wNew) ← adaptiveEmaWeights s.price rawPrice
    let price ← emaSmoothWeighted s.price rawPrice wCurrent wNew
    pure {
      price := min (max price PRICE_FLOOR) PRICE_CEILING
      epoch := newEpoch
      epochJobs := 0
      epochCapacity := max newCapacity 1 }

/-! ## Runs -/

/-- A use of the oracle. -/
inductive PricingCall where
  | recordJob
  | advanceEpoch (newEpoch newCapacity : U64)
  deriving DecidableEq, Repr

def PricingState.call (s : PricingState) : PricingCall → Exec PricingState
  | .recordJob => pure s.recordJob
  | .advanceEpoch newEpoch newCapacity => s.advanceEpoch newEpoch newCapacity

end Arknet.Payments
