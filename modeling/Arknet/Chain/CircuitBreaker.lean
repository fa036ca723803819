import Arknet.Chain.Types

/-!
The breaker in front of new inference jobs: counters of the current epoch, three triggers that are
evaluated at an epoch's boundary, an override by governance and a halt by the guardian.
-/

namespace Arknet.Chain

open Machine

def VERIFICATION_FAILURE_THRESHOLD_BPS : U64 := 5000
def BOOTSTRAP_VERIFICATION_FAILURE_THRESHOLD_BPS : U64 := 2000
def MISSING_VALIDATORS_THRESHOLD : U64 := 3
def SLASH_THRESHOLD_BPS : U64 := 2000

structure CircuitBreakerState where
  tripped : Bool
  trippedAtEpoch : U64
  resetAtEpoch : U64
  governanceOverride : Bool
  epochVerified : U64
  epochFailed : U64
  epochBondedSupply : U128
  epochSlashed : U128
  inBootstrap : Bool
  guardianHalted : Bool
  deriving DecidableEq, Repr

namespace CircuitBreakerState

def genesis : CircuitBreakerState where
  tripped := false
  trippedAtEpoch := 0
  resetAtEpoch := 0
  governanceOverride := false
  epochVerified := 0
  epochFailed := 0
  epochBondedSupply := 0
  epochSlashed := 0
  inBootstrap := true
  guardianHalted := false

def isPaused (s : CircuitBreakerState) : Bool :=
  s.guardianHalted || (s.tripped && !s.governanceOverride)

def guardianHalt (s : CircuitBreakerState) : CircuitBreakerState :=
  if s.inBootstrap then { s with guardianHalted := true } else s

def guardianResume (s : CircuitBreakerState) : CircuitBreakerState :=
  { s with guardianHalted := false }

def endBootstrap (s : CircuitBreakerState) : CircuitBreakerState :=
  { s with inBootstrap := false, guardianHalted := false }

def recordVerified (s : CircuitBreakerState) : CircuitBreakerState :=
  { s with epochVerified := satAdd s.epochVerified 1 }

def recordFailed (s : CircuitBreakerState) : CircuitBreakerState :=
  { s with epochFailed := satAdd s.epochFailed 1 }

def recordSlash (s : CircuitBreakerState) (amount : U128) : CircuitBreakerState :=
  { s with epochSlashed := satAdd s.epochSlashed amount }

def vfThreshold (s : CircuitBreakerState) : U64 :=
  if s.inBootstrap then BOOTSTRAP_VERIFICATION_FAILURE_THRESHOLD_BPS
  else VERIFICATION_FAILURE_THRESHOLD_BPS

/-- The right side of `&&` is computed only where there are receipts. -/
def trigger1 (s : CircuitBreakerState) : Exec Bool :=
  let totalReceipts := satAdd s.epochVerified s.epochFailed
  if totalReceipts > 0 then do
    let scaled ← mul s.epochFailed 10000
    let rate ← div scaled totalReceipts
    return rate > s.vfThreshold
  else return false

/-- The divisor is the bonded supply `as u64 as u128`. -/
def trigger3 (s : CircuitBreakerState) : Exec Bool :=
  if s.epochBondedSupply > 0 then do
    let scaled ← mul s.epochSlashed 10000
    let share ← div scaled (asAmount (truncate 64 s.epochBondedSupply.val))
    return share > asAmount SLASH_THRESHOLD_BPS
  else return false

def evaluate (s : CircuitBreakerState) (currentEpoch missingValidators : U64) :
    Exec CircuitBreakerState := do
  let trigger1 ← s.trigger1
  let trigger2 := decide (missingValidators > MISSING_VALIDATORS_THRESHOLD)
  let trigger3 ← s.trigger3
  if trigger1 || trigger2 || trigger3 then
    return { s with tripped := true, trippedAtEpoch := currentEpoch }
  else if s.tripped && !s.governanceOverride then
    return { s with tripped := false, resetAtEpoch := currentEpoch }
  else return s

def advanceEpoch (s : CircuitBreakerState) (bondedSupply : U128) : CircuitBreakerState :=
  { s with
    epochVerified := 0
    epochFailed := 0
    epochSlashed := 0
    epochBondedSupply := bondedSupply
    governanceOverride := false }

def governanceForceResume (s : CircuitBreakerState) : CircuitBreakerState :=
  { s with governanceOverride := true }

end CircuitBreakerState

/-! ## Runs -/

/-- The two calls of a boundary: in the order that is documented, or in the one of the tests. -/
inductive BoundaryOrder where
  | advanceFirst | evaluateFirst
  deriving DecidableEq, Repr

inductive BreakerCall where
  | recordVerified
  | recordFailed
  | recordSlash (amount : U128)
  | governanceForceResume
  | guardianHalt
  | guardianResume
  | endBootstrap
  | boundary (order : BoundaryOrder) (bondedSupply : U128) (epoch missingValidators : U64)
  deriving DecidableEq, Repr

open CircuitBreakerState in
def BreakerCall.run (s : CircuitBreakerState) : BreakerCall → Exec CircuitBreakerState
  | .recordVerified => .ok s.recordVerified
  | .recordFailed => .ok s.recordFailed
  | .recordSlash amount => .ok (s.recordSlash amount)
  | .governanceForceResume => .ok s.governanceForceResume
  | .guardianHalt => .ok s.guardianHalt
  | .guardianResume => .ok s.guardianResume
  | .endBootstrap => .ok s.endBootstrap
  | .boundary .advanceFirst bondedSupply epoch missing =>
    (s.advanceEpoch bondedSupply).evaluate epoch missing
  | .boundary .evaluateFirst bondedSupply epoch missing => do
    let s ← s.evaluate epoch missing
    return s.advanceEpoch bondedSupply

end Arknet.Chain
