import Arknet.Chain.StakeApply

/-!
Slashing. The entries to slash are enumerated in the committed store; the reduced entries are
written through the context.
-/

namespace Arknet.Staking

open Machine Arknet.Chain

def BURN_PERCENT : Amount := 90
def REPORTER_PERCENT : Amount := 5
def TREASURY_PERCENT : Amount := 5

inductive Offense where
  | wrongModelHash
  | doubleClaimReceipt
  | verifierComputeCollusion
  | dataLeak
  | failedDeterministicVerification
  | routerPreferentialRouting
  | censoringMints
  | repeatedTimeouts
  | extendedDowntime
  | falseDispute
  | fakeTeeAttestation
  deriving DecidableEq, Repr

def Offense.penaltyPercent : Offense → Amount
  | .wrongModelHash => 100
  | .doubleClaimReceipt => 100
  | .verifierComputeCollusion => 100
  | .dataLeak => 100
  | .failedDeterministicVerification => 5
  | .routerPreferentialRouting => 5
  | .censoringMints => 10
  | .repeatedTimeouts => 2
  | .extendedDowntime => 1
  | .falseDispute => 10
  | .fakeTeeAttestation => 100

structure SlashReport where
  totalSlashed : Amount
  burned : Amount
  toReporter : Amount
  toTreasury : Amount
  entriesAffected : Nat
  deriving DecidableEq, Repr

/-- What the two loops carry: the context, the total so far, the entries touched. -/
structure SlashAcc where
  ctx : BlockCtx
  total : Amount
  affected : Nat

def slashStake (percent : Amount) (acc : SlashAcc) (entry : StakeEntry) : Exec SlashAcc := do
  let product ← mul entry.amount percent
  let slash ← div product 100
  if slash = 0 then pure acc
  else
    let rest ← sub entry.amount slash
    pure ⟨acc.ctx.setStake entry.key { entry with amount := rest }, satAdd acc.total slash,
      acc.affected + 1⟩

def slashUnbonding (node : NodeId) (percent : Amount) (acc : SlashAcc) (un : UnbondingEntry) :
    Exec SlashAcc := do
  let product ← mul un.amount percent
  let slash ← div product 100
  if slash = 0 then pure acc
  else
    let rest ← sub un.amount slash
    pure ⟨acc.ctx.setUnbonding node { un with amount := rest }, satAdd acc.total slash,
      acc.affected + 1⟩

/-- The stake entries a slash of `node` under `role` goes through. -/
def slashableStakes (s : State) (node : NodeId) (role : StakeRole) : List StakeEntry :=
  (s.iterStakesForNode node).filter (fun e => e.role = role)

/-- The unbonding entries still ahead of their completion at the committed height. -/
def slashableUnbondings (s : State) (node : NodeId) (role : StakeRole) : List UnbondingEntry :=
  (s.iterUnbondingsForNode node).filter
    (fun un => un.role = role && !(un.completesAt ≤ s.metaHeight.getD 0))

def applySlash (ctx : BlockCtx) (node : NodeId) (role : StakeRole) (offense : Offense)
    (reporter treasury : Address) : Exec (BlockCtx × SlashReport) := do
  let percent := offense.penaltyPercent
  let acc ← (slashableStakes ctx.state node role).foldlM (slashStake percent) ⟨ctx, 0, 0⟩
  let acc ← (slashableUnbondings ctx.state node role).foldlM (slashUnbonding node percent) acc
  let product ← mul acc.total BURN_PERCENT
  let burned ← div product 100
  let product ← mul acc.total REPORTER_PERCENT
  let toReporter ← div product 100
  let out ← add burned toReporter
  let toTreasury := satSub acc.total out
  let ctx := acc.ctx.creditPositive reporter toReporter
  let ctx := ctx.creditPositive treasury toTreasury
  pure (ctx, ⟨acc.total, burned, toReporter, toTreasury, acc.affected⟩)

end Arknet.Staking
