import Arknet.Chain.State
import Arknet.Chain.Bootstrap

/-!
The four stake operations. Withdrawal and redelegation look for the sender's own entry first and
fall back to the entry without a delegator; completion accepts any sender when the unbonding entry
names no delegator. An operation that rejects leaves the context as it was.
-/

namespace Arknet.Chain

open Machine

def UNBONDING_PERIOD_BLOCKS : Height := 1209600
def STAKE_OP_GAS : Gas := 50000
def REDELEGATE_COOLDOWN_BLOCKS : Height := 86400

def reject (ctx : BlockCtx) (reason : RejectReason) : Exec (BlockCtx × TxOutcome) :=
  .ok (ctx, .rejected reason)

def applied (ctx : BlockCtx) (gasUsed : Gas) : Exec (BlockCtx × TxOutcome) :=
  .ok (ctx, .applied gasUsed)

def inlineBaseMinStake (role : StakeRole) : Amount :=
  let baseArk : Amount :=
    match role with
    | .validator => 50000
    | .router => 8000
    | .verifier => 10000
    | .compute => 5000
  baseArk * ATOMS_PER_ARK

/-- The entry a deposit of `amount` leaves under `k`. -/
def depositEntry (existing : Option StakeEntry) (k : StakeKey) (amount : Amount) (height : Height) :
    StakeEntry :=
  match existing with
  | some e => { e with amount := satAdd e.amount amount }
  | none => ⟨k.nodeId, k.role, k.poolId, k.delegator, amount, height⟩

def belowMinimum (ctx : BlockCtx) (k : StakeKey) (amount : Amount) (height : Height) : Bool :=
  !inBootstrapEpoch height ctx.state.validatorCount &&
    satAdd (((ctx.getStake k).map StakeEntry.amount).getD 0) amount < inlineBaseMinStake k.role

def applyDeposit (ctx : BlockCtx) (sender : Address) (nodeId : NodeId) (role : StakeRole)
    (poolId : Option PoolId) (amount : Amount) (delegator : Option Address) (height : Height) :
    Exec (BlockCtx × TxOutcome) :=
  let k : StakeKey := ⟨nodeId, role, poolId, delegator⟩
  let acct := ctx.account sender
  if delegator ≠ none ∧ delegator ≠ some sender then reject ctx .thirdPartyDelegation
  else if belowMinimum ctx k amount height then
    reject ctx (.notYetImplemented "stake below minimum for this role")
  else if acct.balance < amount then reject ctx (.insufficientBalance acct.balance amount)
  else do
    let balance ← sub acct.balance amount
    let ctx := ctx.setAccount sender { acct with balance := balance }
    applied (ctx.setStake k (depositEntry (ctx.getStake k) k amount height)) STAKE_OP_GAS

/-- The entry an operation of `sender` draws on: its own, else the one without a delegator. -/
def drawnEntry (ctx : BlockCtx) (nodeId : NodeId) (role : StakeRole) (poolId : Option PoolId)
    (sender : Address) : Option (Option Address × StakeEntry) :=
  match ctx.getStake ⟨nodeId, role, poolId, some sender⟩ with
  | some e => some (some sender, e)
  | none =>
    match ctx.getStake ⟨nodeId, role, poolId, none⟩ with
    | some e => some (none, e)
    | none => none

def applyWithdraw (ctx : BlockCtx) (sender : Address) (nodeId : NodeId) (role : StakeRole)
    (poolId : Option PoolId) (amount : Amount) (height : Height) : Exec (BlockCtx × TxOutcome) :=
  match drawnEntry ctx nodeId role poolId sender with
  | none => reject ctx .stakeNotFound
  | some (delegatorKey, entry) =>
    if entry.amount < amount then reject ctx (.stakeExceeded amount entry.amount)
    else do
      let rest ← sub entry.amount amount
      let ctx := ctx.setStake ⟨nodeId, role, poolId, delegatorKey⟩ { entry with amount := rest }
      let unbondId := ctx.nextUnbondId
      let completesAt ← add height UNBONDING_PERIOD_BLOCKS
      let ctx := ctx.setUnbonding nodeId
        ⟨unbondId, nodeId, role, poolId, delegatorKey, amount, height, completesAt⟩
      let next ← add unbondId 1
      applied (ctx.setNextUnbondId next) STAKE_OP_GAS

def applyComplete (ctx : BlockCtx) (sender : Address) (nodeId : NodeId) (unbondId : U64)
    (height : Height) : Exec (BlockCtx × TxOutcome) :=
  match ctx.getUnbonding nodeId unbondId with
  | none => reject ctx .unbondingNotFound
  | some entry =>
    if entry.delegator ≠ none ∧ entry.delegator ≠ some sender then reject ctx .unbondingNotFound
    else if !entry.isComplete height then
      reject ctx (.unbondingNotComplete height entry.completesAt)
    else
      let ctx := ctx.creditAddress (entry.delegator.getD sender) entry.amount
      applied (ctx.deleteUnbonding nodeId unbondId) STAKE_OP_GAS

def applyRedelegate (ctx : BlockCtx) (sender : Address) (src dst : NodeId) (role : StakeRole)
    (amount : Amount) (height : Height) : Exec (BlockCtx × TxOutcome) :=
  if src = dst then reject ctx .redelegateSameNode
  else
    match drawnEntry ctx src role none sender with
    | none => reject ctx .stakeNotFound
    | some (srcDelegator, entry) =>
      let cooldownEnds := satAdd entry.bondedAt REDELEGATE_COOLDOWN_BLOCKS
      if entry.amount < amount then reject ctx (.stakeExceeded amount entry.amount)
      else if height < cooldownEnds then
        reject ctx (.redelegateCooldown (satSub cooldownEnds height))
      else do
        let rest ← sub entry.amount amount
        let ctx := ctx.setStake ⟨src, role, none, srcDelegator⟩ { entry with amount := rest }
        let k : StakeKey := ⟨dst, role, none, srcDelegator⟩
        applied (ctx.setStake k (depositEntry (ctx.getStake k) k amount height)) STAKE_OP_GAS

def applyStakeOp (ctx : BlockCtx) (op : StakeOp) (sender : Address) (height : Height) :
    Exec (BlockCtx × TxOutcome) :=
  match op with
  | .deposit nodeId role poolId amount delegator =>
    applyDeposit ctx sender nodeId role poolId amount delegator height
  | .withdraw nodeId role poolId amount => applyWithdraw ctx sender nodeId role poolId amount height
  | .complete nodeId _ _ unbondId => applyComplete ctx sender nodeId unbondId height
  | .redelegate src dst role amount => applyRedelegate ctx sender src dst role amount height

end Arknet.Chain
