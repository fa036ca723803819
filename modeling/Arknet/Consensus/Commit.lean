import Arknet.Consensus.Mempool
import Arknet.Governance.Tally
import Arknet.Payments.Rewards
import Arknet.Staking.Slashing
import Arknet.Staking.ValidatorSet

/-!
The commit path: replay a decided block's transactions, dispatch the slashes, run the epoch-boundary
hooks, compare the root, write. `replayBlock` is everything up to the root; `commitBlock` compares
and writes.
-/

namespace Arknet.Consensus

open Machine Arknet.Chain Arknet.Staking Arknet.Payments Arknet.Governance

def BLOCK_RETENTION : Height := 10000

structure CommitReport where
  stateRoot : StateRoot
  gasUsed : Gas
  appliedCount : Nat
  deriving DecidableEq, Repr

inductive CommitError where
  | stateRootMismatch (header replayed : StateRoot)
  deriving DecidableEq, Repr

section

variable (K : Primitives)

/-- `preview_state_root`: the tree over the accounts the buffered writes leave. -/
def previewStateRoot (ctx : BlockCtx) : StateRoot := K.smtRoot ctx.commit.accounts

/-! ## Slash dispatch -/

def dispatchSlash (ctx : BlockCtx) (stx : SignedTransaction) : Exec BlockCtx :=
  match stx.tx with
  | .dispute d =>
    if d.claimedOutputHash ≠ d.reexecOutputHash then
      Prod.fst <$> applySlash ctx d.computeNode .compute .failedDeterministicVerification d.reporter
        (bootstrapTreasuryAddress K)
    else pure ctx
  | _ => pure ctx

/-! ## Epoch-boundary mint -/

/-- The delegators of a compute node with their stakes, in key order. -/
def delegatorStakes (s : State) (node : NodeId) : List (Address × Amount) :=
  (s.iterStakesForNode node).filterMap (fun e =>
    if e.role = .compute then e.delegator.map (fun d => (d, e.amount)) else none)

/-- Pro-rata shares; the last delegator receives what is left. -/
def creditShares (delegatorTotal totalDelegated : Amount) :
    BlockCtx → Amount → List (Address × Amount) → Exec BlockCtx
  | ctx, _, [] => pure ctx
  | ctx, distributed, [(addr, _)] => pure (ctx.creditPositive addr (satSub delegatorTotal distributed))
  | ctx, distributed, (addr, stake) :: rest => do
    let share ← div (satMul delegatorTotal stake) totalDelegated
    creditShares delegatorTotal totalDelegated (ctx.creditPositive addr share)
      (satAdd distributed share) rest

def distributeToDelegators (ctx : BlockCtx) (computeAddr : Address) (delegatorTotal : Amount) :
    Exec BlockCtx :=
  if delegatorTotal = 0 then pure ctx
  else
    match ctx.state.iterValidators.find? (fun v => v.operator = computeAddr) with
    | none => pure (ctx.creditAddress computeAddr delegatorTotal)
    | some v =>
      let stakes := delegatorStakes ctx.state v.nodeId
      if stakes = [] then pure (ctx.creditAddress computeAddr delegatorTotal)
      else do
        let totalDelegated ← sum (stakes.map Prod.snd)
        if totalDelegated = 0 then pure (ctx.creditAddress computeAddr delegatorTotal)
        else creditShares delegatorTotal totalDelegated ctx 0 stakes

/-- What the loop over the pending rewards carries. -/
structure MintAcc where
  ctx : BlockCtx
  emission : EpochEmissionState
  totalMinted : Amount

/-- The reward one pending entry asks for. -/
def pendingBlockReward (perToken : Amount) (pr : PendingReward) : Exec Amount := do
  let baseReward ← computeBlockReward pr.outputTokens perToken .text 7 100 100 9500
  let stacked ← mul (widen width32_le_128 pr.teeMultiplierBps) (widen width32_le_128 pr.httpsMultiplierBps)
  let combinedMult ← div stacked 10000
  let scaled ← mul baseReward combinedMult
  div scaled 10000

/-- Pay out what was minted for one pending reward and delete its entry. -/
def payReward (ctx : BlockCtx) (pr : PendingReward) (minted : Amount) : Exec BlockCtx := do
  let dist ← distributeReward minted
  let ctx := ctx.creditPositive pr.computeAddr dist.compute
  let ctx := ctx.creditPositive pr.verifierAddr dist.verifier
  let ctx := ctx.creditPositive pr.treasuryAddr dist.treasury
  let ctx ← distributeToDelegators ctx pr.computeAddr dist.delegators
  pure (ctx.deletePendingReward pr.jobId)

def mintOne (perToken : Amount) (acc : MintAcc) (pr : PendingReward) : Exec MintAcc := do
  let blockReward ← pendingBlockReward perToken pr
  let (minted, emission) := acc.emission.tryMint blockReward
  if minted = 0 then pure { acc with emission := emission }
  else
    let ctx ← payReward acc.ctx pr minted
    pure ⟨ctx, emission, satAdd acc.totalMinted minted⟩

/-- The mint of an ending epoch, with the amount it minted. -/
def epochBoundaryMint (ctx : BlockCtx) (endingEpoch : U64) (currentHeight : Height) :
    Exec (BlockCtx × Amount) := do
  let pending := ctx.state.iterPendingRewardsForEpoch endingEpoch
  if pending = [] then pure (ctx, 0)
  else
    let totalTokens ← sum (pending.map (fun pr => widen width32_le_64 pr.outputTokens))
    let budget ← epochBudget (yearForHeight currentHeight)
    let emission : EpochEmissionState := ⟨epochForHeight currentHeight, budget, 0, 0⟩
    let perToken ← perTokenRate emission totalTokens
    let acc ← pending.foldlM (mintOne perToken) ⟨ctx, emission, 0⟩
    pure (acc.ctx, acc.totalMinted)

/-! ## Governance lifecycle -/

def returnDeposit (ctx : BlockCtx) (proposer : Address) (deposit : Amount) : BlockCtx :=
  if deposit = 0 then ctx else ctx.creditAddress proposer deposit

/-- The votes of a proposal, each weighted by the voter's balance. -/
def tallyVotes (ctx : BlockCtx) (id : U64) : Tally :=
  (ctx.state.iterVotesForProposal id).foldl
    (fun tally v => tally.addVote v.2 (ctx.account v.1).balance) .default

def advanceProposal (totalBonded : Amount) (now : Timestamp) (ctx : BlockCtx)
    (item : U64 × ProposalRecord) : Exec BlockCtx :=
  let (id, record) := item
  match record.phase with
  | .discussion =>
    if record.proposal.discussionEnds ≤ now then pure (ctx.setProposal id { record with phase := .voting })
    else pure ctx
  | .voting =>
    if now < record.proposal.votingEnds then pure ctx
    else do
      let outcome ← (tallyVotes ctx id).evaluate totalBonded
      match outcome with
      | .passed =>
        let ctx := returnDeposit ctx record.proposal.proposer record.proposal.deposit
        pure (ctx.setProposal id { record with phase := .passed })
      | .rejected =>
        let ctx := returnDeposit ctx record.proposal.proposer record.proposal.deposit
        pure (ctx.setProposal id { record with phase := .rejected })
      | .rejectedWithVeto => pure (ctx.setProposal id { record with phase := .rejectedWithVeto })
  | _ => pure ctx

def processGovernanceProposals (ctx : BlockCtx) (now : Timestamp) : Exec BlockCtx :=
  ctx.state.iterProposals.foldlM (advanceProposal ctx.state.totalBondedStake now) ctx

/-! ## Commit -/

/-- The hooks of an epoch boundary, with the amount minted. -/
def epochHooks (ctx : BlockCtx) (header : BlockHeader) : Exec (BlockCtx × Amount) :=
  if isEpochBoundary header.height then do
    let (ctx, _) ← recomputeValidatorSet ctx header.height
    let (ctx, minted) ← epochBoundaryMint ctx (satSub (epochForHeight header.height) 1) header.height
    let ctx ← processGovernanceProposals ctx header.timestampMs
    pure (ctx, minted)
  else pure (ctx, 0)

def gasOf : TxOutcome → Gas
  | .applied gasUsed => gasUsed
  | .rejected _ => 0

def totalGas (outcomes : List TxOutcome) : Gas :=
  outcomes.foldl (fun gasUsed o => satAdd gasUsed (gasOf o)) 0

/-- A context ready for the root comparison, what its transactions did and what was minted. -/
structure Replay where
  ctx : BlockCtx
  outcomes : List TxOutcome
  minted : Amount

def replayBlock (s : State) (b : Block) : Exec Replay := do
  let (ctx, outcomes) ← applyTxs K s.beginBlock b.txs
  let ctx ← b.txs.foldlM (dispatchSlash K) ctx
  let (ctx, minted) ← epochHooks ctx b.header
  let ctx := ctx.setCurrentHeight b.header.height
  let nextFee := (nextBaseFee b.header.baseFee (totalGas outcomes) TARGET_GAS_PER_BLOCK).getD b.header.baseFee
  pure ⟨ctx.setBaseFee nextFee, outcomes, minted⟩

/-- The store after the batch, with the block persisted and old blocks pruned. -/
def persist (ctx : BlockCtx) (b : Block) : State :=
  let s := ctx.commit.storeBlock (SignedTransaction.hash K) b.header.height b
  if BLOCK_RETENTION < b.header.height then
    s.pruneBlocksBefore (SignedTransaction.hash K) (b.header.height - BLOCK_RETENTION)
  else s

structure Committed where
  report : CommitReport
  state : State
  mempool : Mempool

def commitBlock (s : State) (mempool : Mempool) (b : Block) : Exec (Except CommitError Committed) := do
  let r ← replayBlock K s b
  let root := previewStateRoot K r.ctx
  if root ≠ b.header.stateRoot then pure (.error (.stateRootMismatch b.header.stateRoot root))
  else pure (.ok {
    report := ⟨root, totalGas r.outcomes, r.outcomes.countP TxOutcome.isApplied⟩
    state := persist K r.ctx b
    mempool := mempool.removeMany (b.txs.map (SignedTransaction.hash K)) })

end

end Arknet.Consensus
