import Arknet.Consensus.Commit

/-!
The proposer's path: drain the pool, keep what applies, refund the expired escrows, preview the
root. The context is dropped afterwards; only the block leaves.
-/

namespace Arknet.Consensus

open Machine Arknet.Chain

structure BuildParams where
  chainId : String
  version : U32
  parentHash : BlockHash
  validatorSetHash : Hash256
  proposer : NodeId
  baseFee : Amount
  gasLimit : Gas
  bytesBudget : Nat
  genesisMessage : String

structure BuiltBlock where
  block : Block
  drained : List SignedTransaction
  mempool : Mempool

section

variable (K : Primitives)

/-- The drained transactions that apply, in order, and the context they leave. -/
def includeTxs : BlockCtx → List SignedTransaction → Exec (BlockCtx × List SignedTransaction)
  | ctx, [] => pure (ctx, [])
  | ctx, stx :: rest => do
    let (ctx, outcome) ← applyTx K ctx stx
    let (ctx, included) ← includeTxs ctx rest
    pure (ctx, if outcome.isApplied then stx :: included else included)

def isExpired (height : Height) (entry : EscrowEntry) : Bool :=
  entry.state = .locked && satAdd entry.createdAt ESCROW_TIMEOUT_BLOCKS ≤ height

def refundEscrow (height : Height) (ctx : BlockCtx) (item : JobId × EscrowEntry) : BlockCtx :=
  if isExpired height item.2 then
    (ctx.creditAddress item.2.user item.2.amount).deleteEscrow item.1
  else ctx

/-- The scan goes over the committed escrows. -/
def refundExpiredEscrows (ctx : BlockCtx) (height : Height) : BlockCtx :=
  ctx.state.iterEscrows.foldl (refundEscrow height) ctx

/-- `now` is the proposer's clock. -/
def build (s : State) (mempool : Mempool) (height : Height) (params : BuildParams) (now : Timestamp) :
    Exec BuiltBlock := do
  let d := mempool.drainForBlock params.gasLimit params.bytesBudget
  let (ctx, included) ← includeTxs K s.beginBlock d.picked
  let ctx := refundExpiredEscrows ctx height
  let header : BlockHeader := {
    version := params.version
    chainId := params.chainId
    height := height
    timestampMs := now
    parentHash := params.parentHash
    stateRoot := previewStateRoot K ctx
    txRoot := txRoot K (included.map (SignedTransaction.hash K))
    receiptRoot := receiptRoot K []
    proposer := params.proposer
    validatorSetHash := params.validatorSetHash
    baseFee := params.baseFee
    genesisMessage := params.genesisMessage }
  pure ⟨⟨header, included, []⟩, d.picked, d.mempool⟩

end

end Arknet.Consensus
