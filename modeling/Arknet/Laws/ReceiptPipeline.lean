import Arknet.Receipts.Batch
import Arknet.Node.ComputeRole
import Arknet.Laws.BuildAgreement
import Arknet.Laws.PendingRewards

/-!
From a router's builder to the chain. A sealed batch carries the root the chain recomputes; the pool
has no lane for batches, so it reaches the chain in a block or not at all.
-/

namespace Arknet.Laws

open Machine Store Arknet.Chain Arknet.Consensus Arknet.Receipts

section

variable {K : Primitives}

/-! ## The pool -/

/-- The refusal of a transaction whose kind the pool does not take: its size is looked at first. -/
def unpooled (K : Primitives) (stx : SignedTransaction) (e : MempoolError) : MempoolError :=
  if MAX_SIGNED_TX_BYTES < stx.encodedLen K then .oversize (stx.encodedLen K) MAX_SIGNED_TX_BYTES else e

theorem insert_unpooled {stx : SignedTransaction} {e : MempoolError}
    (h : extractSenderNonceFee stx.tx = .error e) (m : Mempool) :
    m.insert K stx = .ok (m, .error (unpooled K stx e)) := by
  unfold Mempool.insert unpooled
  split
  · rename_i e' he
    obtain rfl : e' = e := by
      rw [he] at h
      cases h
      rfl
    by_cases hsize : MAX_SIGNED_TX_BYTES < stx.encodedLen K
    · simp [hsize, pure, Except.pure]
    · simp [hsize, pure, Except.pure]
  · rename_i he
    rw [he] at h
    cases h

/-- What the pool refuses, a proposer never draws from it. -/
theorem not_drained {stx : SignedTransaction} {e : MempoolError}
    (h : extractSenderNonceFee stx.tx = .error e) (m : Mempool) (maxGas : Gas) (maxBytes : Nat) :
    stx ∉ (m.drainForBlock maxGas maxBytes).picked := by
  intro hmem
  obtain ⟨r, hr⟩ := drainForBlock_pooled m maxGas maxBytes stx hmem
  rw [hr] at h
  cases h

/-! ## The chain -/

/-- A batch with its own root and fresh distinct jobs is applied. -/
theorem applyReceiptBatch_applies {ctx : BlockCtx} {batch : ReceiptBatch} (height : Height)
    (hne : batch.receipts ≠ []) (hroot : receiptMerkleRoot K batch.receipts = batch.merkleRoot)
    (hdistinct : (batch.receipts.map InferenceReceipt.jobId).Nodup)
    (hfresh : ∀ r ∈ batch.receipts, ctx.isReceiptSeen r.jobId = false) :
    ∃ ctx', applyReceiptBatch K ctx batch height =
      .ok (ctx', .applied (satMul RECEIPT_ANCHOR_GAS_PER_RECEIPT (truncate 64 batch.receipts.length))) := by
  have hmarks : (markReceipts ctx height batch.receipts).2 = none :=
    markReceipts_accepts.mpr ⟨hdistinct, hfresh⟩
  rw [applyReceiptBatch, if_neg hne, if_neg (by simpa using hroot)]
  cases h : markReceipts ctx height batch.receipts with
  | mk ctx' job =>
    rw [h] at hmarks
    cases hmarks
    exact ⟨_, rfl⟩

/-- A sealed batch passes the chain's Merkle check and, its jobs distinct and not anchored, is
applied in whichever transaction carries it. The pool takes no batch, the builder's or another, and
a proposer draws none from it. -/
theorem batch_pipeline (K : Primitives) (borshBatch : ReceiptBatch → Except String (List UInt8))
    (aggregator : NodeId) (signature : Signature) (receipts : List InferenceReceipt)
    (hne : receipts ≠ []) (hmax : receipts.length ≤ RECEIPT_BATCH_MAX)
    (hfit : BatchFits borshBatch (sealed K aggregator receipts signature))
    (hdistinct : (receipts.map InferenceReceipt.jobId).Nodup) :
    (∃ builder batch, (ReceiptBatchBuilder.new aggregator).pushAll receipts = .ok builder ∧
      builder.seal K borshBatch signature = .ok batch ∧ batch.receipts = receipts ∧
      receiptMerkleRoot K batch.receipts = batch.merkleRoot ∧
      ∀ (ctx : BlockCtx) (stx : SignedTransaction), stx.tx = .receiptBatch batch →
        (∀ r ∈ receipts, ctx.isReceiptSeen r.jobId = false) →
        ∃ ctx', applyTx K ctx stx = .ok (ctx', .applied
          (satMul RECEIPT_ANCHOR_GAS_PER_RECEIPT (truncate 64 receipts.length)))) ∧
    (∀ (stx : SignedTransaction) (batch : ReceiptBatch), stx.tx = .receiptBatch batch →
      ∀ m : Mempool,
        m.insert K stx =
          .ok (m, .error (unpooled K stx (.unsupported "ReceiptBatch (Week 11 mempool lane)"))) ∧
        ∀ maxGas maxBytes, stx ∉ (m.drainForBlock maxGas maxBytes).picked) := by
  refine ⟨⟨⟨aggregator, receipts⟩, sealed K aggregator receipts signature, ?_, ?_, rfl, rfl, ?_⟩, ?_⟩
  · have hroom : (ReceiptBatchBuilder.new aggregator).receipts.length + receipts.length ≤
        RECEIPT_BATCH_MAX := by
      show 0 + receipts.length ≤ RECEIPT_BATCH_MAX
      omega
    rw [ReceiptBatchBuilder.pushAll_eq hroom]
    rfl
  · exact seal_eq K borshBatch signature hne hfit
  · intro ctx stx htx hfresh
    rw [applyTx, htx]
    exact applyReceiptBatch_applies _ hne rfl hdistinct hfresh
  · intro stx batch htx m
    have hkind : extractSenderNonceFee stx.tx =
        .error (.unsupported "ReceiptBatch (Week 11 mempool lane)") := by
      rw [htx]
      rfl
    exact ⟨insert_unpooled hkind m, not_drained hkind m⟩

end

/-! ## Two receipts and a job -/

def receiptOf (job : JobId) : InferenceReceipt := { freeReceipt with jobId := job }

/-- A stand-in for the encoding of a batch: its receipts'. -/
def toyBorshBatch (batch : ReceiptBatch) : Except String (List UInt8) :=
  .ok (batch.receipts.flatMap toyPrimitives.borshReceipt)

theorem toyBatch_fits : BatchFits toyBorshBatch
    (sealed toyPrimitives 1 [receiptOf 5, receiptOf 6] (Signature.ed25519 0)) :=
  ⟨_, rfl, by decide⟩

theorem batch_pipeline_two : ∃ builder batch,
    (ReceiptBatchBuilder.new 1).pushAll [receiptOf 5, receiptOf 6] = .ok builder ∧
      builder.seal toyPrimitives toyBorshBatch (Signature.ed25519 0) = .ok batch ∧
      ∃ ctx', applyTx toyPrimitives State.empty.beginBlock
          ⟨.receiptBatch batch, PubKey.ed25519 0, Signature.ed25519 0⟩ = .ok (ctx', .applied 40000) := by
  obtain ⟨⟨builder, batch, hpush, hseal, -, -, happly⟩, -⟩ :=
    batch_pipeline toyPrimitives toyBorshBatch 1 (Signature.ed25519 0) [receiptOf 5, receiptOf 6]
      (by decide) (by decide) toyBatch_fits (by decide)
  exact ⟨builder, batch, hpush, hseal, happly State.empty.beginBlock _ rfl (by decide)⟩

/-- The node's own batch for a job of four tokens. -/
def servedJob : Node.FinishedJob where
  jobId := 5
  poolId := 1
  billingAddr := 7
  modelHash := 3
  modelRef := ⟨"org", "model", .q8_0⟩
  promptLen := 12
  seed := 0
  outputTokens := 4
  startMs := 1000
  endMs := 1500

set_option maxRecDepth 2000 in
theorem servedJob_returns : (applyTx toyPrimitives State.empty.beginBlock
    (Node.submitReceipt toyPrimitives [1, 2] servedJob)).toOption.isSome = true := by decide

set_option maxRecDepth 2000 in
/-- The pool refuses a batch the builder sealed, of a few bytes; the chain rejects the batch the
node submits itself. -/
theorem batch_pipeline_broken :
    (∃ builder batch, (ReceiptBatchBuilder.new 1).pushAll [receiptOf 5, receiptOf 6] = .ok builder ∧
      builder.seal toyPrimitives toyBorshBatch (Signature.ed25519 0) = .ok batch ∧
      (SignedTransaction.mk (.receiptBatch batch) (PubKey.ed25519 0) (Signature.ed25519 0)).encodedLen
        toyPrimitives ≤ MAX_SIGNED_TX_BYTES ∧
      ∀ m : Mempool, m.insert toyPrimitives
          ⟨.receiptBatch batch, PubKey.ed25519 0, Signature.ed25519 0⟩ =
        .ok (m, .error (.unsupported "ReceiptBatch (Week 11 mempool lane)"))) ∧
    ∃ out, applyTx toyPrimitives State.empty.beginBlock
        (Node.submitReceipt toyPrimitives [1, 2] servedJob) = .ok out ∧
      out.2 = .rejected .receiptMerkleMismatch := by
  refine ⟨⟨⟨1, [receiptOf 5, receiptOf 6]⟩, _, rfl,
    seal_eq toyPrimitives toyBorshBatch (Signature.ed25519 0) (by decide) toyBatch_fits, by decide,
    fun m => ?_⟩, _, eq_ok_returned servedJob_returns, by decide⟩
  exact insert_unpooled rfl m

end Arknet.Laws
