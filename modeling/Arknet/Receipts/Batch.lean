import Arknet.Chain.Crypto

/-!
Receipt batches as a router makes them: staged in a builder, sealed under a Merkle root, wrapped in
a signed transaction. The borsh encoding of a batch is a parameter, and may fail.
-/

namespace Arknet.Receipts

open Machine Arknet.Chain

def RECEIPT_BATCH_MAX : Nat := 1000
def MAX_RECEIPT_BATCH_BYTES : Nat := 16 * 1024 * 1024

inductive ReceiptError where
  | empty
  | tooManyReceipts (count max : Nat)
  | oversize (actual max : Nat)
  | merkle (what : String)
  | encoding (what : String)
  deriving DecidableEq, Repr

def DOMAIN_RECEIPT_LEAF : List UInt8 := ascii "arknet-receipt-leaf-v1"

section

variable (K : Primitives)

def hashReceipt (r : InferenceReceipt) : Hash256 := K.sha256 (DOMAIN_RECEIPT_LEAF ++ K.borshReceipt r)

/-- The root of `MerkleTree::new`, with the error's text. -/
def merkleTreeRoot (leaves : List (List UInt8)) : Except String Hash256 :=
  if leaves = [] then .error "invalid input: cannot build Merkle tree over 0 leaves"
  else .ok (merkleRoot K leaves)

def computeMerkleRoot (receipts : List InferenceReceipt) : Except ReceiptError Hash256 :=
  if receipts = [] then .error .empty
  else (merkleTreeRoot K (receipts.map (fun r => (hashReceipt K r).toList))).mapError .merkle

def computeBatchId (receipts : List InferenceReceipt) : Hash256 :=
  K.blake3 (ascii "arknet-receipt-batch-id-v1" ++ receipts.flatMap K.borshReceipt)

end

/-! ## The builder -/

structure ReceiptBatchBuilder where
  aggregator : NodeId
  receipts : List InferenceReceipt

namespace ReceiptBatchBuilder

def new (aggregator : NodeId) : ReceiptBatchBuilder := ⟨aggregator, []⟩

def push (b : ReceiptBatchBuilder) (receipt : InferenceReceipt) :
    Except ReceiptError ReceiptBatchBuilder :=
  if RECEIPT_BATCH_MAX ≤ b.receipts.length then
    .error (.tooManyReceipts (b.receipts.length + 1) RECEIPT_BATCH_MAX)
  else .ok { b with receipts := b.receipts ++ [receipt] }

/-- A list of receipts staged one after the other. -/
def pushAll (b : ReceiptBatchBuilder) (receipts : List InferenceReceipt) :
    Except ReceiptError ReceiptBatchBuilder := receipts.foldlM push b

theorem pushAll_eq {b : ReceiptBatchBuilder} {receipts : List InferenceReceipt}
    (h : b.receipts.length + receipts.length ≤ RECEIPT_BATCH_MAX) :
    b.pushAll receipts = .ok { b with receipts := b.receipts ++ receipts } := by
  induction receipts generalizing b with
  | nil => simp [pushAll, pure, Except.pure]
  | cons r rs ih =>
    simp only [List.length_cons] at h
    have hpush : b.push r = .ok { b with receipts := b.receipts ++ [r] } := by
      rw [push, if_neg (by omega)]
    have hrest : ({ b with receipts := b.receipts ++ [r] } : ReceiptBatchBuilder).receipts.length +
        rs.length ≤ RECEIPT_BATCH_MAX := by
      simp only [List.length_append, List.length_singleton]
      omega
    have hall := ih hrest
    simp only [pushAll, List.foldlM_cons, hpush] at hall ⊢
    show rs.foldlM push _ = _
    rw [hall]
    simp

end ReceiptBatchBuilder

section

variable (K : Primitives) (borshBatch : ReceiptBatch → Except String (List UInt8))

/-- The size check, made when a batch is sealed and again when it is wrapped. -/
def checkBatchSize (batch : ReceiptBatch) : Except ReceiptError Unit := do
  let encoded ← (borshBatch batch).mapError .encoding
  if MAX_RECEIPT_BATCH_BYTES < encoded.length then
    .error (.oversize encoded.length MAX_RECEIPT_BATCH_BYTES)
  else .ok ()

def ReceiptBatchBuilder.seal (b : ReceiptBatchBuilder) (signature : Signature) :
    Except ReceiptError ReceiptBatch :=
  if b.receipts = [] then .error .empty
  else do
    let merkleRoot ← computeMerkleRoot K b.receipts
    let batch : ReceiptBatch := ⟨computeBatchId K b.receipts, b.receipts, merkleRoot, b.aggregator, signature⟩
    checkBatchSize borshBatch batch
    .ok batch

/-- The batch in a transaction whose hash the caller signs. -/
def buildAnchorTx (batch : ReceiptBatch) (signerPubkey : PubKey) (signHash : Hash256 → Signature) :
    Except ReceiptError SignedTransaction := do
  checkBatchSize borshBatch batch
  let tx := Transaction.receiptBatch batch
  .ok ⟨tx, signerPubkey, signHash (tx.hash K)⟩

/-! ## What a sealed batch carries -/

/-- The encoding the size check of a batch accepts. -/
def BatchFits (batch : ReceiptBatch) : Prop :=
  ∃ encoded, borshBatch batch = .ok encoded ∧ encoded.length ≤ MAX_RECEIPT_BATCH_BYTES

theorem checkBatchSize_eq_ok {batch : ReceiptBatch} :
    checkBatchSize borshBatch batch = .ok () ↔ BatchFits borshBatch batch := by
  unfold checkBatchSize BatchFits
  cases h : borshBatch batch with
  | error e => simp [Except.mapError, bind, Except.bind]
  | ok encoded =>
    by_cases hlen : MAX_RECEIPT_BATCH_BYTES < encoded.length
    · simp [Except.mapError, bind, Except.bind, hlen]
    · simp [Except.mapError, bind, Except.bind, hlen]
      omega

/-- The builder and the chain hash the same leaves. -/
theorem computeMerkleRoot_eq {receipts : List InferenceReceipt} (hne : receipts ≠ []) :
    computeMerkleRoot K receipts = .ok (receiptMerkleRoot K receipts) := by
  have hleaves : receipts.map (fun r => (hashReceipt K r).toList) ≠ [] := by simpa using hne
  rw [computeMerkleRoot, if_neg hne, merkleTreeRoot, if_neg hleaves]
  rfl

/-- What `seal` returns for these receipts, size permitting. -/
def sealed (aggregator : NodeId) (receipts : List InferenceReceipt) (signature : Signature) :
    ReceiptBatch :=
  ⟨computeBatchId K receipts, receipts, receiptMerkleRoot K receipts, aggregator, signature⟩

theorem seal_eq {b : ReceiptBatchBuilder} (signature : Signature) (hne : b.receipts ≠ [])
    (hfit : BatchFits borshBatch (sealed K b.aggregator b.receipts signature)) :
    b.seal K borshBatch signature = .ok (sealed K b.aggregator b.receipts signature) := by
  have hsize := (checkBatchSize_eq_ok borshBatch).mpr hfit
  rw [ReceiptBatchBuilder.seal, if_neg hne, computeMerkleRoot_eq K hne]
  show (checkBatchSize borshBatch (sealed K b.aggregator b.receipts signature) >>= fun _ => _) = _
  rw [hsize]
  rfl

end

end Arknet.Receipts
