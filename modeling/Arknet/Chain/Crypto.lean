import Arknet.Chain.State

/-!
The primitives that come from third-party crates are parameters: the two hash functions, Ed25519
verification, the borsh encodings and the sparse-Merkle root of the account column. What the
repository builds from them (addresses, transaction and header hashes, signature dispatch, the
receipt Merkle tree) is defined here.
-/

namespace Arknet.Chain

structure Primitives where
  blake3 : List UInt8 → Hash256
  sha256 : List UInt8 → Hash256
  /-- `vk.verify(message, sig)` for 32 key bytes and 64 signature bytes. -/
  ed25519Verify : List UInt8 → List UInt8 → List UInt8 → Bool
  borshTransaction : Transaction → List UInt8
  borshSignedTransaction : SignedTransaction → List UInt8
  borshHeader : BlockHeader → List UInt8
  borshReceipt : InferenceReceipt → List UInt8
  smtRoot : Store.Column Address Account → StateRoot

def ascii (s : String) : List UInt8 := s.toList.map (fun c => UInt8.ofNat c.toNat)

def DOMAIN_TX : List UInt8 := ascii "arknet-tx-v1"
def DOMAIN_BLOCK : List UInt8 := ascii "arknet-block-v1"
def DOMAIN_TX_ROOT : List UInt8 := ascii "arknet-tx-root-v1"
def DOMAIN_RECEIPT_ROOT : List UInt8 := ascii "arknet-receipt-root-v1"

section

variable (K : Primitives)

def Transaction.hash (tx : Transaction) : TxHash := K.blake3 (DOMAIN_TX ++ K.borshTransaction tx)

/-- The hash of the inner transaction: the signer is not part of it. -/
def SignedTransaction.hash (stx : SignedTransaction) : TxHash := stx.tx.hash K

def SignedTransaction.encodedLen (stx : SignedTransaction) : Nat :=
  (K.borshSignedTransaction stx).length

def BlockHeader.hash (h : BlockHeader) : BlockHash := K.blake3 (DOMAIN_BLOCK ++ K.borshHeader h)

def Block.hash (b : Block) : BlockHash := b.header.hash K

private def linearRoot (domain : List UInt8) (leaves : List Hash256) : Hash256 :=
  K.blake3 (domain ++ leaves.flatMap Bytes.toList)

def txRoot (txHashes : List Hash256) : Hash256 := linearRoot K DOMAIN_TX_ROOT txHashes

def receiptRoot (receiptHashes : List Hash256) : Hash256 :=
  linearRoot K DOMAIN_RECEIPT_ROOT receiptHashes

/-! ## Addresses -/

def deriveAddressFromSigner (signer : PubKey) : Address := (K.blake3 signer.bytes).take 20 (by omega)

def nodeIdToAddress (node : NodeId) : Address := (K.blake3 node.toList).take 20 (by omega)

/-- `bootstrap_treasury_address` of the apply layer, `genesis_treasury_address` of the commit path. -/
def bootstrapTreasuryAddress : Address :=
  (K.blake3 (ascii "arknet-treasury-v1")).take 20 (by omega)

/-! ## Signatures -/

def verify (pubkey : PubKey) (message : List UInt8) (sig : Signature) : Bool :=
  if pubkey.scheme ≠ sig.scheme then false
  else
    match pubkey.scheme with
    | .ed25519 =>
      pubkey.bytes.length = 32 && sig.bytes.length = 64 &&
        K.ed25519Verify pubkey.bytes message sig.bytes
    | _ => false

def PubKey.ed25519 (bytes : Bytes 32) : PubKey := ⟨.ed25519, bytes.toList⟩

def Signature.ed25519 (bytes : Bytes 64) : Signature := ⟨.ed25519, bytes.toList⟩

/-- A local key: its verifying key and the raw signing function of the Ed25519 crate. -/
structure SigningKey where
  verifyingKey : Bytes 32
  signRaw : List UInt8 → Bytes 64

def SigningKey.toPubkey (sk : SigningKey) : PubKey := PubKey.ed25519 sk.verifyingKey

def sign (sk : SigningKey) (message : List UInt8) : Signature := Signature.ed25519 (sk.signRaw message)

/-- The signature of a transaction is over its hash. -/
def SignedTransaction.verifies (stx : SignedTransaction) : Bool :=
  verify K stx.signer (stx.hash K).toList stx.signature

/-! ## Receipt Merkle tree -/

def hashLeaf (bytes : List UInt8) : Hash256 := K.sha256 (0x00 :: bytes)

def hashNode (left right : Hash256) : Hash256 :=
  K.sha256 (0x01 :: (left.toList ++ right.toList))

/-- One layer up: an odd last node is paired with itself. -/
def merkleLayer : List Hash256 → List Hash256
  | [] => []
  | [a] => [hashNode K a a]
  | a :: b :: rest => hashNode K a b :: merkleLayer rest

/-- The root over leaf hashes; the layers shrink, so their number is a bound on the rounds. -/
def merkleRootFrom : Nat → List Hash256 → Hash256
  | 0, layer => layer.headD default
  | fuel + 1, layer =>
    if layer.length ≤ 1 then layer.headD default else merkleRootFrom fuel (merkleLayer K layer)

def merkleRoot (leaves : List (List UInt8)) : Hash256 :=
  merkleRootFrom K leaves.length (leaves.map (hashLeaf K))

/-- The root `apply_receipt_batch` recomputes. -/
def receiptMerkleRoot (receipts : List InferenceReceipt) : Hash256 :=
  merkleRoot K (receipts.map (fun r =>
    (K.sha256 (ascii "arknet-receipt-leaf-v1" ++ K.borshReceipt r)).toList))

end

/-! ## A concrete instance

Hashes are base-257 numerals, a signature verifies when it repeats the key, and a transaction is
encoded by its variant, its nonce and its amount. -/

def numeral (n : Nat) (bs : List UInt8) : Bytes n :=
  ⟨⟨bs.foldl (fun acc b => acc * 257 + b.toNat + 1) 0 % 256 ^ n, Nat.mod_lt _ (byteStrings_pos n)⟩⟩

def encodeNats (xs : List Nat) : List UInt8 :=
  xs.flatMap (fun n => (List.range 4).map (fun i => UInt8.ofNat (n / 256 ^ i)))

def encodeTransaction : Transaction → List UInt8
  | .transfer src _ amount nonce fee => encodeNats [0, src.val, amount, nonce, fee]
  | .stakeOp _ => encodeNats [1]
  | .receiptBatch batch => encodeNats [2, batch.batchId.val]
  | .registerModel _ registrar deposit => encodeNats [3, registrar.val, deposit]
  | .govProposal p => encodeNats [4, p.proposalId]
  | .govVote proposalId voter _ => encodeNats [5, proposalId, voter.val]
  | .dispute d => encodeNats [6, d.jobId.val]
  | .escrowLock src jobId amount nonce fee => encodeNats [7, src.val, jobId.val, amount, nonce, fee]
  | .escrowSettle jobId .. => encodeNats [8, jobId.val]
  | .rewardMint jobId .. => encodeNats [9, jobId.val]
  | .registerTeeCapability nodeId .. => encodeNats [10, nodeId.val]
  | .registerGateway nodeId .. => encodeNats [11, nodeId.val]
  | .unregisterGateway nodeId _ => encodeNats [12, nodeId.val]

def toyPrimitives : Primitives where
  blake3 := numeral 32
  sha256 := numeral 32
  ed25519Verify := fun key _ sig => sig == key ++ key
  borshTransaction := encodeTransaction
  borshSignedTransaction := fun stx => encodeTransaction stx.tx ++ stx.signer.bytes ++ stx.signature.bytes
  borshHeader := fun h => encodeNats [h.height, h.timestampMs, h.stateRoot.val, h.txRoot.val]
  borshReceipt := fun r => encodeNats [r.jobId.val, r.outputTokenCount]
  smtRoot := fun accounts => ⟨⟨accounts.entries.foldl
    (fun acc e => acc * 65537 + e.1.val.val * 257 + e.2.balance.val * 17 + e.2.nonce.val + 1) 0 % 256 ^ 32,
    Nat.mod_lt _ (byteStrings_pos 32)⟩⟩

end Arknet.Chain
