import Arknet.Chain.Crypto

/-!
The receipt a compute node gossips when a job is done. The node signs nothing: keys and signatures
are zero bytes.
-/

namespace Arknet.Node

open Machine Arknet.Chain

/-! ## Model references -/

inductive GgufQuant where
  | f32 | f16 | q4KM | q4KS | q5KM | q8_0
  deriving DecidableEq, Repr

def GgufQuant.asStr : GgufQuant → String
  | .f32 => "F32"
  | .f16 => "F16"
  | .q4KM => "Q4_K_M"
  | .q4KS => "Q4_K_S"
  | .q5KM => "Q5_K_M"
  | .q8_0 => "Q8_0"

/-- `to_uppercase`: of the letters outside ASCII only the long s has a capital that occurs in a tag. -/
def toUppercase (s : String) : String :=
  .ofList (s.toList.map fun c => if c = 'ſ' then 'S' else c.toUpper)

def GgufQuant.parse (s : String) : Option GgufQuant :=
  match toUppercase s with
  | "F32" => some .f32
  | "F16" => some .f16
  | "Q4_K_M" => some .q4KM
  | "Q4_K_S" => some .q4KS
  | "Q5_K_M" => some .q5KM
  | "Q8_0" => some .q8_0
  | _ => none

structure ModelRef where
  org : String
  name : String
  quant : GgufQuant
  deriving DecidableEq, Repr

/-- `split_once`. -/
def splitOnce (s : List Char) (c : Char) : Option (List Char × List Char) :=
  if c ∈ s then some (s.takeWhile (· ≠ c), (s.dropWhile (· ≠ c)).tail) else none

/-- `rsplit_once`. -/
def rsplitOnce (s : List Char) (c : Char) : Option (List Char × List Char) :=
  (splitOnce s.reverse c).map fun p => (p.2.reverse, p.1.reverse)

/-- The last segment after a dash is the quantization. -/
def ModelRef.parse (s : String) : Except String ModelRef :=
  match splitOnce s.toList '/' with
  | none => .error ("model ref missing '/': " ++ s)
  | some (org, rest) =>
    match rsplitOnce rest '-' with
    | none => .error ("model ref missing '-<QUANT>' suffix: " ++ s)
    | some (name, quantStr) =>
      match GgufQuant.parse (.ofList quantStr) with
      | none => .error ("unknown quantization tag: " ++ .ofList quantStr)
      | some quant => .ok ⟨.ofList org, .ofList name, quant⟩

def ModelRef.toString (m : ModelRef) : String := m.org ++ "/" ++ m.name ++ "-" ++ m.quant.asStr

/-! ## The receipt -/

/-- `to_le_bytes` of an `n`-byte number. -/
def leBytes (n k : Nat) : List UInt8 := (List.range n).map (fun i => UInt8.ofNat (k / 256 ^ i))

/-- What the node knows of a finished job. -/
structure FinishedJob where
  jobId : JobId
  poolId : PoolId
  billingAddr : Address
  modelHash : Hash256
  modelRef : ModelRef
  promptLen : U64
  seed : U64
  outputTokens : U32
  startMs : Timestamp
  endMs : Timestamp
  deriving DecidableEq, Repr

section

variable (K : Primitives) (localPeer : List UInt8)

/-- `NodeId::new(blake3(peer id))`. -/
def computeNodeId : NodeId := K.blake3 localPeer

def jobReceipt (job : FinishedJob) : InferenceReceipt where
  jobId := job.jobId
  poolId := job.poolId
  modelId := job.modelRef.toString
  modelHash := job.modelHash
  quantization := .q8_0
  userAddress := job.billingAddr
  routerNode := computeNodeId K localPeer
  computeNode := computeNodeId K localPeer
  backupNode := none
  inputHash := K.blake3 (leBytes 8 job.promptLen.val)
  outputHash := K.blake3 (leBytes 4 job.outputTokens.val)
  daReference := none
  inputTokenCount := truncate 32 (job.promptLen.val / 4)
  outputTokenCount := job.outputTokens
  latencyMs := truncate 32 (satSub job.endMs job.startMs).val
  totalTimeMs := truncate 32 (satSub job.endMs job.startMs).val
  seed := job.seed
  computeProof := .hashChain []
  teeAttestation := none
  verificationTier := .optimistic
  promptEncrypted := false
  timestampStart := job.startMs
  timestampEnd := job.endMs
  computeSignature := Signature.ed25519 0
  userSignature := Signature.ed25519 0

/-- The batch of one receipt: its hash is both the id and the root. -/
def jobBatch (job : FinishedJob) : ReceiptBatch where
  batchId := K.blake3 (K.borshReceipt (jobReceipt K localPeer job))
  receipts := [jobReceipt K localPeer job]
  merkleRoot := K.blake3 (K.borshReceipt (jobReceipt K localPeer job))
  aggregator := computeNodeId K localPeer
  signature := Signature.ed25519 0

/-- The transaction `submit_receipt` publishes. -/
def submitReceipt (job : FinishedJob) : SignedTransaction :=
  ⟨.receiptBatch (jobBatch K localPeer job), PubKey.ed25519 0, Signature.ed25519 0⟩

end

end Arknet.Node
