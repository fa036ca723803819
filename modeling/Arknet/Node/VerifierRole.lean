import Arknet.Node.ComputeRole
import Arknet.Verifier.Selection
import Arknet.Verifier.Reexec

/-!
The verifier role. It waits for a finalized block, looks through the receipts in it and asks for the next
block when it is done; what is finalized in between reaches nobody, since each wait is a subscription of
its own.
-/

namespace Arknet.Node

open Machine Arknet.Chain Arknet.Verifier

/-- What the role signs as. -/
structure VerifierIdentity where
  nodeId : NodeId
  reporter : Address
  sk : SigningKey

theorem address_fits : 20 ≤ 32 := by decide

section

variable (K : Primitives)

/-- From the path of the data directory; `fromSeed` is that of the Ed25519 crate. -/
def VerifierIdentity.ofDataDir (fromSeed : Hash256 → SigningKey) (dataDir : List UInt8) : VerifierIdentity where
  nodeId := K.blake3 dataDir
  reporter := (K.blake3 dataDir).take 20 address_fits
  sk := fromSeed (K.blake3 dataDir)

/-- `EngineReexecutor::reexecute`; `load` gives the digest of a model. Without the prompt nothing is run. -/
def engineReexecutor (load : ModelRef → Except String Hash256) : Reexecutor := fun receipt =>
  match ModelRef.parse receipt.modelId with
  | .error e => .error (.reexecFailed ("bad model ref: " ++ e))
  | .ok modelRef =>
    match load modelRef with
    | .error e => .error (.reexecFailed ("model load: " ++ e))
    | .ok loadedHash =>
      if loadedHash ≠ receipt.modelHash then
        .error (.reexecFailed ("model hash mismatch: receipt claims " ++ receipt.modelHash.hexEncode ++
          ", loaded file is " ++ loadedHash.hexEncode))
      else .error (.reexecFailed "prompt not available for re-execution (model hash verified)")

variable (backend : Reexecutor) (role : VerifierIdentity)

/-- One receipt: the dispute to submit, if there is one. -/
def inspectReceipt (blockHash : BlockHash) (receipt : InferenceReceipt) : Option SignedTransaction :=
  let sel := selectVerifier K role.sk receipt.jobId blockHash DEFAULT_SAMPLING_RATE
  if !sel.selected then none
  else
    match verifyReceipt K backend receipt with
    | .error _ => none
    | .ok .verified => none
    | .ok (.diverged reexecOutputHash reexecProof) =>
      (buildAndSignDispute K receipt reexecOutputHash reexecProof role.nodeId role.reporter sel.proof
        role.sk).toOption

/-- The receipts of a block, in order. -/
def blockReceipts (block : Block) : List InferenceReceipt :=
  block.txs.flatMap fun stx =>
    match stx.tx with
    | .receiptBatch batch => batch.receipts
    | _ => []

/-- The body of the loop: the calls of `submit_tx`. -/
def inspectBlock (block : Block) : List SignedTransaction :=
  (blockReceipts block).filterMap (inspectReceipt K backend role (block.hash K))

/-- The engine announces a block, or the role waits for the next one. -/
inductive RoleEvent where
  | finalized (block : Block)
  | waits

/-- Whether the role has a subscription, and what it has submitted. -/
structure VerifierRole where
  subscribed : Bool
  submitted : List SignedTransaction

def VerifierRole.start : VerifierRole := ⟨false, []⟩

/-- A block that nobody waits for is dropped by the channel. -/
def VerifierRole.step (s : VerifierRole) : RoleEvent → VerifierRole
  | .waits => { s with subscribed := true }
  | .finalized block =>
    if s.subscribed then ⟨false, s.submitted ++ inspectBlock K backend role block⟩ else s

def VerifierRole.run (events : List RoleEvent) : VerifierRole :=
  events.foldl (VerifierRole.step K backend role) .start

end

end Arknet.Node
