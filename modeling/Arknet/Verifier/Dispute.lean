import Arknet.Chain.Crypto

/-!
The dispute a verifier builds when its own run of a job gave another output.
-/

namespace Arknet.Verifier

open Arknet.Chain

inductive VerifierError where
  | nonDeterministic
  | notSelected
  | reexecFailed (what : String)
  | signing (what : String)
  | unsupportedProof
  | internal (what : String)
  deriving DecidableEq, Repr

/-- A VRF proof is a signature. -/
structure VrfProof where
  signature : Signature
  deriving DecidableEq, Repr

section

variable (K : Primitives)

def buildDispute (receipt : InferenceReceipt) (reexecOutputHash : Hash256) (reexecProof : ComputeProof)
    (verifierNode : NodeId) (reporter : Address) (vrfProof : VrfProof) (verifierPubkey : PubKey)
    (signHash : Hash256 → Signature) : Except VerifierError SignedTransaction :=
  if receipt.outputHash = reexecOutputHash then
    .error (.internal "cannot build dispute when output hashes match")
  else
    let tx := Transaction.dispute {
      jobId := receipt.jobId
      computeNode := receipt.computeNode
      claimedOutputHash := receipt.outputHash
      reexecOutputHash := reexecOutputHash
      verifier := verifierNode
      reporter := reporter
      vrfProof := vrfProof.signature.bytes
      reexecProof := reexecProof }
    .ok ⟨tx, verifierPubkey, signHash (tx.hash K)⟩

def buildAndSignDispute (receipt : InferenceReceipt) (reexecOutputHash : Hash256)
    (reexecProof : ComputeProof) (verifierNode : NodeId) (reporter : Address) (vrfProof : VrfProof)
    (sk : SigningKey) : Except VerifierError SignedTransaction :=
  buildDispute K receipt reexecOutputHash reexecProof verifierNode reporter vrfProof sk.toPubkey
    (fun h => sign sk h.toList)

end

end Arknet.Verifier
