import Arknet.Inference.Session
import Arknet.Verifier.Dispute

/-!
Re-execution of a job by a verifier. The backend that runs the job again is a parameter.
-/

namespace Arknet.Verifier

open Arknet.Chain Arknet.Inference

def DOMAIN_HASHCHAIN : List UInt8 := ascii "arknet-hashchain-v1"

section

variable (K : Primitives)

/-- The chain of an output: the job's seed, then the whole text at once. -/
def rebuildHashChain (jobId : JobId) (tokensText : String) : List Hash256 :=
  let seed := K.blake3 (DOMAIN_HASHCHAIN ++ jobId.toList)
  [seed, K.blake3 (DOMAIN_HASHCHAIN ++ seed.toList ++ utf8 tokensText)]

inductive Verdict where
  | verified
  | diverged (reexecOutputHash : Hash256) (reexecProof : ComputeProof)
  deriving DecidableEq, Repr

abbrev Reexecutor := InferenceReceipt → Except VerifierError String

/-- The head of `rebuild_hash_chain`. -/
def rederivedHead (jobId : JobId) (tokensText : String) : Hash256 :=
  (rebuildHashChain K jobId tokensText).getLastD 0

def verifyReceipt (backend : Reexecutor) (receipt : InferenceReceipt) : Except VerifierError Verdict :=
  match receipt.computeProof with
  | .hashChain _ => do
    let text ← backend receipt
    let head := rederivedHead K receipt.jobId text
    if head = receipt.outputHash then .ok .verified
    else .ok (.diverged head (.hashChain (rebuildHashChain K receipt.jobId text)))
  | _ => .error .unsupportedProof

end

end Arknet.Verifier
