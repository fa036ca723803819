import Arknet.Compute.Wire
import Arknet.Router.Failover

/-!
What the router checks of a request before it is dispatched.
-/

namespace Arknet.Router

open Machine Arknet.Chain Arknet.Compute

/-- The `Debug` form. -/
def schemeName : SignatureScheme → String
  | .ed25519 => "Ed25519"
  | .dilithium => "Dilithium"
  | .falcon => "Falcon"
  | .sphincs => "Sphincs"
  | .hybridEd25519Dilithium => "HybridEd25519Dilithium"

section

variable (K : Primitives)

/-- The certificate names the key of the request and stands on its own. -/
def verifyDelegated (req : InferenceJobRequest) (nowMs : Timestamp) :
    Exec (Except RouterError Unit) :=
  match req.delegation with
  | none => .ok (.ok ())
  | some cert =>
    if cert.sessionPubkey ≠ req.userPubkey then
      .ok (.error (.badRequest "delegation session_pubkey does not match request user_pubkey"))
    else do
      let checked ← verifyDelegation K cert nowMs
      return checked.mapError fun e => .badRequest ("delegation: " ++ e)

def verifyRequest (req : InferenceJobRequest) (nowMs : Timestamp) : Exec (Except RouterError Unit) :=
  if req.prompt.isEmpty ∧ req.encryptedPrompt.isNone then
    .ok (.error (.badRequest "empty prompt"))
  else if req.preferTee ∧ req.encryptedPrompt.isNone then
    .ok (.error (.badRequest "prefer_tee requires encrypted_prompt"))
  else if req.maxTokens = 0 then
    .ok (.error (.badRequest "max_tokens must be > 0"))
  else if satSub nowMs req.timestampMs > REQUEST_MAX_SKEW_MS then
    .ok (.error (.badRequest "stale request"))
  else if req.userPubkey.scheme ≠ .ed25519 then
    .ok (.error (.badRequest ("unsupported signature scheme at Phase 1: " ++
      schemeName req.userPubkey.scheme)))
  else do
    let signingBytes ← req.signingBytes
    if verify K req.userPubkey signingBytes req.signature = false then
      return .error (.badRequest "signature verification failed")
    else if ¬ INFERENCE_REQUEST_DOMAIN <:+: signingBytes then
      return .error (.badRequest "missing inference-request domain tag")
    else verifyDelegated K req nowMs

end

end Arknet.Router
