import Arknet.Crypto.Vrf

/-!
The sampling of verifiers: the first eight bytes of the VRF output over job and block are held against a
threshold that comes from the sampling rate.
-/

namespace Arknet.Verifier

open Machine Arknet.Chain Arknet.Crypto.Vrf

def DEFAULT_SAMPLING_RATE : Float := 0.05

def VRF_DOMAIN : List UInt8 := ascii "arknet-verifier-vrf-v1"

structure Selection where
  selected : Bool
  proof : VrfProof
  output : Hash256
  deriving DecidableEq, Repr

def samplingThreshold (rate : Float) : U64 :=
  if rate ≤ 0.0 then 0
  else if rate ≥ 1.0 then ⟨2 ^ 64 - 1, by omega⟩
  else (rate * 18446744073709551615.0).toUInt64.toFin

def vrfInput (jobId : JobId) (blockHash : BlockHash) : List UInt8 :=
  VRF_DOMAIN ++ jobId.toList ++ blockHash.toList

/-- `u64::from_be_bytes` of the first eight bytes. -/
def samplingGate (output : Hash256) : U64 := (output.take 8 (by omega)).val

section

variable (K : Primitives)

def selectVerifier (sk : SigningKey) (jobId : JobId) (blockHash : BlockHash) (rate : Float) : Selection :=
  let proved := prove K sk (vrfInput jobId blockHash)
  ⟨samplingGate proved.2 < samplingThreshold rate, proved.1, proved.2⟩

/-- A proof is refused with `SignatureInvalid` only, whose text is that of the message. -/
def verifySelection (vk : Bytes 32) (jobId : JobId) (blockHash : BlockHash) (proof : VrfProof)
    (rate : Float) : Except VerifierError Hash256 :=
  match verifyProof K vk (vrfInput jobId blockHash) proof with
  | .error _ => .error (.signing "vrf verify: signature verification failed")
  | .ok output =>
    if samplingThreshold rate ≤ samplingGate output then .error .notSelected else .ok output

end

end Arknet.Verifier
