import Arknet.Chain.Encoding
import Arknet.Chain.Crypto
import Arknet.Compute.Job

/-!
The borsh forms of what goes between user, router and compute node: the events of a job, the request
with its delegation certificate, and the bodies that are signed.
-/

namespace Arknet.Compute

open Machine Borsh Arknet.Chain Arknet.Inference

/-! ## Events -/

def StopKind.variant : StopKind → UInt8
  | .maxTokens => 0
  | .endOfStream => 1
  | .stopString _ => 2
  | .cancelled => 3

def StopKind.stopStringFields : String ≃. StopKind where
  toFun s := some (.stopString s)
  invFun
    | .stopString s => some s
    | _ => none
  inv s k := by cases k <;> simp [eq_comm]

def StopKind.arm (t : UInt8) : Codec StopKind :=
  if t = 0 then .constant .maxTokens
  else if t = 1 then .constant .endOfStream
  else if t = 2 then Codec.string.pmap stopStringFields
  else if t = 3 then .constant .cancelled
  else .never

theorem StopKind.variant_of_arm {t : UInt8} {k : StopKind} {e : List UInt8}
    (h : (arm t).encode k = some e) : k.variant = t := by
  unfold arm at h
  split_ifs at h with h0 h1 h2 h3
  · rw [(Codec.constant_encode.mp h).1, h0]
    rfl
  · rw [(Codec.constant_encode.mp h).1, h1]
    rfl
  · obtain ⟨s, hs, -⟩ := (Codec.pmap_encode _ _).mp h
    rw [← Option.some.inj hs, h2]
    rfl
  · rw [(Codec.constant_encode.mp h).1, h3]
    rfl
  · cases h

def StopKind.codec : Codec StopKind := .enum arm variant fun _ _ _ => variant_of_arm

def InferenceJobEvent.variant : InferenceJobEvent → UInt8
  | .token .. => 0
  | .stop .. => 1
  | .error .. => 2
  | .busy .. => 3

def InferenceJobEvent.tokenFields : JobId × U32 × String ≃. InferenceJobEvent where
  toFun t := some (.token t.1 t.2.1 t.2.2)
  invFun
    | .token jobId index text => some (jobId, index, text)
    | _ => none
  inv t ev := by
    obtain ⟨jobId, index, text⟩ := t
    cases ev <;> simp [eq_comm]

def InferenceJobEvent.stopFields : JobId × StopKind ≃. InferenceJobEvent where
  toFun t := some (.stop t.1 t.2)
  invFun
    | .stop jobId reason => some (jobId, reason)
    | _ => none
  inv t ev := by
    obtain ⟨jobId, reason⟩ := t
    cases ev <;> simp [eq_comm]

def InferenceJobEvent.errorFields : JobId × String ≃. InferenceJobEvent where
  toFun t := some (.error t.1 t.2)
  invFun
    | .error jobId message => some (jobId, message)
    | _ => none
  inv t ev := by
    obtain ⟨jobId, message⟩ := t
    cases ev <;> simp [eq_comm]

def InferenceJobEvent.busyFields : JobId ≃. InferenceJobEvent where
  toFun jobId := some (.busy jobId)
  invFun
    | .busy jobId => some jobId
    | _ => none
  inv jobId ev := by cases ev <;> simp [eq_comm]

def InferenceJobEvent.arm (t : UInt8) : Codec InferenceJobEvent :=
  if t = 0 then ((Bytes.codec 32).prod (Codec.u32.prod Codec.string)).pmap tokenFields
  else if t = 1 then ((Bytes.codec 32).prod StopKind.codec).pmap stopFields
  else if t = 2 then ((Bytes.codec 32).prod Codec.string).pmap errorFields
  else if t = 3 then (Bytes.codec 32).pmap busyFields
  else .never

theorem InferenceJobEvent.variant_of_arm {t : UInt8} {ev : InferenceJobEvent} {e : List UInt8}
    (h : (arm t).encode ev = some e) : ev.variant = t := by
  unfold arm at h
  split_ifs at h with h0 h1 h2 h3
  · obtain ⟨fields, hev, -⟩ := (Codec.pmap_encode _ _).mp h
    rw [← Option.some.inj hev, h0]
    rfl
  · obtain ⟨fields, hev, -⟩ := (Codec.pmap_encode _ _).mp h
    rw [← Option.some.inj hev, h1]
    rfl
  · obtain ⟨fields, hev, -⟩ := (Codec.pmap_encode _ _).mp h
    rw [← Option.some.inj hev, h2]
    rfl
  · obtain ⟨fields, hev, -⟩ := (Codec.pmap_encode _ _).mp h
    rw [← Option.some.inj hev, h3]
    rfl
  · cases h

def InferenceJobEvent.codec : Codec InferenceJobEvent := .enum arm variant fun _ _ _ => variant_of_arm

def InferenceJobEvent.isBusy : InferenceJobEvent → Bool
  | .busy .. => true
  | _ => false

/-! ## Delegation -/

def DELEGATION_DOMAIN : List UInt8 := ascii "arknet-session-delegation-v1"

structure DelegationCert where
  sessionPubkey : PubKey
  spendingLimit : U128
  expiryMs : Timestamp
  mainWalletAddress : Address
  mainWalletPubkey : PubKey
  mainWalletSignature : Signature
  deriving DecidableEq, Repr

def DelegationCert.codec : Codec DelegationCert :=
  (PubKey.codec.prod (Codec.u128.prod (Codec.u64.prod ((Bytes.codec 20).prod
    (PubKey.codec.prod Signature.codec))))).map
    { toFun := fun t => ⟨t.1, t.2.1, t.2.2.1, t.2.2.2.1, t.2.2.2.2.1, t.2.2.2.2.2⟩
      invFun := fun c => (c.sessionPubkey, c.spendingLimit, c.expiryMs, c.mainWalletAddress,
        c.mainWalletPubkey, c.mainWalletSignature)
      left_inv := fun _ => rfl
      right_inv := fun _ => rfl }

structure DelegationSigningBody where
  domain : List UInt8
  sessionPubkey : PubKey
  spendingLimit : U128
  expiryMs : Timestamp
  mainWalletAddress : Address
  deriving DecidableEq, Repr

def DelegationSigningBody.codec : Codec DelegationSigningBody :=
  (Codec.bytes.prod (PubKey.codec.prod (Codec.u128.prod (Codec.u64.prod (Bytes.codec 20))))).map
    { toFun := fun t => ⟨t.1, t.2.1, t.2.2.1, t.2.2.2.1, t.2.2.2.2⟩
      invFun := fun b =>
        (b.domain, b.sessionPubkey, b.spendingLimit, b.expiryMs, b.mainWalletAddress)
      left_inv := fun _ => rfl
      right_inv := fun _ => rfl }

def DelegationCert.signingBytes (cert : DelegationCert) : Exec (List UInt8) :=
  expectEncoded (DelegationSigningBody.codec.encode {
    domain := DELEGATION_DOMAIN
    sessionPubkey := cert.sessionPubkey
    spendingLimit := cert.spendingLimit
    expiryMs := cert.expiryMs
    mainWalletAddress := cert.mainWalletAddress })

/-! ## Requests -/

structure EncryptedEnvelope where
  ephemeralPubkey : List UInt8
  nonce : List UInt8
  ciphertext : List UInt8
  deriving DecidableEq, Repr

def EncryptedEnvelope.codec : Codec EncryptedEnvelope :=
  (Codec.bytes.prod (Codec.bytes.prod Codec.bytes)).map
    { toFun := fun t => ⟨t.1, t.2.1, t.2.2⟩
      invFun := fun e => (e.ephemeralPubkey, e.nonce, e.ciphertext)
      left_inv := fun _ => rfl
      right_inv := fun _ => rfl }

structure InferenceJobRequest where
  modelRef : String
  modelHash : Hash256
  prompt : String
  maxTokens : U32
  seed : U64
  deterministic : Bool
  stopStrings : List String
  nonce : Nonce
  timestampMs : Timestamp
  userPubkey : PubKey
  signature : Signature
  preferTee : Bool
  encryptedPrompt : Option EncryptedEnvelope
  delegation : Option DelegationCert
  deriving DecidableEq, Repr

def InferenceJobRequest.codec : Codec InferenceJobRequest :=
  (Codec.string.prod ((Bytes.codec 32).prod (Codec.string.prod (Codec.u32.prod (Codec.u64.prod
    (Codec.bool.prod (Codec.string.vec.prod (Codec.u64.prod (Codec.u64.prod (PubKey.codec.prod
    (Signature.codec.prod (Codec.bool.prod
    (EncryptedEnvelope.codec.option.prod DelegationCert.codec.option))))))))))))).map
    { toFun := fun t =>
        ⟨t.1, t.2.1, t.2.2.1, t.2.2.2.1, t.2.2.2.2.1, t.2.2.2.2.2.1, t.2.2.2.2.2.2.1,
          t.2.2.2.2.2.2.2.1, t.2.2.2.2.2.2.2.2.1, t.2.2.2.2.2.2.2.2.2.1,
          t.2.2.2.2.2.2.2.2.2.2.1, t.2.2.2.2.2.2.2.2.2.2.2.1,
          t.2.2.2.2.2.2.2.2.2.2.2.2.1, t.2.2.2.2.2.2.2.2.2.2.2.2.2⟩
      invFun := fun r =>
        (r.modelRef, r.modelHash, r.prompt, r.maxTokens, r.seed, r.deterministic, r.stopStrings,
          r.nonce, r.timestampMs, r.userPubkey, r.signature, r.preferTee, r.encryptedPrompt,
          r.delegation)
      left_inv := fun _ => rfl
      right_inv := fun _ => rfl }

def INFERENCE_REQUEST_DOMAIN : List UInt8 := ascii "arknet-inference-req-v1"

def REQUEST_MAX_SKEW_MS : Timestamp := 30000

structure InferenceRequestSigningBody where
  domain : List UInt8
  modelRef : String
  modelHash : Hash256
  prompt : String
  maxTokens : U32
  seed : U64
  deterministic : Bool
  stopStrings : List String
  nonce : Nonce
  timestampMs : Timestamp
  userPubkey : PubKey
  preferTee : Bool
  encryptedPrompt : Option EncryptedEnvelope
  delegation : Option DelegationCert
  deriving DecidableEq, Repr

def InferenceRequestSigningBody.codec : Codec InferenceRequestSigningBody :=
  (Codec.bytes.prod (Codec.string.prod ((Bytes.codec 32).prod (Codec.string.prod (Codec.u32.prod
    (Codec.u64.prod (Codec.bool.prod (Codec.string.vec.prod (Codec.u64.prod (Codec.u64.prod
    (PubKey.codec.prod (Codec.bool.prod
    (EncryptedEnvelope.codec.option.prod DelegationCert.codec.option))))))))))))).map
    { toFun := fun t =>
        ⟨t.1, t.2.1, t.2.2.1, t.2.2.2.1, t.2.2.2.2.1, t.2.2.2.2.2.1, t.2.2.2.2.2.2.1,
          t.2.2.2.2.2.2.2.1, t.2.2.2.2.2.2.2.2.1, t.2.2.2.2.2.2.2.2.2.1,
          t.2.2.2.2.2.2.2.2.2.2.1, t.2.2.2.2.2.2.2.2.2.2.2.1,
          t.2.2.2.2.2.2.2.2.2.2.2.2.1, t.2.2.2.2.2.2.2.2.2.2.2.2.2⟩
      invFun := fun b =>
        (b.domain, b.modelRef, b.modelHash, b.prompt, b.maxTokens, b.seed, b.deterministic,
          b.stopStrings, b.nonce, b.timestampMs, b.userPubkey, b.preferTee, b.encryptedPrompt,
          b.delegation)
      left_inv := fun _ => rfl
      right_inv := fun _ => rfl }

def InferenceJobRequest.signingBody (req : InferenceJobRequest) : InferenceRequestSigningBody where
  domain := INFERENCE_REQUEST_DOMAIN
  modelRef := req.modelRef
  modelHash := req.modelHash
  prompt := req.prompt
  maxTokens := req.maxTokens
  seed := req.seed
  deterministic := req.deterministic
  stopStrings := req.stopStrings
  nonce := req.nonce
  timestampMs := req.timestampMs
  userPubkey := req.userPubkey
  preferTee := req.preferTee
  encryptedPrompt := req.encryptedPrompt
  delegation := req.delegation

def InferenceJobRequest.signingBytes (req : InferenceJobRequest) : Exec (List UInt8) :=
  expectEncoded (InferenceRequestSigningBody.codec.encode req.signingBody)

/-! ## Offers -/

/-- What a compute node gossips when it has loaded or unloaded a model. -/
structure PoolOffer where
  peerId : List UInt8
  modelRefs : List String
  operator : Address
  totalStake : Amount
  supportsTee : Bool
  timestampMs : Timestamp
  availableSlots : U32
  deriving DecidableEq, Repr

def PoolOffer.codec : Codec PoolOffer :=
  (Codec.bytes.prod (Codec.string.vec.prod ((Bytes.codec 20).prod (Codec.u128.prod (Codec.bool.prod
    (Codec.u64.prod Codec.u32)))))).map
    { toFun := fun t =>
        ⟨t.1, t.2.1, t.2.2.1, t.2.2.2.1, t.2.2.2.2.1, t.2.2.2.2.2.1, t.2.2.2.2.2.2⟩
      invFun := fun o => (o.peerId, o.modelRefs, o.operator, o.totalStake, o.supportsTee, o.timestampMs,
        o.availableSlots)
      left_inv := fun _ => rfl
      right_inv := fun _ => rfl }

section

variable (K : Primitives)

/-- `derive_user_address` is the address of a transaction's signer. -/
def deriveUserAddress (pubkey : PubKey) : Address := deriveAddressFromSigner K pubkey

/-- Who pays: the main wallet of the certificate, if there is one. -/
def InferenceJobRequest.billingAddress (req : InferenceJobRequest) : Address :=
  match req.delegation with
  | some cert => cert.mainWalletAddress
  | none => deriveUserAddress K req.userPubkey

/-- The error of the signature check itself, which ends the last message, is left out. -/
def verifyDelegation (cert : DelegationCert) (nowMs : Timestamp) : Exec (Except String Unit) :=
  if nowMs > cert.expiryMs then
    .ok (.error ("delegation expired: now=" ++ toString nowMs.val ++ " > expiry=" ++
      toString cert.expiryMs.val))
  else if deriveUserAddress K cert.mainWalletPubkey ≠ cert.mainWalletAddress then
    .ok (.error "delegation: main_wallet_address does not match main_wallet_pubkey")
  else do
    let signingBytes ← cert.signingBytes
    return if verify K cert.mainWalletPubkey signingBytes cert.mainWalletSignature then .ok ()
      else .error "delegation signature invalid: "

end

end Arknet.Compute
