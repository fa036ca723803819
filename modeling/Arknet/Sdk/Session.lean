import Arknet.Sdk.Client

/-!
Wallets, session keys and the request that `Client::infer` signs with them. A wallet carries the address
of its key; a session key is authorized by the certificate that a wallet signed.
-/

namespace Arknet.Sdk

open Machine Borsh Arknet.Chain Arknet.Compute

section

variable (K : Primitives)

/-! ## Wallets -/

/-- Every constructor of a wallet derives the address from the key. -/
structure KeyWallet where
  signingKey : SigningKey
  address : Address
  derived : address = deriveUserAddress K signingKey.toPubkey

variable {K} in
def KeyWallet.publicKey (w : KeyWallet K) : PubKey := w.signingKey.toPubkey

variable {K} in
def KeyWallet.sign (w : KeyWallet K) (message : List UInt8) : Signature := Chain.sign w.signingKey message

/-! ## Session keys -/

structure SessionKey where
  signingKey : SigningKey
  cert : DelegationCert
  spent : U128

namespace SessionKey

def publicKey (s : SessionKey) : PubKey := s.signingKey.toPubkey

def isExpired (s : SessionKey) (nowMs : Timestamp) : Bool := nowMs > s.cert.expiryMs

end SessionKey

/-! ## Requests -/

structure InferRequest where
  model : String
  prompt : String
  maxTokens : U32
  modelHash : Option Hash256
  seed : Option U64
  deterministic : Bool
  stopStrings : List String
  preferTee : Bool
  maxRetries : Option U32
  deriving DecidableEq, Repr

variable {K}

/-- `job_req` before it is signed. -/
def InferRequest.unsigned (req : InferRequest) (nowMs : Timestamp) (pubkey : PubKey)
    (delegation : Option DelegationCert) : InferenceJobRequest where
  modelRef := req.model
  modelHash := req.modelHash.getD 0
  prompt := req.prompt
  maxTokens := req.maxTokens
  seed := req.seed.getD 0
  deterministic := req.deterministic
  stopStrings := req.stopStrings
  nonce := nowMs
  timestampMs := nowMs
  userPubkey := pubkey
  signature := Signature.ed25519 0
  preferTee := req.preferTee
  encryptedPrompt := none
  delegation := delegation

end

end Arknet.Sdk
