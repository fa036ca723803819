import Arknet.Router.Intake

/-!
Who pays for an inference. A request that passes the checks is traced to the wallet of its billing
address by one signature or by two, the signed bytes fix every field but the signature, and the three
kinds of strings a wallet signs differ in their first byte.
-/

namespace Arknet.Laws

open Machine Borsh Arknet.Chain Arknet.Compute Arknet.Router

/-! ## Checks -/

section

variable {K : Primitives} {now : Timestamp}

theorem verifyDelegation_ok {cert : DelegationCert} (h : verifyDelegation K cert now = .ok (.ok ())) :
    now ≤ cert.expiryMs ∧ deriveUserAddress K cert.mainWalletPubkey = cert.mainWalletAddress ∧
      ∃ bytes, cert.signingBytes = .ok bytes ∧
        verify K cert.mainWalletPubkey bytes cert.mainWalletSignature = true := by
  unfold verifyDelegation at h
  split_ifs at h with hexpired haddress
  · cases h
  · cases h
  · obtain ⟨bytes, hbytes, h⟩ := bind_eq_ok.mp h
    refine ⟨not_lt.mp hexpired, not_not.mp haddress, bytes, hbytes, ?_⟩
    by_contra hsig
    rw [if_neg hsig] at h
    cases h

theorem verifyDelegated_ok {req : InferenceJobRequest} (h : verifyDelegated K req now = .ok (.ok ())) :
    req.delegation = none ∨
      ∃ cert, req.delegation = some cert ∧ cert.sessionPubkey = req.userPubkey ∧
        verifyDelegation K cert now = .ok (.ok ()) := by
  unfold verifyDelegated at h
  cases hcert : req.delegation with
  | none => exact .inl rfl
  | some cert =>
    simp only [hcert] at h
    split_ifs at h with hsession
    · cases h
    · obtain ⟨checked, hchecked, h⟩ := bind_eq_ok.mp h
      right
      refine ⟨cert, rfl, not_not.mp hsession, ?_⟩
      cases checked with
      | ok u => exact hchecked
      | error e => cases h

theorem verifyRequest_ok {req : InferenceJobRequest} (h : verifyRequest K req now = .ok (.ok ())) :
    ∃ bytes, req.signingBytes = .ok bytes ∧ verify K req.userPubkey bytes req.signature = true ∧
      verifyDelegated K req now = .ok (.ok ()) := by
  unfold verifyRequest at h
  split_ifs at h with h1 h2 h3 h4 h5
  · cases h
  · cases h
  · cases h
  · cases h
  · cases h
  · obtain ⟨bytes, hbytes, h⟩ := bind_eq_ok.mp h
    split_ifs at h with hsig hdomain
    · cases h
    · exact ⟨bytes, hbytes, by simpa using hsig, h⟩
    · cases h

end

/-! ## Signed bytes -/

theorem request_fields {req req' : InferenceJobRequest} {bytes : List UInt8}
    (h : req.signingBytes = .ok bytes) (h' : req'.signingBytes = .ok bytes) (sig : Signature) :
    { req with signature := sig } = { req' with signature := sig } := by
  have hbody : req.signingBody = req'.signingBody :=
    Codec.encode_injective _ (expectEncoded_eq_ok.mp h) (expectEncoded_eq_ok.mp h')
  simp only [InferenceJobRequest.signingBody, InferenceRequestSigningBody.mk.injEq] at hbody
  simp only [InferenceJobRequest.mk.injEq]
  tauto

theorem certificate_fields {cert cert' : DelegationCert} {bytes : List UInt8}
    (h : cert.signingBytes = .ok bytes) (h' : cert'.signingBytes = .ok bytes) :
    cert.sessionPubkey = cert'.sessionPubkey ∧ cert.spendingLimit = cert'.spendingLimit ∧
      cert.expiryMs = cert'.expiryMs ∧ cert.mainWalletAddress = cert'.mainWalletAddress := by
  have hbody := Codec.encode_injective _ (expectEncoded_eq_ok.mp h) (expectEncoded_eq_ok.mp h')
  simp only [DelegationSigningBody.mk.injEq, true_and] at hbody
  exact hbody

/-- A body that starts with its domain starts with the length of the domain. -/
theorem first_byte {β : Type} {c : Codec β} {domain bytes : List UInt8} {b : β}
    (h : (Codec.bytes.prod c).encode (domain, b) = some bytes) :
    ∃ rest, bytes = UInt8.ofNat domain.length :: rest := by
  obtain ⟨e, he, f, -, rfl⟩ := (Codec.prod_encode _ _).mp h
  obtain ⟨-, rfl⟩ := Codec.bytes_encode.mp he
  exact ⟨_, rfl⟩

theorem request_first_byte {req : InferenceJobRequest} {bytes : List UInt8}
    (h : req.signingBytes = .ok bytes) : ∃ rest, bytes = 23 :: rest := by
  have hbody := expectEncoded_eq_ok.mp h
  rw [InferenceRequestSigningBody.codec, Codec.map_encode] at hbody
  exact first_byte hbody

theorem certificate_first_byte {cert : DelegationCert} {bytes : List UInt8}
    (h : cert.signingBytes = .ok bytes) : ∃ rest, bytes = 28 :: rest := by
  have hbody := expectEncoded_eq_ok.mp h
  rw [DelegationSigningBody.codec, Codec.map_encode] at hbody
  exact first_byte hbody

theorem variant_lt (tx : Transaction) : tx.variant.toNat < 13 := by
  cases tx <;> simp [Transaction.variant]

section

variable {K : Primitives}

/-- The keys there are and what has been signed with each. Nothing verifies that was not signed with
the key, and no two of the keys have one address. -/
structure Signers (K : Primitives) where
  keys : Set PubKey
  signed : PubKey → List UInt8 → Prop
  unforgeable : ∀ key msg sig, verify K key msg sig = true → key ∈ keys ∧ signed key msg
  addresses : Set.InjOn (deriveUserAddress K) keys

/-- `owner` is the one key of the address. -/
def Signers.Owns (S : Signers K) (owner : PubKey) (address : Address) : Prop :=
  owner ∈ S.keys ∧ deriveUserAddress K owner = address ∧
    ∀ other ∈ S.keys, deriveUserAddress K other = address → other = owner

theorem Signers.owns (S : Signers K) {key : PubKey} (hkey : key ∈ S.keys) :
    S.Owns key (deriveUserAddress K key) :=
  ⟨hkey, rfl, fun _ hother hsame => S.addresses hother hkey hsame⟩

/-- What the owner of the billing address has agreed to. -/
def Signers.Authorized (S : Signers K) (req : InferenceJobRequest) (now : Timestamp)
    (owner : PubKey) (bytes : List UInt8) : Prop :=
  (req.delegation = none ∧ S.signed owner bytes) ∨
    ∃ cert certBytes, req.delegation = some cert ∧ now ≤ cert.expiryMs ∧
      cert.sessionPubkey = req.userPubkey ∧ cert.signingBytes = .ok certBytes ∧
      S.signed owner certBytes ∧ S.signed req.userPubkey bytes

theorem verifyRequest_authorized (S : Signers K) {req : InferenceJobRequest} {now : Timestamp}
    (h : verifyRequest K req now = .ok (.ok ())) :
    ∃ owner bytes, req.signingBytes = .ok bytes ∧ S.Owns owner (req.billingAddress K) ∧
      S.Authorized req now owner bytes := by
  obtain ⟨bytes, hbytes, hsig, hdelegated⟩ := verifyRequest_ok h
  obtain ⟨huser, hsigned⟩ := S.unforgeable _ _ _ hsig
  obtain hnone | ⟨cert, hcert, hsession, hverified⟩ := verifyDelegated_ok hdelegated
  · refine ⟨req.userPubkey, bytes, hbytes, ?_, .inl ⟨hnone, hsigned⟩⟩
    have hbilling : req.billingAddress K = deriveUserAddress K req.userPubkey := by
      simp only [InferenceJobRequest.billingAddress, hnone]
    rw [hbilling]
    exact S.owns huser
  · obtain ⟨hlive, haddress, certBytes, hcertBytes, hcertSig⟩ := verifyDelegation_ok hverified
    obtain ⟨hmain, hmainSigned⟩ := S.unforgeable _ _ _ hcertSig
    refine ⟨cert.mainWalletPubkey, bytes, hbytes, ?_, .inr ⟨cert, certBytes, hcert, hlive,
      hsession, hcertBytes, hmainSigned, hsigned⟩⟩
    have hbilling : req.billingAddress K = cert.mainWalletAddress := by
      simp only [InferenceJobRequest.billingAddress, hcert]
    rw [hbilling, ← haddress]
    exact S.owns hmain

theorem billing_authorized (S : Signers K)
    (hvariant : ∀ tx, ∃ rest, K.borshTransaction tx = tx.variant :: rest) :
    (∀ (req : InferenceJobRequest) (now : Timestamp), verifyRequest K req now = .ok (.ok ()) →
      ∃ owner bytes, req.signingBytes = .ok bytes ∧ S.Owns owner (req.billingAddress K) ∧
        S.Authorized req now owner bytes) ∧
    (∀ (req req' : InferenceJobRequest) (bytes : List UInt8), req.signingBytes = .ok bytes →
      req'.signingBytes = .ok bytes →
        ∀ sig, { req with signature := sig } = { req' with signature := sig }) ∧
    (∀ (cert cert' : DelegationCert) (bytes : List UInt8), cert.signingBytes = .ok bytes →
      cert'.signingBytes = .ok bytes → cert.sessionPubkey = cert'.sessionPubkey ∧
        cert.spendingLimit = cert'.spendingLimit ∧ cert.expiryMs = cert'.expiryMs ∧
        cert.mainWalletAddress = cert'.mainWalletAddress) ∧
    (∀ (req : InferenceJobRequest) (cert : DelegationCert) (bytes : List UInt8),
      req.signingBytes = .ok bytes → cert.signingBytes ≠ .ok bytes) ∧
    (∀ (req : InferenceJobRequest) (tx : Transaction), req.signingBytes ≠ .ok (K.borshTransaction tx)) ∧
    ∀ (cert : DelegationCert) (tx : Transaction), cert.signingBytes ≠ .ok (K.borshTransaction tx) := by
  refine ⟨fun req now h => verifyRequest_authorized S h, fun _ _ _ h h' => request_fields h h',
    fun _ _ _ h h' => certificate_fields h h', ?_, ?_, ?_⟩
  · intro req cert bytes hreq hcert
    obtain ⟨rest, hrest⟩ := request_first_byte hreq
    obtain ⟨rest', hrest'⟩ := certificate_first_byte hcert
    rw [hrest] at hrest'
    exact absurd (List.cons.inj hrest').1 (by decide)
  · intro req tx hreq
    obtain ⟨rest, hrest⟩ := request_first_byte hreq
    obtain ⟨rest', hrest'⟩ := hvariant tx
    rw [hrest] at hrest'
    have hbyte := variant_lt tx
    rw [← (List.cons.inj hrest').1] at hbyte
    exact absurd hbyte (by decide)
  · intro cert tx hcert
    obtain ⟨rest, hrest⟩ := certificate_first_byte hcert
    obtain ⟨rest', hrest'⟩ := hvariant tx
    rw [hrest] at hrest'
    have hbyte := variant_lt tx
    rw [← (List.cons.inj hrest').1] at hbyte
    exact absurd hbyte (by decide)

end

/-! ## A delegated request -/

def walletKey : Bytes 32 := ⟨⟨256 ^ 31, by decide⟩⟩
def sessionKey : Bytes 32 := ⟨⟨2 * 256 ^ 31, by decide⟩⟩

/-- Two keys exist. -/
def twoKeys : Primitives :=
  { toyPrimitives with
    ed25519Verify := fun key _ sig =>
      (key == walletKey.toList || key == sessionKey.toList) && sig == key ++ key }

def twoSigners : Signers twoKeys where
  keys := {PubKey.ed25519 walletKey, PubKey.ed25519 sessionKey}
  signed key _ := key = PubKey.ed25519 walletKey ∨ key = PubKey.ed25519 sessionKey
  unforgeable := by
    rintro ⟨scheme, bytes⟩ msg sig h
    unfold verify at h
    split_ifs at h
    cases scheme with
    | ed25519 =>
      simp only [twoKeys, Bool.and_eq_true, Bool.or_eq_true, beq_iff_eq] at h
      obtain ⟨-, rfl | rfl, -⟩ := h
      · exact ⟨.inl rfl, .inl rfl⟩
      · exact ⟨.inr rfl, .inr rfl⟩
    | _ => cases h
  addresses := by
    have hne : deriveUserAddress twoKeys (PubKey.ed25519 walletKey) ≠
        deriveUserAddress twoKeys (PubKey.ed25519 sessionKey) := by decide
    rintro key (rfl | rfl) other (rfl | rfl) h
    · rfl
    · exact absurd h hne
    · exact absurd h.symm hne
    · rfl

def delegatedRequest : InferenceJobRequest where
  modelRef := "m"
  modelHash := 0
  prompt := "p"
  maxTokens := 1
  seed := 0
  deterministic := false
  stopStrings := []
  nonce := 0
  timestampMs := 0
  userPubkey := PubKey.ed25519 sessionKey
  signature := ⟨.ed25519, sessionKey.toList ++ sessionKey.toList⟩
  preferTee := false
  encryptedPrompt := none
  delegation := some {
    sessionPubkey := PubKey.ed25519 sessionKey
    spendingLimit := 5
    expiryMs := 9
    mainWalletAddress := deriveUserAddress twoKeys (PubKey.ed25519 walletKey)
    mainWalletPubkey := PubKey.ed25519 walletKey
    mainWalletSignature := ⟨.ed25519, walletKey.toList ++ walletKey.toList⟩ }

theorem twoKeys_variantFirst (tx : Transaction) :
    ∃ rest, twoKeys.borshTransaction tx = tx.variant :: rest := by
  cases tx <;> exact ⟨_, rfl⟩

theorem delegatedRequest_verified : verifyRequest twoKeys delegatedRequest 3 = .ok (.ok ()) := by
  rfl

theorem delegated_billing_authorized :
    ∃ owner bytes, delegatedRequest.signingBytes = .ok bytes ∧
      twoSigners.Owns owner (delegatedRequest.billingAddress twoKeys) ∧
      twoSigners.Authorized delegatedRequest 3 owner bytes :=
  (billing_authorized twoSigners twoKeys_variantFirst).1 delegatedRequest 3 delegatedRequest_verified

end Arknet.Laws
