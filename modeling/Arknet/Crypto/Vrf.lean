import Arknet.Crypto.Merkle
import Arknet.Lib.Schnorr
import Arknet.Verifier.Dispute

/-!
The VRF of the verifiers: the proof is an Ed25519 signature of the hashed input, and the output is the
hash of the proof. What the Ed25519 crate does is stated as an equation over a group.
-/

namespace Arknet.Crypto.Vrf

open Arknet.Chain Arknet.Verifier

section

variable (K : Primitives)

def prove (sk : SigningKey) (input : List UInt8) : VrfProof × Hash256 :=
  let sig := sign sk (K.sha256 input).toList
  (⟨sig⟩, K.sha256 sig.bytes)

/-- The key is one that the crate has decoded; `verify` fails in one way for such a key. -/
def verifyProof (vk : Bytes 32) (input : List UInt8) (proof : VrfProof) : Except CryptoError Hash256 :=
  if verify K (PubKey.ed25519 vk) (K.sha256 input).toList proof.signature then
    .ok (K.sha256 proof.signature.bytes)
  else .error .signatureInvalid

variable {K} in
/-- A key of this scheme accepts 64 bytes of it that the crate accepts. -/
theorem verify_ed25519 {vk : Bytes 32} {message : List UInt8} {sig : Signature} :
    verify K (PubKey.ed25519 vk) message sig = true ↔ sig.scheme = .ed25519 ∧ sig.bytes.length = 64 ∧
      K.ed25519Verify vk.toList message sig.bytes = true := by
  obtain ⟨scheme, bytes⟩ := sig
  cases scheme with
  | ed25519 => simp [verify, PubKey.ed25519]
  | _ => simp [verify, PubKey.ed25519]

/-! ## Ed25519 -/

/-- Points and scalars have one encoding each, and bytes verify when they encode a solution of the
equation. -/
structure Ed25519 (F G : Type) [CommRing F] [AddCommGroup G] [Module F G] where
  scheme : Schnorr.Scheme F G (List UInt8)
  encodePoint : G → Bytes 32
  encodeScalar : F → Bytes 32
  point_injective : Function.Injective encodePoint
  scalar_injective : Function.Injective encodeScalar
  verify_iff : ∀ A message bytes, K.ed25519Verify (encodePoint A).toList message bytes = true ↔
    ∃ R s, bytes = (encodePoint R).toList ++ (encodeScalar s).toList ∧ scheme.Verifies A message (R, s)

end

section

variable {K : Primitives} {F G : Type} [CommRing F] [AddCommGroup G] [Module F G] (E : Ed25519 K F G)

/-- The 64 bytes of a signature. -/
def Ed25519.sigBytes (signature : G × F) : List UInt8 :=
  (E.encodePoint signature.1).toList ++ (E.encodeScalar signature.2).toList

/-- The local key signs with the secret `a`, each message with a nonce of its own. -/
structure Ed25519.IsKey (sk : SigningKey) (a : F) : Prop where
  verifying : sk.verifyingKey = E.encodePoint (a • E.scheme.base)
  signs : ∀ message, ∃ r, (sk.signRaw message).toList = E.sigBytes (E.scheme.signWith a r message)

theorem Ed25519.sigBytes_injective : Function.Injective E.sigBytes := by
  intro x y h
  obtain ⟨hpoint, hscalar⟩ := List.append_inj h (by rw [Bytes.length_toList, Bytes.length_toList])
  exact Prod.ext (E.point_injective (Bytes.toList_injective hpoint))
    (E.scalar_injective (Bytes.toList_injective hscalar))

theorem Ed25519.length_sigBytes (signature : G × F) : (E.sigBytes signature).length = 64 := by
  rw [Ed25519.sigBytes, List.length_append, Bytes.length_toList, Bytes.length_toList]

/-- The accepted proofs are the signatures of all nonces. -/
theorem Ed25519.verifyProof_ok {a : F} {input : List UInt8} {proof : VrfProof} {out : Hash256} :
    verifyProof K (E.encodePoint (a • E.scheme.base)) input proof = .ok out ↔
      ∃ r, proof.signature =
          ⟨.ed25519, E.sigBytes (E.scheme.signWith a r (K.sha256 input).toList)⟩ ∧
        out = K.sha256 (E.sigBytes (E.scheme.signWith a r (K.sha256 input).toList)) := by
  have hverify : verify K (PubKey.ed25519 (E.encodePoint (a • E.scheme.base)))
      (K.sha256 input).toList proof.signature = true ↔ ∃ r, proof.signature =
        ⟨.ed25519, E.sigBytes (E.scheme.signWith a r (K.sha256 input).toList)⟩ := by
    rw [verify_ed25519]
    constructor
    · rintro ⟨hscheme, -, hverify⟩
      obtain ⟨R, s, hbytes, hsolves⟩ := (E.verify_iff _ _ _).mp hverify
      obtain ⟨r, hr⟩ := (E.scheme.verifies_iff).mp hsolves
      refine ⟨r, ?_⟩
      rw [← hr, Ed25519.sigBytes, ← hbytes, ← hscheme]
    · rintro ⟨r, hr⟩
      rw [hr]
      exact ⟨rfl, E.length_sigBytes _,
        (E.verify_iff _ _ _).mpr ⟨_, _, rfl, E.scheme.signWith_verifies a r _⟩⟩
  unfold verifyProof
  constructor
  · intro h
    split_ifs at h with hok
    obtain ⟨r, hr⟩ := hverify.mp hok
    cases h
    exact ⟨r, hr, by rw [hr]⟩
  · rintro ⟨r, hr, rfl⟩
    rw [if_pos (hverify.mpr ⟨r, hr⟩), hr]

end

end Arknet.Crypto.Vrf
