import Arknet.Verifier.Selection

/-!
Selection of verifiers. What an honest verifier computes is checked as it was computed. But the output is
the hash of a signature, every nonce gives a signature that verifies, and nothing ties the verifier to one
of them (`selection_function`).
-/

namespace Arknet.Laws

open Machine Arknet.Chain Arknet.Crypto.Vrf Arknet.Verifier

section

variable {K : Primitives} {F G : Type} [CommRing F] [AddCommGroup G] [Module F G] (E : Ed25519 K F G)

/-- For this key, job and block: the proof of the key's owner is accepted exactly when he is selected,
with the output he computed, and all accepted proofs have one output. -/
structure FunctionOfInputs (A : G) (jobId : JobId) (blockHash : BlockHash) : Prop where
  honest : ∀ sk a, E.IsKey sk a → a • E.scheme.base = A → ∀ rate out,
    verifySelection K (E.encodePoint A) jobId blockHash (selectVerifier K sk jobId blockHash rate).proof rate =
        .ok out ↔
      (selectVerifier K sk jobId blockHash rate).selected = true ∧
        out = (selectVerifier K sk jobId blockHash rate).output
  unique : ∀ proof proof' out out',
    verifyProof K (E.encodePoint A) (vrfInput jobId blockHash) proof = .ok out →
    verifyProof K (E.encodePoint A) (vrfInput jobId blockHash) proof' = .ok out' → out = out'

/-- The bytes that the owner of the secret `a` may give as a proof. -/
def nonceProof (a : F) (jobId : JobId) (blockHash : BlockHash) (r : F) : List UInt8 :=
  E.sigBytes (E.scheme.signWith a r (K.sha256 (vrfInput jobId blockHash)).toList)

variable {E}

theorem prove_verified {sk : SigningKey} {a : F} (hsk : E.IsKey sk a) (input : List UInt8) :
    verifyProof K (E.encodePoint (a • E.scheme.base)) input (prove K sk input).1 =
      .ok (prove K sk input).2 := by
  obtain ⟨r, hr⟩ := hsk.signs (K.sha256 input).toList
  refine E.verifyProof_ok.mpr ⟨r, ?_, ?_⟩
  · show Signature.mk .ed25519 (sk.signRaw (K.sha256 input).toList).toList = _
    rw [hr]
  · show K.sha256 (sk.signRaw (K.sha256 input).toList).toList = _
    rw [hr]

theorem selectVerifier_verified {sk : SigningKey} {a : F} (hsk : E.IsKey sk a) (jobId : JobId)
    (blockHash : BlockHash) (rate : Float) (out : Hash256) :
    verifySelection K (E.encodePoint (a • E.scheme.base)) jobId blockHash
        (selectVerifier K sk jobId blockHash rate).proof rate = .ok out ↔
      (selectVerifier K sk jobId blockHash rate).selected = true ∧
        out = (selectVerifier K sk jobId blockHash rate).output := by
  have hproved := prove_verified hsk (vrfInput jobId blockHash)
  simp only [selectVerifier, verifySelection, hproved, decide_eq_true_eq]
  constructor
  · intro h
    split_ifs at h with hgate
    cases h
    exact ⟨not_le.mp hgate, rfl⟩
  · rintro ⟨hgate, rfl⟩
    rw [if_neg (not_le.mpr hgate)]

/-- Selection is a function of key, job and block exactly when the hash takes one value on the proofs of
all nonces, which are all different. -/
theorem selection_function (A : G) (jobId : JobId) (blockHash : BlockHash) :
    (FunctionOfInputs E A jobId blockHash ↔ ∀ a, a • E.scheme.base = A → ∀ r r',
      K.sha256 (nonceProof E a jobId blockHash r) = K.sha256 (nonceProof E a jobId blockHash r')) ∧
    ∀ a, Function.Injective (nonceProof E a jobId blockHash) := by
  refine ⟨⟨?_, ?_⟩, fun a => E.sigBytes_injective.comp (E.scheme.signWith_injective a _)⟩
  · rintro hfun a rfl r r'
    have haccepted : ∀ r, verifyProof K (E.encodePoint (a • E.scheme.base)) (vrfInput jobId blockHash)
        ⟨⟨.ed25519, nonceProof E a jobId blockHash r⟩⟩ =
          .ok (K.sha256 (nonceProof E a jobId blockHash r)) :=
      fun r => E.verifyProof_ok.mpr ⟨r, rfl, rfl⟩
    exact hfun.unique _ _ _ _ (haccepted r) (haccepted r')
  · intro hone
    constructor
    · rintro sk a hsk rfl rate out
      exact selectVerifier_verified hsk jobId blockHash rate out
    · intro proof proof' out out' h h'
      obtain ⟨a, rfl⟩ := E.scheme.exists_secret A
      obtain ⟨r, -, rfl⟩ := E.verifyProof_ok.mp h
      obtain ⟨r', -, rfl⟩ := E.verifyProof_ok.mp h'
      exact hone a rfl r r'

end

/-! ## A small group -/

def smallScheme : Schnorr.Scheme (ZMod 5) (ZMod 5) (List UInt8) where
  base := 1
  generates := by
    have hsmul : (fun x : ZMod 5 => x • (1 : ZMod 5)) = id := by
      funext x
      exact mul_one x
    rw [hsmul]
    exact Function.bijective_id
  challenge R A message := R + A + message.length

/-- Points and scalars alike. -/
def smallBytes (x : ZMod 5) : Bytes 32 := ⟨⟨x.val, Nat.lt_of_lt_of_le (ZMod.val_lt x) (by decide)⟩⟩

theorem smallBytes_injective : Function.Injective smallBytes := by
  intro x y h
  exact ZMod.val_injective 5 (congrArg (fun b => b.val.val) h)

def smallPrimitives : Primitives :=
  { toyPrimitives with
    ed25519Verify := fun key message bytes => decide (∃ A R s : ZMod 5, key = (smallBytes A).toList ∧
      bytes = (smallBytes R).toList ++ (smallBytes s).toList ∧
        s • smallScheme.base = R + smallScheme.challenge R A message • A) }

def smallEd25519 : Ed25519 smallPrimitives (ZMod 5) (ZMod 5) where
  scheme := smallScheme
  encodePoint := smallBytes
  encodeScalar := smallBytes
  point_injective := smallBytes_injective
  scalar_injective := smallBytes_injective
  verify_iff := by
    intro A message bytes
    rw [smallPrimitives, decide_eq_true_iff]
    constructor
    · rintro ⟨A', R, s, hkey, hbytes, hsolves⟩
      obtain rfl := smallBytes_injective (Bytes.toList_injective hkey)
      exact ⟨R, s, hbytes, hsolves⟩
    · rintro ⟨R, s, hbytes, hsolves⟩
      exact ⟨A, R, s, rfl, hbytes, hsolves⟩

/-- The key with the secret 1, which takes the nonce 1 for every message. -/
def smallKey : SigningKey where
  verifyingKey := smallBytes 1
  signRaw message := ⟨⟨256 ^ 32 + (smallScheme.signWith 1 1 message).2.val, by
    have hval := ZMod.val_lt (smallScheme.signWith 1 1 message).2
    omega⟩⟩

theorem smallKey_isKey : smallEd25519.IsKey smallKey 1 where
  verifying := by decide
  signs := by
    intro message
    refine ⟨1, ?_⟩
    have hbytes : ∀ s : ZMod 5, ∀ h : 256 ^ 32 + s.val < 256 ^ 64, (⟨⟨256 ^ 32 + s.val, h⟩⟩ : Bytes 64).toList =
        (smallBytes 1).toList ++ (smallBytes s).toList := by
      decide
    exact hbytes (smallScheme.signWith 1 1 message).2 _

theorem selection_function_small :
    ((FunctionOfInputs smallEd25519 1 0 0 ↔ ∀ a, a • smallEd25519.scheme.base = 1 → ∀ r r',
      smallPrimitives.sha256 (nonceProof smallEd25519 a 0 0 r) =
        smallPrimitives.sha256 (nonceProof smallEd25519 a 0 0 r')) ∧
    ∀ a, Function.Injective (nonceProof smallEd25519 a 0 0)) ∧ smallEd25519.IsKey smallKey 1 :=
  ⟨selection_function 1 0 0, smallKey_isKey⟩

set_option maxRecDepth 4000 in
/-- The owner of the key has a choice of outputs. -/
theorem output_chosen_by_nonce : ¬ FunctionOfInputs smallEd25519 1 0 0 := by
  intro h
  have haccepted : ∀ r, verifyProof smallPrimitives (smallBytes 1) (vrfInput 0 0)
      ⟨⟨.ed25519, nonceProof smallEd25519 1 0 0 r⟩⟩ =
        .ok (smallPrimitives.sha256 (nonceProof smallEd25519 1 0 0 r)) :=
    fun r => (smallEd25519.verifyProof_ok (a := 1)).mpr ⟨r, rfl, rfl⟩
  have hsame := h.unique _ _ _ _ (haccepted 0) (haccepted 1)
  exact absurd hsame (by decide)

end Arknet.Laws
