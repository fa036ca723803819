import Mathlib.Algebra.Module.Basic
import Mathlib.Data.ZMod.Basic

/-!
Schnorr signatures over a group with a generator: a signature is a commitment and a response, and it
verifies when it satisfies one equation. For a given key and message every nonce gives a signature that
verifies, no two nonces give the same, and there are no others.
-/

namespace Schnorr

/-- The scalars are those of the generator, as `ZMod q` for a group of prime order `q`; the challenge is
any function of the commitment, the key and the message. -/
structure Scheme (F G M : Type) [CommRing F] [AddCommGroup G] [Module F G] where
  base : G
  generates : Function.Bijective fun x : F => x • base
  challenge : G → G → M → F

namespace Scheme

variable {F G M : Type} [CommRing F] [AddCommGroup G] [Module F G] (S : Scheme F G M) {a r : F} {m : M}

/-- `s * B = R + H(R, A, m) * A`. -/
def Verifies (A : G) (m : M) (signature : G × F) : Prop :=
  signature.2 • S.base = signature.1 + S.challenge signature.1 A m • A

/-- The signature of a secret `a` with the nonce `r`. -/
def signWith (a r : F) (m : M) : G × F :=
  (r • S.base, r + S.challenge (r • S.base) (a • S.base) m * a)

theorem exists_secret (A : G) : ∃ a : F, a • S.base = A := S.generates.surjective A

theorem signWith_verifies (a r : F) (m : M) : S.Verifies (a • S.base) m (S.signWith a r m) := by
  show (r + S.challenge (r • S.base) (a • S.base) m * a) • S.base =
    r • S.base + S.challenge (r • S.base) (a • S.base) m • a • S.base
  rw [add_smul, mul_smul]

/-- What verifies is the signature of some nonce. -/
theorem verifies_iff {signature : G × F} :
    S.Verifies (a • S.base) m signature ↔ ∃ r, signature = S.signWith a r m := by
  constructor
  · intro h
    obtain ⟨R, s⟩ := signature
    obtain ⟨r, rfl⟩ := S.exists_secret R
    refine ⟨r, Prod.ext rfl (S.generates.injective ?_)⟩
    show s • S.base = (r + S.challenge (r • S.base) (a • S.base) m * a) • S.base
    have hsigned := S.signWith_verifies a r m
    exact h.trans hsigned.symm
  · rintro ⟨r, rfl⟩
    exact S.signWith_verifies a r m

theorem signWith_injective (a : F) (m : M) : Function.Injective fun r => S.signWith a r m := by
  intro r r' h
  exact S.generates.injective (congrArg Prod.fst h)

end Scheme

end Schnorr
