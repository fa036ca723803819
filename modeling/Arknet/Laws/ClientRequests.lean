import Arknet.Sdk.Session
import Arknet.Node.ServeInference
import Arknet.Laws.RequestReplay

/-!
What becomes of the requests that the SDK signs: a router takes one for thirty seconds, and for as long as
its session lasts, at the expense of the wallet behind it. A compute node answers it once.
-/

namespace Arknet.Laws

open Machine Borsh Arknet.Chain Arknet.Compute Arknet.Router Arknet.Sdk Arknet.Node Arknet.Inference

section

variable (K : Primitives)

/-- What a key signs verifies under its public half. -/
def SoundKey (key : SigningKey) : Prop :=
  ∀ message, K.ed25519Verify key.verifyingKey.toList message (key.signRaw message).toList = true

variable {K}

theorem verify_sign {key : SigningKey} (h : SoundKey K key) (message : List UInt8) :
    verify K key.toPubkey message (sign key message) = true := by
  simp [verify, SigningKey.toPubkey, PubKey.ed25519, sign, Signature.ed25519, h message]

end

/-! ## A client with a wallet of its own -/

def nullKey : SigningKey := ⟨0, fun _ => 0⟩

theorem nullKey_sound : SoundKey toyPrimitives nullKey := by
  intro message
  have hbytes : (0 : Bytes 64).toList = (0 : Bytes 32).toList ++ (0 : Bytes 32).toList := by decide
  exact beq_iff_eq.mpr hbytes

end Arknet.Laws
