import Arknet.Laws.Pieces
import Arknet.Node.HexText

/-!
The hexadecimal form of a byte array, which has no mark in front and is read back with or without one.
-/

namespace Arknet.Laws

open Arknet.Chain Arknet.Inference Arknet.Node

theorem utf8_injective : Function.Injective utf8 := fun s t h => by
  have hs := fromUTF8?_eq_some.mpr h
  rw [fromUTF8?_eq_some.mpr rfl] at hs
  exact (Option.some.inj hs).symm

theorem encode_hexDigit : ∀ d < 16, String.utf8EncodeChar (hexDigit d) = [Hex.digit d] := by decide

theorem hexDigit_ne_mark : ∀ d < 16, hexDigit d ≠ 'x' := by decide

theorem utf8_hexEncode {n : Nat} (b : Bytes n) : utf8 b.hexEncode = Hex.encode b.toList := by
  rw [Bytes.hexEncode, utf8_ofList]
  induction b.toList with
  | nil => rfl
  | cons c rest ih =>
    have hc := c.toNat_lt
    have hhi := encode_hexDigit (c.toNat / 16) (by omega)
    have hlo := encode_hexDigit (c.toNat % 16) (by omega)
    rw [List.flatMap_cons, Utf8.encode_append, ih, Utf8.encode_cons, Utf8.encode_cons, hhi, hlo]
    rfl

/-! ## The mark -/

theorem stripHexMark_mark (s : String) : stripHexMark ("0x" ++ s) = s := by
  have hlist : ("0x" ++ s).toList = '0' :: 'x' :: s.toList := by
    rw [String.toList_append]
    rfl
  rw [stripHexMark, hlist]
  exact String.ofList_toList

theorem stripHexMark_hexEncode {n : Nat} (b : Bytes n) : stripHexMark b.hexEncode = b.hexEncode := by
  unfold stripHexMark
  split
  · rename_i rest hlist
    have hx : 'x' ∈ b.hexEncode.toList := by
      rw [hlist]
      exact List.mem_cons_of_mem _ List.mem_cons_self
    rw [Bytes.hexEncode, String.toList_ofList, List.mem_flatMap] at hx
    obtain ⟨c, -, hc⟩ := hx
    have hlt := c.toNat_lt
    have hhi := hexDigit_ne_mark (c.toNat / 16) (by omega)
    have hlo := hexDigit_ne_mark (c.toNat % 16) (by omega)
    simp only [List.mem_cons, List.not_mem_nil, or_false] at hc
    rcases hc with hc | hc
    · exact absurd hc.symm hhi
    · exact absurd hc.symm hlo
  · rfl

/-- Bytes are read back from either form that they are written in. -/
theorem readHex_hexEncode {n : Nat} (b : Bytes n) :
    readHex n (stripHexMark b.hexEncode) = .ok b ∧ readHex n (stripHexMark ("0x" ++ b.hexEncode)) = .ok b := by
  rw [stripHexMark_hexEncode, stripHexMark_mark, and_self, readHex_eq_ok, utf8_hexEncode, Hex.decode_encode]

end Arknet.Laws
