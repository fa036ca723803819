import Arknet.Chain.Encoding
import Arknet.Inference.Session
import Arknet.Lib.Hex

/-!
Byte arrays as they are written in paths and files: hexadecimal, in letters of either case, with or without
a mark in front.
-/

namespace Arknet.Node

open Arknet.Chain Arknet.Inference

/-- `strip_prefix("0x").unwrap_or(..)`. -/
def stripHexMark (text : String) : String :=
  match text.toList with
  | '0' :: 'x' :: rest => String.ofList rest
  | _ => text

inductive HexTextError where
  | invalid (e : Hex.Error)
  | wrongLength (bytes : Nat)
  deriving DecidableEq, Repr

/-- `hex::decode`, and the conversion into an array of `n` bytes. -/
def readHex (n : Nat) (clean : String) : Except HexTextError (Bytes n) :=
  match Hex.decode (utf8 clean) with
  | .error e => .error (.invalid e)
  | .ok bytes =>
    match (Bytes.codec n).fromSlice bytes with
    | none => .error (.wrongLength bytes.length)
    | some b => .ok b

theorem readHex_eq_ok {n : Nat} {clean : String} {b : Bytes n} :
    readHex n clean = .ok b ↔ Hex.decode (utf8 clean) = .ok b.toList := by
  unfold readHex
  cases Hex.decode (utf8 clean) with
  | error e => simp
  | ok bytes =>
    have hbytes : (Bytes.codec n).fromSlice bytes = some b ↔ (Bytes.codec n).encode b = some bytes :=
      (Bytes.codec n).fromSlice_eq_some
    rw [Bytes.codec_encode] at hbytes
    dsimp only
    rw [Except.ok.injEq, eq_comm (a := bytes)]
    cases hslice : (Bytes.codec n).fromSlice bytes with
    | none =>
      rw [hslice] at hbytes
      simp only [reduceCtorEq, false_iff, Option.some.injEq] at hbytes ⊢
      exact hbytes
    | some b' =>
      rw [hslice, Option.some.injEq, Option.some.injEq] at hbytes
      rw [← hbytes, Except.ok.injEq]

end Arknet.Node
