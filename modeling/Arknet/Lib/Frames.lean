import Arknet.Lib.Borsh

/-!
Byte strings on a stream, each behind its length. A stream is given by the pieces in which it arrives. Where
it was cut does not matter: what is read is a string that was written, or nothing.
-/

namespace Frames

open Borsh

/-- `read_exact`: what is read, and what is left to be read. -/
def readExact : Nat → List (List UInt8) → Option (List UInt8 × List (List UInt8))
  | n, [] => if n = 0 then some ([], []) else none
  | n, piece :: pieces =>
    if n ≤ piece.length then some (piece.take n, piece.drop n :: pieces)
    else (readExact (n - piece.length) pieces).map fun p => (piece ++ p.1, p.2)

inductive Error where
  | unexpectedEof
  | tooLong (length : Nat)
  deriving DecidableEq, Repr

/-- The length in four bytes, the highest first. -/
def frame (body : List UInt8) : List UInt8 := beBytes 4 body.length ++ body

def write (cap : Nat) (body : List UInt8) : Except Error (List UInt8) :=
  if cap < body.length then .error (.tooLong body.length) else .ok (frame body)

/-- Of a string that is too long only the length is read. -/
def read (cap : Nat) (pieces : List (List UInt8)) : Except Error (List UInt8 × List (List UInt8)) :=
  match readExact 4 pieces with
  | none => .error .unexpectedEof
  | some (header, rest) =>
    let length := fromLE header.reverse
    if cap < length then .error (.tooLong length)
    else
      match readExact length rest with
      | none => .error .unexpectedEof
      | some body => .ok body

/-! ## Reading exactly -/

theorem readExact_eq_some {n : Nat} {pieces rest : List (List UInt8)} {bs : List UInt8}
    (h : readExact n pieces = some (bs, rest)) : bs.length = n ∧ bs ++ rest.flatten = pieces.flatten := by
  induction pieces generalizing n bs with
  | nil =>
    rw [readExact] at h
    split_ifs at h with hn
    cases h
    exact ⟨hn.symm, rfl⟩
  | cons piece pieces ih =>
    rw [readExact] at h
    split_ifs at h with hn
    · cases h
      refine ⟨List.length_take_of_le hn, ?_⟩
      rw [List.flatten_cons, List.flatten_cons, ← List.append_assoc, List.take_append_drop]
    · obtain ⟨⟨tail, rest'⟩, htail, hp⟩ := Option.map_eq_some_iff.mp h
      cases hp
      obtain ⟨hlength, hflatten⟩ := ih htail
      rw [List.append_assoc, hflatten, List.length_append, hlength]
      exact ⟨by omega, List.flatten_cons.symm⟩

theorem readExact_eq_none {n : Nat} {pieces : List (List UInt8)} :
    readExact n pieces = none ↔ pieces.flatten.length < n := by
  induction pieces generalizing n with
  | nil =>
    rw [readExact, List.flatten_nil, List.length_nil]
    split_ifs with hn <;> simp <;> omega
  | cons piece pieces ih =>
    rw [readExact, List.flatten_cons, List.length_append]
    split_ifs with hn
    · simp
      omega
    · rw [Option.map_eq_none_iff, ih]
      omega

/-- As much as is there can be read, however it arrives. -/
theorem readExact_append {pieces : List (List UInt8)} {bs tail : List UInt8} (h : pieces.flatten = bs ++ tail) :
    ∃ rest, readExact bs.length pieces = some (bs, rest) ∧ rest.flatten = tail := by
  cases hread : readExact bs.length pieces with
  | none =>
    rw [readExact_eq_none, h, List.length_append] at hread
    omega
  | some p =>
    obtain ⟨hlength, hflatten⟩ := readExact_eq_some hread
    rw [h] at hflatten
    obtain ⟨hbs, hrest⟩ := List.append_inj hflatten hlength
    exact ⟨p.2, by rw [← hbs], hrest⟩

/-! ## Frames -/

section

variable {cap : Nat} (hcap : cap < 2 ^ 32) {pieces : List (List UInt8)} {body : List UInt8}
  (hbody : body.length ≤ cap)
include hcap hbody

theorem header_length : fromLE (beBytes 4 body.length).reverse = body.length := by
  rw [beBytes, List.reverse_reverse, fromLE_leBytes]
  omega

/-- What was written is read, and what comes after it is left. -/
theorem read_frame {tail : List UInt8} (h : pieces.flatten = frame body ++ tail) :
    ∃ rest, read cap pieces = .ok (body, rest) ∧ rest.flatten = tail := by
  rw [frame, List.append_assoc] at h
  obtain ⟨rest, hheader, hrest⟩ := readExact_append h
  obtain ⟨rest', hread, htail⟩ := readExact_append hrest
  rw [length_beBytes] at hheader
  refine ⟨rest', ?_, htail⟩
  unfold read
  rw [hheader]
  dsimp only
  rw [header_length hcap hbody, if_neg (not_lt.mpr hbody), hread]

/-- A part of what was written is not read as anything else. -/
theorem read_cut (hpart : pieces.flatten <+: frame body) (hne : pieces.flatten ≠ frame body) :
    read cap pieces = .error .unexpectedEof := by
  have hshort : pieces.flatten.length < (frame body).length :=
    lt_of_le_of_ne hpart.length_le fun h => hne (hpart.eq_of_length h)
  unfold read
  cases hheader : readExact 4 pieces with
  | none => rfl
  | some p =>
    obtain ⟨hfour, hflatten⟩ := readExact_eq_some hheader
    have hheader' : p.1 = beBytes 4 body.length := by
      obtain ⟨missing, hmissing⟩ := hpart
      rw [← hflatten, List.append_assoc] at hmissing
      exact (List.append_inj hmissing (by rw [hfour, length_beBytes])).1
    dsimp only
    rw [hheader', header_length hcap hbody, if_neg (not_lt.mpr hbody)]
    have hnone : readExact body.length p.2 = none := by
      rw [readExact_eq_none]
      rw [← hflatten, List.length_append, hfour, frame, List.length_append, length_beBytes] at hshort
      omega
    rw [hnone]

end

end Frames
