import Mathlib

/-!
Hexadecimal text, as bytes: written in small letters, read in either case. What is read back is written as
the text it was read from exactly when that has no capital letters.
-/

namespace Hex

inductive Error where
  | oddLength
  | invalidCharacter (c : UInt8) (index : Nat)
  deriving DecidableEq, Repr

def digit (d : Nat) : UInt8 := UInt8.ofNat (if d < 10 then 48 + d else 87 + d)

def encode (bs : List UInt8) : List UInt8 :=
  bs.flatMap fun b => [digit (b.toNat / 16), digit (b.toNat % 16)]

def IsCapital (c : UInt8) : Prop := 65 ≤ c ∧ c ≤ 70

instance isCapitalDecidable : DecidablePred IsCapital := fun c => inferInstanceAs (Decidable (65 ≤ c ∧ c ≤ 70))

def value (c : UInt8) : Option Nat :=
  if 65 ≤ c ∧ c ≤ 70 then some (c.toNat - 65 + 10)
  else if 97 ≤ c ∧ c ≤ 102 then some (c.toNat - 97 + 10)
  else if 48 ≤ c ∧ c ≤ 57 then some (c.toNat - 48)
  else none

/-- Pair by pair; `index` is that of the first character. -/
def decodePairs (index : Nat) : List UInt8 → Except Error (List UInt8)
  | hi :: lo :: rest =>
    match value hi with
    | none => .error (.invalidCharacter hi index)
    | some h =>
      match value lo with
      | none => .error (.invalidCharacter lo (index + 1))
      | some l =>
        match decodePairs (index + 2) rest with
        | .error e => .error e
        | .ok bs => .ok (UInt8.ofNat (h * 16 + l) :: bs)
  | _ => .ok []

def decode (s : List UInt8) : Except Error (List UInt8) :=
  if s.length % 2 ≠ 0 then .error .oddLength else decodePairs 0 s

theorem value_digit : ∀ d < 16, value (digit d) = some d := by decide

/-- The three ranges of digits, as numbers. -/
theorem value_eq_some {c : UInt8} {d : Nat} : value c = some d ↔
    (65 ≤ c.toNat ∧ c.toNat ≤ 70 ∧ d = c.toNat - 55) ∨ (97 ≤ c.toNat ∧ c.toNat ≤ 102 ∧ d = c.toNat - 87) ∨
      (48 ≤ c.toNat ∧ c.toNat ≤ 57 ∧ d = c.toNat - 48) := by
  have hle : ∀ n : Nat, n < 256 → (UInt8.ofNat n).toNat = n := fun n hn => by
    rw [UInt8.toNat_ofNat']
    omega
  have h65 : (65 : UInt8).toNat = 65 := rfl
  have h70 : (70 : UInt8).toNat = 70 := rfl
  have h97 : (97 : UInt8).toNat = 97 := rfl
  have h102 : (102 : UInt8).toNat = 102 := rfl
  have h48 : (48 : UInt8).toNat = 48 := rfl
  have h57 : (57 : UInt8).toNat = 57 := rfl
  unfold value
  simp only [UInt8.le_iff_toNat_le, h65, h70, h97, h102, h48, h57]
  split_ifs <;> simp only [Option.some.injEq, false_iff] <;> omega

theorem value_lt {c : UInt8} {d : Nat} (h : value c = some d) : d < 16 := by
  rw [value_eq_some] at h
  omega

/-- A digit is written as it was read unless it is a capital letter. -/
theorem digit_value {c : UInt8} {d : Nat} (h : value c = some d) : digit d = c ↔ ¬ IsCapital c := by
  have hd := value_lt h
  rw [value_eq_some] at h
  have hdigit : (digit d).toNat = if d < 10 then 48 + d else 87 + d := by
    rw [digit, UInt8.toNat_ofNat']
    split_ifs <;> omega
  have h65 : (65 : UInt8).toNat = 65 := rfl
  have h70 : (70 : UInt8).toNat = 70 := rfl
  rw [← UInt8.toNat_inj, hdigit, IsCapital, UInt8.le_iff_toNat_le, UInt8.le_iff_toNat_le, h65, h70]
  split_ifs <;> omega

theorem decodePairs_encode (bs : List UInt8) (index : Nat) : decodePairs index (encode bs) = .ok bs := by
  induction bs generalizing index with
  | nil => rfl
  | cons b rest ih =>
    have hb := b.toNat_lt
    have hhi := value_digit (b.toNat / 16) (by omega)
    have hlo := value_digit (b.toNat % 16) (by omega)
    have hbyte : UInt8.ofNat (b.toNat / 16 * 16 + b.toNat % 16) = b := by
      rw [Nat.div_add_mod', UInt8.ofNat_toNat]
    show decodePairs index (digit _ :: digit _ :: encode rest) = _
    simp only [decodePairs, hhi, hlo, ih, hbyte]

theorem length_encode (bs : List UInt8) : (encode bs).length = 2 * bs.length := by
  induction bs with
  | nil => rfl
  | cons b rest ih =>
    show (encode rest).length + 1 + 1 = _
    rw [ih, List.length_cons]
    omega

theorem decode_encode (bs : List UInt8) : decode (encode bs) = .ok bs := by
  rw [decode, if_neg (by rw [length_encode]; omega), decodePairs_encode]

/-- What was read is written as it was read exactly without capital letters. -/
theorem decodePairs_ok {index : Nat} {s bs : List UInt8} (heven : s.length % 2 = 0)
    (h : decodePairs index s = .ok bs) : encode bs = s ↔ ∀ c ∈ s, ¬ IsCapital c := by
  fun_induction decodePairs index s generalizing bs with
  | case1 index hi lo rest hhi => cases h
  | case2 index hi lo rest d hd hlo => cases h
  | case3 index hi lo rest d hd l hl e hrest => cases h
  | case4 index hi lo rest d hd l hl bs' hrest ih =>
    obtain rfl := Except.ok.inj h
    have hdlt := value_lt hd
    have hllt := value_lt hl
    have hbyte : (UInt8.ofNat (d * 16 + l)).toNat = d * 16 + l := by
      rw [UInt8.toNat_ofNat']
      omega
    have hhigh : (d * 16 + l) / 16 = d := by omega
    have hlow : (d * 16 + l) % 16 = l := by omega
    have hencode : encode (UInt8.ofNat (d * 16 + l) :: bs') = digit d :: digit l :: encode bs' := by
      show digit _ :: digit _ :: encode bs' = _
      rw [hbyte, hhigh, hlow]
    have htail := ih (by simp only [List.length_cons] at heven; omega) hrest
    rw [hencode, List.cons.injEq, List.cons.injEq, digit_value hd, digit_value hl, htail,
      List.forall_mem_cons, List.forall_mem_cons]
  | case5 s hindex hshort =>
    obtain rfl := Except.ok.inj h
    cases s with
    | nil => simp [encode]
    | cons c rest =>
      cases rest with
      | nil => simp at heven
      | cons d rest => exact absurd rfl (hshort c d rest)

theorem decode_ok {s bs : List UInt8} (h : decode s = .ok bs) :
    encode bs = s ↔ ∀ c ∈ s, ¬ IsCapital c := by
  unfold decode at h
  split_ifs at h with heven
  exact decodePairs_ok (by omega) h

end Hex
