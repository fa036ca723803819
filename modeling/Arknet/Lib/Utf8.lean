import Mathlib.Data.List.Basic

/-!
UTF-8 as a prefix code. Any bytes are a run of whole characters and a rest that starts with none; replacing
what can never become a character leaves such runs as they are.
-/

namespace Utf8

/-- The bytes of a text. -/
def encode (cs : List Char) : List UInt8 := cs.flatMap String.utf8EncodeChar

@[simp] theorem encode_nil : encode [] = [] := rfl

@[simp] theorem encode_cons (c : Char) (cs : List Char) :
    encode (c :: cs) = String.utf8EncodeChar c ++ encode cs := rfl

@[simp] theorem encode_append (cs ds : List Char) : encode (cs ++ ds) = encode cs ++ encode ds :=
  List.flatMap_append

/-- The character at the front. -/
def front (bs : List UInt8) : Option Char := ByteArray.utf8DecodeChar? ⟨bs.toArray⟩ 0

theorem toByteArray_eq (bs : List UInt8) : bs.toByteArray = ⟨bs.toArray⟩ :=
  ByteArray.ext List.data_toByteArray

theorem front_encode (c : Char) (rest : List UInt8) : front (String.utf8EncodeChar c ++ rest) = some c := by
  rw [front, ← toByteArray_eq, List.toByteArray_append]
  exact ByteArray.utf8DecodeChar?_utf8EncodeChar_append

theorem exists_of_front {bs : List UInt8} {c : Char} (h : front bs = some c) :
    ∃ rest, bs = String.utf8EncodeChar c ++ rest := by
  rw [front, ← toByteArray_eq] at h
  obtain ⟨l, hl⟩ := ByteArray.exists_of_utf8DecodeChar?_eq_some h
  have hbytes := congrArg (fun b => b.data.toList) hl
  simp only [List.data_toByteArray, ByteArray.data_append, Array.toList_append] at hbytes
  exact ⟨_, hbytes⟩

theorem encodeChar_pos (c : Char) : 0 < (String.utf8EncodeChar c).length := by
  rw [String.length_utf8EncodeChar]
  exact c.utf8Size_pos

/-! ## Whole characters -/

/-- The bytes are a run of whole characters. -/
def Valid (bs : List UInt8) : Prop := ∃ cs, bs = encode cs

theorem Valid.nil : Valid [] := ⟨[], rfl⟩

theorem Valid.append {p q : List UInt8} (hp : Valid p) (hq : Valid q) : Valid (p ++ q) := by
  obtain ⟨cs, rfl⟩ := hp
  obtain ⟨ds, rfl⟩ := hq
  exact ⟨cs ++ ds, (encode_append cs ds).symm⟩

/-- What follows whole characters in whole characters is whole characters. -/
theorem Valid.cancel {p r : List UInt8} (hp : Valid p) (h : Valid (p ++ r)) : Valid r := by
  obtain ⟨cs, rfl⟩ := hp
  obtain ⟨ds, hds⟩ := h
  induction cs generalizing ds with
  | nil => exact ⟨ds, hds⟩
  | cons c cs ih =>
    rw [encode_cons, List.append_assoc] at hds
    cases ds with
    | nil =>
      have hlen := congrArg List.length hds
      have hpos := encodeChar_pos c
      simp only [List.length_append, encode_nil, List.length_nil] at hlen
      omega
    | cons d ds =>
      rw [encode_cons] at hds
      have hfront := congrArg front hds
      rw [front_encode, front_encode] at hfront
      obtain rfl := Option.some.inj hfront
      exact ih ds (List.append_cancel_left hds)

/-- Bytes that start with a character are not without one when they are cut off later. -/
theorem front_eq_none_of_valid {r : List UInt8} (h : front r = none) {t : List UInt8} (ht : Valid t)
    (hfront : t <+: r) : t = [] := by
  obtain ⟨cs, rfl⟩ := ht
  cases cs with
  | nil => rfl
  | cons c cs =>
    obtain ⟨rest, rfl⟩ := hfront
    rw [encode_cons, List.append_assoc, front_encode] at h
    cases h

/-- No run of whole characters at the front is longer than one behind which none starts. -/
theorem length_le_of_valid {p q r s : List UInt8} (hp : Valid p) (hq : Valid q) (h : p ++ r = q ++ s)
    (hr : front r = none) : q.length ≤ p.length := by
  by_contra hlong
  obtain ⟨t, rfl, rfl⟩ | ⟨t, rfl, rfl⟩ := List.append_eq_append_iff.mp h
  · have hnil := front_eq_none_of_valid hr (hp.cancel hq) (List.prefix_append t s)
    rw [hnil, List.append_nil] at hlong
    exact hlong (Nat.le_refl _)
  · rw [List.length_append] at hlong
    omega

/-- Cut off anywhere, whole characters leave at most three bytes of the one that was cut. -/
theorem Valid.cut {p t : List UInt8} (h : Valid (p ++ t)) :
    ∃ q r, p = q ++ r ∧ Valid q ∧ r.length ≤ 3 := by
  obtain ⟨cs, hcs⟩ := h
  induction cs generalizing p with
  | nil =>
    rw [encode_nil, List.append_eq_nil_iff] at hcs
    exact ⟨[], [], hcs.1, .nil, by decide⟩
  | cons c cs ih =>
    rw [encode_cons] at hcs
    obtain ⟨u, hu, hrest⟩ | ⟨u, rfl, hrest⟩ := List.append_eq_append_iff.mp hcs
    · cases u with
      | nil =>
        rw [List.append_nil] at hu
        exact ⟨p, [], (List.append_nil p).symm, ⟨[c], by rw [encode_cons, encode_nil, hu, List.append_nil]⟩,
          by decide⟩
      | cons b u =>
        have hlen := congrArg List.length hu
        have hfour := c.utf8Size_le_four
        rw [String.length_utf8EncodeChar, List.length_append, List.length_cons] at hlen
        exact ⟨[], p, rfl, .nil, by omega⟩
    · obtain ⟨q, r, rfl, ⟨ds, rfl⟩, hr⟩ := ih hrest.symm
      refine ⟨String.utf8EncodeChar c ++ encode ds, r, by rw [List.append_assoc], ⟨c :: ds, rfl⟩, hr⟩

/-! ## Replacement -/

/-- A byte that goes on with a character. -/
def isContinuation (b : UInt8) : Bool := 0x80 ≤ b && b ≤ 0xBF

/-- The second byte that may follow a first byte of three or four. -/
def isSecond (b c : UInt8) : Bool :=
  if b = 0xE0 then 0xA0 ≤ c && c ≤ 0xBF
  else if 0xE1 ≤ b && b ≤ 0xEC || b = 0xEE || b = 0xEF then isContinuation c
  else if b = 0xED then 0x80 ≤ c && c ≤ 0x9F
  else if b = 0xF0 then 0x90 ≤ c && c ≤ 0xBF
  else if 0xF1 ≤ b && b ≤ 0xF3 then isContinuation c
  else if b = 0xF4 then 0x80 ≤ c && c ≤ 0x8F
  else false

/-- How many bytes are replaced together where no character starts: as many as could have been the start
of one. -/
def brokenLength : List UInt8 → Nat
  | b :: c :: rest =>
    if isSecond b c then
      match rest with
      | d :: _ => if 0xF0 ≤ b && isContinuation d then 3 else 2
      | [] => 2
    else 1
  | _ => 1

def replacement : Char := '\uFFFD'

/-- Decoding that puts the replacement character for what is no character. -/
def lossyFrom : Nat → List UInt8 → List Char
  | 0, _ => []
  | n + 1, bs =>
    if bs = [] then []
    else
      match front bs with
      | some c => c :: lossyFrom n (bs.drop c.utf8Size)
      | none => replacement :: lossyFrom n (bs.drop (brokenLength bs))

def lossy (bs : List UInt8) : List Char := lossyFrom bs.length bs

theorem brokenLength_pos (bs : List UInt8) : 0 < brokenLength bs := by
  unfold brokenLength
  split
  · split
    · split
      · split <;> decide
      · decide
    · decide
  · decide

/-- As many steps as there are bytes are enough. -/
theorem lossyFrom_eq {n m : Nat} {bs : List UInt8} (hn : bs.length ≤ n) (hm : bs.length ≤ m) :
    lossyFrom n bs = lossyFrom m bs := by
  induction n generalizing m bs with
  | zero =>
    obtain rfl := List.eq_nil_of_length_eq_zero (Nat.le_zero.mp hn)
    cases m <;> rfl
  | succ n ih =>
    cases m with
    | zero =>
      obtain rfl := List.eq_nil_of_length_eq_zero (Nat.le_zero.mp hm)
      rfl
    | succ m =>
      simp only [lossyFrom]
      split
      · rfl
      · rename_i hne
        have hpos := List.length_pos_iff.mpr hne
        split
        · rename_i c _
          have hsize := c.utf8Size_pos
          have hshorter : (bs.drop c.utf8Size).length < bs.length := by
            rw [List.length_drop]
            omega
          exact congrArg _ (ih (by omega) (by omega))
        · have hbroken := brokenLength_pos bs
          have hshorter : (bs.drop (brokenLength bs)).length < bs.length := by
            rw [List.length_drop]
            omega
          exact congrArg _ (ih (by omega) (by omega))

theorem lossy_char (c : Char) (rest : List UInt8) :
    lossy (String.utf8EncodeChar c ++ rest) = c :: lossy rest := by
  have hpos := encodeChar_pos c
  have hne : String.utf8EncodeChar c ++ rest ≠ [] := by
    intro h
    have hlen := congrArg List.length h
    rw [List.length_append, List.length_nil] at hlen
    omega
  have hdrop : (String.utf8EncodeChar c ++ rest).drop c.utf8Size = rest := by
    rw [← String.length_utf8EncodeChar c, List.drop_left]
  obtain ⟨n, hn⟩ := Nat.exists_eq_add_one_of_ne_zero (Nat.ne_of_gt (List.length_pos_iff.mpr hne))
  rw [lossy, hn, lossyFrom, if_neg hne, front_encode]
  dsimp only
  rw [hdrop, lossy]
  rw [List.length_append] at hn
  rw [lossyFrom_eq (show rest.length ≤ n by omega) (Nat.le_refl _)]

/-- Whole characters at the front stay what they are. -/
theorem lossy_encode (cs : List Char) (r : List UInt8) : lossy (encode cs ++ r) = cs ++ lossy r := by
  induction cs with
  | nil => rfl
  | cons c cs ih => rw [encode_cons, List.append_assoc, lossy_char, ih, List.cons_append]

theorem lossy_eq_nil {r : List UInt8} : lossy r = [] ↔ r = [] := by
  constructor
  · intro h
    cases r with
    | nil => rfl
    | cons b r =>
      rw [lossy, List.length_cons, lossyFrom, if_neg (List.cons_ne_nil b r)] at h
      split at h <;> cases h
  · rintro rfl
    rfl

end Utf8
