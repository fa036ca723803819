import Arknet.Lib.Machine

/-!
A binary format as a writer and a reader that answer to each other: the reader accepts exactly the
writer's outputs and leaves what follows them. Round trips, uniqueness of the encoding and
separation of concatenated fields all follow from that one law, and the combinators keep it.
-/

namespace Borsh

open Machine

/-- `encode` fails on a value that has no encoding (a sequence of `2 ^ 32` items). -/
structure Codec (α : Type) where
  encode : α → Option (List UInt8)
  decode : List UInt8 → Option (α × List UInt8)
  law : ∀ bs a rest, decode bs = some (a, rest) ↔ ∃ e, encode a = some e ∧ bs = e ++ rest

namespace Codec

variable {α β : Type}

theorem decode_append (c : Codec α) {a : α} {e : List UInt8} (h : c.encode a = some e)
    (rest : List UInt8) : c.decode (e ++ rest) = some (a, rest) :=
  (c.law _ _ _).mpr ⟨e, h, rfl⟩

/-- Two encodings that start the same string are one encoding, of one value. -/
theorem split_unique (c : Codec α) {a b : α} {e f r s : List UInt8} (ha : c.encode a = some e)
    (hb : c.encode b = some f) (h : e ++ r = f ++ s) : a = b ∧ e = f ∧ r = s := by
  have hread := c.decode_append ha r
  rw [h, c.decode_append hb s] at hread
  simp only [Option.some.injEq, Prod.mk.injEq] at hread
  obtain ⟨rfl, rfl⟩ := hread
  exact ⟨rfl, List.append_cancel_right h, rfl⟩

theorem encode_injective (c : Codec α) {a b : α} {e : List UInt8} (ha : c.encode a = some e)
    (hb : c.encode b = some e) : a = b := (c.split_unique (r := []) (s := []) ha hb rfl).1

/-! ## Whole strings -/

/-- `borsh::from_slice`: every byte must have been read. -/
def fromSlice (c : Codec α) (bs : List UInt8) : Option α :=
  match c.decode bs with
  | some (a, []) => some a
  | _ => none

theorem fromSlice_eq_some (c : Codec α) {bs : List UInt8} {a : α} :
    c.fromSlice bs = some a ↔ c.encode a = some bs := by
  have hlaw := c.law bs a []
  simp only [List.append_nil, exists_eq_right'] at hlaw
  rw [← hlaw]
  unfold fromSlice
  split
  · rename_i b hread
    simp [hread]
  · rename_i hread
    constructor
    · intro h
      cases h
    · intro h
      exact absurd h (hread a)

theorem fromSlice_encode (c : Codec α) {bs : List UInt8} {a : α} (h : c.encode a = some bs) :
    c.fromSlice bs = some a := c.fromSlice_eq_some.mpr h

/-! ## Combinators -/

/-- No value: the reader rejects everything. -/
def never : Codec α where
  encode _ := none
  decode _ := none
  law := by simp

/-- Nothing is written. -/
def unit : Codec Unit where
  encode _ := some []
  decode bs := some ((), bs)
  law bs a rest := by simp [eq_comm]

def byte : Codec UInt8 where
  encode b := some [b]
  decode
    | [] => none
    | b :: rest => some (b, rest)
  law bs a rest := by
    cases bs with
    | nil => simp
    | cons b bs => simp

@[simp] theorem byte_encode (b : UInt8) : byte.encode b = some [b] := rfl

/-- A field after a field. -/
def prod (c : Codec α) (d : Codec β) : Codec (α × β) where
  encode p := (c.encode p.1).bind fun e => (d.encode p.2).map fun f => e ++ f
  decode bs := (c.decode bs).bind fun p => (d.decode p.2).map fun q => ((p.1, q.1), q.2)
  law bs a rest := by
    obtain ⟨a, b⟩ := a
    simp only [Option.bind_eq_some_iff, Option.map_eq_some_iff, Prod.exists, Prod.mk.injEq]
    constructor
    · rintro ⟨a', mid, ha, b', rest', hb, ⟨rfl, rfl⟩, rfl⟩
      obtain ⟨e, he, rfl⟩ := (c.law _ _ _).mp ha
      obtain ⟨f, hf, rfl⟩ := (d.law _ _ _).mp hb
      exact ⟨e ++ f, ⟨e, he, f, hf, rfl⟩, by rw [List.append_assoc]⟩
    · rintro ⟨-, ⟨e, he, f, hf, rfl⟩, rfl⟩
      rw [List.append_assoc]
      exact ⟨a, f ++ rest, c.decode_append he _, b, rest, d.decode_append hf _, ⟨rfl, rfl⟩, rfl⟩

theorem prod_encode (c : Codec α) (d : Codec β) {a : α} {b : β} {bs : List UInt8} :
    (c.prod d).encode (a, b) = some bs ↔
      ∃ e, c.encode a = some e ∧ ∃ f, d.encode b = some f ∧ e ++ f = bs := by
  simp [prod, Option.bind_eq_some_iff]

/-- The format of another type, along a correspondence of some of its values. -/
def pmap (c : Codec α) (f : α ≃. β) : Codec β where
  encode b := (f.symm b).bind c.encode
  decode bs := (c.decode bs).bind fun p => (f p.1).map fun b => (b, p.2)
  law bs b rest := by
    simp only [Option.bind_eq_some_iff, Option.map_eq_some_iff, Prod.exists, Prod.mk.injEq]
    constructor
    · rintro ⟨a, rest', ha, b', hb, rfl, rfl⟩
      obtain ⟨e, he, rfl⟩ := (c.law _ _ _).mp ha
      exact ⟨e, ⟨a, f.mem_iff_mem.mpr hb, he⟩, rfl⟩
    · rintro ⟨e, ⟨a, ha, he⟩, rfl⟩
      exact ⟨a, rest, c.decode_append he rest, b, f.mem_iff_mem.mp ha, rfl, rfl⟩

theorem pmap_encode (c : Codec α) (f : α ≃. β) {b : β} {e : List UInt8} :
    (c.pmap f).encode b = some e ↔ ∃ a, b ∈ f a ∧ c.encode a = some e := by
  simp only [pmap, Option.bind_eq_some_iff]
  constructor
  · rintro ⟨a, ha, he⟩
    exact ⟨a, f.mem_iff_mem.mp ha, he⟩
  · rintro ⟨a, ha, he⟩
    exact ⟨a, f.mem_iff_mem.mpr ha, he⟩

/-- One value, with no bytes of its own. -/
def constant [DecidableEq α] (a : α) : Codec α := unit.pmap (PEquiv.single () a)

theorem constant_encode [DecidableEq α] {a b : α} {e : List UInt8} :
    (constant a).encode b = some e ↔ b = a ∧ e = [] := by
  rw [constant, pmap_encode]
  constructor
  · rintro ⟨u, hu, he⟩
    exact ⟨((PEquiv.mem_single_iff _ _ _ _).mp hu).2, (Option.some.inj he).symm⟩
  · rintro ⟨rfl, rfl⟩
    exact ⟨(), (PEquiv.mem_single_iff _ _ _ _).mpr ⟨rfl, rfl⟩, rfl⟩

/-- The format of a record that is a tuple with names. -/
def map (c : Codec α) (f : α ≃ β) : Codec β := c.pmap f.toPEquiv

@[simp] theorem map_encode (c : Codec α) (f : α ≃ β) (b : β) :
    (c.map f).encode b = c.encode (f.symm b) := rfl

/-- A header, then a body in the format the header announces. -/
def announced (c : Codec α) (body : α → Codec β) (header : β → Option α)
    (hheader : ∀ a b e, (body a).encode b = some e → header b = some a) : Codec β where
  encode b := (header b).bind fun a =>
    (c.encode a).bind fun e => ((body a).encode b).map fun f => e ++ f
  decode bs := (c.decode bs).bind fun p => (body p.1).decode p.2
  law bs b rest := by
    simp only [Option.bind_eq_some_iff, Option.map_eq_some_iff, Prod.exists]
    constructor
    · rintro ⟨a, mid, ha, hb⟩
      obtain ⟨e, he, rfl⟩ := (c.law _ _ _).mp ha
      obtain ⟨f, hf, rfl⟩ := ((body a).law _ _ _).mp hb
      exact ⟨e ++ f, ⟨a, hheader a b f hf, e, he, f, hf, rfl⟩, by rw [List.append_assoc]⟩
    · rintro ⟨-, ⟨a, -, e, he, f, hf, rfl⟩, rfl⟩
      rw [List.append_assoc]
      exact ⟨a, f ++ rest, c.decode_append he _, (body a).decode_append hf _⟩

/-- An enumeration: a byte for the variant, then its fields. -/
def enum (arm : UInt8 → Codec α) (tag : α → UInt8)
    (htag : ∀ t a e, (arm t).encode a = some e → tag a = t) : Codec α :=
  byte.announced arm (fun a => some (tag a)) (fun t a e h => by rw [htag t a e h])

/-! ## Sequences -/

def encodeAll (c : Codec α) : List α → Option (List UInt8)
  | [] => some []
  | a :: rest => (c.encode a).bind fun e => (c.encodeAll rest).map fun f => e ++ f

def decodeTimes (c : Codec α) : Nat → List UInt8 → Option (List α × List UInt8)
  | 0, bs => some ([], bs)
  | n + 1, bs => (c.decode bs).bind fun p => (c.decodeTimes n p.2).map fun q => (p.1 :: q.1, q.2)

theorem decodeTimes_eq_some (c : Codec α) {n : Nat} {bs rest : List UInt8} {as : List α} :
    c.decodeTimes n bs = some (as, rest) ↔
      as.length = n ∧ ∃ e, c.encodeAll as = some e ∧ bs = e ++ rest := by
  induction n generalizing bs as with
  | zero =>
    cases as with
    | nil => simp [decodeTimes, encodeAll]
    | cons a as => simp [decodeTimes]
  | succ n ih =>
    simp only [decodeTimes, Option.bind_eq_some_iff, Option.map_eq_some_iff, Prod.exists,
      Prod.mk.injEq]
    constructor
    · rintro ⟨a, mid, ha, as', rest', htail, rfl, rfl⟩
      obtain ⟨e, he, rfl⟩ := (c.law _ _ _).mp ha
      obtain ⟨rfl, f, hf, rfl⟩ := ih.mp htail
      refine ⟨rfl, e ++ f, ?_, by rw [List.append_assoc]⟩
      simp [encodeAll, he, hf]
    · rintro ⟨hlen, e, he, rfl⟩
      cases as with
      | nil => simp at hlen
      | cons a as =>
        simp only [encodeAll, Option.bind_eq_some_iff, Option.map_eq_some_iff] at he
        obtain ⟨e, he, f, hf, rfl⟩ := he
        have htail := ih.mpr ⟨by simpa using hlen, f, hf, rfl⟩
        rw [List.append_assoc]
        exact ⟨a, f ++ rest, c.decode_append he _, as, rest, htail, rfl, rfl⟩

/-- Exactly `n` items, with nothing before them. -/
def times (c : Codec α) (n : Nat) : Codec (List α) where
  encode as := if as.length = n then c.encodeAll as else none
  decode := c.decodeTimes n
  law bs as rest := by
    rw [decodeTimes_eq_some]
    by_cases h : as.length = n
    · simp [h]
    · simp [h]

theorem byte_encodeAll (bs : List UInt8) : byte.encodeAll bs = some bs := by
  induction bs with
  | nil => rfl
  | cons b bs ih =>
    rw [encodeAll, ih]
    rfl

end Codec

/-! ## Words -/

/-- `to_le_bytes`. -/
def leBytes : Nat → Nat → List UInt8
  | 0, _ => []
  | k + 1, n => UInt8.ofNat n :: leBytes k (n / 256)

def fromLE : List UInt8 → Nat
  | [] => 0
  | b :: rest => b.toNat + 256 * fromLE rest

@[simp] theorem length_leBytes (k n : Nat) : (leBytes k n).length = k := by
  induction k generalizing n with
  | zero => rfl
  | succ k ih => simp [leBytes, ih]

theorem fromLE_leBytes {k n : Nat} (h : n < 256 ^ k) : fromLE (leBytes k n) = n := by
  induction k generalizing n with
  | zero =>
    have hn : n = 0 := by simpa using h
    rw [hn]
    rfl
  | succ k ih =>
    have hq : n / 256 < 256 ^ k := by
      rw [Nat.div_lt_iff_lt_mul (by omega), ← Nat.pow_succ]
      exact h
    simp only [leBytes, fromLE, ih hq, UInt8.toNat_ofNat']
    omega

theorem leBytes_fromLE (bs : List UInt8) : leBytes bs.length (fromLE bs) = bs := by
  induction bs with
  | nil => rfl
  | cons b bs ih =>
    have hb := b.toNat_lt
    have hq : (b.toNat + 256 * fromLE bs) / 256 = fromLE bs := by omega
    have hr : UInt8.ofNat (b.toNat + 256 * fromLE bs) = b := by
      apply UInt8.toNat_inj.mp
      rw [UInt8.toNat_ofNat']
      omega
    simp only [List.length_cons, fromLE, leBytes, hq, hr, ih]

theorem leBytes_inj {k m n : Nat} (hm : m < 256 ^ k) (hn : n < 256 ^ k)
    (h : leBytes k m = leBytes k n) : m = n := by
  have hread := congrArg fromLE h
  rwa [fromLE_leBytes hm, fromLE_leBytes hn] at hread

theorem getElem_leBytes {k n i : Nat} (h : i < (leBytes k n).length) :
    (leBytes k n)[i] = UInt8.ofNat (n / 256 ^ i) := by
  induction k generalizing n i with
  | zero => simp at h
  | succ k ih =>
    cases i with
    | zero => simp [leBytes]
    | succ i =>
      simp only [leBytes, List.getElem_cons_succ]
      rw [ih, Nat.div_div_eq_div_mul, Nat.pow_succ']

/-- `to_be_bytes`. -/
def beBytes (k n : Nat) : List UInt8 := (leBytes k n).reverse

@[simp] theorem length_beBytes (k n : Nat) : (beBytes k n).length = k := by simp [beBytes]

theorem beBytes_inj {k m n : Nat} (hm : m < 256 ^ k) (hn : n < 256 ^ k)
    (h : beBytes k m = beBytes k n) : m = n :=
  leBytes_inj hm hn (List.reverse_injective h)

/-- Strings of `k` bytes and the numbers below `N = 256 ^ k`. -/
def lePEquiv (k N : Nat) (hN : N = 256 ^ k) : List UInt8 ≃. Fin N where
  toFun bs := if h : fromLE bs < N ∧ bs.length = k then some ⟨fromLE bs, h.1⟩ else none
  invFun n := some (leBytes k n.val)
  inv bs n := by
    subst hN
    simp only [Option.some.injEq, Option.dite_none_right_eq_some]
    constructor
    · rintro rfl
      have hval := fromLE_leBytes n.isLt
      exact ⟨⟨by rw [hval]; exact n.isLt, length_leBytes _ _⟩, Fin.ext hval⟩
    · rintro ⟨⟨-, rfl⟩, rfl⟩
      exact leBytes_fromLE bs

namespace Codec

variable {α : Type}

/-- A little-endian word of `k` bytes. -/
def word (k N : Nat) (hN : N = 256 ^ k) : Codec (Fin N) := (byte.times k).pmap (lePEquiv k N hN)

@[simp] theorem word_encode {k N : Nat} {hN : N = 256 ^ k} (n : Fin N) :
    (word k N hN).encode n = some (leBytes k n.val) := by
  simp [word, pmap, lePEquiv, PEquiv.symm, times, byte_encodeAll]

/-- A big-endian word of `k` bytes. -/
def wordBE (k N : Nat) (hN : N = 256 ^ k) : Codec (Fin N) :=
  ((byte.times k).map List.reverse_involutive.toPerm).pmap (lePEquiv k N hN)

@[simp] theorem wordBE_encode {k N : Nat} {hN : N = 256 ^ k} (n : Fin N) :
    (wordBE k N hN).encode n = some (beBytes k n.val) := by
  simp [wordBE, pmap, lePEquiv, PEquiv.symm, map_encode, times, byte_encodeAll, beBytes]

def u32 : Codec U32 := word 4 _ (by decide)
def u64 : Codec U64 := word 8 _ (by decide)
def u128 : Codec U128 := word 16 _ (by decide)

@[simp] theorem u32_encode (n : U32) : u32.encode n = some (leBytes 4 n.val) := word_encode n
@[simp] theorem u64_encode (n : U64) : u64.encode n = some (leBytes 8 n.val) := word_encode n
@[simp] theorem u128_encode (n : U128) : u128.encode n = some (leBytes 16 n.val) := word_encode n

/-- `i64`: the word with the same bits. -/
def i64 : Codec Int64 := u64.map
  { toFun := fun n => (UInt64.ofFin n).toInt64
    invFun := fun x => x.toUInt64.toFin
    left_inv := fun n => by simp
    right_inv := fun x => by simp }

@[simp] theorem i64_encode (x : Int64) : i64.encode x = some (leBytes 8 x.toUInt64.toNat) :=
  u64_encode _

def bool : Codec Bool := byte.pmap
  { toFun := fun b => if b = 0 then some false else if b = 1 then some true else none
    invFun := fun x => some (if x then 1 else 0)
    inv := by
      intro b x
      by_cases h0 : b = 0
      · cases x <;> simp [h0]
      · by_cases h1 : b = 1
        · cases x <;> simp [h1]
        · cases x <;> simp [h0, h1, eq_comm] }

/-- The length of a sequence as its header has it. -/
def count (as : List α) : Option U32 :=
  if h : as.length < 2 ^ 32 then some ⟨as.length, h⟩ else none

/-- `Vec<T>`. -/
def vec (c : Codec α) : Codec (List α) :=
  u32.announced (fun n => c.times n.val) count (by
    intro n as e h
    simp only [times, Option.ite_none_right_eq_some] at h
    unfold count
    rw [dif_pos (by rw [h.1]; exact n.isLt)]
    exact congrArg some (Fin.ext h.1))

theorem vec_encode (c : Codec α) {as : List α} {bs : List UInt8} :
    c.vec.encode as = some bs ↔
      as.length < 2 ^ 32 ∧ ∃ e, c.encodeAll as = some e ∧ leBytes 4 as.length ++ e = bs := by
  simp only [vec, announced, count, times, u32_encode, Option.bind_eq_some_iff,
    Option.map_eq_some_iff, Option.dite_none_right_eq_some]
  constructor
  · rintro ⟨n, ⟨hlen, hn⟩, w, hw, e, he, hbs⟩
    obtain rfl := Option.some.inj hn
    obtain rfl := Option.some.inj hw
    rw [if_pos rfl] at he
    exact ⟨hlen, e, he, hbs⟩
  · rintro ⟨hlen, e, he, hbs⟩
    exact ⟨⟨as.length, hlen⟩, ⟨hlen, rfl⟩, _, rfl, e, by rw [if_pos rfl]; exact he, hbs⟩

/-- `Vec<u8>`. -/
def bytes : Codec (List UInt8) := byte.vec

theorem bytes_encode {as bs : List UInt8} :
    bytes.encode as = some bs ↔ as.length < 2 ^ 32 ∧ leBytes 4 as.length ++ as = bs := by
  simp [bytes, vec_encode, byte_encodeAll]

/-- The two variants of an option; a variant byte is 0 or 1. -/
def optionArm (c : Codec α) (t : UInt8) : Codec (Option α) :=
  if t = 0 then unit.pmap
    { toFun := fun _ => some none
      invFun := fun o => if o.isNone then some () else none
      inv := by rintro ⟨⟩ (_ | a) <;> simp }
  else if t = 1 then c.pmap
    { toFun := fun a => some (some a)
      invFun := id
      inv := by
        intro a o
        simp [eq_comm] }
  else never

/-- `Option<T>`. -/
def option (c : Codec α) : Codec (Option α) :=
  enum c.optionArm (fun o => if o.isSome then 1 else 0) (by
    intro t o e h
    unfold optionArm at h
    split_ifs at h with h0 h1
    · cases o with
      | none => exact h0.symm
      | some a => simp [pmap, PEquiv.symm] at h
    · cases o with
      | none => simp [pmap, PEquiv.symm] at h
      | some a => exact h1.symm
    · simp [never] at h)

theorem option_encode_none (c : Codec α) : c.option.encode none = some [0] := rfl

theorem option_encode_some (c : Codec α) (a : α) :
    c.option.encode (some a) = (c.encode a).map fun e => 1 :: e := by
  cases h : c.encode a <;> simp [option, enum, announced, optionArm, pmap, PEquiv.symm, h]

/-! ## Formats without a limit -/

/-- Every value has an encoding. -/
def Total (c : Codec α) : Prop := ∀ a, ∃ e, c.encode a = some e

theorem Total.prod {β : Type} {c : Codec α} {d : Codec β} (hc : c.Total) (hd : d.Total) :
    (c.prod d).Total := by
  rintro ⟨a, b⟩
  obtain ⟨e, he⟩ := hc a
  obtain ⟨f, hf⟩ := hd b
  exact ⟨e ++ f, (prod_encode c d).mpr ⟨e, he, f, hf, rfl⟩⟩

theorem Total.map {β : Type} {c : Codec α} (hc : c.Total) (f : α ≃ β) : (c.map f).Total :=
  fun b => hc (f.symm b)

theorem Total.option {c : Codec α} (hc : c.Total) : c.option.Total := by
  intro o
  cases o with
  | none => exact ⟨[0], c.option_encode_none⟩
  | some a =>
    obtain ⟨e, he⟩ := hc a
    exact ⟨1 :: e, by rw [option_encode_some, he, Option.map_some]⟩

theorem total_u64 : u64.Total := fun n => ⟨_, u64_encode n⟩

theorem total_u128 : u128.Total := fun n => ⟨_, u128_encode n⟩

/-- The encoding of a value. -/
def form (c : Codec α) (a : α) : List UInt8 := (c.encode a).getD []

theorem Total.encode_eq {c : Codec α} (hc : c.Total) (a : α) : c.encode a = some (c.form a) := by
  obtain ⟨e, he⟩ := hc a
  rw [form, he, Option.getD_some]

/-! ## Strings -/

/-- The byte strings that are the UTF-8 form of a string. -/
def utf8PEquiv : List UInt8 ≃. String where
  toFun bs := String.fromUTF8? ⟨bs.toArray⟩
  invFun s := some s.toByteArray.data.toList
  inv bs s := by
    simp only [Option.some.injEq, String.fromUTF8?, Option.dite_none_right_eq_some]
    constructor
    · rintro rfl
      exact ⟨s.isValidUTF8, rfl⟩
    · rintro ⟨hvalid, rfl⟩
      rfl

def string : Codec String := bytes.pmap utf8PEquiv

theorem string_encode (s : String) : string.encode s = bytes.encode s.toByteArray.data.toList := rfl

end Codec

end Borsh
