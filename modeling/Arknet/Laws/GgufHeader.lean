import Arknet.ModelManager.Gguf
import Mathlib.Data.List.Induction

/-!
The header parser reads what a writer of the format has written, whatever comes after it. On any bytes at
all no position overflows, no slice leaves the buffer, and the recursion ends.
-/

namespace Arknet.Laws

open Machine Borsh Arknet.ModelManager

/-! ## The format -/

/-- The value types of a fixed width. -/
inductive GgufScalar where
  | uint8 | int8 | uint16 | int16 | uint32 | int32 | float32 | bool | uint64 | int64 | float64
  deriving DecidableEq, Repr

def GgufScalar.id : GgufScalar → U32
  | .uint8 => 0
  | .int8 => 1
  | .uint16 => 2
  | .int16 => 3
  | .uint32 => 4
  | .int32 => 5
  | .float32 => 6
  | .bool => 7
  | .uint64 => 10
  | .int64 => 11
  | .float64 => 12

def GgufScalar.width : GgufScalar → Nat
  | .uint8 | .int8 | .bool => 1
  | .uint16 | .int16 => 2
  | .uint32 | .int32 | .float32 => 4
  | .uint64 | .int64 | .float64 => 8

inductive GgufType where
  | scalar (ty : GgufScalar)
  | string
  | array
  deriving DecidableEq, Repr

def GgufType.id : GgufType → U32
  | .scalar ty => ty.id
  | .string => 8
  | .array => 9

/-- A value within the caps. The items of an array are of one type. -/
inductive GgufValue : GgufType → Type
  | scalar (ty : GgufScalar) (bits : Fin (256 ^ ty.width)) : GgufValue (.scalar ty)
  | string (s : String) (h : s.utf8ByteSize ≤ MAX_STRING_LEN.val) : GgufValue .string
  | array (elem : GgufType) (n : Nat) (h : n ≤ MAX_METADATA_ENTRIES.val) (items : Fin n → GgufValue elem) :
      GgufValue .array

def encodeString (s : String) : List UInt8 := leBytes 8 s.utf8ByteSize ++ s.toUTF8.data.toList

def GgufValue.encode : {ty : GgufType} → GgufValue ty → List UInt8
  | _, .scalar ty bits => leBytes ty.width bits.val
  | _, .string s _ => encodeString s
  | _, .array elem n _ items =>
    leBytes 4 elem.id.val ++ leBytes 8 n ++ (List.ofFn fun i => (items i).encode).flatten

structure GgufEntry where
  key : String
  hkey : key.utf8ByteSize ≤ MAX_STRING_LEN.val
  type : GgufType
  value : GgufValue type

def GgufEntry.encode (e : GgufEntry) : List UInt8 :=
  encodeString e.key ++ leBytes 4 e.type.id.val ++ e.value.encode

/-- The counts and the entries; there are at most as many entries as the parser takes. -/
structure GgufContent where
  tensorCount : U64
  entries : List GgufEntry
  hcount : entries.length ≤ MAX_METADATA_ENTRIES.val

def GgufContent.encode (c : GgufContent) : List UInt8 :=
  GGUF_MAGIC ++ leBytes 4 3 ++ leBytes 8 c.tensorCount.val ++ leBytes 8 c.entries.length ++
    (c.entries.map GgufEntry.encode).flatten

def GgufValue.text? : {ty : GgufType} → GgufValue ty → Option String
  | _, .string s _ => some s
  | _, _ => none

def GgufValue.u32? : {ty : GgufType} → GgufValue ty → Option U32
  | _, .scalar .uint32 bits => some bits
  | _, _ => none

def GgufEntry.architecture (e : GgufEntry) : Option String :=
  if e.key = "general.architecture" then e.value.text? else none

def GgufEntry.fileType (e : GgufEntry) : Option U32 :=
  if e.key = "general.file_type" then e.value.u32? else none

/-- What the parser is to find. -/
def GgufContent.header (c : GgufContent) : GgufHeader where
  version := 3
  tensorCount := c.tensorCount
  metadataCount := truncate 64 c.entries.length
  architecture := (c.entries.filterMap GgufEntry.architecture).getLast?
  fileType := (c.entries.filterMap GgufEntry.fileType).getLast?

/-! ## Reading what was written -/

/-- Wherever these bytes stand, the reader takes exactly them. -/
def Reads {α : Type} (x : Read α) (bytes : List UInt8) (a : α) : Prop :=
  ∀ before after, x.run ⟨before ++ bytes ++ after, before.length⟩ =
    .ok (a, ⟨before ++ bytes ++ after, before.length + bytes.length⟩)

section

variable {α β : Type} {x : Read α} {f : α → Read β} {a : α} {b : β} {bytes bytes' : List UInt8}

theorem Reads.pure (a : α) : Reads (Pure.pure a : Read α) [] a := fun _ _ => rfl

theorem Reads.bind (hx : Reads x bytes a) (hf : Reads (f a) bytes' b) :
    Reads (x >>= f) (bytes ++ bytes') b := by
  intro before after
  have hfirst := hx before (bytes' ++ after)
  have hsecond := hf (before ++ bytes) after
  simp only [List.append_assoc, List.length_append] at hfirst hsecond ⊢
  change (x.run _).bind (fun p => (f p.1).run p.2) = _
  rw [hfirst]
  change (f a).run _ = _
  rw [hsecond, Nat.add_assoc]

theorem Reads.array {n : Nat} (h : bytes.length = n) : Reads (Cursor.array n) bytes bytes := by
  intro before after
  subst h
  have hroom : ¬ (before ++ bytes ++ after).length < before.length + bytes.length := by
    simp only [List.length_append]
    omega
  have hslice : ((before ++ bytes ++ after).drop before.length).take bytes.length = bytes := by
    rw [List.append_assoc, List.drop_left, List.take_left]
  exact (Read.array_run _ _).trans (by rw [if_neg hroom, hslice])

/-- The last read of a block. -/
theorem Reads.last (hx : Reads x bytes a) (hf : Reads (f a) [] b) : Reads (x >>= f) bytes b :=
  List.append_nil bytes ▸ hx.bind hf

theorem Reads.word {w k n : Nat} (h : n < 2 ^ w) (hk : 256 ^ k = 2 ^ w) :
    Reads (do
      let bytes ← Cursor.array k
      Pure.pure (truncate w (fromLE bytes))) (leBytes k n) ⟨n, h⟩ := by
  refine (Reads.array (length_leBytes k n)).last ?_
  rw [fromLE_leBytes (hk ▸ h)]
  have htruncate : truncate w n = ⟨n, h⟩ := Fin.ext (Nat.mod_eq_of_lt h)
  rw [htruncate]
  exact .pure _

theorem Reads.u32 (n : U32) : Reads Cursor.u32 (leBytes 4 n.val) n := Reads.word n.isLt (by decide)

theorem Reads.u64 (n : U64) : Reads Cursor.u64 (leBytes 8 n.val) n := Reads.word n.isLt (by decide)

theorem Reads.skip {n : Nat} (h : bytes.length = n) : Reads (Cursor.skip n) bytes () :=
  (Reads.array h).last (.pure _)

theorem Reads.string {s : String} (h : s.utf8ByteSize ≤ MAX_STRING_LEN.val) :
    Reads Cursor.string (encodeString s) s := by
  have hcap : MAX_STRING_LEN.val < 2 ^ 64 := MAX_STRING_LEN.isLt
  refine (Reads.u64 ⟨s.utf8ByteSize, by omega⟩).bind ?_
  rw [if_neg (by rw [Fin.lt_def]; exact Nat.not_lt.mpr h)]
  have hlen : s.toUTF8.data.toList.length = s.utf8ByteSize := by
    rw [Array.length_toList]
    rfl
  refine (Reads.array hlen).last ?_
  have hread : String.fromUTF8? ⟨s.toUTF8.data.toList.toArray⟩ = some s := by
    rw [Array.toArray_toList]
    exact dif_pos s.isValidUTF8
  rw [hread]
  exact .pure s

/-- As many values as there are pieces. -/
theorem Reads.times {r : Read Unit} {pieces : List (List UInt8)} (h : ∀ piece ∈ pieces, Reads r piece ()) :
    Reads (Cursor.times pieces.length r) pieces.flatten () := by
  induction pieces with
  | nil => exact .pure ()
  | cons piece rest ih =>
    have hrest := ih fun other hother => h other (List.mem_cons_of_mem _ hother)
    exact (h piece List.mem_cons_self).bind hrest

end

/-! ## Values and entries -/

theorem skipValue_scalar (ty : GgufScalar) (depth : Nat) :
    (Cursor.skipValue (depth + 1) ty.id : Read Unit) = Cursor.skip ty.width := by
  cases ty <;> rfl

theorem skipValue_string (depth : Nat) :
    (Cursor.skipValue (depth + 1) (GgufType.id .string) : Read Unit) = (do
      let _ ← Cursor.string
      pure ()) := rfl

theorem skipValue_array (depth : Nat) :
    (Cursor.skipValue (depth + 1) (GgufType.id .array) : Read Unit) = (do
      let elemTy ← Cursor.u32
      let n ← Cursor.u64
      if MAX_METADATA_ENTRIES < n then Cursor.fail (.arrayLength n)
      else Cursor.times n.val (Cursor.skipValue depth elemTy)) := rfl

/-- A value is skipped, whatever is nested in it. -/
theorem Reads.skipValue {ty : GgufType} (v : GgufValue ty) {depth : Nat} (h : v.encode.length < depth) :
    Reads (Cursor.skipValue depth ty.id) v.encode () := by
  induction v generalizing depth with
  | scalar ty bits =>
    cases depth with
    | zero => omega
    | succ depth =>
      rw [GgufType.id, skipValue_scalar]
      exact Reads.skip (length_leBytes _ _)
  | string s hs =>
    cases depth with
    | zero => omega
    | succ depth =>
      rw [skipValue_string]
      exact (Reads.string hs).last (.pure ())
  | array elem n hn items ih =>
    cases depth with
    | zero => omega
    | succ depth =>
      have hcap : MAX_METADATA_ENTRIES.val < 2 ^ 64 := MAX_METADATA_ENTRIES.isLt
      rw [skipValue_array, GgufValue.encode, List.append_assoc]
      refine (Reads.u32 elem.id).bind ((Reads.u64 ⟨n, by omega⟩).bind ?_)
      rw [if_neg (by rw [Fin.lt_def]; exact Nat.not_lt.mpr hn)]
      have hlen : (List.ofFn fun i => (items i).encode).length = n := List.length_ofFn
      have hitems : ∀ piece ∈ List.ofFn fun i => (items i).encode,
          Reads (Cursor.skipValue depth elem.id) piece () := by
        intro piece hpiece
        have hshort := (List.sublist_flatten_of_mem hpiece).length_le
        obtain ⟨i, rfl⟩ := (List.mem_ofFn' _ _).mp hpiece
        refine ih i ?_
        change (items i).encode.length ≤ _ at hshort
        simp only [GgufValue.encode, List.length_append, length_leBytes] at h
        omega
      have hall := Reads.times hitems
      rw [hlen] at hall
      exact hall

/-- What the parser has found after one more entry. -/
def foundBy (found : Option String × Option U32) (e : GgufEntry) : Option String × Option U32 :=
  (e.architecture.or found.1, e.fileType.or found.2)

theorem GgufScalar.id_ne_string (ty : GgufScalar) : ty.id ≠ 8 := by cases ty <;> decide

theorem GgufScalar.id_eq_four {ty : GgufScalar} : ty.id = 4 ↔ ty = .uint32 := by cases ty <;> decide

theorem GgufValue.u32?_scalar {ty : GgufScalar} {bits : Fin (256 ^ ty.width)} (h : ty ≠ .uint32) :
    (GgufValue.scalar ty bits).u32? = none := by
  cases ty <;> first | rfl | exact absurd rfl h

theorem Reads.entry {depth : Nat} (found : Option String × Option U32) (e : GgufEntry)
    (h : e.encode.length < depth) : Reads (Cursor.entry depth found) e.encode (foundBy found e) := by
  obtain ⟨key, hkey, type, value⟩ := e
  have hvalue : value.encode.length < depth := by
    simp only [GgufEntry.encode, List.length_append] at h
    omega
  rw [GgufEntry.encode, List.append_assoc]
  refine (Reads.string hkey).bind ((Reads.u32 type.id).bind ?_)
  have hskip : Reads (do
      Cursor.skipValue depth type.id
      Pure.pure found) value.encode found := (Reads.skipValue value hvalue).last (.pure found)
  cases value with
  | scalar ty bits =>
    rw [if_neg (fun h => GgufScalar.id_ne_string ty h.2)]
    by_cases hfile : key = "general.file_type" ∧ ty = .uint32
    · obtain ⟨rfl, rfl⟩ := hfile
      rw [if_pos ⟨rfl, rfl⟩]
      exact (Reads.u32 bits).last (.pure _)
    · rw [if_neg (fun h => hfile ⟨h.1, GgufScalar.id_eq_four.mp h.2⟩)]
      have hnone : foundBy found ⟨key, hkey, .scalar ty, .scalar ty bits⟩ = found := by
        by_cases hkey : key = "general.file_type"
        · simp [foundBy, GgufEntry.architecture, GgufEntry.fileType, GgufValue.text?,
            GgufValue.u32?_scalar (fun h => hfile ⟨hkey, h⟩)]
        · simp [foundBy, GgufEntry.architecture, GgufEntry.fileType, GgufValue.text?, hkey]
      rw [hnone]
      exact hskip
  | string s hs =>
    by_cases hkind : key = "general.architecture"
    · subst hkind
      rw [if_pos ⟨rfl, rfl⟩]
      exact (Reads.string hs).last (.pure _)
    · rw [if_neg (fun h => hkind h.1), if_neg (fun h => absurd h.2 (by decide))]
      have hnone : foundBy found ⟨key, hkey, .string, .string s hs⟩ = found := by
        simp [foundBy, GgufEntry.architecture, GgufEntry.fileType, GgufValue.u32?, hkind]
      rw [hnone]
      exact hskip
  | array elem n hn items =>
    rw [if_neg (fun h => absurd h.2 (by decide)), if_neg (fun h => absurd h.2 (by decide))]
    have hnone : foundBy found ⟨key, hkey, .array, .array elem n hn items⟩ = found := by
      simp [foundBy, GgufEntry.architecture, GgufEntry.fileType, GgufValue.text?, GgufValue.u32?]
    rw [hnone]
    exact hskip

theorem Reads.entries {depth : Nat} (found : Option String × Option U32) (es : List GgufEntry)
    (h : ∀ e ∈ es, e.encode.length < depth) :
    Reads (Cursor.entries depth es.length found) (es.map GgufEntry.encode).flatten (es.foldl foundBy found) := by
  induction es generalizing found with
  | nil => exact .pure found
  | cons e rest ih =>
    have hrest := ih (foundBy found e) fun other hother => h other (List.mem_cons_of_mem _ hother)
    exact (Reads.entry found e (h e List.mem_cons_self)).bind hrest

/-- The last of each is kept. -/
theorem foldl_foundBy (es : List GgufEntry) (found : Option String × Option U32) :
    es.foldl foundBy found = ((es.filterMap GgufEntry.architecture).getLast?.or found.1,
      (es.filterMap GgufEntry.fileType).getLast?.or found.2) := by
  induction es using List.reverseRecOn with
  | nil => rfl
  | append_singleton es e ih =>
    have hsnoc : ∀ {α : Type} (f : GgufEntry → Option α),
        ((es ++ [e]).filterMap f).getLast? = (f e).or (es.filterMap f).getLast? := by
      intro α f
      rw [List.filterMap_append, List.getLast?_append]
      cases hfound : f e with
      | none => simp [hfound]
      | some a => simp [hfound]
    rw [List.foldl_append, List.foldl_cons, List.foldl_nil, ih, foundBy, hsnoc, hsnoc, Option.or_assoc,
      Option.or_assoc]

/-- Whatever follows the header, the parser finds what was written. -/
theorem parseHeaderBytes_encode (c : GgufContent) (rest : List UInt8) :
    parseHeaderBytes (c.encode ++ rest) = .ok c.header := by
  have hcap : MAX_METADATA_ENTRIES.val < 2 ^ 64 := MAX_METADATA_ENTRIES.isLt
  have hcount := c.hcount
  have hread : Reads (Cursor.header (c.encode ++ rest).length) c.encode c.header := by
    have hentries : ∀ e ∈ c.entries, e.encode.length < (c.encode ++ rest).length := by
      intro e he
      have hshort := (List.sublist_flatten_of_mem (List.mem_map_of_mem (f := GgufEntry.encode) he)).length_le
      simp only [GgufContent.encode, List.length_append, length_leBytes]
      omega
    have hall := Reads.entries (none, none) c.entries hentries
    rw [foldl_foundBy, Option.or_none, Option.or_none] at hall
    generalize (c.encode ++ rest).length = depth at hall ⊢
    rw [Cursor.header, GgufContent.encode]
    simp only [List.append_assoc]
    refine (Reads.array (show GGUF_MAGIC.length = 4 from rfl)).bind ?_
    rw [if_neg (not_not.mpr rfl)]
    refine (Reads.u32 3).bind ?_
    rw [if_neg (show ¬ (3 : U32) ≠ SUPPORTED_VERSION from not_not.mpr rfl)]
    refine (Reads.u64 c.tensorCount).bind ((Reads.u64 ⟨c.entries.length, by omega⟩).bind ?_)
    rw [if_neg (by rw [Fin.lt_def]; exact Nat.not_lt.mpr hcount)]
    have hnumber : (⟨c.entries.length, by omega⟩ : U64) = truncate 64 c.entries.length :=
      Fin.ext (Nat.mod_eq_of_lt (by omega)).symm
    rw [GgufContent.header, ← hnumber]
    exact hall.last (.pure _)
  have hrun : (Cursor.header (c.encode ++ rest).length : Read GgufHeader).run ⟨c.encode ++ rest, 0⟩ = _ :=
    hread [] rest
  rw [parseHeaderBytes, hrun]
  rfl

/-! ## Two readers in step -/

/-- A relation between what two readers do that every operation of the parser keeps. -/
structure Simulation (m n : Type → Type) [Cursor m] [Cursor n] where
  rel : {α : Type} → m α → n α → Prop
  pure : ∀ {α : Type} (a : α), rel (Pure.pure a : m α) (Pure.pure a : n α)
  bind : ∀ {α β : Type} {x : m α} {y : n α} {f : α → m β} {g : α → n β},
    rel x y → (∀ a, rel (f a) (g a)) → rel (x >>= f) (y >>= g)
  array : ∀ k ≤ MAX_STRING_LEN.val, rel (Cursor.array k : m (List UInt8)) (Cursor.array k : n (List UInt8))
  fail : ∀ {α : Type} (e : GgufError), rel (Cursor.fail e : m α) (Cursor.fail e : n α)
  frame : ∀ {α : Type} {x : m α} {y : n α}, rel x y → rel (Cursor.frame x) (Cursor.frame y)

namespace Simulation

variable {m n : Type → Type} [Cursor m] [Cursor n] (S : Simulation m n)

theorem ite {α : Type} {p : Prop} [Decidable p] {x x' : m α} {y y' : n α} (h : S.rel x y)
    (h' : S.rel x' y') : S.rel (if p then x else x') (if p then y else y') := by
  split
  · exact h
  · exact h'

theorem u32 : S.rel (Cursor.u32 : m U32) (Cursor.u32 : n U32) :=
  S.bind (S.array 4 (by decide)) fun _ => S.pure _

theorem u64 : S.rel (Cursor.u64 : m U64) (Cursor.u64 : n U64) :=
  S.bind (S.array 8 (by decide)) fun _ => S.pure _

theorem string : S.rel (Cursor.string : m String) (Cursor.string : n String) := by
  refine S.bind S.u64 fun len => ?_
  by_cases hlong : MAX_STRING_LEN < len
  · rw [if_pos hlong, if_pos hlong]
    exact S.fail _
  · rw [if_neg hlong, if_neg hlong]
    refine S.bind (S.array len.val (Fin.le_def.mp (not_lt.mp hlong))) fun bytes => ?_
    split
    · exact S.pure _
    · exact S.fail _

theorem skip {k : Nat} (h : k ≤ MAX_STRING_LEN.val) : S.rel (Cursor.skip k : m Unit) (Cursor.skip k : n Unit) :=
  S.bind (S.array k h) fun _ => S.pure _

theorem times {x : m Unit} {y : n Unit} (h : S.rel x y) (k : Nat) :
    S.rel (Cursor.times k x) (Cursor.times k y) := by
  induction k with
  | zero => exact S.pure ()
  | succ k ih => exact S.bind h fun _ => ih

theorem skipValue (depth : Nat) (ty : U32) :
    S.rel (Cursor.skipValue depth ty : m Unit) (Cursor.skipValue depth ty : n Unit) := by
  induction depth generalizing ty with
  | zero => exact S.fail _
  | succ depth ih =>
    refine S.frame (S.ite (S.skip (by decide)) (S.ite (S.skip (by decide)) (S.ite (S.skip (by decide))
      (S.ite (S.skip (by decide)) (S.ite (S.bind S.string fun _ => S.pure ()) (S.ite ?_ (S.fail _)))))))
    exact S.bind S.u32 fun elemTy => S.bind S.u64 fun k => S.ite (S.fail _) (S.times (ih elemTy) k.val)

/-! The two readers may go down to different depths, as long as values are skipped in step. -/

section

variable {depth depth' : Nat}
  (hskip : ∀ ty, S.rel (Cursor.skipValue depth ty : m Unit) (Cursor.skipValue depth' ty : n Unit))
include hskip

theorem entry (found : Option String × Option U32) :
    S.rel (Cursor.entry depth found : m _) (Cursor.entry depth' found : n _) := by
  refine S.bind S.string fun key => S.bind S.u32 fun ty => S.ite ?_ (S.ite ?_ ?_)
  · exact S.bind S.string fun _ => S.pure _
  · exact S.bind S.u32 fun _ => S.pure _
  · exact S.bind (hskip ty) fun _ => S.pure _

theorem entries (count : Nat) (found : Option String × Option U32) :
    S.rel (Cursor.entries depth count found : m _) (Cursor.entries depth' count found : n _) := by
  induction count generalizing found with
  | zero => exact S.pure found
  | succ count ih => exact S.bind (S.entry hskip found) fun found => ih found

theorem header :
    S.rel (Cursor.header depth : m GgufHeader) (Cursor.header depth' : n GgufHeader) := by
  refine S.bind (S.array 4 (by decide)) fun magic => S.ite (S.fail _) (S.bind S.u32 fun version =>
    S.ite (S.fail _) (S.bind S.u64 fun tensorCount => S.bind S.u64 fun count => S.ite (S.fail _) ?_))
  exact S.bind (S.entries hskip count.val (none, none)) fun _ => S.pure _

end

end Simulation

/-! ## Words -/

/-- A slice is no longer than the largest signed word, and the position is in it. -/
structure WordReader.Sound (w : WordReader) : Prop where
  slice : w.buf.length < 2 ^ 63
  within : w.pos.val ≤ w.buf.length

def WordReader.reader (w : WordReader) : Reader := ⟨w.buf, w.pos.val⟩

/-- The read of words does not abort, has the result of the other, and stays inside the buffer. -/
def SameRead {α : Type} (x : WordRead α) (y : Read α) : Prop :=
  ∀ w : WordReader, WordReader.Sound w → ∃ result : Except GgufError (α × WordReader),
    x.run w = .ok result ∧ y.run (WordReader.reader w) = result.map (fun p => (p.1, WordReader.reader p.2)) ∧
      ∀ p, result = .ok p → WordReader.Sound p.2

section

variable {α β : Type} {x : WordRead α} {y : Read α} {f : α → WordRead β} {g : α → Read β}

theorem SameRead.pure (a : α) : SameRead (Pure.pure a) (Pure.pure a) := fun w hw =>
  ⟨.ok (a, w), rfl, rfl, fun p hp => by cases hp; exact hw⟩

theorem SameRead.fail (e : GgufError) : SameRead (Cursor.fail e : WordRead α) (Cursor.fail e) := fun _ _ =>
  ⟨.error e, rfl, rfl, fun p hp => by cases hp⟩

theorem SameRead.bind (h : SameRead x y) (hnext : ∀ a, SameRead (f a) (g a)) :
    SameRead (x >>= f) (y >>= g) := by
  intro w hw
  obtain ⟨result, hx, hy, hsound⟩ := h w hw
  cases result with
  | error e =>
    refine ⟨.error e, ?_, ?_, fun p hp => by cases hp⟩
    · rw [StateT.run_bind, hx]
      rfl
    · rw [StateT.run_bind, hy]
      rfl
  | ok p =>
    obtain ⟨a, w'⟩ := p
    obtain ⟨result, hx', hy', hsound'⟩ := hnext a w' (hsound _ rfl)
    refine ⟨result, ?_, ?_, hsound'⟩
    · rw [StateT.run_bind, hx]
      exact hx'
    · rw [StateT.run_bind, hy]
      exact hy'

/-- An operation that returns. -/
theorem lift_bind {op : Exec β} {b : β} {next : β → WordRead α} {w : WordReader} (h : op = .ok b) :
    (WordRead.lift op >>= next).run w = (next b).run w := by
  subst h
  rfl

theorem SameRead.array {k : Nat} (h : k ≤ MAX_STRING_LEN.val) :
    SameRead (Cursor.array k) (Cursor.array k) := by
  intro w hw
  have hslice := hw.slice
  have hwithin := hw.within
  have hcap : MAX_STRING_LEN.val = 65536 := rfl
  have hk : (truncate 64 k).val = k := Nat.mod_eq_of_lt (by omega)
  have hadd : add w.pos (truncate 64 k) = .ok ⟨w.pos.val + k, by omega⟩ := add_eq_ok.mpr (by rw [hk])
  have hread := Read.array_run k (WordReader.reader w)
  by_cases hroom : w.buf.length < w.pos.val + k
  · refine ⟨.error (.truncated k w.pos.val (w.buf.length - w.pos.val)), ?_, ?_, fun p hp => by cases hp⟩
    · change (WordRead.array k).run w = _
      rw [WordRead.array_run, lift_bind hadd, if_pos hroom]
      rfl
    · exact hread.trans (if_pos hroom)
  · have hbytes : sliceBytes w.buf w.pos ⟨w.pos.val + k, by omega⟩ = .ok ((w.buf.drop w.pos.val).take k) := by
      rw [sliceBytes, if_neg]
      · rw [Nat.add_sub_cancel_left]
      · rintro (hback | hpast)
        · rw [Fin.lt_def] at hback
          dsimp only at hback
          omega
        · exact hroom hpast
    refine ⟨.ok ((w.buf.drop w.pos.val).take k, { w with pos := ⟨w.pos.val + k, by omega⟩ }), ?_, ?_, ?_⟩
    · change (WordRead.array k).run w = _
      rw [WordRead.array_run, lift_bind hadd, if_neg hroom, lift_bind hadd, lift_bind hbytes, lift_bind hadd]
      rfl
    · exact hread.trans (if_neg hroom)
    · intro p hp
      cases hp
      exact ⟨hslice, not_lt.mp hroom⟩

end

/-- What each operation of the parser does with words. -/
def wordSimulation : Simulation WordRead Read where
  rel := SameRead
  pure := .pure
  bind := .bind
  array _ h := .array h
  fail := .fail
  frame h := h

/-! ## The recursion -/

def Reader.room (r : Reader) : Nat := r.buf.length - r.pos

/-- A read that succeeds takes at least `k` bytes. -/
def Consumes {α : Type} (k : Nat) (x : Read α) : Prop :=
  ∀ r a r', x.run r = .ok (a, r') → Reader.room r' + k ≤ Reader.room r

/-- The reads are the same with less than `n` bytes left. -/
def Agree {α : Type} (n : Nat) (x y : Read α) : Prop :=
  ∀ r : Reader, Reader.room r < n → x.run r = y.run r

section

variable {α β : Type} {x y : Read α} {f g : α → Read β} {j k n : Nat}

theorem run_bind_ok {r : Reader} {p : β × Reader} (h : (x >>= f).run r = .ok p) :
    ∃ q, x.run r = .ok q ∧ (f q.1).run q.2 = .ok p := by
  rw [StateT.run_bind] at h
  cases hx : x.run r with
  | error e =>
    rw [hx] at h
    cases h
  | ok q =>
    rw [hx] at h
    exact ⟨q, rfl, h⟩

theorem Consumes.pure (a : α) : Consumes 0 (Pure.pure a : Read α) := by
  intro r b r' h
  cases h
  exact le_refl _

theorem Consumes.fail (e : GgufError) : Consumes k (Cursor.fail e : Read α) := by
  intro r a r' h
  cases h

theorem Consumes.array (k : Nat) : Consumes k (Cursor.array k : Read (List UInt8)) := by
  intro r a r' h
  have hread := (Read.array_run k r).symm.trans h
  split at hread
  · cases hread
  · cases hread
    simp only [Reader.room]
    omega

theorem Consumes.bind (hx : Consumes j x) (hf : ∀ a, Consumes k (f a)) : Consumes (j + k) (x >>= f) := by
  intro r b r' h
  obtain ⟨q, hq, hrest⟩ := run_bind_ok h
  have hfirst := hx r q.1 q.2 hq
  have hsecond := hf q.1 q.2 b r' hrest
  omega

theorem Consumes.weaken (h : Consumes j x) (hle : k ≤ j) : Consumes k x := by
  intro r a r' hrun
  have htaken := h r a r' hrun
  omega

theorem Consumes.u32 : Consumes 4 (Cursor.u32 : Read U32) := (Consumes.array 4).bind fun _ => Consumes.pure _

theorem Consumes.u64 : Consumes 8 (Cursor.u64 : Read U64) := (Consumes.array 8).bind fun _ => Consumes.pure _

/-- No read goes back. -/
def forwardSimulation : Simulation Read Read where
  rel x _ := Consumes 0 x
  pure := .pure
  bind hx hf := hx.bind hf
  array k _ := (Consumes.array k).weaken (Nat.zero_le k)
  fail := .fail
  frame h := h

theorem Agree.refl (x : Read α) : Agree n x x := fun _ _ => rfl

theorem Agree.bind (hx : Consumes j x) (hxy : Agree n x y) (hfg : ∀ a, Agree (n - j) (f a) (g a)) :
    Agree n (x >>= f) (y >>= g) := by
  intro r hr
  rw [StateT.run_bind, StateT.run_bind, ← hxy r hr]
  cases hrun : x.run r with
  | error e => rfl
  | ok p =>
    have htaken := hx r p.1 p.2 hrun
    exact hfg p.1 p.2 (by omega)

theorem Agree.times {x y : Read Unit} (hx : Consumes 0 x) (hxy : Agree n x y) (count : Nat) :
    Agree n (Cursor.times count x) (Cursor.times count y) := by
  induction count with
  | zero => exact Agree.refl _
  | succ count ih => exact Agree.bind hx hxy fun _ => ih

theorem skipValue_leaf {ty : U32} (h : ty ≠ 9) (d d' : Nat) :
    (Cursor.skipValue (d + 1) ty : Read Unit) = Cursor.skipValue (d' + 1) ty := by
  simp only [Cursor.skipValue, if_neg h]

/-- Every level of nesting takes twelve bytes, so with fewer left the depth does not matter. -/
theorem skipValue_agree {depth depth' : Nat} (h : n ≤ 12 * depth) (h' : n ≤ 12 * depth') (ty : U32) :
    Agree n (Cursor.skipValue depth ty : Read Unit) (Cursor.skipValue depth' ty) := by
  induction depth generalizing depth' n ty with
  | zero => exact fun r hr => absurd hr (by omega)
  | succ depth ih =>
    cases depth' with
    | zero => exact fun r hr => absurd hr (by omega)
    | succ depth' =>
      by_cases harray : ty = 9
      · subst harray
        change Agree n (Cursor.skipValue (depth + 1) (GgufType.id .array) : Read Unit)
          (Cursor.skipValue (depth' + 1) (GgufType.id .array))
        rw [skipValue_array, skipValue_array]
        refine Agree.bind Consumes.u32 (Agree.refl _) fun elemTy => ?_
        refine Agree.bind Consumes.u64 (Agree.refl _) fun count => ?_
        split
        · exact Agree.refl _
        · exact Agree.times (forwardSimulation.skipValue depth elemTy)
            (ih (by omega) (by omega) elemTy) count.val
      · rw [skipValue_leaf harray depth depth']
        exact Agree.refl _

/-- Reads that go nowhere back and are the same with less than `n` bytes left. -/
def agreeSimulation (n : Nat) : Simulation Read Read where
  rel x y := Consumes 0 x ∧ Agree n x y
  pure a := ⟨.pure a, .refl _⟩
  bind hx hf := ⟨hx.1.bind fun a => (hf a).1, Agree.bind hx.1 hx.2 fun a => (hf a).2⟩
  array k _ := ⟨(Consumes.array k).weaken (Nat.zero_le k), .refl _⟩
  fail e := ⟨.fail e, .refl _⟩
  frame h := h

end

theorem header_nil (depth : Nat) :
    (Cursor.header depth : Read GgufHeader).run ⟨[], 0⟩ = .error (.truncated 4 0 0) := rfl

/-- The depth of the recursion is never used up. -/
theorem header_depth (buf : List UInt8) {depth : Nat} (h : buf.length ≤ depth) :
    (Cursor.header depth : Read GgufHeader).run ⟨buf, 0⟩ =
      (Cursor.header buf.length : Read GgufHeader).run ⟨buf, 0⟩ := by
  cases hbuf : buf with
  | nil => rw [header_nil, header_nil]
  | cons b rest =>
    have hlen : buf.length = rest.length + 1 := by rw [hbuf, List.length_cons]
    have hskip : ∀ ty, (agreeSimulation (buf.length + 1)).rel (Cursor.skipValue depth ty)
        (Cursor.skipValue buf.length ty) := fun ty =>
      ⟨forwardSimulation.skipValue depth ty, skipValue_agree (by omega) (by omega) ty⟩
    rw [← hbuf]
    exact ((agreeSimulation (buf.length + 1)).header hskip).2 ⟨buf, 0⟩ (by simp [Reader.room])

/-- A well-formed header is read as it was written, whatever follows it; and on any bytes whatsoever the
code of the parser, however deep it may go, ends without an abort and with the same result. -/
theorem gguf_header :
    (∀ (c : GgufContent) (rest : List UInt8), parseHeaderBytes (c.encode ++ rest) = .ok c.header) ∧
    ∀ buf : List UInt8, buf.length < 2 ^ 63 → ∀ depth, buf.length ≤ depth →
      wordParseHeaderBytes depth buf = .ok (parseHeaderBytes buf) := by
  refine ⟨parseHeaderBytes_encode, fun buf hbuf depth hdepth => ?_⟩
  obtain ⟨result, hword, hread, -⟩ := wordSimulation.header (wordSimulation.skipValue depth) ⟨buf, 0⟩
    ⟨hbuf, Nat.zero_le _⟩
  have hsame : (Cursor.header depth : Read GgufHeader).run ⟨buf, 0⟩ = _ := hread
  rw [header_depth buf hdepth] at hsame
  rw [wordParseHeaderBytes, hword, parseHeaderBytes, hsame]
  cases result with
  | error e => rfl
  | ok p => rfl

theorem gguf_header_bare : wordParseHeaderBytes 24 bareGguf = .ok (parseHeaderBytes bareGguf) :=
  gguf_header.2 bareGguf (by decide) 24 (by decide)

end Arknet.Laws
