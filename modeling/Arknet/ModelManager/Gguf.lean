import Arknet.Lib.Borsh

/-!
The header of a GGUF v3 file: magic, version, counts and the metadata entries, of which the
architecture and the file type are kept. Every read is checked against what is left of the buffer.
-/

namespace Arknet.ModelManager

open Machine

def GGUF_MAGIC : List UInt8 := [71, 71, 85, 70]
def SUPPORTED_VERSION : U32 := 3
def MAX_STRING_LEN : U64 := 64 * 1024
def MAX_METADATA_ENTRIES : U64 := 256 * 1024
def HEADER_READ_SIZE : Nat := 16 * 1024 * 1024

inductive GgufError where
  | badMagic (magic : List UInt8)
  | unsupportedVersion (version : U32)
  | metadataCount (count : U64)
  | truncated (need offset remain : Nat)
  | stringLength (len : U64)
  | invalidUtf8
  | arrayLength (n : U64)
  | unknownType (ty : U32)
  deriving DecidableEq, Repr

structure GgufHeader where
  version : U32
  tensorCount : U64
  metadataCount : U64
  architecture : Option String
  fileType : Option U32
  deriving DecidableEq, Repr

/-! ## The parser -/

/-- What the parser does with its input; `frame` is around the body of a call of `skip_value`. -/
class Cursor (m : Type → Type) extends Monad m where
  array : Nat → m (List UInt8)
  fail {α : Type} : GgufError → m α
  frame {α : Type} : m α → m α

namespace Cursor

variable {m : Type → Type} [Cursor m]

def u32 : m U32 := do
  let bytes ← array 4
  pure (truncate 32 (Borsh.fromLE bytes))

def u64 : m U64 := do
  let bytes ← array 8
  pure (truncate 64 (Borsh.fromLE bytes))

def string : m String := do
  let len ← u64
  if MAX_STRING_LEN < len then fail (.stringLength len)
  else do
    let bytes ← array len.val
    match String.fromUTF8? ⟨bytes.toArray⟩ with
    | some s => pure s
    | none => fail .invalidUtf8

def skip (n : Nat) : m Unit := do
  let _ ← array n
  pure ()

def times : Nat → m Unit → m Unit
  | 0, _ => pure ()
  | n + 1, r => do
    r
    times n r

/-- `skip_value`. An array nested in an array starts at least twelve bytes later, so a depth of the
buffer's length is never used up. -/
def skipValue : Nat → U32 → m Unit
  | 0, ty => fail (.unknownType ty)
  | depth + 1, ty => frame
    (if ty = 0 ∨ ty = 1 ∨ ty = 7 then skip 1
    else if ty = 2 ∨ ty = 3 then skip 2
    else if ty = 4 ∨ ty = 5 ∨ ty = 6 then skip 4
    else if ty = 10 ∨ ty = 11 ∨ ty = 12 then skip 8
    else if ty = 8 then do
      let _ ← string
      pure ()
    else if ty = 9 then do
      let elemTy ← u32
      let n ← u64
      if MAX_METADATA_ENTRIES < n then fail (.arrayLength n)
      else times n.val (skipValue depth elemTy)
    else fail (.unknownType ty))

/-- One metadata entry, with the architecture and the file type read so far. -/
def entry (depth : Nat) (found : Option String × Option U32) : m (Option String × Option U32) := do
  let key ← string
  let ty ← u32
  if key = "general.architecture" ∧ ty = 8 then do
    let architecture ← string
    pure (some architecture, found.2)
  else if key = "general.file_type" ∧ ty = 4 then do
    let fileType ← u32
    pure (found.1, some fileType)
  else do
    skipValue depth ty
    pure found

def entries (depth : Nat) : Nat → Option String × Option U32 → m (Option String × Option U32)
  | 0, found => pure found
  | n + 1, found => do
    let found ← entry depth found
    entries depth n found

def header (depth : Nat) : m GgufHeader := do
  let magic ← array 4
  if magic ≠ GGUF_MAGIC then fail (.badMagic magic)
  else do
    let version ← u32
    if version ≠ SUPPORTED_VERSION then fail (.unsupportedVersion version)
    else do
      let tensorCount ← u64
      let metadataCount ← u64
      if MAX_METADATA_ENTRIES < metadataCount then fail (.metadataCount metadataCount)
      else do
        let found ← entries depth metadataCount.val (none, none)
        pure ⟨version, tensorCount, metadataCount, found.1, found.2⟩

end Cursor

/-! ## Readers -/

structure Reader where
  buf : List UInt8
  pos : Nat

/-- A read of the buffer from the reader's position. -/
abbrev Read (α : Type) : Type := StateT Reader (Except GgufError) α

def Read.array (n : Nat) : Read (List UInt8) := do
  let r ← get
  if r.buf.length < r.pos + n then throw (.truncated n r.pos (r.buf.length - r.pos))
  else do
    set ({ r with pos := r.pos + n } : Reader)
    pure ((r.buf.drop r.pos).take n)

theorem Read.array_run (n : Nat) (r : Reader) :
    (Read.array n).run r =
      if r.buf.length < r.pos + n then .error (.truncated n r.pos (r.buf.length - r.pos))
      else .ok ((r.buf.drop r.pos).take n, { r with pos := r.pos + n }) := by
  change (if r.buf.length < r.pos + n then _ else _ : Read (List UInt8)).run r = _
  split <;> rfl

instance : Cursor Read where
  array := Read.array
  fail e := throw e
  frame x := x

def parseHeaderBytes (buf : List UInt8) : Except GgufError GgufHeader :=
  Prod.fst <$> (Cursor.header buf.length : Read GgufHeader).run ⟨buf, 0⟩

/-- `parse_header` on a file with this content. -/
def parseHeader (content : List UInt8) : Except GgufError GgufHeader :=
  parseHeaderBytes (content.take HEADER_READ_SIZE)

/-- The reader as it is compiled: positions are words, and a slice past the end aborts. -/
structure WordReader where
  buf : List UInt8
  pos : U64

/-- A read that may abort. -/
abbrev WordRead (α : Type) : Type := StateT WordReader (ExceptT GgufError Exec) α

/-- An operation of the program inside a read. -/
def WordRead.lift {α : Type} (x : Exec α) : WordRead α := fun r =>
  ExceptT.mk ((fun a => .ok (a, r)) <$> x)

/-- `&buf[start..stop]`. -/
def sliceBytes (buf : List UInt8) (start stop : U64) : Exec (List UInt8) :=
  if stop < start ∨ buf.length < stop.val then .error .indexOutOfRange
  else .ok ((buf.drop start.val).take (stop.val - start.val))

/-- `need`, the slice, and the step of the position; each adds to the position once more. -/
def WordRead.array (n : Nat) : WordRead (List UInt8) := do
  let r ← get
  let needed ← WordRead.lift (add r.pos (truncate 64 n))
  if r.buf.length < needed.val then throw (.truncated n r.pos.val (r.buf.length - r.pos.val))
  else do
    let stop ← WordRead.lift (add r.pos (truncate 64 n))
    let bytes ← WordRead.lift (sliceBytes r.buf r.pos stop)
    let next ← WordRead.lift (add r.pos (truncate 64 n))
    set ({ r with pos := next } : WordReader)
    pure bytes

theorem WordRead.array_run (n : Nat) (w : WordReader) :
    (WordRead.array n).run w = (do
      let needed ← WordRead.lift (add w.pos (truncate 64 n))
      if w.buf.length < needed.val then throw (.truncated n w.pos.val (w.buf.length - w.pos.val))
      else do
        let stop ← WordRead.lift (add w.pos (truncate 64 n))
        let bytes ← WordRead.lift (sliceBytes w.buf w.pos stop)
        let next ← WordRead.lift (add w.pos (truncate 64 n))
        set ({ w with pos := next } : WordReader)
        pure bytes : WordRead (List UInt8)).run w := rfl

instance : Cursor WordRead where
  array := WordRead.array
  fail e := throw e
  frame x := x

/-- `parse_header_bytes` with all that can abort in it, down to this depth of its recursion. -/
def wordParseHeaderBytes (depth : Nat) (buf : List UInt8) : Exec (Except GgufError GgufHeader) := do
  let parsed ← (Cursor.header depth : WordRead GgufHeader).run ⟨buf, 0⟩
  pure (Prod.fst <$> parsed)

/-- A reader with the calls of `skip_value` it is in, and the most it has been in. -/
structure DepthReader where
  reader : Reader
  depth : Nat
  deepest : Nat

/-- A read that counts frames; it knows how deep it was even when it fails. -/
abbrev DepthRead (α : Type) : Type := ExceptT GgufError (StateM DepthReader) α

def DepthRead.array (n : Nat) : DepthRead (List UInt8) := fun s =>
  match (Read.array n).run s.reader with
  | .ok (bytes, r) => (.ok bytes, { s with reader := r })
  | .error e => (.error e, s)

def DepthRead.frame {α : Type} (x : DepthRead α) : DepthRead α := fun s =>
  let (a, t) := x { s with depth := s.depth + 1, deepest := max s.deepest (s.depth + 1) }
  (a, { t with depth := s.depth })

instance : Cursor DepthRead where
  array := DepthRead.array
  fail e := throw e
  frame := DepthRead.frame

/-- The deepest nesting of `skip_value` while the header of `buf` is parsed. -/
def skipDepth (buf : List UInt8) : Nat :=
  ((Cursor.header buf.length : DepthRead GgufHeader).run.run ⟨⟨buf, 0⟩, 0, 0⟩).2.deepest

inductive GgufQuant where
  | f32 | f16 | q4KM | q4KS | q5KM | q8_0
  deriving DecidableEq, Repr

def GgufQuant.ggufFileType : GgufQuant → U32
  | .f32 => 0
  | .f16 => 1
  | .q4KS => 14
  | .q4KM => 15
  | .q5KM => 17
  | .q8_0 => 7

/-- A file without any metadata. -/
def bareGguf : List UInt8 := GGUF_MAGIC ++ Borsh.leBytes 4 3 ++ Borsh.leBytes 8 0 ++ Borsh.leBytes 8 0

example : parseHeader bareGguf = .ok ⟨3, 0, 0, none, none⟩ := by decide

example : parseHeader (bareGguf.take 20) = .error (.truncated 8 16 4) := by decide

end Arknet.ModelManager
