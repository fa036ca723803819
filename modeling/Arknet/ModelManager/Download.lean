import Arknet.Chain.Crypto
import Arknet.Lib.Disk
import Arknet.ModelManager.Gguf

/-!
`ensure_local` for one model: look the digest up in the cache, else pull into the partial file, validate
the staged file and rename it into the digest's slot. Every call is a state machine whose steps are the
operations on shared state between two awaits: one file operation, one read of the index, one chunk of
a response. All calls for a digest share one partial file, one staging file and one slot.
-/

namespace Arknet.ModelManager

open Machine Arknet.Chain

/-- The manifest fields that a download reads. -/
structure ModelManifest where
  mirrors : List String
  sha256 : Hash256
  sizeBytes : U64
  quant : GgufQuant
  deriving DecidableEq, Repr

/-- The files of one digest: the slot, the staging file beside it, and the staging file's own
partial file. -/
inductive FileName where
  | partialFile | staging | slot
  deriving DecidableEq, Repr

/-- What a mirror answers: 200 with the whole body, 206 with the requested range, or no stream. -/
inductive Response where
  | full (body : List UInt8)
  | range (body : List UInt8)
  | refused
  deriving DecidableEq, Repr

/-- What `gc_for` comes to in a cache that also holds other digests: more than the cap, or room made
without or with the digest's own entry among the victims. -/
inductive GcOutcome where
  | refused | kept | evictedOwn
  deriving DecidableEq, Repr

/-- Where a call of `ensure_local` stands. `left` are the mirrors not yet tried. -/
inductive Stage where
  | idle
  | lookup
  | probe
  | checkHit
  | mirror (left : List String)
  | discard (left : List String)
  | measure (left : List String)
  | request (left : List String) (resumeFrom : Nat)
  | restart (left : List String) (body : List UInt8)
  | opening (left : List String) (offset : Nat) (body : List UInt8)
  | reading (left : List String) (file offset : Nat) (body : List UInt8)
  | streaming (left : List String) (file : Nat) (hashed : List UInt8) (bytesWritten : Nat)
      (body : List UInt8)
  | poisoned (left : List String)
  /-- The stream has ended, with the file closed and these bytes hashed. -/
  | publish (hashed : List UInt8)
  | checkStaged
  | evictSlot
  | evictStaging
  | evictIndex
  | measureStaged
  | collect
  | store
  | index
  | done
  | failed
  deriving DecidableEq, Repr

/-- The file a call has open for appending. -/
def Stage.opened : Stage → Option Nat
  | .reading _ file _ _ => some file
  | .streaming _ file _ _ _ => some file
  | _ => none

inductive Event where
  | step
  | respond (r : Response)
  /-- The next `n` bytes of the response arrive. -/
  | chunk (n : Nat)
  | broken
  | gc (o : GcOutcome)
  /-- The call is dropped. -/
  | cancel
  deriving DecidableEq, Repr

/-- The disk and the cache index, as far as this digest is concerned. -/
structure Shared where
  disk : Disk FileName
  indexed : Bool

section

variable (K : Primitives) (m : ModelManifest)

/-- `validate_gguf` on a file: the header parses and does not name another quantization. -/
def validates (content : Option (List UInt8)) : Bool :=
  match content with
  | none => false
  | some bytes =>
    match parseHeader bytes with
    | .error _ => false
    | .ok header => header.fileType.all (fun actual => actual = m.quant.ggufFileType)

/-- `metadata(partial).len()`, zero when there is no file. -/
def onDisk (d : Disk FileName) : Nat := ((d.read .partialFile).map List.length).getD 0

/-- Remove a file and ignore that there is none. -/
def removeQuietly (d : Disk FileName) (n : FileName) : Disk FileName := (d.unlink n).getD d

/-- The operations of `ensure_local` and of the cache lookup before a pull. -/
def lookupStep (g : Shared) : Stage → Option (Shared × Stage)
  | .idle => some (g, .lookup)
  | .lookup => some (g, if g.indexed then .probe else .mirror m.mirrors)
  | .probe =>
    if (g.disk.read .slot).isSome then some (g, .checkHit)
    else some ({ g with indexed := false }, .mirror m.mirrors)
  | .checkHit => some (g, if validates m (g.disk.read .slot) then .done else .evictSlot)
  | _ => none

/-- The operations of `pull` and `pull_from_mirror` up to the stream. -/
def pullStep (g : Shared) : Stage → Option (Shared × Stage)
  | .mirror [] => some (g, .failed)
  | .mirror (_ :: left) =>
    some (g, if m.sizeBytes.val ≤ onDisk g.disk then .discard left else .measure left)
  | .discard left =>
    match g.disk.unlink .partialFile with
    | some d => some ({ g with disk := d }, .measure left)
    | none => some (g, .mirror left)
  | .measure left => some (g, .request left (onDisk g.disk))
  | .restart left body =>
    match g.disk.unlink .partialFile with
    | some d => some ({ g with disk := d }, .opening left 0 body)
    | none => some (g, .mirror left)
  | .opening left offset body =>
    let (d, file) := g.disk.openAppend .partialFile
    some ({ g with disk := d },
      if 0 < offset then .reading left file offset body else .streaming left file [] 0 body)
  | .reading left file offset body =>
    match g.disk.read .partialFile with
    | some existing =>
      some (g, if existing.length = offset then .streaming left file existing offset body
        else .mirror left)
    | none => some (g, .mirror left)
  | _ => none

/-- A response decides where to write; 200 to a request for a range starts over. -/
def respondStep (left : List String) (resumeFrom : Nat) : Response → Stage
  | .refused => .mirror left
  | .full body => if 0 < resumeFrom then .restart left body else .opening left 0 body
  | .range body => .opening left resumeFrom body

/-- The end of the stream: byte count, then digest. -/
def endStep (g : Shared) : Stage → Option (Shared × Stage)
  | .streaming left _ hashed bytesWritten [] =>
    some (g,
      if bytesWritten ≠ m.sizeBytes.val then .mirror left
      else if K.sha256 hashed ≠ m.sha256 then .poisoned left
      else .publish hashed)
  | .poisoned left => some ({ g with disk := removeQuietly g.disk .partialFile }, .mirror left)
  | .publish _ =>
    match g.disk.rename .partialFile .staging with
    | some d => some ({ g with disk := d }, .checkStaged)
    | none => some (g, .failed)
  | _ => none

/-- Validation of the staged file, eviction, and `Cache::insert`. -/
def insertStep (g : Shared) : Stage → Option (Shared × Stage)
  | .checkStaged => some (g, if validates m (g.disk.read .staging) then .measureStaged else .evictSlot)
  | .evictSlot => some ({ g with disk := removeQuietly g.disk .slot }, .evictStaging)
  | .evictStaging => some ({ g with disk := removeQuietly g.disk .staging }, .evictIndex)
  | .evictIndex => some ({ g with indexed := false }, .failed)
  | .measureStaged => some (g, if (g.disk.read .staging).isSome then .collect else .failed)
  | .store =>
    match g.disk.rename .staging .slot with
    | some d => some ({ g with disk := d }, .index)
    | none => some (g, .failed)
  | .index => some ({ g with indexed := true }, .done)
  | _ => none

def gcStep (g : Shared) : GcOutcome → Option (Shared × Stage)
  | .refused => some (g, .failed)
  | .kept => some (g, .store)
  | .evictedOwn =>
    if g.indexed then some (⟨removeQuietly g.disk .slot, false⟩, .store) else none

def chunkStep (g : Shared) (n : Nat) : Stage → Option (Shared × Stage)
  | .streaming left file hashed bytesWritten body =>
    if n = 0 ∨ body.length < n then none
    else
      let chunk := body.take n
      let g := { g with disk := g.disk.append file chunk }
      if m.sizeBytes.val < bytesWritten + n then some (g, .mirror left)
      else some (g, .streaming left file (hashed ++ chunk) (bytesWritten + n) (body.drop n))
  | _ => none

/-- One operation of a call. -/
def callStep (g : Shared) (stage : Stage) : Event → Option (Shared × Stage)
  | .step =>
    (lookupStep m g stage).or ((pullStep m g stage).or ((endStep K m g stage).or (insertStep m g stage)))
  | .respond r =>
    match stage with
    | .request left resumeFrom => some (g, respondStep left resumeFrom r)
    | _ => none
  | .chunk n => chunkStep m g n stage
  | .broken =>
    match stage with
    | .streaming left _ _ _ _ => some (g, .mirror left)
    | _ => none
  | .gc o =>
    match stage with
    | .collect => gcStep g o
    | _ => none
  | .cancel => some (g, .failed)

end

/-- Any number of calls over one disk and one index. -/
structure Downloads where
  shared : Shared
  calls : Nat → Stage

/-- One call takes a step. -/
def Downloads.advance (K : Primitives) (m : ModelManifest) (s : Downloads) (l : Nat × Event) :
    Option Downloads :=
  (callStep K m s.shared (s.calls l.1) l.2).map
    (fun r => ⟨r.1, Function.update s.calls l.1 r.2⟩)

/-- No call has begun. -/
def Downloads.begin (g : Shared) : Downloads := ⟨g, fun _ => .idle⟩

end Arknet.ModelManager
