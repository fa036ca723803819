import Arknet.Lib.Column
import Arknet.Chain.Types

/-!
The disk cache under concurrent calls. A call goes from one await to the next or from one lock of the
index to the next; files and index are changed in different steps, and other calls run in between. Sizes
are natural numbers, times are whatever the clock says.
-/

namespace Arknet.ModelManager.Cache

open Machine Store Arknet.Chain

abbrev Digest := Hash256

structure Config where
  maxBytes : U64
  deriving DecidableEq, Repr

structure Entry where
  sizeBytes : Nat
  lastUsed : Nat
  deriving DecidableEq, Repr

/-- The model files by digest, the files that callers have staged, and the index. -/
structure Shared where
  disk : Column Digest Nat
  staged : Nat → Option Nat
  index : Column Digest Entry

inductive Call where
  | get (digest : Digest)
  | gcFor (incomingBytes : Nat)
  | insert (digest : Digest) (srcPath : Nat)
  | evict (digest : Digest)
  deriving DecidableEq, Repr

/-- What a call returns. -/
inductive Result where
  | found (present : Bool)
  | freed (bytes : Nat)
  | inserted
  | evicted
  | error
  deriving DecidableEq, Repr

/-- Where a call stands, by the operation it does next. Inside `insert`, `gc_for` carries the digest and
the source path along. -/
inductive Stage where
  | idle
  | getTouch (digest : Digest)
  | getProbe (digest : Digest)
  | getPrune (digest : Digest)
  | gcCheck (incoming : Nat) (after : Option (Digest × Nat))
  | gcTotal (incoming freed : Nat) (after : Option (Digest × Nat))
  | gcPick (incoming freed : Nat) (after : Option (Digest × Nat))
  | gcRemove (incoming freed : Nat) (after : Option (Digest × Nat)) (victim : Digest)
  | gcForget (incoming freed : Nat) (after : Option (Digest × Nat)) (victim : Digest)
  | insertMeasure (digest : Digest) (srcPath : Nat)
  | insertMkdir (digest : Digest) (srcPath size : Nat)
  | insertRename (digest : Digest) (srcPath size : Nat)
  | insertCopy (digest : Digest) (srcPath size : Nat)
  | insertUnlink (digest : Digest) (srcPath size : Nat)
  | insertIndex (digest : Digest) (size : Nat)
  | evictFile (digest : Digest)
  | evictPartial (digest : Digest)
  | evictIndex (digest : Digest)
  | finished (result : Result)
  deriving DecidableEq, Repr

def Stage.inProgress : Stage → Bool
  | .idle | .finished _ => false
  | _ => true

inductive Event where
  | start (call : Call)
  /-- The operation succeeds, or finds nothing to remove. -/
  | step
  /-- The same for an operation that reads the clock. -/
  | now (time : Nat)
  /-- The iteration over the index meets this entry first among the least recently used ones. -/
  | victim (digest : Digest)
  | ioError
  /-- `rename` fails with `EXDEV`. -/
  | crossDevice
  /-- `copy` fails and leaves this many bytes. -/
  | broken (bytes : Nat)
  /-- The call is dropped. -/
  | cancel
  deriving DecidableEq, Repr

/-- Total bytes currently tracked. -/
def Shared.totalBytes (g : Shared) : Nat := g.index.total (fun _ e => e.sizeBytes)

def Shared.bytesOnDisk (g : Shared) : Nat := g.disk.total (fun _ size => size)

def begun : Call → Stage
  | .get digest => .getTouch digest
  | .gcFor incomingBytes => .gcCheck incomingBytes none
  | .insert digest srcPath => .insertMeasure digest srcPath
  | .evict digest => .evictFile digest

def getStep (g : Shared) : Stage → Event → Option (Shared × Stage)
  | .getTouch digest, .now time =>
    match g.index.get digest with
    | none => some (g, .finished (.found false))
    | some entry =>
      some ({ g with index := g.index.insert digest { entry with lastUsed := time } }, .getProbe digest)
  | .getProbe digest, .step =>
    some (g, if (g.disk.get digest).isSome then .finished (.found true) else .getPrune digest)
  | .getProbe digest, .ioError => some (g, .getPrune digest)
  | .getPrune digest, .step =>
    some ({ g with index := g.index.erase digest }, .finished (.found false))
  | _, _ => none

/-- `min_by_key(last_used)` may return this entry. -/
def leastRecentlyUsed (index : Column Digest Entry) (digest : Digest) : Bool :=
  match index.get digest with
  | none => false
  | some entry => index.values.all (fun other => entry.lastUsed ≤ other.lastUsed)

/-- The loop of `gc_for` is left. -/
def gcDone (incoming freed : Nat) : Option (Digest × Nat) → Stage
  | none => .finished (.freed freed)
  | some (digest, srcPath) => .insertMkdir digest srcPath incoming

def gcForStep (cfg : Config) (g : Shared) : Stage → Event → Option (Shared × Stage)
  | .gcCheck incoming after, .step =>
    some (g, if cfg.maxBytes.val < incoming then .finished .error else .gcTotal incoming 0 after)
  | .gcTotal incoming freed after, .step =>
    some (g, if g.totalBytes + incoming ≤ cfg.maxBytes.val then gcDone incoming freed after
      else .gcPick incoming freed after)
  | .gcPick incoming freed after, .step =>
    if g.index.entries = [] then some (g, gcDone incoming freed after) else none
  | .gcPick incoming freed after, .victim digest =>
    if leastRecentlyUsed g.index digest then some (g, .gcRemove incoming freed after digest) else none
  | .gcRemove incoming freed after victim, .step =>
    some ({ g with disk := g.disk.erase victim }, .gcForget incoming freed after victim)
  | .gcRemove _ _ _ _, .ioError => some (g, .finished .error)
  | .gcForget incoming freed after victim, .step =>
    some ({ g with index := g.index.erase victim },
      .gcTotal incoming (freed + ((g.index.get victim).map Entry.sizeBytes).getD 0) after)
  | _, _ => none

def insertStep (g : Shared) : Stage → Event → Option (Shared × Stage)
  | .insertMeasure digest srcPath, .step =>
    match g.staged srcPath with
    | some size => some (g, .gcCheck size (some (digest, srcPath)))
    | none => some (g, .finished .error)
  | .insertMeasure _ _, .ioError => some (g, .finished .error)
  | .insertMkdir digest srcPath size, .step => some (g, .insertRename digest srcPath size)
  | .insertMkdir _ _ _, .ioError => some (g, .finished .error)
  | .insertRename digest srcPath size, .step =>
    match g.staged srcPath with
    | some bytes =>
      some ({ g with
        disk := g.disk.insert digest bytes
        staged := Function.update g.staged srcPath none }, .insertIndex digest size)
    | none => some (g, .finished .error)
  | .insertRename digest srcPath size, .crossDevice => some (g, .insertCopy digest srcPath size)
  | .insertRename _ _ _, .ioError => some (g, .finished .error)
  | .insertCopy digest srcPath size, .step =>
    match g.staged srcPath with
    | some bytes => some ({ g with disk := g.disk.insert digest bytes }, .insertUnlink digest srcPath size)
    | none => some (g, .finished .error)
  | .insertCopy digest _ _, .broken bytes =>
    some ({ g with disk := g.disk.insert digest bytes }, .finished .error)
  | .insertCopy _ _ _, .ioError => some (g, .finished .error)
  | .insertUnlink digest srcPath size, .step =>
    match g.staged srcPath with
    | some _ =>
      some ({ g with staged := Function.update g.staged srcPath none }, .insertIndex digest size)
    | none => some (g, .finished .error)
  | .insertUnlink _ _ _, .ioError => some (g, .finished .error)
  | .insertIndex digest size, .now time =>
    some ({ g with index := g.index.insert digest ⟨size, time⟩ }, .finished .inserted)
  | _, _ => none

/-- A file that cannot be removed is only warned about. -/
def evictStep (g : Shared) : Stage → Event → Option (Shared × Stage)
  | .evictFile digest, .step => some ({ g with disk := g.disk.erase digest }, .evictPartial digest)
  | .evictFile digest, .ioError => some (g, .evictPartial digest)
  | .evictPartial digest, .step => some (g, .evictIndex digest)
  | .evictPartial digest, .ioError => some (g, .evictIndex digest)
  | .evictIndex digest, .step => some ({ g with index := g.index.erase digest }, .finished .evicted)
  | _, _ => none

/-- One operation of a call. -/
def callStep (cfg : Config) (g : Shared) (stage : Stage) : Event → Option (Shared × Stage)
  | .start call => if stage.inProgress then none else some (g, begun call)
  | .cancel => if stage.inProgress then some (g, .finished .error) else none
  | event =>
    (getStep g stage event).or ((gcForStep cfg g stage event).or
      ((insertStep g stage event).or (evictStep g stage event)))

/-- Any number of calls on one cache. -/
structure State where
  shared : Shared
  calls : Nat → Stage

/-- A call takes a step, or a caller stages a file. -/
inductive Label where
  | call (id : Nat) (event : Event)
  | staged (path bytes : Nat)
  deriving DecidableEq, Repr

def State.next (cfg : Config) (s : State) : Label → Option State
  | .call id event =>
    (callStep cfg s.shared (s.calls id) event).map
      (fun r => ⟨r.1, Function.update s.calls id r.2⟩)
  | .staged path bytes =>
    some { s with shared := { s.shared with staged := Function.update s.shared.staged path (some bytes) } }

/-- `Cache::open`: the index is rebuilt from the files and their access times. -/
def State.opened (files : Column Digest Nat) (accessed : Digest → Nat) (staged : Nat → Option Nat) :
    State where
  shared := {
    disk := files
    staged := staged
    index := ⟨files.entries.map (fun e => (e.1, ⟨e.2, accessed e.1⟩)), List.pairwise_map.mpr files.sorted⟩ }
  calls _ := .idle

/-- No call is in progress. -/
def State.Quiet (s : State) : Prop := ∀ id, (s.calls id).inProgress = false

end Arknet.ModelManager.Cache
