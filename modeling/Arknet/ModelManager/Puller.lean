import Arknet.ModelManager.Download

/-!
One `pull` on its own: the mirrors in order over one partial file, each as far as its answer goes. A file
operation succeeds when the file is there; what a mirror answers is up to the mirror.
-/

namespace Arknet.ModelManager

open Machine Arknet.Chain

inductive DownloadError where
  /-- `{url}: HTTP {status}` -/
  | badStatus (url : String) (status : Nat)
  /-- `partial file size changed mid-resume` -/
  | sizeChanged
  /-- `stream: {e}` -/
  | stream
  deriving DecidableEq, Repr

/-- The errors of a pull. -/
inductive ModelError where
  | download (e : DownloadError)
  | noMirrors (modelRef : String)
  | hashMismatch (expected actual : String)
  | sizeMismatch (expected actual : Nat)
  | io
  | http
  deriving DecidableEq, Repr

/-- What a mirror does with a request: no response, or a status and a body in chunks that ends or breaks
off. -/
inductive Answer where
  | unreachable
  | response (status : Nat) (chunks : List (List UInt8)) (broken : Bool)
  deriving DecidableEq, Repr

/-- The answers of the mirrors, by position in the list and by the offset of the `Range` header, which is
left out at zero. -/
abbrev Network := Nat → Nat → Answer

/-- A file, or none. -/
abbrev File := Option (List UInt8)

/-- `metadata(path).len()`, zero without a file. -/
def File.len (f : File) : Nat := (f.map List.length).getD 0

def File.remove (f : File) : Except ModelError File :=
  match f with
  | some _ => .ok none
  | none => .error .io

/-- What has been written and what has been hashed, kept apart as in the source. -/
structure Streamed where
  partialFile : List UInt8
  hashed : List UInt8
  bytesWritten : Nat
  deriving DecidableEq, Repr

section

variable (K : Primitives) (m : ModelManifest)

/-- The chunks of a response: each is hashed, appended and counted. -/
def streamChunks (broken : Bool) : List (List UInt8) → Streamed → List UInt8 × Except ModelError Streamed
  | [], s => (s.partialFile, if broken then .error (.download .stream) else .ok s)
  | chunk :: chunks, s =>
    let s : Streamed := {
      hashed := s.hashed ++ chunk
      partialFile := s.partialFile ++ chunk
      bytesWritten := s.bytesWritten + chunk.length }
    if m.sizeBytes.val < s.bytesWritten then
      (s.partialFile, .error (.sizeMismatch m.sizeBytes.val s.bytesWritten))
    else streamChunks broken chunks s

/-- The end of the stream: byte count, then digest. A file with the wrong digest is removed. -/
def finishStream (s : Streamed) : File × Except ModelError Unit :=
  if s.bytesWritten ≠ m.sizeBytes.val then
    (some s.partialFile, .error (.sizeMismatch m.sizeBytes.val s.bytesWritten))
  else
    let actual := K.sha256 s.hashed
    if actual ≠ m.sha256 then
      (none, .error (.hashMismatch m.sha256.hexEncode actual.hexEncode))
    else (some s.partialFile, .ok ())

/-- A stream that failed leaves what it has written. -/
def endStream : List UInt8 × Except ModelError Streamed → File × Except ModelError Unit
  | (file, .error e) => (some file, .error e)
  | (_, .ok s) => finishStream K m s

/-- From the opened file on: the kept bytes are hashed first. -/
def receive (writeOffset : Nat) (chunks : List (List UInt8)) (broken : Bool) (partialFile : File) :
    File × Except ModelError Unit :=
  let existing := partialFile.getD []
  if 0 < writeOffset ∧ existing.length ≠ writeOffset then
    (some existing, .error (.download .sizeChanged))
  else
    let hashed := if 0 < writeOffset then existing else []
    endStream K m (streamChunks m broken chunks ⟨existing, hashed, writeOffset⟩)

/-- The response to the request; 200 to a request for a range starts over. -/
def handleResponse (url : String) (resumeFrom : Nat) (partialFile : File) :
    Answer → File × Except ModelError Unit
  | .unreachable => (partialFile, .error .http)
  | .response status chunks broken =>
    let isFull := status = 200
    let isPartial := status = 206
    if ¬ isFull ∧ ¬ isPartial then (partialFile, .error (.download (.badStatus url status)))
    else if isFull ∧ 0 < resumeFrom then
      match partialFile.remove with
      | .error e => (partialFile, .error e)
      | .ok partialFile => receive K m 0 chunks broken partialFile
    else receive K m resumeFrom chunks broken partialFile

/-- A partial file of the expected size or more is not trusted. -/
def dropStale (partialFile : File) : Except ModelError File :=
  if m.sizeBytes.val ≤ partialFile.len then partialFile.remove else .ok partialFile

def pullFromMirror (url : String) (answer : Nat → Answer) (partialFile : File) :
    File × Except ModelError Unit :=
  match dropStale m partialFile with
  | .error e => (partialFile, .error e)
  | .ok partialFile =>
    let resumeFrom := partialFile.len
    handleResponse K m url resumeFrom partialFile (answer resumeFrom)

/-- The two files a pull touches. -/
structure PullFiles where
  partialFile : File
  dest : File
  deriving DecidableEq, Repr

/-- The mirrors from position `idx` on. -/
def pullFrom (net : Network) (modelRef : String) :
    List String → Nat → Option ModelError → PullFiles → PullFiles × Except ModelError Unit
  | [], _, lastError, files => (files, .error (lastError.getD (.noMirrors modelRef)))
  | url :: urls, idx, _, files =>
    match pullFromMirror K m url (net idx) files.partialFile with
    | (partialFile, .error e) => pullFrom net modelRef urls (idx + 1) (some e) ⟨partialFile, files.dest⟩
    | (some bytes, .ok ()) => (⟨none, some bytes⟩, .ok ())
    | (none, .ok ()) => (⟨none, files.dest⟩, .error .io)

def pull (net : Network) (modelRef : String) (files : PullFiles) : PullFiles × Except ModelError Unit :=
  pullFrom K m net modelRef m.mirrors 0 none files

end

end Arknet.ModelManager
