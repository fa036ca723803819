import Arknet.Lib.Column
import Arknet.Lib.Machine

/-!
The peers of the network task: the handshake that a connection has to pass, and the book of known peers
with its file. Peer ids and the text forms (ids, JSON) belong to other crates, and what the file system
does during a write is its own choice. The order on peer ids stands in for the hash map's own.
-/

namespace Arknet.Network

open Machine Store

def HANDSHAKE_VERSION : U32 := 1
def AGENT_PREFIX : String := "arknet/"

structure PeerRoles where
  validator : Bool
  router : Bool
  compute : Bool
  verifier : Bool
  deriving DecidableEq, Repr

structure HandshakeInfo where
  version : U32
  networkId : String
  software : String
  roles : PeerRoles
  deriving DecidableEq, Repr

structure PeerRecord where
  peerId : String
  addrs : List String
  firstSeenMs : U64
  lastSeenMs : U64
  deriving DecidableEq, Repr

/-- The text forms: `PeerId`'s own, and what serde_json writes and reads. -/
structure PeerFormats (ι Text : Type) where
  peerIdToString : ι → String
  parsePeerId : String → Option ι
  recordsToJson : List PeerRecord → Text
  recordsFromJson : Text → Option (List PeerRecord)
  handshakeToJson : HandshakeInfo → String
  handshakeFromJson : String → Option HandshakeInfo

/-- The forms of the book's file read back what they write. -/
structure PeerFormats.RoundTrip {ι Text : Type} (F : PeerFormats ι Text) : Prop where
  peerId : ∀ p, F.parsePeerId (F.peerIdToString p) = some p
  records : ∀ rs, F.recordsFromJson (F.recordsToJson rs) = some rs

inductive NetworkError where
  | handshakeVersion (ours theirs : U32)
  | handshakeNetwork (ours theirs : String)
  | handshakeJson
  | createDir (e : String)
  | writeTmp (e : String)
  | renameTmp (e : String)
  deriving DecidableEq, Repr

section Handshake

variable {ι Text : Type} (F : PeerFormats ι Text)

def toAgentVersion (i : HandshakeInfo) : String := AGENT_PREFIX ++ F.handshakeToJson i

/-- `strip_prefix(AGENT_PREFIX)`. -/
def stripAgent (raw : String) : Option String :=
  if AGENT_PREFIX.toList <+: raw.toList then
    some (String.ofList (raw.toList.drop AGENT_PREFIX.toList.length))
  else none

/-- A string without the mark is no arknet node; with the mark and no readable payload, a broken one. -/
def fromAgentVersion (raw : String) : Except NetworkError (Option HandshakeInfo) :=
  match stripAgent raw with
  | none => .ok none
  | some payload =>
    match F.handshakeFromJson payload with
    | none => .error .handshakeJson
    | some i => .ok (some i)

def HandshakeInfo.checkCompatible (self other : HandshakeInfo) : Except NetworkError Unit :=
  if other.version ≠ self.version then .error (.handshakeVersion self.version other.version)
  else if other.networkId ≠ self.networkId then .error (.handshakeNetwork self.networkId other.networkId)
  else .ok ()

end Handshake

/-- The book's file and the temporary one beside it. -/
structure BookFiles (Text : Type) where
  path : Option Text
  tmp : Option Text

/-- What the file system does with one atomic write; a failed write of the temporary file may leave
anything there. -/
inductive Io (Text : Type) where
  | done
  | createFailed (e : String)
  | writeFailed (left : Option Text) (e : String)
  | renameFailed (e : String)

def writeAtomically {Text : Type} (bytes : Text) (files : BookFiles Text) :
    Io Text → BookFiles Text × Except NetworkError Unit
  | .createFailed e => (files, .error (.createDir e))
  | .writeFailed left e => ({ files with tmp := left }, .error (.writeTmp e))
  | .renameFailed e => ({ files with tmp := some bytes }, .error (.renameTmp e))
  | .done => (⟨some bytes, none⟩, .ok ())

structure PeerBook (ι Text : Type) [LinearOrder ι] where
  entries : Column ι PeerRecord
  files : BookFiles Text

namespace PeerBook

variable {ι Text : Type} [LinearOrder ι] (F : PeerFormats ι Text)

/-- The rows of a JSON array, each under the id it names; a later row replaces an earlier one. -/
def collect (records : List PeerRecord) : Column ι PeerRecord :=
  Column.empty.writeAll (records.filterMap fun r => (F.parsePeerId r.peerId).map fun p => (p, some r))

/-- A file that is missing, cannot be read or does not parse is an empty book. -/
def loadEntries (readable : Bool) (file : Option Text) : Column ι PeerRecord :=
  match file with
  | none => .empty
  | some bytes =>
    if readable then
      match F.recordsFromJson bytes with
      | some records => collect F records
      | none => .empty
    else .empty

def load (readable : Bool) (files : BookFiles Text) : PeerBook ι Text :=
  ⟨loadEntries F readable files.path, files⟩

def snapshot (b : PeerBook ι Text) : List PeerRecord :=
  b.entries.values.mergeSort fun r₁ r₂ => decide (r₁.peerId ≤ r₂.peerId)

def flush (b : PeerBook ι Text) (io : Io Text) : PeerBook ι Text × Except NetworkError Unit :=
  let (files, result) := writeAtomically (F.recordsToJson b.snapshot) b.files io
  ({ b with files := files }, result)

/-- The row of a peer after a connection to it at `addr`. -/
def touched (peer : ι) (addr : String) (now : U64) (existing : Option PeerRecord) : PeerRecord :=
  let record := existing.getD ⟨F.peerIdToString peer, [], now, now⟩
  { record with
    addrs := if addr ∈ record.addrs then record.addrs else record.addrs ++ [addr]
    lastSeenMs := now }

def insertConnected (b : PeerBook ι Text) (peer : ι) (addr : String) (now : U64) (io : Io Text) :
    PeerBook ι Text × Except NetworkError Unit :=
  flush F { b with entries := b.entries.insert peer (touched F peer addr now (b.entries.get peer)) } io

def remove (b : PeerBook ι Text) (peer : ι) (io : Io Text) : PeerBook ι Text × Except NetworkError Unit :=
  match b.entries.get peer with
  | none => (b, .ok ())
  | some _ => flush F { b with entries := b.entries.erase peer } io

end PeerBook

/-- What the swarm reports of its peers, and the life of the process: `shutdown` is the last flush,
`restart` a new process on the same directory, after a shutdown or a crash. -/
inductive PeerEvent (ι Text : Type) where
  | connectionEstablished (peer : ι) (addr : String) (now : U64) (io : Io Text)
  | connectionClosed (peer : ι)
  | identified (peer : ι) (agentVersion : String) (io : Io Text)
  | shutdown (io : Io Text)
  | restart (readable : Bool)

/-- What the task tells its subscribers and the swarm. -/
inductive PeerOutput (ι : Type) where
  | peerConnected (peer : ι) (info : HandshakeInfo)
  | peerDisconnected (peer : ι)
  | disconnectPeer (peer : ι)
  deriving DecidableEq, Repr

section Task

variable {ι Text : Type} (F : PeerFormats ι Text) (expected : HandshakeInfo)

/-- What a peer's agent string says about it. -/
inductive Judgement where
  | compatible (info : HandshakeInfo)
  | rejected
  | foreign
  deriving DecidableEq, Repr

def judge (agentVersion : String) : Judgement :=
  match fromAgentVersion F agentVersion with
  | .ok (some remote) =>
    match expected.checkCompatible remote with
    | .ok () => .compatible remote
    | .error _ => .rejected
  | .ok none => .foreign
  | .error _ => .foreign

variable [LinearOrder ι]

/-- The peer arms of `handle_swarm_event`; errors of the book are logged. Only a readable handshake of
another network or version takes the peer out of the book. -/
def handlePeerEvent (b : PeerBook ι Text) : PeerEvent ι Text → PeerBook ι Text × List (PeerOutput ι)
  | .connectionEstablished peer addr now io => ((b.insertConnected F peer addr now io).1, [])
  | .connectionClosed peer => (b, [.peerDisconnected peer])
  | .identified peer agentVersion io =>
    match judge F expected agentVersion with
    | .compatible remote => (b, [.peerConnected peer remote])
    | .rejected => ((b.remove F peer io).1, [.disconnectPeer peer])
    | .foreign => (b, [.disconnectPeer peer])
  | .shutdown io => ((b.flush F io).1, [])
  | .restart readable => (.load F readable b.files, [])

/-- The book after a list of events. -/
def runPeerEvents (b : PeerBook ι Text) (events : List (PeerEvent ι Text)) : PeerBook ι Text :=
  events.foldl (fun b e => (handlePeerEvent F expected b e).1) b

end Task

end Arknet.Network
