import Arknet.Lib.Latest
import Arknet.Chain.Rows
import Arknet.Router.Candidate
import Arknet.Sdk.Client

/-!
Discovery over gossip. A compute node announces what it has loaded; the listener of the SDK and the
listener of the router keep what they hear, each in a map of its own, until they stop.
-/

namespace Arknet.Node

open Machine Store Selection Borsh Arknet.Chain Arknet.Compute Arknet.Router

/-! ## Topics -/

def TOPIC_PREFIX : String := "arknet"
def TOPIC_VERSION : Nat := 1

def topic (domain name : String) : String :=
  TOPIC_PREFIX ++ "/" ++ domain ++ "/" ++ name ++ "/" ++ toString TOPIC_VERSION

def txMempool : String := topic "tx" "mempool"
def blockProp : String := topic "block" "prop"
def consensusVote : String := topic "consensus" "vote"
def poolOffer : String := topic "pool" "offer"
def receiptAttest : String := topic "receipt" "attest"
def govProp : String := topic "gov" "prop"
def quotaTick : String := topic "quota" "tick"

def allTopics : List String :=
  [txMempool, blockProp, consensusVote, poolOffer, receiptAttest, govProp, quotaTick]

/-! ## The announcement -/

/-- What `announce_models` publishes; nothing where the offer does not encode. -/
def announceModels (localPeer : List UInt8) (modelRefs : List String) (operator : Address)
    (supportsTee : Bool) (nowMs : Timestamp) : Option (String × List UInt8) :=
  (PoolOffer.codec.encode {
    peerId := localPeer
    modelRefs := modelRefs
    operator := operator
    totalStake := 1000000
    supportsTee := supportsTee
    timestampMs := nowMs
    availableSlots := 1 }).map fun data => (poolOffer, data)

/-- One tick of the heartbeat of the compute role. -/
def heartbeat (localPeer : List UInt8) (loadedModels : List String) (operator : Address)
    (supportsTee : Bool) (nowMs : Timestamp) : Option (String × List UInt8) :=
  if loadedModels.isEmpty then none else announceModels localPeer loadedModels operator supportsTee nowMs

/-! ## Listeners -/

/-- What a listener hears: an event of the network, that it missed some, that there are no more, or that
it shall stop. -/
inductive Heard where
  | gossipMessage (topic : String) (data : List UInt8)
  | peerConnected
  | peerDisconnected
  | lagged (missed : U64)
  | closed
  | shutdown
  deriving DecidableEq, Repr

/-- The offer in a message. -/
def Heard.offer : Heard → Option PoolOffer
  | .gossipMessage topic data => if topic = poolOffer then PoolOffer.codec.fromSlice data else none
  | _ => none

/-! ### The SDK -/

def SDK_CANDIDATE_TTL_MS : Timestamp := 300000

structure CandidateEntry where
  peerIdBytes : List UInt8
  modelRefs : List String
  operator : Address
  totalStake : Amount
  supportsTee : Bool
  timestampMs : Timestamp
  availableSlots : U32
  deriving DecidableEq, Repr

def CandidateEntry.ofOffer (offer : PoolOffer) : CandidateEntry where
  peerIdBytes := offer.peerId
  modelRefs := offer.modelRefs
  operator := offer.operator
  totalStake := offer.totalStake
  supportsTee := offer.supportsTee
  timestampMs := offer.timestampMs
  availableSlots := offer.availableSlots

/-- More slots first, then more stake. -/
def CandidateEntry.before : CandidateEntry → CandidateEntry → Prop :=
  HeaviestFirst CandidateEntry.availableSlots fun c => OrderDual.toDual c.totalStake

instance candidateEntryBefore : DecidableRel CandidateEntry.before :=
  inferInstanceAs (DecidableRel (HeaviestFirst _ _))

structure CandidateTable where
  inner : Column (List UInt8) CandidateEntry

namespace CandidateTable

def empty : CandidateTable := ⟨.empty⟩

def upsert (table : CandidateTable) (entry : CandidateEntry) : CandidateTable :=
  ⟨table.inner.insert entry.peerIdBytes entry⟩

/-- `values` are those of the map, in the order it happens to give them. -/
def eligibleFor (values : List CandidateEntry) (model : String) (nowMs : Timestamp) : List CandidateEntry :=
  let results := (values.filter fun c => satSub nowMs c.timestampMs ≤ SDK_CANDIDATE_TTL_MS).filter
    fun c => c.modelRefs.any (· == model)
  results.insertionSort CandidateEntry.before

end CandidateTable

/-- The loop of the gossip task of `discovery::start`: it ends with the stream of events. -/
def sdkListen (table : CandidateTable) : List Heard → CandidateTable
  | [] => table
  | .shutdown :: _ => table
  | .closed :: _ => table
  | .gossipMessage topic data :: rest =>
    if topic = poolOffer then
      match PoolOffer.codec.fromSlice data with
      | some offer => sdkListen (table.upsert (.ofOffer offer)) rest
      | none => sdkListen table rest
    else sdkListen table rest
  | .peerConnected :: rest => sdkListen table rest
  | .peerDisconnected :: rest => sdkListen table rest
  | .lagged _ :: rest => sdkListen table rest

/-- `Client::infer` from the lookup of candidates on; `send` is what comes of one send, nothing where
the peer id does not parse or the send fails. -/
def inferOver (values : List CandidateEntry) (model : String) (nowMs : Timestamp) (maxRetries : Option U32)
    (send : CandidateEntry → Option (List UInt8)) : Except Sdk.SdkError (List UInt8) :=
  Sdk.infer maxRetries ((CandidateTable.eligibleFor values model nowMs).map send)

/-! ### The router -/

section

variable {ρ π : Type} (K : Primitives) (peerIdFromBytes : List UInt8 → Option π)
  (remoteDispatcher : π → ρ → Outcome EventStream)

abbrev CandidateMap (ρ : Type) := Column NodeId (RegisteredCandidate ρ)

def registerCandidate (inner : CandidateMap ρ) (c : RegisteredCandidate ρ) : CandidateMap ρ :=
  inner.insert c.nodeId c

/-- The candidate a listener makes of an offer whose peer id parses. -/
def remoteCandidate (offer : PoolOffer) : Option (RegisteredCandidate ρ) :=
  (peerIdFromBytes offer.peerId).map fun peer => {
    nodeId := K.blake3 offer.peerId
    dispatcher := remoteDispatcher peer
    totalStake := offer.totalStake
    modelRefs := offer.modelRefs
    lastSeenMs := offer.timestampMs
    supportsTee := offer.supportsTee }

/-- `start_gossip_listener`: only a shutdown ends it. -/
def routerListen (inner : CandidateMap ρ) : List Heard → CandidateMap ρ
  | [] => inner
  | .shutdown :: _ => inner
  | .gossipMessage topic data :: rest =>
    if topic = poolOffer then
      match PoolOffer.codec.fromSlice data with
      | some offer =>
        match remoteCandidate K peerIdFromBytes remoteDispatcher offer with
        | some c => routerListen (registerCandidate inner c) rest
        | none => routerListen inner rest
      | none => routerListen inner rest
    else routerListen inner rest
  | .peerConnected :: rest => routerListen inner rest
  | .peerDisconnected :: rest => routerListen inner rest
  | .lagged _ :: rest => routerListen inner rest
  | .closed :: rest => routerListen inner rest

end

end Arknet.Node
