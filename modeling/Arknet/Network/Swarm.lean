import Arknet.Lib.Channel

/-!
The inference side of the network task. The request-response behaviour of libp2p is the environment:
it gives every inbound and every outbound request an id of its own and reports the outcome of an
outbound request once. The roles read their channels when they like.
-/

namespace Arknet.Network

abbrev RequestId := Nat
abbrev PeerId := List UInt8

def REQUEST_BUFFER : Nat := 64
def RESPONSE_BUFFER : Nat := 64

structure InboundInferenceRequest where
  peer : PeerId
  data : List UInt8
  requestId : RequestId
  deriving DecidableEq, Repr

structure InferenceResponseEvent where
  requestId : RequestId
  peer : PeerId
  result : Except String (List UInt8)

/-- What the task keeps between events; a pending id stands for the response channel kept under it. -/
structure InferenceState where
  reqTx : Channel InboundInferenceRequest REQUEST_BUFFER
  respTx : Channel InferenceResponseEvent RESPONSE_BUFFER
  pendingChannels : List RequestId

namespace InferenceState

def empty : InferenceState := ⟨.empty, .empty, []⟩

/-- `pending_channels.insert`. -/
def keepChannel (s : InferenceState) (id : RequestId) : InferenceState :=
  { s with pendingChannels := if id ∈ s.pendingChannels then s.pendingChannels else id :: s.pendingChannels }

/-- `pending_channels.remove`. -/
def dropChannel (s : InferenceState) (id : RequestId) : InferenceState :=
  { s with pendingChannels := s.pendingChannels.filter (· ≠ id) }

/-- `let _ = req_tx.try_send(..)`. -/
def handRequest (s : InferenceState) (r : InboundInferenceRequest) : InferenceState :=
  match s.reqTx.trySend r with
  | some reqTx => { s with reqTx := reqTx }
  | none => s

/-- `let _ = resp_tx.try_send(..)`. -/
def handResponse (s : InferenceState) (r : InferenceResponseEvent) : InferenceState :=
  match s.respTx.trySend r with
  | some respTx => { s with respTx := respTx }
  | none => s

end InferenceState

/-- What the task handles, and the two reads of the roles. -/
inductive SwarmEvent where
  | request (peer : PeerId) (requestId : RequestId) (data : List UInt8)
  | response (peer : PeerId) (requestId : RequestId) (data : List UInt8)
  | outboundFailure (peer : PeerId) (requestId : RequestId) (error : String)
  | inboundFailure (requestId : RequestId)
  | sendInferenceRequest (peer : PeerId) (requestId : RequestId) (data : List UInt8)
  | sendInferenceResponse (requestId : RequestId) (data : List UInt8)
  | takeRequest
  | takeResponse

/-- `handle_swarm_event` and `handle_command`; an inbound failure falls to the arm that does nothing,
and a response without a pending channel is only logged. -/
def handleEvent (s : InferenceState) : SwarmEvent → InferenceState
  | .request peer requestId data => (s.keepChannel requestId).handRequest ⟨peer, data, requestId⟩
  | .response peer requestId data => s.handResponse ⟨requestId, peer, .ok data⟩
  | .outboundFailure peer requestId error => s.handResponse ⟨requestId, peer, .error error⟩
  | .inboundFailure _ => s
  | .sendInferenceRequest _ _ _ => s
  | .sendInferenceResponse requestId _ =>
    if requestId ∈ s.pendingChannels then s.dropChannel requestId else s
  | .takeRequest =>
    match s.reqTx.recv with
    | some (_, reqTx) => { s with reqTx := reqTx }
    | none => s
  | .takeResponse =>
    match s.respTx.recv with
    | some (_, respTx) => { s with respTx := respTx }
    | none => s

end Arknet.Network
