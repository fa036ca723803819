import Arknet.Router.Failover

/-!
The two dispatchers of a node: to its own compute runner, and to a remote peer over the inference
protocol. Decoding is a parameter.
-/

namespace Arknet.Node

open Arknet.Chain Arknet.Compute Arknet.Router

/-- `LocalComputeDispatcher::dispatch` after the job id is minted: the runner's stream goes through
the forwarding loop. -/
def localDispatch (jobId : JobId) : Except String EventStream → Outcome EventStream
  | .error e => .returned (.error (.dispatch e))
  | .ok inner => .returned (.ok ⟨forwardLoop jobId inner.closes inner.events,
      forwardCloses inner.closes inner.events, inner.timely⟩)

def REMOTE_BUFFER : Nat := 64

/-- The events are put in the channel before anybody reads it: where it is full, the call waits for
ever. -/
def bufferEvents (decodeEvent : List UInt8 → Except String InferenceJobEvent)
    (sent : List InferenceJobEvent) : List (List UInt8) → Outcome EventStream
  | [] => .returned (.ok ⟨sent, true, true⟩)
  | raw :: rest =>
    match decodeEvent raw with
    | .error e => .returned (.error (.dispatch ("decode event: " ++ e)))
    | .ok event =>
      if sent.length = REMOTE_BUFFER then .pending
      else bufferEvents decodeEvent (sent ++ [event]) rest

/-- `RemoteComputeDispatcher::dispatch` once the response for its request has come. -/
def remoteDispatch (decodeResponse : List UInt8 → Except String (List (List UInt8)))
    (decodeEvent : List UInt8 → Except String InferenceJobEvent) :
    Except String (List UInt8) → Outcome EventStream
  | .error e => .returned (.error (.dispatch ("remote error: " ++ e)))
  | .ok wireResp =>
    match decodeResponse wireResp with
    | .error e => .returned (.error (.dispatch ("decode response: " ++ e)))
    | .ok events => bufferEvents decodeEvent [] events

end Arknet.Node
