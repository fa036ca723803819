import Arknet.Compute.Attestation

/-!
The events of a job as they go to the router, and the task that makes them out of a session's. The
hash chain is kept beside them and dropped at the end.
-/

namespace Arknet.Compute

open Machine Arknet.Chain Arknet.Inference

/-! ## Wire types -/

inductive StopKind where
  | maxTokens
  | endOfStream
  | stopString (s : String)
  | cancelled
  deriving DecidableEq, Repr

def StopKind.ofReason : StopReason → StopKind
  | .maxTokens => .maxTokens
  | .endOfStream => .endOfStream
  | .stopString s => .stopString s
  | .cancelled => .cancelled

inductive InferenceJobEvent where
  | token (jobId : JobId) (index : U32) (text : String)
  | stop (jobId : JobId) (reason : StopKind)
  | error (jobId : JobId) (message : String)
  | busy (jobId : JobId)
  deriving DecidableEq, Repr

/-- The two events that end a stream. -/
def InferenceJobEvent.isTerminal : InferenceJobEvent → Bool
  | .stop .. | .error .. => true
  | _ => false

def JOB_EVENT_BUFFER : Nat := 64

/-! ## The bridge -/

/-- What `bridge_events` carries from item to item. -/
structure Bridge where
  chain : HashChainBuilder
  index : U32

section

variable (K : Primitives) (jobId : JobId)

def Bridge.new : Bridge := ⟨.new K, 0⟩

/-- The event an item becomes; a token also advances the chain and the index. -/
def Bridge.forward (b : Bridge) : Except InferenceError InferenceEvent → InferenceJobEvent × Bridge
  | .ok (.token tok) =>
    (.token jobId b.index tok.text, ⟨b.chain.absorbToken K tok.text, satAdd b.index 1⟩)
  | .ok (.stop reason) => (.stop jobId (.ofReason reason), b)
  | .error e => (.error jobId e.toString, b)

/-- A whole stream, item by item. -/
def Bridge.forwardAll (b : Bridge) : List (Except InferenceError InferenceEvent) →
    List InferenceJobEvent × Bridge
  | [] => ([], b)
  | item :: rest =>
    let (event, b) := b.forward K jobId item
    let (events, b) := b.forwardAll rest
    (event :: events, b)

end

end Arknet.Compute
