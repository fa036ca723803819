import Arknet.Node.L2Dispatch
import Arknet.Network.Swarm

/-!
Calls that share one receiver of responses. A call sends its request, waits for the lock of the
receiver and reads until it hears its own response; the router's dispatcher and the SDK's handle run
the same loop with texts of their own. Time is the environment's: a read that finds nothing queued may
run into its timeout or into a closed channel.
-/

namespace Arknet.Node

open Arknet.Network Arknet.Router

/-- What `timeout(.., rx.recv()).await` comes back with. -/
inductive Received where
  | event (ev : InferenceResponseEvent)
  | closed
  | elapsed

inductive SdkError where
  | p2p (what : String)
  deriving DecidableEq, Repr

/-- The errors of one of the two loops. -/
structure Failures (ε : Type) where
  closed : ε
  timedOut : ε

/-- `RemoteComputeDispatcher::dispatch`. -/
def dispatcherFailures : Failures RouterError :=
  ⟨.dispatch "response channel closed", .dispatch "inference request timed out"⟩

/-- `SdkSwarmHandle::send_inference`. -/
def sdkFailures : Failures SdkError :=
  ⟨.p2p "inference response channel closed", .p2p "inference request timed out (120s)"⟩

variable {ε : Type}

/-- One turn of the loop; `none` goes on. A response that is not the caller's is dropped. -/
def Failures.hear (F : Failures ε) (outboundId : RequestId) :
    Received → Option (Except ε InferenceResponseEvent)
  | .event ev => if ev.requestId = outboundId then some (.ok ev) else none
  | .closed => some (.error F.closed)
  | .elapsed => some (.error F.timedOut)

/-- The receiver with the calls around it: those that wait for the lock, the one that holds it, and
the results of those that returned. -/
structure Exchange (ε : Type) where
  waiting : List RequestId
  holder : Option RequestId
  channel : Channel InferenceResponseEvent RESPONSE_BUFFER
  results : List (RequestId × Except ε InferenceResponseEvent)

/-- A request is sent, a response reaches the network task, a call takes the lock, and what the call
that holds it may hear. -/
inductive Move where
  | send (outboundId : RequestId)
  | arrive (ev : InferenceResponseEvent)
  | lock (outboundId : RequestId)
  | read
  | lapse
  | close

namespace Exchange

def start : Exchange ε := ⟨[], none, .empty, []⟩

/-- The lock goes with the result. -/
def heard (F : Failures ε) (s : Exchange ε) (outboundId : RequestId)
    (channel : Channel InferenceResponseEvent RESPONSE_BUFFER) (received : Received) : Exchange ε :=
  match F.hear outboundId received with
  | some result =>
    { s with holder := none, channel := channel, results := s.results ++ [(outboundId, result)] }
  | none => { s with channel := channel }

/-- A move where it is possible; a response that finds the channel full is discarded. -/
def next (F : Failures ε) (s : Exchange ε) : Move → Option (Exchange ε)
  | .send outboundId => some { s with waiting := s.waiting ++ [outboundId] }
  | .arrive ev => some { s with channel := (s.channel.trySend ev).getD s.channel }
  | .lock outboundId =>
    if s.holder = none ∧ outboundId ∈ s.waiting then
      some { s with waiting := s.waiting.filter (· ≠ outboundId), holder := some outboundId }
    else none
  | .read =>
    match s.holder, s.channel.recv with
    | some outboundId, some (ev, channel) => some (s.heard F outboundId channel (.event ev))
    | _, _ => none
  | .lapse =>
    match s.holder, s.channel.recv with
    | some outboundId, none => some (s.heard F outboundId s.channel .elapsed)
    | _, _ => none
  | .close =>
    match s.holder, s.channel.recv with
    | some outboundId, none => some (s.heard F outboundId s.channel .closed)
    | _, _ => none

/-- No call waits or reads any more. -/
def Ended (s : Exchange ε) : Prop := s.waiting = [] ∧ s.holder = none

/-- A call that was sent and has not returned. -/
def Active (s : Exchange ε) (id : RequestId) : Prop := id ∈ s.waiting ∨ s.holder = some id

instance (s : Exchange ε) (id : RequestId) : Decidable (s.Active id) :=
  inferInstanceAs (Decidable (_ ∨ _))

end Exchange

end Arknet.Node
