import Arknet.Compute.Job
import Arknet.Lib.Channel

/-!
A job's stream from the decoder to its reader: the decode thread pushes into the engine's channel
without waiting, the bridge takes from there and waits for room in the job's channel, the reader takes
when it likes. A schedule is a list of moves of the three.
-/

namespace Arknet.Compute

open Machine Arknet.Chain Arknet.Inference

def ENGINE_BUFFER : Nat := 64

abbrev StreamItem := Except InferenceError InferenceEvent

/-- The decode thread. It has left the session when an error was its result and was pushed. -/
inductive Decoder where
  | running (session : Session)
  | leaving
  | exited

/-- What it pushes next, and how it goes on after each answer. -/
def Decoder.next : Decoder → Option (StreamItem × (Bool → Decoder))
  | .running (.push event answered) => some (.ok event, fun kept => .running (answered kept))
  | .running (.done (.error e)) => some (.error e, fun _ => .leaving)
  | _ => none

/-- The thread is about to end, and its sender with it. -/
def Decoder.returned : Decoder → Bool
  | .leaving | .running (.done (.ok _)) => true
  | _ => false

def Decoder.isExited : Decoder → Bool
  | .exited => true
  | _ => false

/-- The state of a stream, with what was pushed, what became of it, and what was read. -/
structure Pipeline where
  decoder : Decoder
  engine : Channel StreamItem ENGINE_BUFFER
  bridge : Bridge
  /-- The event the bridge waits to send. -/
  holding : Option InferenceJobEvent
  bridging : Bool
  jobs : Channel InferenceJobEvent JOB_EVENT_BUFFER
  ended : Bool
  pushed : List (StreamItem × Bool)
  received : List InferenceJobEvent

inductive Move where
  | push
  | exit
  | take
  | forward
  | close
  | read
  | finish
  deriving DecidableEq, Repr

section

variable (K : Primitives) (jobId : JobId)

def Pipeline.start (session : Session) : Pipeline where
  decoder := .running session
  engine := .empty
  bridge := .new K
  holding := none
  bridging := true
  jobs := .empty
  ended := false
  pushed := []
  received := []

namespace Pipeline

/-- The sink's `accept`, and the best-effort push of an error: the answer says whether there was room. -/
def push (p : Pipeline) : Option Pipeline :=
  match p.decoder.next with
  | none => none
  | some (item, answered) =>
    match p.engine.trySend item with
    | some engine =>
      some { p with decoder := answered true, engine := engine, pushed := p.pushed ++ [(item, true)] }
    | none => some { p with decoder := answered false, pushed := p.pushed ++ [(item, false)] }

def take (p : Pipeline) : Option Pipeline :=
  match p.holding, p.engine.recv with
  | none, some (item, engine) =>
    let (event, bridge) := p.bridge.forward K jobId item
    some { p with engine := engine, bridge := bridge, holding := some event }
  | _, _ => none

def forward (p : Pipeline) : Option Pipeline :=
  match p.holding with
  | none => none
  | some event =>
    match p.jobs.trySend event with
    | none => none
    | some jobs => some { p with jobs := jobs, holding := none }

def read (p : Pipeline) : Option Pipeline :=
  match p.jobs.recv with
  | none => none
  | some (event, jobs) => some { p with jobs := jobs, received := p.received ++ [event] }

/-- One move; none when it has to wait. -/
def step (p : Pipeline) : Move → Option Pipeline
  | .push => p.push
  | .exit => if p.decoder.returned then some { p with decoder := .exited } else none
  | .take => p.take K jobId
  | .forward => p.forward
  | .close =>
    if p.bridging && p.decoder.isExited && p.engine.queue.isEmpty && p.holding.isNone then
      some { p with bridging := false }
    else none
  | .read => p.read
  | .finish =>
    if !p.ended && !p.bridging && p.jobs.queue.isEmpty then some { p with ended := true } else none

def Moves (p : Pipeline) (m : Move) (p' : Pipeline) : Prop := p.step K jobId m = some p'

/-- Nobody can move. -/
def Stuck (p : Pipeline) : Prop := ∀ m, p.step K jobId m = none

end Pipeline

end

end Arknet.Compute
