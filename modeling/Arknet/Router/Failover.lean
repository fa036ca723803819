import Arknet.Compute.Job

/-!
Failover between ranked candidates. A task that awaits its sends hands on every event in order, so a
stream is what it yields and whether it ends; a call that never returns is an outcome of its own.
-/

namespace Arknet.Router

open Arknet.Chain Arknet.Compute

inductive RouterError where
  | noCandidate
  | noTeeCandidate
  | freeTierExhausted (reason : String)
  | badRequest (what : String)
  | compute (message : String)
  | dispatch (what : String)
  | internal (what : String)
  deriving DecidableEq, Repr

/-- The events of a stream, in order; `closes` when it ends after them instead of staying open;
`timely` when its first event, or its end, comes before the first-token timeout. -/
structure EventStream where
  events : List InferenceJobEvent
  closes : Bool
  timely : Bool
  deriving DecidableEq, Repr

/-- What becomes of a call. -/
inductive Outcome (α : Type) where
  | pending
  | returned (result : Except RouterError α)

structure Candidate (ρ : Type) where
  nodeId : NodeId
  dispatcher : ρ → Outcome EventStream

section

variable (jobId : JobId)

/-- The loop of a forwarding task: it stops at a terminal event; when the inner stream ends without
one it sends a `Cancelled` of its own. -/
def forwardLoop (closes : Bool) : List InferenceJobEvent → List InferenceJobEvent
  | [] => if closes then [.stop jobId .cancelled] else []
  | ev :: rest => if ev.isTerminal then [ev] else ev :: forwardLoop closes rest

/-- The loop ends when its inner stream does, or at a terminal event. -/
def forwardCloses (closes : Bool) (events : List InferenceJobEvent) : Bool :=
  closes || events.any InferenceJobEvent.isTerminal

/-- One candidate: the first event is looked at under the timeout and sent ahead of the loop. -/
def dispatchOne : Outcome EventStream → Outcome EventStream
  | .pending => .pending
  | .returned (.error e) => .returned (.error e)
  | .returned (.ok inner) =>
    if !inner.timely then .returned (.error (.dispatch "first-token timeout"))
    else
      match inner.events with
      | [] => .returned (.error (.dispatch (if inner.closes then "empty stream" else "first-token timeout")))
      | .error _ message :: _ => .returned (.error (.compute message))
      | first :: rest =>
        .returned (.ok ⟨first :: forwardLoop jobId inner.closes rest, forwardCloses inner.closes rest, true⟩)

/-- The candidates that are left, and the last error. -/
def tryCandidates {ρ : Type} (request : ρ) : List (Candidate ρ) → Option RouterError →
    Outcome EventStream
  | [], lastErr => .returned (.error (lastErr.getD .noCandidate))
  | candidate :: rest, _ =>
    match dispatchOne jobId (candidate.dispatcher request) with
    | .pending => .pending
    | .returned (.ok stream) => .returned (.ok stream)
    | .returned (.error e) => tryCandidates request rest (some e)

def dispatchWithFailover {ρ : Type} (ranked : List (Candidate ρ)) (request : ρ) : Outcome EventStream :=
  if ranked.isEmpty then .returned (.error .noCandidate) else tryCandidates jobId request ranked none

end

end Arknet.Router
