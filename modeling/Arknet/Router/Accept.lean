import Arknet.Chain.CircuitBreaker
import Arknet.Router.Candidate
import Arknet.Router.FreeTier
import Arknet.Router.Intake

/-!
`Router::accept`: the circuit breaker, the checks of the request, the free-tier slot, the job id, the
ranking, and the dispatch with failover.
-/

namespace Arknet.Router

open Machine Arknet.Chain Arknet.Compute

inductive QuotaPolicy where
  | enforce
  | skip
  deriving DecidableEq, Repr

/-- The configuration is part of the tracker in the source. -/
structure RouterService where
  registry : CandidateRegistry InferenceJobRequest
  cfg : FreeTierConfig
  quotas : FreeTierTracker
  nextJobSalt : U64
  circuitBreaker : CircuitBreakerState

/-- What the caller is told when the quota does not let a job through. -/
def QuotaOutcome.refusal : QuotaOutcome → Option RouterError
  | .allowed .. => none
  | .hourlyExceeded _ => some (.freeTierExhausted "hourly limit exhausted")
  | .dailyExceeded _ => some (.freeTierExhausted "daily limit exhausted")

def Outcome.map {α β : Type} (f : α → β) : Outcome α → Outcome β
  | .pending => .pending
  | .returned result => .returned (result.map f)

namespace RouterService

/-- The quota gate; `none` lets the job through. -/
def gate (r : RouterService) (policy : QuotaPolicy) (userAddr : Address) (nowMs : Timestamp) :
    Exec (Option RouterError × RouterService) :=
  match policy with
  | .skip => pure (none, r)
  | .enforce => do
    let consumed ← r.quotas.consume r.cfg userAddr nowMs
    pure (consumed.1.refusal, { r with quotas := consumed.2 })

/-- No silent downgrade of a confidential request. -/
def ranked (r : RouterService) (req : InferenceJobRequest) (nowMs : Timestamp) :
    Except RouterError (List (Candidate InferenceJobRequest)) :=
  if req.preferTee then
    let teeRanked := rankForTee r.registry req.modelRef nowMs
    if teeRanked.isEmpty then .error .noTeeCandidate else .ok (teeRanked.map (·.toCandidate))
  else
    let all := rankFor r.registry req.modelRef nowMs
    if all.isEmpty then .error .noCandidate else .ok (all.map (·.toCandidate))

variable (K : Primitives)

def mintJobId (r : RouterService) (user : Address) (nowMs : Timestamp) : JobId × RouterService :=
  let salt := satAdd r.nextJobSalt 1
  (K.blake3 (ascii "arknet-job-id-v1" ++ user.toList ++ Borsh.leBytes 8 nowMs.val ++
    Borsh.leBytes 8 salt.val), { r with nextJobSalt := salt })

/-- What comes after the gate. -/
def dispatch (r : RouterService) (req : InferenceJobRequest) (nowMs : Timestamp) :
    Outcome (JobId × EventStream) × RouterService :=
  let minted := r.mintJobId K (req.billingAddress K) nowMs
  match minted.2.ranked req nowMs with
  | .error e => (.returned (.error e), minted.2)
  | .ok ranked => ((dispatchWithFailover minted.1 ranked req).map fun stream => (minted.1, stream), minted.2)

def accept (r : RouterService) (req : InferenceJobRequest) (nowMs : Timestamp) (policy : QuotaPolicy) :
    Exec (Outcome (JobId × EventStream) × RouterService) :=
  if r.circuitBreaker.isPaused then
    pure (.returned (.error (.internal "inference paused — circuit breaker tripped")), r)
  else do
    let verified ← verifyRequest K req nowMs
    match verified with
    | .error e => pure (.returned (.error e), r)
    | .ok () => do
      let gated ← r.gate policy (req.billingAddress K) nowMs
      match gated.1 with
      | some e => pure (.returned (.error e), gated.2)
      | none => pure (gated.2.dispatch K req nowMs)

end RouterService

end Arknet.Router
