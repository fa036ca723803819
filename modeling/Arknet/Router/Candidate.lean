import Arknet.Router.Failover
import Arknet.Lib.Selection

/-!
The compute candidates a router knows, and their ranking for a model: more stake first, then the smaller
node id. Only nodes with a verified enclave are ranked for a confidential request.
-/

namespace Arknet.Router

open Machine Selection Arknet.Chain

def CANDIDATE_TTL_MS : Timestamp := 300000

structure RegisteredCandidate (ρ : Type) extends Candidate ρ where
  totalStake : Amount
  modelRefs : List String
  lastSeenMs : Timestamp
  supportsTee : Bool

section

variable {ρ : Type}

def RegisteredCandidate.isFresh (c : RegisteredCandidate ρ) (nowMs : Timestamp) : Bool :=
  satSub nowMs c.lastSeenMs ≤ CANDIDATE_TTL_MS

def RegisteredCandidate.serves (c : RegisteredCandidate ρ) (modelRef : String) : Bool :=
  c.modelRefs.any (· == modelRef)

/-- The values of the map, in its order. -/
structure CandidateRegistry (ρ : Type) where
  inner : List (RegisteredCandidate ρ)

/-- Ordered by node id. -/
def CandidateRegistry.snapshot (registry : CandidateRegistry ρ) : List (RegisteredCandidate ρ) :=
  registry.inner.insertionSort fun a b => a.nodeId ≤ b.nodeId

def CandidateRegistry.eligibleFor (registry : CandidateRegistry ρ) (modelRef : String)
    (nowMs : Timestamp) : List (RegisteredCandidate ρ) :=
  registry.snapshot.filter fun c => c.serves modelRef && c.isFresh nowMs

/-- Higher stake first, then the smaller node id. -/
def RegisteredCandidate.before : RegisteredCandidate ρ → RegisteredCandidate ρ → Prop :=
  HeaviestFirst RegisteredCandidate.totalStake fun c => c.nodeId

instance : DecidableRel (RegisteredCandidate.before (ρ := ρ)) :=
  inferInstanceAs (DecidableRel (HeaviestFirst _ _))

def rankFor (registry : CandidateRegistry ρ) (modelRef : String) (nowMs : Timestamp) :
    List (RegisteredCandidate ρ) :=
  (registry.eligibleFor modelRef nowMs).insertionSort RegisteredCandidate.before

def rankForTee (registry : CandidateRegistry ρ) (modelRef : String) (nowMs : Timestamp) :
    List (RegisteredCandidate ρ) :=
  (rankFor registry modelRef nowMs).filter (·.supportsTee)

end

end Arknet.Router
