import Arknet.Chain.State
import Arknet.Chain.Bootstrap

/-!
Ranking of the registered validators by stake and the rotation of the active set at an epoch
boundary. Validators and stakes are read from the committed store.
-/

namespace Arknet.Staking

open Machine Arknet.Chain

def MAX_ACTIVE_VALIDATORS : Nat := 21

structure Candidate where
  info : ValidatorInfo
  totalStake : Amount
  deriving DecidableEq, Repr

def sumValidatorStake (ctx : BlockCtx) (node : NodeId) : Amount :=
  ((ctx.state.iterStakesForNode node).filter (fun e => e.role = .validator)).foldl
    (fun total e => satAdd total e.amount) 0

/-- Higher stake first, then the smaller operator address. -/
def Candidate.before (a b : Candidate) : Prop :=
  b.totalStake < a.totalStake ∨ (b.totalStake = a.totalStake ∧ a.info.operator ≤ b.info.operator)

instance : DecidableRel Candidate.before := fun _ _ =>
  inferInstanceAs (Decidable (_ < _ ∨ (_ = _ ∧ _ ≤ _)))

def rankCandidates (ctx : BlockCtx) : List Candidate :=
  ((ctx.state.iterValidators.map (fun info => ⟨info, sumValidatorStake ctx info.nodeId⟩)).insertionSort
    Candidate.before).take MAX_ACTIVE_VALIDATORS

def totalStakeToVotingPower (totalAtoms : Amount) : U64 :=
  let ark := totalAtoms.val / ATOMS_PER_ARK.val
  ⟨min (max ark 1) (2 ^ 64 - 1), by omega⟩

/-- What happens to one ranked candidate. -/
def rotate (bootstrap : Bool) (acc : BlockCtx × U32) (c : Candidate) : Exec (BlockCtx × U32) :=
  if bootstrap || 0 < c.totalStake then do
    let info := { c.info with votingPower := totalStakeToVotingPower c.totalStake, jailed := false }
    let active ← add acc.2 1
    pure (acc.1.setValidator info.nodeId info, active)
  else pure (acc.1.deleteValidator c.info.nodeId, acc.2)

def recomputeValidatorSet (ctx : BlockCtx) (height : Height) : Exec (BlockCtx × U32) :=
  let candidates := rankCandidates ctx
  let bootstrap := inBootstrapEpoch height (truncate 32 candidates.length)
  candidates.foldlM (rotate bootstrap) (ctx, 0)

end Arknet.Staking
