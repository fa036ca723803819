import Arknet.Laws.PendingRewards
import Arknet.Laws.Rotation

/-!
The three places that ask whether the chain is still in bootstrap. Deposits and receipt batches count the
validator records; the rotation counts its ranking, which never holds more than 21 of the 100 that would
end the bootstrap (`one_bootstrap_gate`).
-/

namespace Arknet.Laws

open Machine Store Arknet.Chain Arknet.Staking Arknet.Consensus

/-- The two gates over the number of validator records. -/
def bootstrapping (height : Height) (records : Nat) : Bool :=
  withinBootstrapWindow height && decide (records < BOOTSTRAP_VALIDATOR_TARGET.val)

/-! ## What the three places answer -/

/-- The answer `apply_deposit` computes for its check of the minimum stake. -/
def depositsInBootstrap (ctx : BlockCtx) (height : Height) : Bool :=
  inBootstrapEpoch height ctx.state.validatorCount

/-- The answer `apply_receipt_batch` computes for the bootstrap emission. -/
def emitsInBootstrap (ctx : BlockCtx) (height : Height) : Bool :=
  inBootstrapEpoch height ctx.state.validatorCount

/-- The three places act on these answers: the minimum stake is waived, the receipts of an applied batch
queue rewards, ranked validators without stake keep their records. -/
structure ActsOn (K : Primitives) (ctx : BlockCtx) (height : Height) (deposits emits rotates : Bool) :
    Prop where
  deposits : ∀ sender nodeId role poolId amount delegator, delegator = none ∨ delegator = some sender →
    (applyDeposit ctx sender nodeId role poolId amount delegator height =
        reject ctx (.notYetImplemented "stake below minimum for this role") ↔
      deposits = false ∧
        satAdd (((ctx.getStake ⟨nodeId, role, poolId, delegator⟩).map StakeEntry.amount).getD 0) amount <
          inlineBaseMinStake role)
  emits : ∀ batch ctx' gas, applyReceiptBatch K ctx batch height = .ok (ctx', .applied gas) →
    ∀ j, ctx'.commit.pendingRewards.get j =
      (((if emits then batch.receipts.map (bootstrapReward K height) else []).filter
        (fun pr => pr.jobId = j)).getLast?).or (ctx.commit.pendingRewards.get j)
  rotates : ∀ ctx' n, Filed ctx.state → recomputeValidatorSet ctx height = .ok (ctx', n) →
    ∀ c ∈ rankCandidates ctx, ctx'.commit.validators.get c.info.nodeId = seatOrEvict rotates c

section

variable (K : Primitives) (ctx : BlockCtx) (height : Height)

theorem deposit_below_minimum {sender : Address} {nodeId : NodeId} {role : StakeRole}
    {poolId : Option PoolId} {amount : Amount} {delegator : Option Address}
    (hown : delegator = none ∨ delegator = some sender) :
    applyDeposit ctx sender nodeId role poolId amount delegator height =
        reject ctx (.notYetImplemented "stake below minimum for this role") ↔
      belowMinimum ctx ⟨nodeId, role, poolId, delegator⟩ amount height = true := by
  have hparty : ¬ (delegator ≠ none ∧ delegator ≠ some sender) := by
    rintro ⟨hnone, hsome⟩
    exact hown.elim hnone hsome
  unfold applyDeposit
  simp only
  rw [if_neg hparty]
  constructor
  · intro h
    by_contra hnot
    rw [if_neg hnot] at h
    split at h
    · simp [reject] at h
    · simp only [reject, applied, bind_eq_ok, Except.ok.injEq, Prod.mk.injEq] at h
      obtain ⟨_, -, -, hout⟩ := h
      cases hout
  · intro h
    rw [if_pos h]

/-- Each place acts on the answer it computes. -/
theorem acts_on_answers : ActsOn K ctx height (depositsInBootstrap ctx height)
    (emitsInBootstrap ctx height) (rotatesInBootstrap ctx height) where
  deposits := by
    intro sender nodeId role poolId amount delegator hown
    rw [deposit_below_minimum ctx height hown, belowMinimum, depositsInBootstrap, Bool.and_eq_true,
      Bool.not_eq_true', decide_eq_true_eq]
  emits := by
    intro batch ctx' gas h j
    obtain ⟨-, -, hget⟩ := receiptBatch_rewards h
    rw [hget j, emitsInBootstrap]
    by_cases hopen : inBootstrapEpoch height ctx.state.validatorCount = true
    · rw [if_pos ⟨rfl, hopen⟩, if_pos hopen]
    · rw [if_neg (fun hboth => hopen hboth.2), if_neg hopen]
  rotates := by
    intro ctx' n hk h c hc
    exact recompute_ranked hk h hc

/-! ## The counts -/

theorem inBootstrapEpoch_outside {height : Height} (h : withinBootstrapWindow height = false) (n : U32) :
    inBootstrapEpoch height n = false := by
  rw [inBootstrapEpoch, h, Bool.false_and]

/-- Below the target the truncated count is the count. -/
theorem inBootstrapEpoch_few {records : Nat} (h : records < BOOTSTRAP_VALIDATOR_TARGET.val) :
    inBootstrapEpoch height (truncate 32 records) = bootstrapping height records := by
  have htarget : BOOTSTRAP_VALIDATOR_TARGET.val = 100 := rfl
  have hval : (truncate 32 records).val = records := Nat.mod_eq_of_lt (by omega)
  rw [inBootstrapEpoch, bootstrapping]
  congr 1
  apply decide_eq_decide.mpr
  rw [Fin.lt_def, hval]

/-- The ranking is too short to end the bootstrap. -/
theorem rotatesInBootstrap_eq : rotatesInBootstrap ctx height = withinBootstrapWindow height := by
  have htarget : BOOTSTRAP_VALIDATOR_TARGET.val = 100 := rfl
  have hranked := rankCandidates_length ctx
  have hmax : MAX_ACTIVE_VALIDATORS = 21 := rfl
  have hfew : (rankCandidates ctx).length < BOOTSTRAP_VALIDATOR_TARGET.val := by omega
  rw [rotatesInBootstrap, inBootstrapEpoch_few height hfew, bootstrapping, decide_eq_true hfew,
    Bool.and_true]

end

/-- The three places act on answers of their own, and these are all the answer of the two gates exactly
when the window has closed or there are fewer records than the target. -/
theorem one_bootstrap_gate (K : Primitives) (ctx : BlockCtx) (height : Height) :
    ActsOn K ctx height (depositsInBootstrap ctx height) (emitsInBootstrap ctx height)
        (rotatesInBootstrap ctx height) ∧
      ((depositsInBootstrap ctx height = bootstrapping height ctx.state.iterValidators.length ∧
          emitsInBootstrap ctx height = bootstrapping height ctx.state.iterValidators.length ∧
          rotatesInBootstrap ctx height = bootstrapping height ctx.state.iterValidators.length) ↔
        BOOTSTRAP_MAX_BLOCKS ≤ height ∨
          ctx.state.iterValidators.length < BOOTSTRAP_VALIDATOR_TARGET.val) := by
  refine ⟨acts_on_answers K ctx height, ?_⟩
  rw [rotatesInBootstrap_eq]
  cases hwindow : withinBootstrapWindow height with
  | false =>
    have hclosed : BOOTSTRAP_MAX_BLOCKS ≤ height := by
      rw [withinBootstrapWindow, decide_eq_false_iff_not, not_lt] at hwindow
      exact hwindow
    have hnone : bootstrapping height ctx.state.iterValidators.length = false := by
      rw [bootstrapping, hwindow, Bool.false_and]
    simp only [depositsInBootstrap, emitsInBootstrap, inBootstrapEpoch_outside hwindow, hnone, and_self,
      hclosed, true_or]
  | true =>
    have hopen : ¬ BOOTSTRAP_MAX_BLOCKS ≤ height := by
      rw [withinBootstrapWindow, decide_eq_true_eq] at hwindow
      exact not_le.mpr hwindow
    constructor
    · rintro ⟨-, -, hrotates⟩
      rw [bootstrapping, hwindow, Bool.true_and] at hrotates
      exact .inr (of_decide_eq_true hrotates.symm)
    · rintro (hclosed | hfew)
      · exact absurd hclosed hopen
      · have hanswer : inBootstrapEpoch height ctx.state.validatorCount =
            bootstrapping height ctx.state.iterValidators.length := inBootstrapEpoch_few height hfew
        refine ⟨hanswer, hanswer, ?_⟩
        rw [bootstrapping, hwindow, decide_eq_true hfew, Bool.true_and]

/-! ### A hundred validators -/

def numberedNode (i : Fin 100) : NodeId := ⟨Fin.castLE (by decide) i⟩

/-- A hundred nodes are registered. -/
def hundredValidators : State := { State.empty with
  validators := {
    entries := (List.finRange 100).map fun i => (numberedNode i, validatorRecord (numberedNode i))
    sorted := by
      rw [List.pairwise_map]
      exact (List.pairwise_lt_finRange 100).imp fun h => h } }

theorem hundredValidators_count : hundredValidators.iterValidators.length = 100 := by
  simp [hundredValidators, State.iterValidators, Column.values]

/-- The chain has left bootstrap for deposits and batches, and not for the rotation. -/
theorem hundred_validators_disagree :
    depositsInBootstrap hundredValidators.beginBlock 3600 = false ∧
      emitsInBootstrap hundredValidators.beginBlock 3600 = false ∧
      rotatesInBootstrap hundredValidators.beginBlock 3600 = true := by
  have hcount : hundredValidators.validatorCount = 100 := by
    rw [State.validatorCount, hundredValidators_count]
    rfl
  rw [rotatesInBootstrap_eq, depositsInBootstrap, emitsInBootstrap, State.beginBlock_state, hcount]
  decide

end Arknet.Laws
