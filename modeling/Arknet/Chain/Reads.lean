import Arknet.Chain.Effects

/-!
What a handler looks at. Its outcome and the store it would leave depend on the context through the
would-be store and a few reads of the committed one: the base fee and the validator count for all, and
the escrow, model, proposal or vote its body names. Two contexts that agree on these are told apart by
no transaction (`applyTx_view`).
-/

namespace Arknet.Chain

open Machine Store

/-- The store an application would leave, with its outcome. -/
def outcomeView (x : Exec (BlockCtx × TxOutcome)) : Exec (State × TxOutcome) :=
  (fun p => (p.1.commit, p.2)) <$> x

@[simp] theorem outcomeView_reject (c : BlockCtx) (r : RejectReason) :
    outcomeView (reject c r) = .ok (c.commit, .rejected r) := rfl

@[simp] theorem outcomeView_applied (c : BlockCtx) (g : Gas) :
    outcomeView (applied c g) = .ok (c.commit, .applied g) := rfl

theorem outcomeView_ite (p : Prop) [Decidable p] (x y : Exec (BlockCtx × TxOutcome)) :
    outcomeView (if p then x else y) = if p then outcomeView x else outcomeView y := by
  split <;> rfl

theorem outcomeView_bind {α : Type} (x : Exec α) (f : α → Exec (BlockCtx × TxOutcome)) :
    outcomeView (x >>= f) = x >>= fun a => outcomeView (f a) := by
  cases x <;> rfl

/-- The same, where what is computed first is a context seen through its store. -/
theorem outcomeView_bind_congr {x y : Exec BlockCtx} {f g : BlockCtx → Exec (BlockCtx × TxOutcome)}
    (h : BlockCtx.commit <$> x = BlockCtx.commit <$> y)
    (hf : ∀ a b, a.commit = b.commit → outcomeView (f a) = outcomeView (g b)) :
    outcomeView (x >>= f) = outcomeView (y >>= g) := by
  cases x with
  | error p =>
    cases y with
    | error q =>
      have hpq : p = q := Except.error.inj h
      rw [hpq]
      rfl
    | ok b => cases h
  | ok a =>
    cases y with
    | error q => cases h
    | ok b => exact hf a b (Except.ok.inj h)

section

variable {c d : BlockCtx}

theorem account_of_commit (h : c.commit = d.commit) (a : Address) : c.account a = d.account a := by
  rw [BlockCtx.account_eq, BlockCtx.account_eq, h]

theorem getStake_of_commit (h : c.commit = d.commit) (k : StakeKey) : c.getStake k = d.getStake k := by
  rw [BlockCtx.getStake_eq, BlockCtx.getStake_eq, h]

theorem creditAddress_of_commit (h : c.commit = d.commit) (a : Address) (amount : Amount) :
    (c.creditAddress a amount).commit = (d.creditAddress a amount).commit := by
  simp only [BlockCtx.creditAddress, BlockCtx.setAccount_commit, account_of_commit h, h]

theorem creditPositive_of_commit (h : c.commit = d.commit) (a : Address) (amount : Amount) :
    (c.creditPositive a amount).commit = (d.creditPositive a amount).commit := by
  unfold BlockCtx.creditPositive
  split
  · exact creditAddress_of_commit h a amount
  · exact h

theorem applyTransfer_view (h : c.commit = d.commit) (hfee : c.state.baseFee = d.state.baseFee)
    (src dst : Address) (amount : Amount) (nonce : Nonce) (fee : Gas) :
    outcomeView (applyTransfer c src dst amount nonce fee) =
      outcomeView (applyTransfer d src dst amount nonce fee) := by
  simp only [applyTransfer, account_of_commit h, hfee]
  cases add amount (satMul (asAmount fee) d.state.baseFee) with
  | error p => simp only [outcomeView_ite, outcomeView_reject, h]
  | ok total =>
    simp only [outcomeView_ite, outcomeView_bind, outcomeView_reject, outcomeView_applied,
      BlockCtx.setAccount_commit, h]

/-! ## Stake operations -/

theorem applyDeposit_view (h : c.commit = d.commit)
    (hcount : c.state.validatorCount = d.state.validatorCount) (sender : Address) (nodeId : NodeId)
    (role : StakeRole) (poolId : Option PoolId) (amount : Amount) (delegator : Option Address)
    (height : Height) :
    outcomeView (applyDeposit c sender nodeId role poolId amount delegator height) =
      outcomeView (applyDeposit d sender nodeId role poolId amount delegator height) := by
  have hstake : ∀ a x k, (c.setAccount a x).getStake k = (d.setAccount a x).getStake k :=
    fun _ _ k => getStake_of_commit h k
  simp only [applyDeposit, belowMinimum, account_of_commit h, getStake_of_commit h, hcount, hstake,
    outcomeView_ite, outcomeView_bind, outcomeView_reject, outcomeView_applied,
    BlockCtx.setAccount_commit, BlockCtx.setStake_commit, h]

theorem drawnEntry_of_commit (h : c.commit = d.commit) (nodeId : NodeId) (role : StakeRole)
    (poolId : Option PoolId) (sender : Address) :
    drawnEntry c nodeId role poolId sender = drawnEntry d nodeId role poolId sender := by
  simp only [drawnEntry, getStake_of_commit h]

theorem applyWithdraw_view (h : c.commit = d.commit) (sender : Address) (nodeId : NodeId)
    (role : StakeRole) (poolId : Option PoolId) (amount : Amount) (height : Height) :
    outcomeView (applyWithdraw c sender nodeId role poolId amount height) =
      outcomeView (applyWithdraw d sender nodeId role poolId amount height) := by
  have hnext : ∀ k e, (c.setStake k e).nextUnbondId = (d.setStake k e).nextUnbondId := by
    intro k e
    simp only [BlockCtx.nextUnbondId_eq, BlockCtx.setStake_commit, h]
  simp only [applyWithdraw, drawnEntry_of_commit h]
  split
  · simp only [outcomeView_reject, h]
  · simp only [hnext, outcomeView_ite, outcomeView_bind, outcomeView_reject, outcomeView_applied,
      BlockCtx.setNextUnbondId_commit, BlockCtx.setUnbonding_commit, BlockCtx.setStake_commit, h]

theorem applyComplete_view (h : c.commit = d.commit) (sender : Address) (nodeId : NodeId)
    (unbondId : U64) (height : Height) :
    outcomeView (applyComplete c sender nodeId unbondId height) =
      outcomeView (applyComplete d sender nodeId unbondId height) := by
  have hget : c.getUnbonding nodeId unbondId = d.getUnbonding nodeId unbondId := by
    rw [BlockCtx.getUnbonding_eq, BlockCtx.getUnbonding_eq, h]
  simp only [applyComplete, hget]
  split
  · simp only [outcomeView_reject, h]
  · simp only [outcomeView_ite, outcomeView_reject, outcomeView_applied,
      BlockCtx.deleteUnbonding_commit, creditAddress_of_commit h, h]

theorem applyRedelegate_view (h : c.commit = d.commit) (sender : Address) (src dst : NodeId)
    (role : StakeRole) (amount : Amount) (height : Height) :
    outcomeView (applyRedelegate c sender src dst role amount height) =
      outcomeView (applyRedelegate d sender src dst role amount height) := by
  have hstake : ∀ k e j, (c.setStake k e).getStake j = (d.setStake k e).getStake j := by
    intro k e j
    exact getStake_of_commit (by simp only [BlockCtx.setStake_commit, h]) j
  simp only [applyRedelegate, drawnEntry_of_commit h]
  split
  · simp only [outcomeView_reject, h]
  · split
    · simp only [outcomeView_reject, h]
    · simp only [hstake, outcomeView_ite, outcomeView_bind, outcomeView_reject, outcomeView_applied,
        BlockCtx.setStake_commit, h]

theorem applyStakeOp_view (h : c.commit = d.commit)
    (hcount : c.state.validatorCount = d.state.validatorCount) (op : StakeOp) (sender : Address)
    (height : Height) :
    outcomeView (applyStakeOp c op sender height) = outcomeView (applyStakeOp d op sender height) := by
  cases op with
  | deposit nodeId role poolId amount delegator =>
    exact applyDeposit_view h hcount sender nodeId role poolId amount delegator height
  | withdraw nodeId role poolId amount => exact applyWithdraw_view h sender nodeId role poolId amount height
  | complete nodeId role poolId unbondId => exact applyComplete_view h sender nodeId unbondId height
  | redelegate src dst role amount => exact applyRedelegate_view h sender src dst role amount height

/-! ## Receipts and disputes -/

theorem isReceiptSeen_of_commit (h : c.commit = d.commit) (job : JobId) :
    c.isReceiptSeen job = d.isReceiptSeen job := by
  rw [BlockCtx.isReceiptSeen_eq, BlockCtx.isReceiptSeen_eq, h]

theorem markReceipts_of_commit (h : c.commit = d.commit) (height : Height) (rs : List InferenceReceipt) :
    (markReceipts c height rs).1.commit = (markReceipts d height rs).1.commit ∧
      (markReceipts c height rs).2 = (markReceipts d height rs).2 := by
  induction rs generalizing c d with
  | nil => exact ⟨h, rfl⟩
  | cons r rs ih =>
    simp only [markReceipts, isReceiptSeen_of_commit h]
    split
    · exact ⟨h, rfl⟩
    · exact ih (by simp only [BlockCtx.markReceiptSeen_commit, h])

theorem queueRewards_of_commit (K : Primitives) (h : c.commit = d.commit) (height : Height)
    (rs : List InferenceReceipt) :
    (rs.foldl (fun ctx r => ctx.setPendingReward r.jobId (bootstrapReward K height r)) c).commit =
      (rs.foldl (fun ctx r => ctx.setPendingReward r.jobId (bootstrapReward K height r)) d).commit := by
  induction rs generalizing c d with
  | nil => exact h
  | cons r rs ih => exact ih (by simp only [BlockCtx.setPendingReward_commit, h])

theorem applyReceiptBatch_view (K : Primitives) (h : c.commit = d.commit)
    (hcount : c.state.validatorCount = d.state.validatorCount) (batch : ReceiptBatch)
    (height : Height) :
    outcomeView (applyReceiptBatch K c batch height) = outcomeView (applyReceiptBatch K d batch height) := by
  obtain ⟨hm, hjob⟩ := markReceipts_of_commit h height batch.receipts
  have hcs := (markReceipts_commit c height batch.receipts).1
  have hds := (markReceipts_commit d height batch.receipts).1
  unfold applyReceiptBatch
  split
  · simp only [outcomeView_reject, h]
  split
  · simp only [outcomeView_reject, h]
  cases hc : markReceipts c height batch.receipts with
  | mk c₁ jc =>
  cases hd : markReceipts d height batch.receipts with
  | mk d₁ jd =>
  rw [hc, hd] at hm hjob
  rw [hc] at hcs
  rw [hd] at hds
  simp only at hm hjob hcs hds
  subst hjob
  cases jc with
  | some job => simp only [outcomeView_reject, hm]
  | none =>
    have hstate : c₁.state.validatorCount = d₁.state.validatorCount := by rw [hcs, hds, hcount]
    simp only [outcomeView_applied, hstate]
    split
    · rw [queueRewards_of_commit K hm]
    · rw [hm]

theorem applyDispute_view (h : c.commit = d.commit) (x : Dispute) :
    outcomeView (applyDispute c x) = outcomeView (applyDispute d x) := by
  simp only [applyDispute, isReceiptSeen_of_commit h, outcomeView_ite, outcomeView_reject,
    outcomeView_applied, h]

/-! ## Escrow and rewards -/

theorem creditRewardSplit_of_commit (h : c.commit = d.commit) (total : Amount)
    (computeAddr verifierAddr treasuryAddr : Address) :
    BlockCtx.commit <$> creditRewardSplit c total computeAddr verifierAddr treasuryAddr =
      BlockCtx.commit <$> creditRewardSplit d total computeAddr verifierAddr treasuryAddr := by
  simp only [creditRewardSplit, map_bind, map_pure]
  congr
  funext split
  congr
  funext computeTotal
  rw [creditPositive_of_commit (creditPositive_of_commit (creditPositive_of_commit h _ _) _ _)]

theorem applyEscrowLock_view (h : c.commit = d.commit) (sender : Address) (jobId : JobId)
    (amount : Amount) (nonce : Nonce) (fee : Gas) (height : Height)
    (hread : amount ≠ 0 → (c.getEscrow jobId).isSome = (d.getEscrow jobId).isSome) :
    outcomeView (applyEscrowLock c sender jobId amount nonce fee height) =
      outcomeView (applyEscrowLock d sender jobId amount nonce fee height) := by
  simp only [applyEscrowLock]
  split
  · simp only [outcomeView_reject, h]
  · rename_i hz
    simp only [hread hz, account_of_commit h, outcomeView_ite, outcomeView_bind, outcomeView_reject,
      outcomeView_applied, BlockCtx.setEscrow_commit, BlockCtx.setAccount_commit, h]

theorem applyEscrowSettle_view (h : c.commit = d.commit) (jobId : JobId)
    (computeAddr verifierAddr routerAddr treasuryAddr : Address) (height : Height)
    (hread : c.getEscrow jobId = d.getEscrow jobId) :
    outcomeView (applyEscrowSettle c jobId computeAddr verifierAddr routerAddr treasuryAddr height) =
      outcomeView (applyEscrowSettle d jobId computeAddr verifierAddr routerAddr treasuryAddr height) := by
  simp only [applyEscrowSettle, hread]
  split
  · simp only [outcomeView_reject, h]
  · split
    · simp only [outcomeView_reject, h]
    · refine outcomeView_bind_congr (creditRewardSplit_of_commit h _ _ _ _) (fun a b hab => ?_)
      simp only [outcomeView_applied, BlockCtx.setEscrow_commit, BlockCtx.setPendingReward_commit, hab]

theorem applyRewardMint_view (h : c.commit = d.commit) (totalReward : Amount)
    (computeAddr verifierAddr treasuryAddr : Address) :
    outcomeView (applyRewardMint c totalReward computeAddr verifierAddr treasuryAddr) =
      outcomeView (applyRewardMint d totalReward computeAddr verifierAddr treasuryAddr) := by
  simp only [applyRewardMint]
  split
  · simp only [outcomeView_applied, h]
  · refine outcomeView_bind_congr (creditRewardSplit_of_commit h _ _ _ _) (fun a b hab => ?_)
    simp only [outcomeView_bind, outcomeView_applied, hab]

/-! ## Registries and governance -/

theorem applyRegisterModel_view (h : c.commit = d.commit) (manifest : OnChainModelManifest)
    (registrar : Address) (deposit : Amount)
    (hread : MODEL_DEPOSIT ≤ deposit → manifest.modelId ≠ "" →
      (c.getModel manifest.modelId).isSome = (d.getModel manifest.modelId).isSome) :
    outcomeView (applyRegisterModel c manifest registrar deposit) =
      outcomeView (applyRegisterModel d manifest registrar deposit) := by
  simp only [applyRegisterModel]
  split
  · simp only [outcomeView_reject, h]
  · rename_i hmin
    split
    · simp only [outcomeView_reject, h]
    · rename_i hid
      simp only [hread (not_lt.mp hmin) hid, account_of_commit h, outcomeView_ite, outcomeView_bind,
        outcomeView_reject, outcomeView_applied, BlockCtx.setModel_commit, BlockCtx.setAccount_commit, h]

theorem applyRegisterTee_view (h : c.commit = d.commit) (nodeId : NodeId) (capability : TeeCapability) :
    outcomeView (applyRegisterTee c nodeId capability) =
      outcomeView (applyRegisterTee d nodeId capability) := by
  unfold applyRegisterTee
  split
  · simp only [outcomeView_reject, h]
  · split
    · simp only [outcomeView_reject, h]
    · simp only [outcomeView_ite, outcomeView_reject, outcomeView_applied,
        BlockCtx.setTeeCapability_commit, h]

theorem applyRegisterGateway_view (h : c.commit = d.commit) (nodeId : NodeId) (operator : Address)
    (url : String) (https : Bool) (height : Height) :
    outcomeView (applyRegisterGateway c nodeId operator url https height) =
      outcomeView (applyRegisterGateway d nodeId operator url https height) := by
  simp only [applyRegisterGateway, outcomeView_ite, outcomeView_reject, outcomeView_applied,
    BlockCtx.setGateway_commit, h]

theorem applyGovProposal_view (h : c.commit = d.commit) (sender : Address) (p : Proposal)
    (height : Height) (hread : PROPOSAL_DEPOSIT ≤ p.deposit → p.deposit ≤ (c.account sender).balance →
      c.state.nextProposalId = d.state.nextProposalId) :
    outcomeView (applyGovProposal c sender p height) = outcomeView (applyGovProposal d sender p height) := by
  have hacc := account_of_commit h sender
  simp only [applyGovProposal, ← hacc]
  split
  · simp only [outcomeView_reject, h]
  · rename_i hmin
    split
    · simp only [outcomeView_reject, h]
    · rename_i hbal
      have hnext := hread (not_lt.mp hmin) (not_lt.mp hbal)
      simp only [BlockCtx.setAccount_state, hnext, outcomeView_bind, outcomeView_applied,
        BlockCtx.setNextProposalId_commit, BlockCtx.setProposal_commit, BlockCtx.setAccount_commit, h]

/-- Why a vote is refused, given the proposal's record and the voter's earlier vote. -/
def voteRefusal (record : Option ProposalRecord) (earlier : Option VoteChoice) : Option String :=
  match record with
  | none => some "proposal not found"
  | some r =>
    if r.phase ≠ .voting then some "proposal not in voting phase"
    else if earlier.isSome then some "duplicate vote"
    else none

theorem applyGovVote_eq (c : BlockCtx) (proposalId : U64) (voter : Address) (choice : VoteChoice) :
    applyGovVote c proposalId voter choice =
      match voteRefusal (c.getProposal proposalId) (c.getVote ⟨proposalId, voter⟩) with
      | some text => reject c (.notYetImplemented text)
      | none => applied (c.setVote ⟨proposalId, voter⟩ choice) GOV_VOTE_GAS := by
  unfold applyGovVote voteRefusal
  cases c.getProposal proposalId with
  | none => rfl
  | some r =>
    simp only
    split
    · rfl
    · split <;> rfl

theorem applyGovVote_view (h : c.commit = d.commit) (proposalId : U64) (voter : Address)
    (choice : VoteChoice)
    (hread : voteRefusal (c.getProposal proposalId) (c.getVote ⟨proposalId, voter⟩) =
      voteRefusal (d.getProposal proposalId) (d.getVote ⟨proposalId, voter⟩)) :
    outcomeView (applyGovVote c proposalId voter choice) =
      outcomeView (applyGovVote d proposalId voter choice) := by
  rw [applyGovVote_eq, applyGovVote_eq, hread]
  split
  · simp only [outcomeView_reject, h]
  · simp only [outcomeView_applied, BlockCtx.setVote_commit, h]

/-! ## Any transaction -/

/-- The two contexts answer alike what the transaction asks of the committed store. -/
def SameReads (K : Primitives) (c d : BlockCtx) (stx : SignedTransaction) : Prop :=
  match stx.tx with
  | .escrowLock _ jobId amount _ _ =>
    amount ≠ 0 → (c.getEscrow jobId).isSome = (d.getEscrow jobId).isSome
  | .escrowSettle jobId .. => c.getEscrow jobId = d.getEscrow jobId
  | .registerModel manifest _ deposit => MODEL_DEPOSIT ≤ deposit → manifest.modelId ≠ "" →
      (c.getModel manifest.modelId).isSome = (d.getModel manifest.modelId).isSome
  | .govProposal p => PROPOSAL_DEPOSIT ≤ p.deposit →
      p.deposit ≤ (c.account (deriveAddressFromSigner K stx.signer)).balance →
      c.state.nextProposalId = d.state.nextProposalId
  | .govVote proposalId voter _ =>
    voteRefusal (c.getProposal proposalId) (c.getVote ⟨proposalId, voter⟩) =
      voteRefusal (d.getProposal proposalId) (d.getVote ⟨proposalId, voter⟩)
  | _ => True

/-- Contexts with the same would-be store and the same reads are told apart by no transaction. -/
theorem applyTx_view {K : Primitives} {stx : SignedTransaction} (h : c.commit = d.commit)
    (hfee : c.state.baseFee = d.state.baseFee)
    (hcount : c.state.validatorCount = d.state.validatorCount) (hr : SameReads K c d stx) :
    outcomeView (applyTx K c stx) = outcomeView (applyTx K d stx) := by
  have hheight : c.currentHeight = d.currentHeight := by
    rw [BlockCtx.currentHeight_eq, BlockCtx.currentHeight_eq, h]
  unfold SameReads at hr
  simp only [applyTx, hheight]
  cases htx : stx.tx <;> rw [htx] at hr <;> simp only at hr ⊢
  case transfer => exact applyTransfer_view h hfee _ _ _ _ _
  case stakeOp => exact applyStakeOp_view h hcount _ _ _
  case receiptBatch => exact applyReceiptBatch_view K h hcount _ _
  case registerModel => exact applyRegisterModel_view h _ _ _ hr
  case govProposal => exact applyGovProposal_view h _ _ _ hr
  case govVote => exact applyGovVote_view h _ _ _ hr
  case dispute => exact applyDispute_view h _
  case escrowLock => exact applyEscrowLock_view h _ _ _ _ _ _ hr
  case escrowSettle => exact applyEscrowSettle_view h _ _ _ _ _ _ hr
  case rewardMint => exact applyRewardMint_view h _ _ _ _
  case registerTeeCapability => exact applyRegisterTee_view h _ _
  case registerGateway => exact applyRegisterGateway_view h _ _ _ _ _
  case unregisterGateway =>
    simp only [applyUnregisterGateway, outcomeView_applied, BlockCtx.deleteGateway_commit, h]

end

end Arknet.Chain
