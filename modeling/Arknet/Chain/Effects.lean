import Arknet.Chain.Apply

/-!
What one transaction does to a context. Each handler either keeps the context and rejects, or
applies and leaves the context its lemma names, with the guards that let it through:

* `applyTransfer_ok`, `applyDeposit_ok`, ..., one lemma for each handler;
* `applyTx_state`: no transaction touches the committed store;
* `applyTx_rejected`: a rejected transaction other than a receipt batch keeps the context.
-/

namespace Arknet.Chain

open Machine Store

/-- The handler rejected and changed nothing. -/
def Kept (ctx ctx' : BlockCtx) (o : TxOutcome) : Prop := ctx' = ctx ∧ o.isApplied = false

theorem of_reject {ctx ctx' : BlockCtx} {r : RejectReason} {o : TxOutcome}
    (h : reject ctx r = .ok (ctx', o)) : Kept ctx ctx' o := by
  cases h
  exact ⟨rfl, rfl⟩

theorem of_applied {ctx ctx' : BlockCtx} {g : Gas} {o : TxOutcome}
    (h : applied ctx g = .ok (ctx', o)) : ctx' = ctx ∧ o = .applied g := by
  cases h
  exact ⟨rfl, rfl⟩

/-! ## Accounts -/

namespace BlockCtx

theorem account_eq (ctx : BlockCtx) (a : Address) :
    ctx.account a = (ctx.commit.accounts.get a).getD Account.zero := by
  rw [account, getAccount_eq]

theorem account_setAccount (ctx : BlockCtx) (a : Address) (x : Account) (b : Address) :
    (ctx.setAccount a x).account b = if a = b then x else ctx.account b := by
  rw [account_eq, account_eq, setAccount_commit, Column.get_write]
  split
  · exact x.stored_getD
  · rfl

theorem account_creditAddress (ctx : BlockCtx) (a : Address) (amount : Amount) (b : Address) :
    (ctx.creditAddress a amount).account b =
      if a = b then { ctx.account a with balance := satAdd (ctx.account a).balance amount }
      else ctx.account b := account_setAccount ctx a _ b

@[simp] theorem creditAddress_state (ctx : BlockCtx) (a : Address) (amount : Amount) :
    (ctx.creditAddress a amount).state = ctx.state := rfl

@[simp] theorem creditPositive_state (ctx : BlockCtx) (a : Address) (amount : Amount) :
    (ctx.creditPositive a amount).state = ctx.state := by
  unfold creditPositive
  split <;> rfl

/-- A credit writes one account and nothing else. -/
theorem creditPositive_commit (ctx : BlockCtx) (a : Address) (amount : Amount) :
    ∃ accounts, (ctx.creditPositive a amount).commit = { ctx.commit with accounts := accounts } := by
  unfold creditPositive
  split
  · exact ⟨_, rfl⟩
  · exact ⟨_, rfl⟩

/-- A credit never lowers a balance. -/
theorem balance_le_creditAddress (ctx : BlockCtx) (a : Address) (amount : Amount) (b : Address) :
    (ctx.account b).balance.val ≤ ((ctx.creditAddress a amount).account b).balance.val := by
  rw [account_creditAddress]
  split
  · rename_i h
    subst h
    exact le_satAdd _ _
  · exact Nat.le_refl _

end BlockCtx

/-! ## Transfers and stake -/

theorem applyTransfer_ok {ctx ctx' : BlockCtx} {src dst : Address} {amount : Amount} {nonce : Nonce}
    {fee : Gas} {o : TxOutcome} (h : applyTransfer ctx src dst amount nonce fee = .ok (ctx', o)) :
    Kept ctx ctx' o ∨
      (o = .applied fee ∧ src ≠ dst ∧ (ctx.account src).nonce = nonce ∧ ∃ balance next,
        balance.val + (amount.val + (satMul (asAmount fee) ctx.state.baseFee).val) =
          (ctx.account src).balance.val ∧
        next.val = nonce.val + 1 ∧
        ctx' = (ctx.setAccount src ⟨balance, next⟩).setAccount dst
          { ctx.account dst with balance := satAdd (ctx.account dst).balance amount }) := by
  simp only [applyTransfer] at h
  split at h
  · exact .inl (of_reject h)
  rename_i hne
  split at h
  · exact .inl (of_reject h)
  split at h
  · exact .inl (of_reject h)
  rename_i hnonce
  split at h
  · exact .inl (of_reject h)
  rename_i total htotal
  split at h
  · exact .inl (of_reject h)
  simp only [bind_eq_ok, sub_eq_ok, add_eq_ok] at h
  obtain ⟨balance, hbal, next, hnext, h⟩ := h
  obtain ⟨rfl, rfl⟩ := of_applied h
  rw [add_eq_ok] at htotal
  have hn : (ctx.account src).nonce = nonce := by simpa using hnonce
  exact .inr ⟨rfl, hne, hn, balance, next, by omega, by rw [hnext, hn]; rfl, rfl⟩

theorem applyDeposit_ok {ctx ctx' : BlockCtx} {sender : Address} {nodeId : NodeId} {role : StakeRole}
    {poolId : Option PoolId} {amount : Amount} {delegator : Option Address} {height : Height}
    {o : TxOutcome}
    (h : applyDeposit ctx sender nodeId role poolId amount delegator height = .ok (ctx', o)) :
    Kept ctx ctx' o ∨
      (o = .applied STAKE_OP_GAS ∧ (delegator = none ∨ delegator = some sender) ∧ ∃ balance,
        balance.val + amount.val = (ctx.account sender).balance.val ∧
        ctx' = (ctx.setAccount sender { ctx.account sender with balance := balance }).setStake
          ⟨nodeId, role, poolId, delegator⟩
          (depositEntry (ctx.getStake ⟨nodeId, role, poolId, delegator⟩)
            ⟨nodeId, role, poolId, delegator⟩ amount height)) := by
  simp only [applyDeposit] at h
  split at h
  · exact .inl (of_reject h)
  rename_i hdel
  split at h
  · exact .inl (of_reject h)
  split at h
  · exact .inl (of_reject h)
  simp only [bind_eq_ok, sub_eq_ok] at h
  obtain ⟨balance, hbal, h⟩ := h
  obtain ⟨rfl, rfl⟩ := of_applied h
  have hd : delegator = none ∨ delegator = some sender := by
    by_cases hn : delegator = none
    · exact .inl hn
    · exact .inr (by simpa [hn] using hdel)
  exact .inr ⟨rfl, hd, balance, hbal, rfl⟩

/-- The entry drawn on is the sender's own, or the one without a delegator when it has none. -/
theorem drawnEntry_eq_some {ctx : BlockCtx} {nodeId : NodeId} {role : StakeRole}
    {poolId : Option PoolId} {sender : Address} {k : Option Address} {e : StakeEntry}
    (h : drawnEntry ctx nodeId role poolId sender = some (k, e)) :
    ctx.getStake ⟨nodeId, role, poolId, k⟩ = some e ∧
      (k = some sender ∨ (k = none ∧ ctx.getStake ⟨nodeId, role, poolId, some sender⟩ = none)) := by
  unfold drawnEntry at h
  split at h
  · rename_i e' he
    cases h
    exact ⟨he, .inl rfl⟩
  · rename_i hnone
    split at h
    · rename_i e' he
      cases h
      exact ⟨he, .inr ⟨rfl, hnone⟩⟩
    · cases h

theorem applyWithdraw_ok {ctx ctx' : BlockCtx} {sender : Address} {nodeId : NodeId} {role : StakeRole}
    {poolId : Option PoolId} {amount : Amount} {height : Height} {o : TxOutcome}
    (h : applyWithdraw ctx sender nodeId role poolId amount height = .ok (ctx', o)) :
    Kept ctx ctx' o ∨
      (o = .applied STAKE_OP_GAS ∧ ∃ k entry rest completesAt next,
        drawnEntry ctx nodeId role poolId sender = some (k, entry) ∧
        rest.val + amount.val = entry.amount.val ∧
        completesAt.val = height.val + UNBONDING_PERIOD_BLOCKS.val ∧
        next.val = ctx.nextUnbondId.val + 1 ∧
        ctx' = ((ctx.setStake ⟨nodeId, role, poolId, k⟩ { entry with amount := rest }).setUnbonding
          nodeId ⟨ctx.nextUnbondId, nodeId, role, poolId, k, amount, height, completesAt⟩).setNextUnbondId
          next) := by
  simp only [applyWithdraw] at h
  split at h
  · exact .inl (of_reject h)
  rename_i k entry hk
  split at h
  · exact .inl (of_reject h)
  simp only [bind_eq_ok, sub_eq_ok, add_eq_ok] at h
  obtain ⟨rest, hrest, completesAt, hc, next, hnext, h⟩ := h
  obtain ⟨rfl, rfl⟩ := of_applied h
  exact .inr ⟨rfl, k, entry, rest, completesAt, next, hk, hrest, hc, hnext, rfl⟩

theorem applyComplete_ok {ctx ctx' : BlockCtx} {sender : Address} {nodeId : NodeId} {unbondId : U64}
    {height : Height} {o : TxOutcome}
    (h : applyComplete ctx sender nodeId unbondId height = .ok (ctx', o)) :
    Kept ctx ctx' o ∨
      (o = .applied STAKE_OP_GAS ∧ ∃ entry, ctx.getUnbonding nodeId unbondId = some entry ∧
        (entry.delegator = none ∨ entry.delegator = some sender) ∧
        entry.completesAt ≤ height ∧
        ctx' = (ctx.creditAddress (entry.delegator.getD sender) entry.amount).deleteUnbonding nodeId
          unbondId) := by
  simp only [applyComplete] at h
  split at h
  · exact .inl (of_reject h)
  rename_i entry he
  split at h
  · exact .inl (of_reject h)
  rename_i hdel
  split at h
  · exact .inl (of_reject h)
  rename_i hc
  obtain ⟨rfl, rfl⟩ := of_applied h
  have hd : entry.delegator = none ∨ entry.delegator = some sender := by
    by_cases hn : entry.delegator = none
    · exact .inl hn
    · exact .inr (by simpa [hn] using hdel)
  have hle : entry.completesAt ≤ height := by simpa [UnbondingEntry.isComplete] using hc
  exact .inr ⟨rfl, entry, he, hd, hle, rfl⟩

theorem applyRedelegate_ok {ctx ctx' : BlockCtx} {sender : Address} {src dst : NodeId}
    {role : StakeRole} {amount : Amount} {height : Height} {o : TxOutcome}
    (h : applyRedelegate ctx sender src dst role amount height = .ok (ctx', o)) :
    Kept ctx ctx' o ∨
      (o = .applied STAKE_OP_GAS ∧ src ≠ dst ∧ ∃ k entry rest,
        drawnEntry ctx src role none sender = some (k, entry) ∧
        rest.val + amount.val = entry.amount.val ∧
        ctx' = (ctx.setStake ⟨src, role, none, k⟩ { entry with amount := rest }).setStake
          ⟨dst, role, none, k⟩
          (depositEntry (ctx.getStake ⟨dst, role, none, k⟩) ⟨dst, role, none, k⟩ amount height)) := by
  simp only [applyRedelegate] at h
  split at h
  · exact .inl (of_reject h)
  rename_i hne
  split at h
  · exact .inl (of_reject h)
  rename_i k entry hk
  split at h
  · exact .inl (of_reject h)
  split at h
  · exact .inl (of_reject h)
  simp only [bind_eq_ok, sub_eq_ok] at h
  obtain ⟨rest, hrest, h⟩ := h
  obtain ⟨rfl, rfl⟩ := of_applied h
  have hget : (ctx.setStake ⟨src, role, none, k⟩ { entry with amount := rest }).getStake
      ⟨dst, role, none, k⟩ = ctx.getStake ⟨dst, role, none, k⟩ := by
    rw [BlockCtx.getStake_eq, BlockCtx.getStake_eq, BlockCtx.setStake_commit]
    exact Column.get_write_ne _ (by simpa using hne) _
  exact .inr ⟨rfl, hne, k, entry, rest, hk, hrest, by rw [hget]⟩

/-! ## Receipts and disputes -/

/-- The marks of a batch: only receipt marks change. -/
theorem markReceipts_commit (ctx : BlockCtx) (height : Height) (rs : List InferenceReceipt) :
    (markReceipts ctx height rs).1.state = ctx.state ∧
      ∃ seen, (markReceipts ctx height rs).1.commit = { ctx.commit with receiptsSeen := seen } := by
  induction rs generalizing ctx with
  | nil => exact ⟨rfl, _, rfl⟩
  | cons r rs ih =>
    simp only [markReceipts]
    split
    · exact ⟨rfl, _, rfl⟩
    · obtain ⟨hs, seen, hseen⟩ := ih (ctx.markReceiptSeen r.jobId height)
      exact ⟨hs, seen, hseen⟩

/-- The rewards a batch queues: only pending rewards change. -/
theorem queueRewards_commit (K : Primitives) (height : Height) (rs : List InferenceReceipt)
    (ctx : BlockCtx) :
    (rs.foldl (fun ctx r => ctx.setPendingReward r.jobId (bootstrapReward K height r)) ctx).state =
        ctx.state ∧
      ∃ rewards, (rs.foldl (fun ctx r =>
        ctx.setPendingReward r.jobId (bootstrapReward K height r)) ctx).commit =
          { ctx.commit with pendingRewards := rewards } := by
  induction rs generalizing ctx with
  | nil => exact ⟨rfl, _, rfl⟩
  | cons r rs ih =>
    obtain ⟨hs, rewards, hr⟩ := ih (ctx.setPendingReward r.jobId (bootstrapReward K height r))
    exact ⟨hs, rewards, hr⟩

/-- A receipt batch, applied or not, changes receipt marks and pending rewards only. -/
theorem applyReceiptBatch_ok {K : Primitives} {ctx ctx' : BlockCtx} {batch : ReceiptBatch}
    {height : Height} {o : TxOutcome} (h : applyReceiptBatch K ctx batch height = .ok (ctx', o)) :
    ctx'.state = ctx.state ∧ ∃ seen rewards,
      ctx'.commit = { ctx.commit with receiptsSeen := seen, pendingRewards := rewards } := by
  unfold applyReceiptBatch at h
  split at h
  · obtain ⟨rfl, -⟩ := of_reject h
    exact ⟨rfl, _, _, rfl⟩
  split at h
  · obtain ⟨rfl, -⟩ := of_reject h
    exact ⟨rfl, _, _, rfl⟩
  obtain ⟨hs, seen, hseen⟩ := markReceipts_commit ctx height batch.receipts
  split at h
  · rename_i ctx₁ job hm
    rw [hm] at hs hseen
    obtain ⟨rfl, -⟩ := of_reject h
    exact ⟨hs, seen, _, hseen⟩
  · rename_i ctx₁ hm
    rw [hm] at hs hseen
    obtain ⟨rfl, -⟩ := of_applied h
    split
    · obtain ⟨hs', rewards, hr⟩ := queueRewards_commit K height batch.receipts ctx₁
      exact ⟨hs'.trans hs, seen, rewards, by rw [hr, hseen]⟩
    · exact ⟨hs, seen, _, hseen⟩

theorem applyDispute_ok {ctx ctx' : BlockCtx} {d : Dispute} {o : TxOutcome}
    (h : applyDispute ctx d = .ok (ctx', o)) :
    ctx' = ctx ∧ (o.isApplied = false ∨
      (o = .applied DISPUTE_GAS ∧ d.claimedOutputHash ≠ d.reexecOutputHash ∧
        ctx.isReceiptSeen d.jobId = true)) := by
  unfold applyDispute at h
  split at h
  · exact ⟨(of_reject h).1, .inl (of_reject h).2⟩
  rename_i hne
  split at h
  · exact ⟨(of_reject h).1, .inl (of_reject h).2⟩
  rename_i hseen
  exact ⟨(of_applied h).1, .inr ⟨(of_applied h).2, hne, by simpa using hseen⟩⟩

/-! ## Escrow and rewards -/

/-- Five shares that add up to the total; the treasury's is what rounding leaves. -/
theorem rewardSplit_ok {total : Amount} {split : RewardSplit} (h : rewardSplit total = .ok split) :
    split.compute.val + split.verifier.val + split.burned.val + split.delegators.val +
      split.treasury.val = total.val ∧
    split.compute.val = total.val * 80 / 100 ∧ split.verifier.val = total.val * 7 / 100 ∧
    split.burned.val = total.val * 3 / 100 ∧ split.delegators.val = total.val * 5 / 100 := by
  simp only [rewardSplit, percentOf, bind_eq_ok, mul_eq_ok, div_eq_ok, sub_eq_ok, pure_eq_ok] at h
  obtain ⟨c, ⟨cp, hcp, -, hc⟩, v, ⟨vp, hvp, -, hv⟩, b, ⟨bp, hbp, -, hb⟩, d, ⟨dp, hdp, -, hd⟩,
    r₁, h₁, r₂, h₂, r₃, h₃, t, ht, rfl⟩ := h
  have e80 : (80 : Amount).val = 80 := rfl
  have e7 : (7 : Amount).val = 7 := rfl
  have e3 : (3 : Amount).val = 3 := rfl
  have e5 : (5 : Amount).val = 5 := rfl
  have e100 : (100 : Amount).val = 100 := rfl
  simp only [e80, e7, e3, e5, e100] at *
  rw [hcp] at hc
  rw [hvp] at hv
  rw [hbp] at hb
  rw [hdp] at hd
  exact ⟨by omega, hc, hv, hb, hd⟩

theorem creditRewardSplit_ok {ctx ctx' : BlockCtx} {total : Amount}
    {computeAddr verifierAddr treasuryAddr : Address}
    (h : creditRewardSplit ctx total computeAddr verifierAddr treasuryAddr = .ok ctx') :
    ∃ computeTotal verifier treasury : Amount,
      computeTotal.val + verifier.val + treasury.val + total.val * 3 / 100 = total.val ∧
      ctx' = ((ctx.creditPositive computeAddr computeTotal).creditPositive verifierAddr
        verifier).creditPositive treasuryAddr treasury := by
  simp only [creditRewardSplit, bind_eq_ok, add_eq_ok, pure_eq_ok] at h
  obtain ⟨split, hsplit, computeTotal, hct, rfl⟩ := h
  obtain ⟨hsum, -, -, hb, -⟩ := rewardSplit_ok hsplit
  exact ⟨computeTotal, split.verifier, split.treasury, by omega, rfl⟩

theorem applyEscrowLock_ok {ctx ctx' : BlockCtx} {sender : Address} {jobId : JobId} {amount : Amount}
    {nonce : Nonce} {fee : Gas} {height : Height} {o : TxOutcome}
    (h : applyEscrowLock ctx sender jobId amount nonce fee height = .ok (ctx', o)) :
    Kept ctx ctx' o ∨
      (o = .applied ESCROW_LOCK_GAS ∧ amount ≠ 0 ∧ ctx.state.escrows.get jobId = none ∧
        (ctx.account sender).nonce = nonce ∧ ∃ balance next,
        balance.val + (satAdd amount (asAmount fee)).val = (ctx.account sender).balance.val ∧
        next.val = nonce.val + 1 ∧
        ctx' = (ctx.setAccount sender ⟨balance, next⟩).setEscrow jobId
          ⟨jobId, sender, amount, height, .locked⟩) := by
  simp only [applyEscrowLock] at h
  split at h
  · exact .inl (of_reject h)
  rename_i hzero
  split at h
  · exact .inl (of_reject h)
  rename_i hdup
  split at h
  · exact .inl (of_reject h)
  rename_i hnonce
  split at h
  · exact .inl (of_reject h)
  simp only [bind_eq_ok, sub_eq_ok, add_eq_ok] at h
  obtain ⟨balance, hbal, next, hnext, h⟩ := h
  obtain ⟨rfl, rfl⟩ := of_applied h
  have hn : (ctx.account sender).nonce = nonce := by simpa using hnonce
  have hd : ctx.state.escrows.get jobId = none := by
    simpa [BlockCtx.getEscrow] using hdup
  exact .inr ⟨rfl, hzero, hd, hn, balance, next, hbal, by rw [hnext, hn]; rfl, rfl⟩

theorem applyEscrowSettle_ok {ctx ctx' : BlockCtx} {jobId : JobId}
    {computeAddr verifierAddr routerAddr treasuryAddr : Address} {height : Height} {o : TxOutcome}
    (h : applyEscrowSettle ctx jobId computeAddr verifierAddr routerAddr treasuryAddr height =
      .ok (ctx', o)) :
    Kept ctx ctx' o ∨
      (o = .applied ESCROW_SETTLE_GAS ∧ ∃ entry credited,
        ctx.state.escrows.get jobId = some entry ∧ entry.state = .locked ∧
        creditRewardSplit ctx entry.amount computeAddr verifierAddr treasuryAddr = .ok credited ∧
        ctx' = (credited.setPendingReward jobId (settlementReward jobId entry.amount computeAddr
          verifierAddr routerAddr treasuryAddr height)).setEscrow jobId
          { entry with state := .settled }) := by
  simp only [applyEscrowSettle] at h
  split at h
  · exact .inl (of_reject h)
  rename_i entry he
  split at h
  · exact .inl (of_reject h)
  rename_i hstate
  simp only [bind_eq_ok] at h
  obtain ⟨credited, hc, h⟩ := h
  obtain ⟨rfl, rfl⟩ := of_applied h
  exact .inr ⟨rfl, entry, credited, he, by simpa using hstate, hc, rfl⟩

theorem applyRewardMint_ok {ctx ctx' : BlockCtx} {totalReward : Amount}
    {computeAddr verifierAddr treasuryAddr : Address} {o : TxOutcome}
    (h : applyRewardMint ctx totalReward computeAddr verifierAddr treasuryAddr = .ok (ctx', o)) :
    o.isApplied = true ∧ ((totalReward = 0 ∧ ctx' = ctx) ∨
      (totalReward ≠ 0 ∧
        creditRewardSplit ctx totalReward computeAddr verifierAddr treasuryAddr = .ok ctx')) := by
  simp only [applyRewardMint] at h
  split at h
  · rename_i hz
    obtain ⟨rfl, rfl⟩ := of_applied h
    exact ⟨rfl, .inl ⟨hz, rfl⟩⟩
  · rename_i hz
    simp only [bind_eq_ok] at h
    obtain ⟨credited, hc, gasUsed, -, h⟩ := h
    obtain ⟨rfl, rfl⟩ := of_applied h
    exact ⟨rfl, .inr ⟨hz, hc⟩⟩

/-! ## Registries and governance -/

theorem applyRegisterModel_ok {ctx ctx' : BlockCtx} {manifest : OnChainModelManifest}
    {registrar : Address} {deposit : Amount} {o : TxOutcome}
    (h : applyRegisterModel ctx manifest registrar deposit = .ok (ctx', o)) :
    Kept ctx ctx' o ∨
      (o = .applied REGISTER_MODEL_GAS ∧ MODEL_DEPOSIT ≤ deposit ∧ manifest.modelId ≠ "" ∧
        ctx.state.models.get manifest.modelId = none ∧ ∃ balance,
        balance.val + deposit.val = (ctx.account registrar).balance.val ∧
        ctx' = (ctx.setAccount registrar { ctx.account registrar with balance := balance }).setModel
          manifest.modelId manifest) := by
  simp only [applyRegisterModel] at h
  split at h
  · exact .inl (of_reject h)
  rename_i hmin
  split at h
  · exact .inl (of_reject h)
  rename_i hid
  split at h
  · exact .inl (of_reject h)
  rename_i hdup
  split at h
  · exact .inl (of_reject h)
  simp only [bind_eq_ok, sub_eq_ok] at h
  obtain ⟨balance, hbal, h⟩ := h
  obtain ⟨rfl, rfl⟩ := of_applied h
  have hd : ctx.state.models.get manifest.modelId = none := by simpa [BlockCtx.getModel] using hdup
  exact .inr ⟨rfl, not_lt.mp hmin, hid, hd, balance, hbal, rfl⟩

theorem applyRegisterTee_ok {ctx ctx' : BlockCtx} {nodeId : NodeId} {capability : TeeCapability}
    {o : TxOutcome} (h : applyRegisterTee ctx nodeId capability = .ok (ctx', o)) :
    Kept ctx ctx' o ∨
      (o = .applied REGISTER_TEE_GAS ∧ ctx' = ctx.setTeeCapability nodeId capability) := by
  unfold applyRegisterTee at h
  split at h
  · exact .inl (of_reject h)
  split at h
  · exact .inl (of_reject h)
  split at h
  · exact .inl (of_reject h)
  · exact .inr ⟨(of_applied h).2, (of_applied h).1⟩

theorem applyRegisterGateway_ok {ctx ctx' : BlockCtx} {nodeId : NodeId} {operator : Address}
    {url : String} {https : Bool} {height : Height} {o : TxOutcome}
    (h : applyRegisterGateway ctx nodeId operator url https height = .ok (ctx', o)) :
    Kept ctx ctx' o ∨
      (o = .applied REGISTER_GATEWAY_GAS ∧
        ctx' = ctx.setGateway nodeId ⟨nodeId, operator, url, https, height⟩) := by
  unfold applyRegisterGateway at h
  split at h
  · exact .inl (of_reject h)
  split at h
  · exact .inl (of_reject h)
  split at h
  · exact .inl (of_reject h)
  · exact .inr ⟨(of_applied h).2, (of_applied h).1⟩

theorem applyUnregisterGateway_ok {ctx ctx' : BlockCtx} {nodeId : NodeId} {o : TxOutcome}
    (h : applyUnregisterGateway ctx nodeId = .ok (ctx', o)) :
    o = .applied UNREGISTER_GATEWAY_GAS ∧ ctx' = ctx.deleteGateway nodeId :=
  ⟨(of_applied h).2, (of_applied h).1⟩

theorem applyGovProposal_ok {ctx ctx' : BlockCtx} {sender : Address} {proposal : Proposal}
    {height : Height} {o : TxOutcome} (h : applyGovProposal ctx sender proposal height = .ok (ctx', o)) :
    Kept ctx ctx' o ∨
      (o = .applied GOV_PROPOSAL_GAS ∧ PROPOSAL_DEPOSIT ≤ proposal.deposit ∧ ∃ balance next,
        balance.val + proposal.deposit.val = (ctx.account sender).balance.val ∧
        next.val = ctx.state.nextProposalId.val + 1 ∧
        ctx' = ((ctx.setAccount sender { ctx.account sender with balance := balance }).setProposal
          ctx.state.nextProposalId ⟨proposal, .discussion, height⟩).setNextProposalId next) := by
  simp only [applyGovProposal] at h
  split at h
  · exact .inl (of_reject h)
  rename_i hmin
  split at h
  · exact .inl (of_reject h)
  simp only [bind_eq_ok, sub_eq_ok, add_eq_ok] at h
  obtain ⟨balance, hbal, next, hnext, h⟩ := h
  obtain ⟨rfl, rfl⟩ := of_applied h
  exact .inr ⟨rfl, not_lt.mp hmin, balance, next, hbal, hnext, rfl⟩

theorem applyGovVote_ok {ctx ctx' : BlockCtx} {proposalId : U64} {voter : Address}
    {choice : VoteChoice} {o : TxOutcome}
    (h : applyGovVote ctx proposalId voter choice = .ok (ctx', o)) :
    Kept ctx ctx' o ∨
      (o = .applied GOV_VOTE_GAS ∧
        (∃ record, ctx.state.proposals.get proposalId = some record ∧ record.phase = .voting) ∧
        ctx.state.votes.get ⟨proposalId, voter⟩ = none ∧
        ctx' = ctx.setVote ⟨proposalId, voter⟩ choice) := by
  unfold applyGovVote at h
  split at h
  · exact .inl (of_reject h)
  rename_i record hr
  split at h
  · exact .inl (of_reject h)
  rename_i hphase
  split at h
  · exact .inl (of_reject h)
  rename_i hvote
  have hv : ctx.state.votes.get ⟨proposalId, voter⟩ = none := by
    simpa [BlockCtx.getVote] using hvote
  exact .inr ⟨(of_applied h).2, ⟨record, hr, by simpa using hphase⟩, hv, (of_applied h).1⟩

/-! ## Any transaction -/

theorem creditRewardSplit_state {ctx ctx' : BlockCtx} {total : Amount}
    {computeAddr verifierAddr treasuryAddr : Address}
    (h : creditRewardSplit ctx total computeAddr verifierAddr treasuryAddr = .ok ctx') :
    ctx'.state = ctx.state := by
  obtain ⟨_, _, _, -, rfl⟩ := creditRewardSplit_ok h
  simp

/-- A split pays accounts and writes nothing else. -/
theorem creditRewardSplit_commit {ctx ctx' : BlockCtx} {total : Amount}
    {computeAddr verifierAddr treasuryAddr : Address}
    (h : creditRewardSplit ctx total computeAddr verifierAddr treasuryAddr = .ok ctx') :
    ∃ accounts, ctx'.commit = { ctx.commit with accounts := accounts } := by
  obtain ⟨c, v, t, -, rfl⟩ := creditRewardSplit_ok h
  obtain ⟨a₁, h₁⟩ := ctx.creditPositive_commit computeAddr c
  obtain ⟨a₂, h₂⟩ := (ctx.creditPositive computeAddr c).creditPositive_commit verifierAddr v
  obtain ⟨a₃, h₃⟩ := ((ctx.creditPositive computeAddr c).creditPositive verifierAddr
    v).creditPositive_commit treasuryAddr t
  exact ⟨a₃, by rw [h₃, h₂, h₁]⟩

theorem applyStakeOp_state {ctx ctx' : BlockCtx} {op : StakeOp} {sender : Address} {height : Height}
    {o : TxOutcome} (h : applyStakeOp ctx op sender height = .ok (ctx', o)) :
    ctx'.state = ctx.state := by
  cases op with
  | deposit nodeId role poolId amount delegator =>
    rcases applyDeposit_ok h with ⟨rfl, -⟩ | ⟨-, -, _, -, rfl⟩ <;> rfl
  | withdraw nodeId role poolId amount =>
    rcases applyWithdraw_ok h with ⟨rfl, -⟩ | ⟨-, _, _, _, _, _, -, -, -, -, rfl⟩ <;> rfl
  | complete nodeId role poolId unbondId =>
    rcases applyComplete_ok h with ⟨rfl, -⟩ | ⟨-, _, -, -, -, rfl⟩ <;> rfl
  | redelegate src dst role amount =>
    rcases applyRedelegate_ok h with ⟨rfl, -⟩ | ⟨-, -, _, _, _, -, -, rfl⟩ <;> rfl

theorem applyStakeOp_rejected {ctx ctx' : BlockCtx} {op : StakeOp} {sender : Address} {height : Height}
    {o : TxOutcome} (h : applyStakeOp ctx op sender height = .ok (ctx', o)) (ho : o.isApplied = false) :
    ctx' = ctx := by
  cases op with
  | deposit nodeId role poolId amount delegator =>
    rcases applyDeposit_ok h with ⟨rfl, -⟩ | ⟨rfl, -⟩
    · rfl
    · cases ho
  | withdraw nodeId role poolId amount =>
    rcases applyWithdraw_ok h with ⟨rfl, -⟩ | ⟨rfl, -⟩
    · rfl
    · cases ho
  | complete nodeId role poolId unbondId =>
    rcases applyComplete_ok h with ⟨rfl, -⟩ | ⟨rfl, -⟩
    · rfl
    · cases ho
  | redelegate src dst role amount =>
    rcases applyRedelegate_ok h with ⟨rfl, -⟩ | ⟨rfl, -⟩
    · rfl
    · cases ho

section

variable {K : Primitives} {ctx ctx' : BlockCtx} {stx : SignedTransaction} {o : TxOutcome}

/-- A transaction writes to the buffer only. -/
theorem applyTx_state (h : applyTx K ctx stx = .ok (ctx', o)) : ctx'.state = ctx.state := by
  unfold applyTx at h
  split at h
  · rcases applyTransfer_ok h with ⟨rfl, -⟩ | ⟨-, -, -, _, _, -, -, rfl⟩ <;> rfl
  · exact applyStakeOp_state h
  · exact (applyReceiptBatch_ok h).1
  · rw [(applyDispute_ok h).1]
  · rcases applyEscrowLock_ok h with ⟨rfl, -⟩ | ⟨-, -, -, -, _, _, -, -, rfl⟩ <;> rfl
  · rcases applyEscrowSettle_ok h with ⟨rfl, -⟩ | ⟨-, _, _, -, -, hc, rfl⟩
    · rfl
    · simpa using creditRewardSplit_state hc
  · rcases (applyRewardMint_ok h).2 with ⟨-, rfl⟩ | ⟨-, hc⟩
    · rfl
    · exact creditRewardSplit_state hc
  · rcases applyRegisterModel_ok h with ⟨rfl, -⟩ | ⟨-, -, -, -, _, -, rfl⟩ <;> rfl
  · rcases applyGovProposal_ok h with ⟨rfl, -⟩ | ⟨-, -, _, _, -, -, rfl⟩ <;> rfl
  · rcases applyGovVote_ok h with ⟨rfl, -⟩ | ⟨-, -, -, rfl⟩ <;> rfl
  · rcases applyRegisterTee_ok h with ⟨rfl, -⟩ | ⟨-, rfl⟩ <;> rfl
  · rcases applyRegisterGateway_ok h with ⟨rfl, -⟩ | ⟨-, rfl⟩ <;> rfl
  · rw [(applyUnregisterGateway_ok h).2]
    rfl

/-- Rejection keeps the context, except that a receipt batch may leave marks behind. -/
theorem applyTx_rejected (h : applyTx K ctx stx = .ok (ctx', o)) (ho : o.isApplied = false) :
    ctx' = ctx ∨ ∃ batch, stx.tx = .receiptBatch batch := by
  unfold applyTx at h
  split at h
  · rcases applyTransfer_ok h with ⟨rfl, -⟩ | ⟨rfl, -⟩
    · exact .inl rfl
    · cases ho
  · exact .inl (applyStakeOp_rejected h ho)
  · rename_i batch heq
    exact .inr ⟨batch, heq⟩
  · exact .inl (applyDispute_ok h).1
  · rcases applyEscrowLock_ok h with ⟨rfl, -⟩ | ⟨rfl, -⟩
    · exact .inl rfl
    · cases ho
  · rcases applyEscrowSettle_ok h with ⟨rfl, -⟩ | ⟨rfl, -⟩
    · exact .inl rfl
    · cases ho
  · rw [(applyRewardMint_ok h).1] at ho
    cases ho
  · rcases applyRegisterModel_ok h with ⟨rfl, -⟩ | ⟨rfl, -⟩
    · exact .inl rfl
    · cases ho
  · rcases applyGovProposal_ok h with ⟨rfl, -⟩ | ⟨rfl, -⟩
    · exact .inl rfl
    · cases ho
  · rcases applyGovVote_ok h with ⟨rfl, -⟩ | ⟨rfl, -⟩
    · exact .inl rfl
    · cases ho
  · rcases applyRegisterTee_ok h with ⟨rfl, -⟩ | ⟨rfl, -⟩
    · exact .inl rfl
    · cases ho
  · rcases applyRegisterGateway_ok h with ⟨rfl, -⟩ | ⟨rfl, -⟩
    · exact .inl rfl
    · cases ho
  · rw [(applyUnregisterGateway_ok h).1] at ho
    cases ho

end

/-! ## Columns written -/

theorem applyStakeOp_columns {ctx ctx' : BlockCtx} {op : StakeOp} {sender : Address} {height : Height}
    {o : TxOutcome} (h : applyStakeOp ctx op sender height = .ok (ctx', o)) :
    ∃ accounts stakes unbondings next, ctx'.commit = { ctx.commit with
      accounts := accounts, stakes := stakes, unbondings := unbondings, metaUnbondId := next } := by
  cases op with
  | deposit nodeId role poolId amount delegator =>
    rcases applyDeposit_ok h with ⟨rfl, -⟩ | ⟨-, -, _, -, rfl⟩ <;> exact ⟨_, _, _, _, rfl⟩
  | withdraw nodeId role poolId amount =>
    rcases applyWithdraw_ok h with ⟨rfl, -⟩ | ⟨-, _, _, _, _, _, -, -, -, -, rfl⟩ <;>
      exact ⟨_, _, _, _, rfl⟩
  | complete nodeId role poolId unbondId =>
    rcases applyComplete_ok h with ⟨rfl, -⟩ | ⟨-, _, -, -, -, rfl⟩ <;> exact ⟨_, _, _, _, rfl⟩
  | redelegate src dst role amount =>
    rcases applyRedelegate_ok h with ⟨rfl, -⟩ | ⟨-, -, _, _, _, -, -, rfl⟩ <;> exact ⟨_, _, _, _, rfl⟩

/-- The columns each kind of transaction may write. -/
def WritesOnly (tx : Transaction) (s s' : State) : Prop :=
  match tx with
  | .transfer .. => ∃ accounts, s' = { s with accounts := accounts }
  | .stakeOp _ => ∃ accounts stakes unbondings next, s' = { s with
      accounts := accounts, stakes := stakes, unbondings := unbondings, metaUnbondId := next }
  | .receiptBatch _ => ∃ seen rewards, s' = { s with receiptsSeen := seen, pendingRewards := rewards }
  | .dispute _ => s' = s
  | .escrowLock .. => ∃ accounts escrows, s' = { s with accounts := accounts, escrows := escrows }
  | .escrowSettle .. => ∃ accounts rewards escrows,
      s' = { s with accounts := accounts, pendingRewards := rewards, escrows := escrows }
  | .rewardMint .. => ∃ accounts, s' = { s with accounts := accounts }
  | .registerModel .. => ∃ accounts models, s' = { s with accounts := accounts, models := models }
  | .govProposal _ => ∃ accounts proposals next,
      s' = { s with accounts := accounts, proposals := proposals, metaProposalId := next }
  | .govVote .. => ∃ votes, s' = { s with votes := votes }
  | .registerTeeCapability .. => ∃ tee, s' = { s with tee := tee }
  | .registerGateway .. => ∃ gateways, s' = { s with gateways := gateways }
  | .unregisterGateway .. => ∃ gateways, s' = { s with gateways := gateways }

theorem applyTx_writesOnly {K : Primitives} {ctx ctx' : BlockCtx} {stx : SignedTransaction}
    {o : TxOutcome} (h : applyTx K ctx stx = .ok (ctx', o)) :
    WritesOnly stx.tx ctx.commit ctx'.commit := by
  unfold applyTx at h
  split at h <;> rename_i htx <;> rw [htx]
  · rcases applyTransfer_ok h with ⟨rfl, -⟩ | ⟨-, -, -, _, _, -, -, rfl⟩ <;> exact ⟨_, rfl⟩
  · exact applyStakeOp_columns h
  · exact (applyReceiptBatch_ok h).2
  · rw [(applyDispute_ok h).1]
    rfl
  · rcases applyEscrowLock_ok h with ⟨rfl, -⟩ | ⟨-, -, -, -, _, _, -, -, rfl⟩ <;> exact ⟨_, _, rfl⟩
  · rename_i jobId _ computeAddr verifierAddr routerAddr treasuryAddr
    rcases applyEscrowSettle_ok h with ⟨rfl, -⟩ | ⟨-, entry, credited, -, -, hc, rfl⟩
    · exact ⟨_, _, _, rfl⟩
    · obtain ⟨accounts, hacc⟩ := creditRewardSplit_commit hc
      refine ⟨accounts, ctx.commit.pendingRewards.write jobId (some (settlementReward jobId entry.amount
        computeAddr verifierAddr routerAddr treasuryAddr (ctx.currentHeight.getD 0))),
        ctx.commit.escrows.write jobId (some { entry with state := .settled }), ?_⟩
      rw [BlockCtx.setEscrow_commit, BlockCtx.setPendingReward_commit, hacc]
  · rcases (applyRewardMint_ok h).2 with ⟨-, rfl⟩ | ⟨-, hc⟩
    · exact ⟨_, rfl⟩
    · exact creditRewardSplit_commit hc
  · rcases applyRegisterModel_ok h with ⟨rfl, -⟩ | ⟨-, -, -, -, _, -, rfl⟩ <;> exact ⟨_, _, rfl⟩
  · rcases applyGovProposal_ok h with ⟨rfl, -⟩ | ⟨-, -, _, _, -, -, rfl⟩ <;> exact ⟨_, _, _, rfl⟩
  · rcases applyGovVote_ok h with ⟨rfl, -⟩ | ⟨-, -, -, rfl⟩ <;> exact ⟨_, rfl⟩
  · rcases applyRegisterTee_ok h with ⟨rfl, -⟩ | ⟨-, rfl⟩ <;> exact ⟨_, rfl⟩
  · rcases applyRegisterGateway_ok h with ⟨rfl, -⟩ | ⟨-, rfl⟩ <;> exact ⟨_, rfl⟩
  · rw [(applyUnregisterGateway_ok h).2]
    exact ⟨_, rfl⟩

/-- The columns a transaction leaves alone. -/
structure ColumnFrame (tx : Transaction) (s s' : State) : Prop where
  validators : s'.validators = s.validators
  metaBaseFee : s'.metaBaseFee = s.metaBaseFee
  stakes : (∀ op, tx ≠ .stakeOp op) →
    s'.stakes = s.stakes ∧ s'.unbondings = s.unbondings ∧ s'.metaUnbondId = s.metaUnbondId
  escrows : (∀ src jobId amount nonce fee, tx ≠ .escrowLock src jobId amount nonce fee) →
    (∀ jobId batchId computeAddr verifierAddr routerAddr treasuryAddr,
      tx ≠ .escrowSettle jobId batchId computeAddr verifierAddr routerAddr treasuryAddr) →
    s'.escrows = s.escrows
  proposals : (∀ p, tx ≠ .govProposal p) →
    s'.proposals = s.proposals ∧ s'.metaProposalId = s.metaProposalId
  votes : (∀ id voter choice, tx ≠ .govVote id voter choice) → s'.votes = s.votes
  tee : (∀ node operator capability, tx ≠ .registerTeeCapability node operator capability) →
    s'.tee = s.tee
  gateways : (∀ node operator url https, tx ≠ .registerGateway node operator url https) →
    (∀ node operator, tx ≠ .unregisterGateway node operator) → s'.gateways = s.gateways

theorem WritesOnly.frame {tx : Transaction} {s s' : State} (h : WritesOnly tx s s') :
    ColumnFrame tx s s' := by
  cases tx <;> simp only [WritesOnly] at h
  case dispute =>
    subst h
    constructor <;> simp
  case stakeOp =>
    obtain ⟨_, _, _, _, rfl⟩ := h
    constructor <;> simp
  case registerGateway =>
    obtain ⟨_, rfl⟩ := h
    constructor
    case gateways => exact fun hne _ => absurd rfl (hne _ _ _ _)
    all_goals simp
  all_goals obtain ⟨_, _, _, rfl⟩ := h
  all_goals constructor <;> simp

/-- Receipt marks are a batch's. -/
theorem WritesOnly.receiptsSeen {tx : Transaction} {s s' : State} (h : WritesOnly tx s s')
    (hne : ∀ batch, tx ≠ .receiptBatch batch) : s'.receiptsSeen = s.receiptsSeen := by
  cases tx <;> simp only [WritesOnly] at h
  case receiptBatch batch => exact absurd rfl (hne batch)
  case dispute => rw [h]
  case stakeOp =>
    obtain ⟨_, _, _, _, rfl⟩ := h
    rfl
  all_goals
    obtain ⟨_, _, _, rfl⟩ := h
    rfl

/-- Models are registered by registrations. -/
theorem WritesOnly.models {tx : Transaction} {s s' : State} (h : WritesOnly tx s s')
    (hne : ∀ manifest registrar deposit, tx ≠ .registerModel manifest registrar deposit) :
    s'.models = s.models := by
  cases tx <;> simp only [WritesOnly] at h
  case registerModel manifest registrar deposit => exact absurd rfl (hne manifest registrar deposit)
  case dispute => rw [h]
  case stakeOp =>
    obtain ⟨_, _, _, _, rfl⟩ := h
    rfl
  all_goals
    obtain ⟨_, _, _, rfl⟩ := h
    rfl

/-- No transaction moves the height. -/
theorem WritesOnly.metaHeight {tx : Transaction} {s s' : State} (h : WritesOnly tx s s') :
    s'.metaHeight = s.metaHeight := by
  cases tx <;> simp only [WritesOnly] at h
  case dispute => rw [h]
  case stakeOp =>
    obtain ⟨_, _, _, _, rfl⟩ := h
    rfl
  all_goals
    obtain ⟨_, _, _, rfl⟩ := h
    rfl

/-- Rewards are queued by batches and settlements. -/
theorem WritesOnly.pendingRewards {tx : Transaction} {s s' : State} (h : WritesOnly tx s s')
    (hbatch : ∀ batch, tx ≠ .receiptBatch batch)
    (hsettle : ∀ jobId batchId computeAddr verifierAddr routerAddr treasuryAddr,
      tx ≠ .escrowSettle jobId batchId computeAddr verifierAddr routerAddr treasuryAddr) :
    s'.pendingRewards = s.pendingRewards := by
  cases tx <;> simp only [WritesOnly] at h
  case receiptBatch batch => exact absurd rfl (hbatch batch)
  case escrowSettle => exact absurd rfl (hsettle _ _ _ _ _ _)
  case dispute => rw [h]
  case stakeOp =>
    obtain ⟨_, _, _, _, rfl⟩ := h
    rfl
  all_goals
    obtain ⟨_, _, _, rfl⟩ := h
    rfl

theorem applyTx_frame {K : Primitives} {ctx ctx' : BlockCtx} {stx : SignedTransaction} {o : TxOutcome}
    (h : applyTx K ctx stx = .ok (ctx', o)) : ColumnFrame stx.tx ctx.commit ctx'.commit :=
  (applyTx_writesOnly h).frame

/-! ## Lists of transactions -/

section

variable {K : Primitives}

theorem applyTxs_cons_ok {ctx ctx' : BlockCtx} {stx : SignedTransaction} {rest : List SignedTransaction}
    {outcomes : List TxOutcome} :
    applyTxs K ctx (stx :: rest) = .ok (ctx', outcomes) ↔
      ∃ mid o os, applyTx K ctx stx = .ok (mid, o) ∧ applyTxs K mid rest = .ok (ctx', os) ∧
        outcomes = o :: os := by
  simp only [applyTxs, bind_eq_ok, pure_eq_ok, Prod.exists, Prod.mk.injEq]
  constructor
  · rintro ⟨mid, o, h₁, c, os, h₂, rfl, rfl⟩
    exact ⟨mid, o, os, h₁, h₂, rfl⟩
  · rintro ⟨mid, o, os, h₁, h₂, rfl⟩
    exact ⟨mid, o, h₁, ctx', os, h₂, rfl, rfl⟩

theorem applyTxs_nil_ok {ctx ctx' : BlockCtx} {outcomes : List TxOutcome} :
    applyTxs K ctx [] = .ok (ctx', outcomes) ↔ ctx' = ctx ∧ outcomes = [] := by
  simp only [applyTxs, pure_eq_ok, Prod.mk.injEq]
  exact ⟨fun h => ⟨h.1.symm, h.2.symm⟩, fun h => ⟨h.1.symm, h.2.symm⟩⟩

/-- What every transaction of a list preserves, the list preserves. The step may use that the
transaction is in the list and that the committed store has not changed. -/
theorem applyTxs_invariant {P : BlockCtx → Prop} {s : State} {txs : List SignedTransaction}
    {ctx ctx' : BlockCtx} {outcomes : List TxOutcome}
    (step : ∀ c c' stx o, stx ∈ txs → c.state = s → P c → applyTx K c stx = .ok (c', o) → P c')
    (hs : ctx.state = s) (h0 : P ctx) (h : applyTxs K ctx txs = .ok (ctx', outcomes)) :
    ctx'.state = s ∧ P ctx' := by
  induction txs generalizing ctx outcomes with
  | nil =>
    obtain ⟨rfl, -⟩ := applyTxs_nil_ok.mp h
    exact ⟨hs, h0⟩
  | cons stx rest ih =>
    obtain ⟨mid, o, os, h₁, h₂, -⟩ := applyTxs_cons_ok.mp h
    exact ih (fun c c' t o ht => step c c' t o (by simp [ht])) ((applyTx_state h₁).trans hs)
      (step ctx mid stx o (by simp) hs h0 h₁) h₂

/-- `P` holds of each transaction in the context that applies it. -/
def EachTx (K : Primitives) (P : BlockCtx → SignedTransaction → Prop) :
    BlockCtx → List SignedTransaction → Prop
  | _, [] => True
  | ctx, stx :: rest => P ctx stx ∧
      ∀ ctx' o, applyTx K ctx stx = .ok (ctx', o) → EachTx K P ctx' rest

theorem applyTxs_each {P : BlockCtx → SignedTransaction → Prop} (Q : BlockCtx → Prop)
    {txs : List SignedTransaction} {ctx ctx' : BlockCtx} {outcomes : List TxOutcome}
    (step : ∀ c c' stx o, P c stx → Q c → applyTx K c stx = .ok (c', o) → Q c')
    (hp : EachTx K P ctx txs) (h0 : Q ctx) (h : applyTxs K ctx txs = .ok (ctx', outcomes)) :
    Q ctx' := by
  induction txs generalizing ctx outcomes with
  | nil =>
    obtain ⟨rfl, -⟩ := applyTxs_nil_ok.mp h
    exact h0
  | cons stx rest ih =>
    obtain ⟨mid, o, os, h₁, h₂, -⟩ := applyTxs_cons_ok.mp h
    exact ih (hp.2 mid o h₁) (step ctx mid stx o hp.1 h0 h₁) h₂

/-- Every transaction of a list that returns is applied in a context over the same store. -/
theorem applyTxs_mem {txs : List SignedTransaction} {ctx ctx' : BlockCtx} {outcomes : List TxOutcome}
    (h : applyTxs K ctx txs = .ok (ctx', outcomes)) {p : SignedTransaction × TxOutcome}
    (hp : p ∈ txs.zip outcomes) : ∃ c c', c.state = ctx.state ∧ applyTx K c p.1 = .ok (c', p.2) := by
  induction txs generalizing ctx outcomes with
  | nil => simp at hp
  | cons stx rest ih =>
    obtain ⟨mid, o, os, h₁, h₂, rfl⟩ := applyTxs_cons_ok.mp h
    rcases List.mem_cons.mp hp with rfl | hp
    · exact ⟨ctx, mid, rfl, h₁⟩
    · obtain ⟨c, c', hc, hstep⟩ := ih h₂ hp
      exact ⟨c, c', hc.trans (applyTx_state h₁), hstep⟩

theorem EachTx.of_mem {P : BlockCtx → SignedTransaction → Prop} {txs : List SignedTransaction}
    {ctx ctx' : BlockCtx} {outcomes : List TxOutcome} (hp : EachTx K P ctx txs)
    (h : applyTxs K ctx txs = .ok (ctx', outcomes)) {stx : SignedTransaction} (hmem : stx ∈ txs) :
    ∃ c c' o, c.state = ctx.state ∧ applyTx K c stx = .ok (c', o) ∧ P c stx := by
  induction txs generalizing ctx outcomes with
  | nil => simp at hmem
  | cons head rest ih =>
    obtain ⟨mid, o, os, h₁, h₂, -⟩ := applyTxs_cons_ok.mp h
    rcases List.mem_cons.mp hmem with rfl | hmem
    · exact ⟨ctx, mid, o, rfl, h₁, hp.1⟩
    · obtain ⟨c, c', o', hc, hstep, hP⟩ := ih (hp.2 mid o h₁) h₂ hmem
      exact ⟨c, c', o', hc.trans (applyTx_state h₁), hstep, hP⟩

theorem eachTx_of_forall {P : BlockCtx → SignedTransaction → Prop} {s : State}
    {txs : List SignedTransaction} {ctx : BlockCtx} (hs : ctx.state = s)
    (h : ∀ c stx, c.state = s → stx ∈ txs → P c stx) : EachTx K P ctx txs := by
  induction txs generalizing ctx with
  | nil => trivial
  | cons stx rest ih =>
    exact ⟨h ctx stx hs (by simp), fun mid o h₁ =>
      ih ((applyTx_state h₁).trans hs) (fun c t hc ht => h c t hc (by simp [ht]))⟩

theorem applyTxs_state {txs : List SignedTransaction} {ctx ctx' : BlockCtx}
    {outcomes : List TxOutcome} (h : applyTxs K ctx txs = .ok (ctx', outcomes)) :
    ctx'.state = ctx.state :=
  (applyTxs_invariant (P := fun _ => True) (fun _ _ _ _ _ _ _ _ => trivial) rfl trivial h).1

theorem applyTxs_append_ok {xs ys : List SignedTransaction} {ctx ctx' : BlockCtx}
    {outcomes : List TxOutcome} :
    applyTxs K ctx (xs ++ ys) = .ok (ctx', outcomes) ↔
      ∃ mid os ps, applyTxs K ctx xs = .ok (mid, os) ∧ applyTxs K mid ys = .ok (ctx', ps) ∧
        outcomes = os ++ ps := by
  induction xs generalizing ctx outcomes with
  | nil =>
    simp only [List.nil_append, applyTxs_nil_ok]
    constructor
    · intro h
      exact ⟨ctx, [], outcomes, ⟨rfl, rfl⟩, h, rfl⟩
    · rintro ⟨mid, os, ps, ⟨rfl, rfl⟩, h, rfl⟩
      exact h
  | cons x xs ih =>
    simp only [List.cons_append, applyTxs_cons_ok, ih]
    constructor
    · rintro ⟨m₁, o, _, h₁, ⟨mid, os, ps, h₂, h₃, rfl⟩, rfl⟩
      exact ⟨mid, o :: os, ps, ⟨m₁, o, os, h₁, h₂, rfl⟩, h₃, rfl⟩
    · rintro ⟨mid, _, ps, ⟨m₁, o, os, h₁, h₂, rfl⟩, h₃, rfl⟩
      exact ⟨m₁, o, os ++ ps, h₁, ⟨mid, os, ps, h₂, h₃, rfl⟩, rfl⟩

theorem length_outcomes {txs : List SignedTransaction} {ctx ctx' : BlockCtx}
    {outcomes : List TxOutcome} (h : applyTxs K ctx txs = .ok (ctx', outcomes)) :
    outcomes.length = txs.length := by
  induction txs generalizing ctx outcomes with
  | nil => simp [(applyTxs_nil_ok.mp h).2]
  | cons stx rest ih =>
    obtain ⟨mid, o, os, -, h₂, rfl⟩ := applyTxs_cons_ok.mp h
    simp [ih h₂]

end

end Arknet.Chain
