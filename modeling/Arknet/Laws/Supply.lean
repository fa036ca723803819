import Arknet.Laws.Invariants

/-!
Where value is held, and what each step of a block does to the sum. The supply is the sum of five
columns; a write to one of them changes it by the new part minus the old part, so every step is a
balance of parts.
-/

namespace Arknet.Chain.State

/-! ## Measures -/

def balances (s : State) : Nat := s.accounts.total (fun _ a => a.balance.val)

def staked (s : State) : Nat := s.stakes.total (fun _ e => e.amount.val)

def unbonding (s : State) : Nat := s.unbondings.total (fun _ e => e.amount.val)

/-- What a record still holds for its user. -/
def lockedPart (e : EscrowEntry) : Nat := if e.state = .locked then e.amount.val else 0

def locked (s : State) : Nat := s.escrows.total (fun _ e => lockedPart e)

/-- A deposit is held until its proposal is resolved. -/
def depositPart (r : ProposalRecord) : Nat :=
  if r.phase = .discussion ∨ r.phase = .voting then r.proposal.deposit.val else 0

def heldDeposits (s : State) : Nat := s.proposals.total (fun _ r => depositPart r)

def supply (s : State) : Nat := s.balances + s.staked + s.unbonding + s.locked + s.heldDeposits

end Arknet.Chain.State

namespace Arknet.Laws

open Machine Store Arknet.Chain Arknet.Staking Arknet.Payments Arknet.Governance Arknet.Consensus

/-! ## One write -/

theorem balances_setAccount (ctx : BlockCtx) (a : Address) (x : Account) :
    (ctx.setAccount a x).commit.balances + (ctx.account a).balance.val =
      ctx.commit.balances + x.balance.val := by
  have h := Column.total_write ctx.commit.accounts (fun _ (a : Account) => a.balance.val) a x.stored
  have hold : Column.part (fun _ (a : Account) => a.balance.val) a (ctx.commit.accounts.get a) =
      (ctx.account a).balance.val := by
    rw [BlockCtx.account_eq]
    cases ctx.commit.accounts.get a <;> rfl
  have hnew : Column.part (fun _ (a : Account) => a.balance.val) a x.stored = x.balance.val := by
    conv_rhs => rw [← x.stored_getD]
    cases x.stored <;> rfl
  rw [hold, hnew] at h
  exact h

theorem staked_setStake (ctx : BlockCtx) (k : StakeKey) (e : StakeEntry) :
    (ctx.setStake k e).commit.staked + ((ctx.getStake k).elim 0 (fun e => e.amount.val)) =
      ctx.commit.staked + e.amount.val := by
  have h := Column.total_write ctx.commit.stakes (fun _ (e : StakeEntry) => e.amount.val) k e.stored
  have hold : Column.part (fun _ (e : StakeEntry) => e.amount.val) k (ctx.commit.stakes.get k) =
      (ctx.getStake k).elim 0 (fun e => e.amount.val) := by
    rw [BlockCtx.getStake_eq]
    cases ctx.commit.stakes.get k <;> rfl
  have hnew : Column.part (fun _ (e : StakeEntry) => e.amount.val) k e.stored = e.amount.val := by
    unfold StakeEntry.stored StakeEntry.isEmpty
    split
    · rename_i hz
      simp only [decide_eq_true_eq] at hz
      rw [hz]
      rfl
    · rfl
  rw [hold, hnew] at h
  exact h

theorem unbonding_write (s : State) (k : UnbondKey) (o : Option UnbondingEntry) :
    { s with unbondings := s.unbondings.write k o }.unbonding +
        (s.unbondings.get k).elim 0 (fun e => e.amount.val) =
      s.unbonding + o.elim 0 (fun e => e.amount.val) := by
  have h := Column.total_write s.unbondings (fun _ (e : UnbondingEntry) => e.amount.val) k o
  have hpart : ∀ p : Option UnbondingEntry,
      Column.part (fun _ (e : UnbondingEntry) => e.amount.val) k p = p.elim 0 (fun e => e.amount.val) := by
    intro p
    cases p <;> rfl
  rw [hpart, hpart] at h
  exact h

theorem locked_setEscrow (ctx : BlockCtx) (j : JobId) (e : EscrowEntry) :
    (ctx.setEscrow j e).commit.locked + (ctx.commit.escrows.get j).elim 0 State.lockedPart =
      ctx.commit.locked + State.lockedPart e := by
  have h := Column.total_write ctx.commit.escrows (fun _ e => State.lockedPart e) j (some e)
  have hold : Column.part (fun _ e => State.lockedPart e) j (ctx.commit.escrows.get j) =
      (ctx.commit.escrows.get j).elim 0 State.lockedPart := by
    cases ctx.commit.escrows.get j <;> rfl
  rw [hold] at h
  exact h

theorem heldDeposits_setProposal (ctx : BlockCtx) (i : U64) (r : ProposalRecord) :
    (ctx.setProposal i r).commit.heldDeposits + (ctx.commit.proposals.get i).elim 0 State.depositPart =
      ctx.commit.heldDeposits + State.depositPart r := by
  have h := Column.total_write ctx.commit.proposals (fun _ r => State.depositPart r) i (some r)
  have hold : Column.part (fun _ r => State.depositPart r) i (ctx.commit.proposals.get i) =
      (ctx.commit.proposals.get i).elim 0 State.depositPart := by
    cases ctx.commit.proposals.get i <;> rfl
  rw [hold] at h
  exact h

theorem balances_creditAddress (ctx : BlockCtx) (a : Address) (amount : Amount) :
    (ctx.creditAddress a amount).commit.balances ≤ ctx.commit.balances + amount.val := by
  have h := balances_setAccount ctx a
    { ctx.account a with balance := satAdd (ctx.account a).balance amount }
  have hle := satAdd_le (ctx.account a).balance amount
  simp only at h
  simp only [BlockCtx.creditAddress]
  omega

theorem balances_creditPositive (ctx : BlockCtx) (a : Address) (amount : Amount) :
    (ctx.creditPositive a amount).commit.balances ≤ ctx.commit.balances + amount.val := by
  unfold BlockCtx.creditPositive
  split
  · exact balances_creditAddress ctx a amount
  · omega

/-- A step that only moves account balances moves the supply by as much. -/
theorem supply_of_accounts {s t : State} {accounts : Column Address Account}
    (h : t = { s with accounts := accounts }) : t.supply + s.balances = s.supply + t.balances := by
  subst h
  simp only [State.supply, State.staked, State.unbonding, State.locked, State.heldDeposits]
  omega

theorem supply_creditPositive (ctx : BlockCtx) (a : Address) (amount : Amount) :
    (ctx.creditPositive a amount).commit.supply ≤ ctx.commit.supply + amount.val := by
  obtain ⟨accounts, h⟩ := ctx.creditPositive_commit a amount
  have h₁ := supply_of_accounts h
  have h₂ := balances_creditPositive ctx a amount
  omega

theorem supply_creditAddress (ctx : BlockCtx) (a : Address) (amount : Amount) :
    (ctx.creditAddress a amount).commit.supply ≤ ctx.commit.supply + amount.val := by
  have h₁ := supply_of_accounts (s := ctx.commit) (t := (ctx.creditAddress a amount).commit) rfl
  have h₂ := balances_creditAddress ctx a amount
  omega

/-! ## Transactions -/

theorem depositEntry_amount (o : Option StakeEntry) (k : StakeKey) (amount : Amount) (height : Height) :
    (depositEntry o k amount height).amount.val =
      min (o.elim 0 (fun e => e.amount.val) + amount.val) (2 ^ 128 - 1) := by
  cases o with
  | none =>
    have hfits := amount.isLt
    show amount.val = min (0 + amount.val) _
    omega
  | some e => exact satAdd_val _ _

/-- What an account, stake and unbonding columns hold together. -/
def stakeSupply (ctx : BlockCtx) : Nat := ctx.commit.balances + ctx.commit.staked + ctx.commit.unbonding

/-- What a saturated sum loses. -/
def spill (n : Nat) : Nat := n - min n (2 ^ 128 - 1)

theorem capped_add_spill (n : Nat) : min n (2 ^ 128 - 1) + spill n = n := by
  unfold spill
  omega

/-- What an applied operation loses: what a saturated sum does, or the entry that a withdrawal's new
unbonding entry replaces. -/
def lostBy (ctx : BlockCtx) (op : StakeOp) (sender : Address) : Nat :=
  match op with
  | .deposit nodeId role poolId amount delegator =>
    spill ((ctx.getStake ⟨nodeId, role, poolId, delegator⟩).elim 0 (fun e => e.amount.val) + amount.val)
  | .withdraw nodeId .. => (ctx.getUnbonding nodeId ctx.nextUnbondId).elim 0 fun e => e.amount.val
  | .complete nodeId _ _ unbondId => (ctx.getUnbonding nodeId unbondId).elim 0 fun e =>
    spill ((ctx.account (e.delegator.getD sender)).balance.val + e.amount.val)
  | .redelegate src dst role amount => (drawnEntry ctx src role none sender).elim 0 fun p =>
    spill ((ctx.getStake ⟨dst, role, none, p.1⟩).elim 0 (fun e => e.amount.val) + amount.val)

section

variable {ctx ctx' : BlockCtx} {sender : Address} {height : Height} {gas : Gas}

theorem applyDeposit_stakeSupply {nodeId : NodeId} {role : StakeRole} {poolId : Option PoolId}
    {amount : Amount} {delegator : Option Address}
    (h : applyDeposit ctx sender nodeId role poolId amount delegator height = .ok (ctx', .applied gas)) :
    stakeSupply ctx' + spill ((ctx.getStake ⟨nodeId, role, poolId, delegator⟩).elim 0
      (fun e => e.amount.val) + amount.val) = stakeSupply ctx := by
  rcases applyDeposit_ok h with ⟨-, ho⟩ | ⟨-, -, balance, hbal, rfl⟩
  · cases ho
  · have h₁ := balances_setAccount ctx sender { ctx.account sender with balance := balance }
    have h₂ := staked_setStake (ctx.setAccount sender { ctx.account sender with balance := balance })
      ⟨nodeId, role, poolId, delegator⟩ (depositEntry (ctx.getStake ⟨nodeId, role, poolId, delegator⟩)
        ⟨nodeId, role, poolId, delegator⟩ amount height)
    have hget : (ctx.setAccount sender { ctx.account sender with balance := balance }).getStake
      ⟨nodeId, role, poolId, delegator⟩ = ctx.getStake ⟨nodeId, role, poolId, delegator⟩ := rfl
    rw [hget, depositEntry_amount] at h₂
    have h₃ := capped_add_spill ((ctx.getStake ⟨nodeId, role, poolId, delegator⟩).elim 0
      (fun e => e.amount.val) + amount.val)
    simp only [stakeSupply, State.balances, State.staked, State.unbonding, BlockCtx.setStake_commit,
      BlockCtx.setAccount_commit] at h₁ h₂ ⊢
    omega

theorem applyWithdraw_stakeSupply {nodeId : NodeId} {role : StakeRole} {poolId : Option PoolId}
    {amount : Amount}
    (h : applyWithdraw ctx sender nodeId role poolId amount height = .ok (ctx', .applied gas)) :
    stakeSupply ctx' + (ctx.getUnbonding nodeId ctx.nextUnbondId).elim 0 (fun e => e.amount.val) =
      stakeSupply ctx := by
  rcases applyWithdraw_ok h with ⟨-, ho⟩ | ⟨-, k, entry, rest, completesAt, next, hk, hrest, -, -, rfl⟩
  · cases ho
  · have h₁ := staked_setStake ctx ⟨nodeId, role, poolId, k⟩ { entry with amount := rest }
    rw [(drawnEntry_eq_some hk).1] at h₁
    have h₂ := unbonding_write (ctx.setStake ⟨nodeId, role, poolId, k⟩ { entry with amount := rest }).commit
      ⟨nodeId, ctx.nextUnbondId⟩ (some ⟨ctx.nextUnbondId, nodeId, role, poolId, k, amount, height, completesAt⟩)
    have hget : (ctx.setStake ⟨nodeId, role, poolId, k⟩ { entry with amount := rest }).commit.unbondings.get
        ⟨nodeId, ctx.nextUnbondId⟩ = ctx.getUnbonding nodeId ctx.nextUnbondId := by
      rw [BlockCtx.getUnbonding_eq]
      rfl
    rw [hget] at h₂
    simp only [stakeSupply, State.balances, State.staked, State.unbonding, BlockCtx.setStake_commit,
      BlockCtx.setUnbonding_commit, BlockCtx.setNextUnbondId_commit, Option.elim_some] at h₁ h₂ ⊢
    omega

theorem applyComplete_stakeSupply {nodeId : NodeId} {unbondId : U64}
    (h : applyComplete ctx sender nodeId unbondId height = .ok (ctx', .applied gas)) :
    stakeSupply ctx' + (ctx.getUnbonding nodeId unbondId).elim 0 (fun e =>
      spill ((ctx.account (e.delegator.getD sender)).balance.val + e.amount.val)) = stakeSupply ctx := by
  rcases applyComplete_ok h with ⟨-, ho⟩ | ⟨-, entry, he, -, -, rfl⟩
  · cases ho
  · have h₁ := balances_setAccount ctx (entry.delegator.getD sender)
      { ctx.account (entry.delegator.getD sender) with
        balance := satAdd (ctx.account (entry.delegator.getD sender)).balance entry.amount }
    have h₂ := unbonding_write (ctx.creditAddress (entry.delegator.getD sender) entry.amount).commit
      ⟨nodeId, unbondId⟩ none
    have hget : (ctx.creditAddress (entry.delegator.getD sender) entry.amount).commit.unbondings.get
        ⟨nodeId, unbondId⟩ = some entry := by
      rw [← he, BlockCtx.getUnbonding_eq]
      rfl
    rw [hget] at h₂
    have h₃ := capped_add_spill ((ctx.account (entry.delegator.getD sender)).balance.val +
      entry.amount.val)
    simp only [satAdd_val] at h₁
    simp only [stakeSupply, he, State.balances, State.staked, State.unbonding, BlockCtx.creditAddress,
      BlockCtx.deleteUnbonding_commit, BlockCtx.setAccount_commit, Option.elim_some,
      Option.elim_none] at h₁ h₂ ⊢
    omega

theorem applyRedelegate_stakeSupply {src dst : NodeId} {role : StakeRole} {amount : Amount}
    (h : applyRedelegate ctx sender src dst role amount height = .ok (ctx', .applied gas)) :
    stakeSupply ctx' + (drawnEntry ctx src role none sender).elim 0 (fun p =>
      spill ((ctx.getStake ⟨dst, role, none, p.1⟩).elim 0 (fun e => e.amount.val) + amount.val)) =
      stakeSupply ctx := by
  rcases applyRedelegate_ok h with ⟨-, ho⟩ | ⟨-, hne, k, entry, rest, hk, hrest, rfl⟩
  · cases ho
  · have h₁ := staked_setStake ctx ⟨src, role, none, k⟩ { entry with amount := rest }
    rw [(drawnEntry_eq_some hk).1] at h₁
    have h₂ := staked_setStake (ctx.setStake ⟨src, role, none, k⟩ { entry with amount := rest })
      ⟨dst, role, none, k⟩ (depositEntry (ctx.getStake ⟨dst, role, none, k⟩) ⟨dst, role, none, k⟩
        amount height)
    have hget : (ctx.setStake ⟨src, role, none, k⟩ { entry with amount := rest }).getStake
        ⟨dst, role, none, k⟩ = ctx.getStake ⟨dst, role, none, k⟩ := by
      rw [BlockCtx.getStake_eq, BlockCtx.getStake_eq, BlockCtx.setStake_commit]
      exact Column.get_write_ne _ (by simpa using hne) _
    rw [hget, depositEntry_amount] at h₂
    have h₃ := capped_add_spill ((ctx.getStake ⟨dst, role, none, k⟩).elim 0 (fun e => e.amount.val) +
      amount.val)
    simp only [stakeSupply, hk, State.balances, State.staked, State.unbonding, BlockCtx.setStake_commit,
      Option.elim_some] at h₁ h₂ ⊢
    omega

/-- What leaves one column enters another, or is lost. -/
theorem applyStakeOp_stakeSupply {op : StakeOp}
    (h : applyStakeOp ctx op sender height = .ok (ctx', .applied gas)) :
    stakeSupply ctx' + lostBy ctx op sender = stakeSupply ctx := by
  cases op with
  | deposit nodeId role poolId amount delegator => exact applyDeposit_stakeSupply h
  | withdraw nodeId role poolId amount => exact applyWithdraw_stakeSupply h
  | complete nodeId role poolId unbondId => exact applyComplete_stakeSupply h
  | redelegate src dst role amount => exact applyRedelegate_stakeSupply h

end

/-- A stake operation adds nothing, and touches no escrow and no proposal. -/
theorem applyStakeOp_supply {ctx ctx' : BlockCtx} {op : StakeOp} {sender : Address} {height : Height}
    {o : TxOutcome} (h : applyStakeOp ctx op sender height = .ok (ctx', o)) :
    ctx'.commit.supply ≤ ctx.commit.supply := by
  cases o with
  | rejected reason =>
    rw [applyStakeOp_rejected h rfl]
  | applied gas =>
    have hsum := applyStakeOp_stakeSupply h
    obtain ⟨accounts, stakes, unbondings, next, hcommit⟩ := applyStakeOp_columns h
    rw [stakeSupply, stakeSupply, hcommit] at hsum
    rw [hcommit]
    simp only [State.supply, State.balances, State.staked, State.unbonding, State.locked,
      State.heldDeposits] at hsum ⊢
    omega

/-- A split credits at most its total. -/
theorem creditRewardSplit_supply {ctx ctx' : BlockCtx} {total : Amount}
    {computeAddr verifierAddr treasuryAddr : Address}
    (h : creditRewardSplit ctx total computeAddr verifierAddr treasuryAddr = .ok ctx') :
    ctx'.commit.supply ≤ ctx.commit.supply + total.val := by
  obtain ⟨c, v, t, hsum, rfl⟩ := creditRewardSplit_ok h
  have h₁ := supply_creditPositive ctx computeAddr c
  have h₂ := supply_creditPositive (ctx.creditPositive computeAddr c) verifierAddr v
  have h₃ := supply_creditPositive ((ctx.creditPositive computeAddr c).creditPositive verifierAddr v)
    treasuryAddr t
  omega

/-- The two ways a transaction credits without a debit are a positive reward mint, and a settlement
of an escrow that the same block has already settled. -/
def TxBacked (ctx : BlockCtx) (tx : Transaction) : Prop :=
  match tx with
  | .rewardMint _ totalReward .. => totalReward = 0
  | .escrowSettle jobId .. => ∀ e, ctx.state.escrows.get jobId = some e → e.state = .locked →
      ctx.commit.escrows.get jobId = some e
  | _ => True

theorem applyTx_supply {K : Primitives} {ctx ctx' : BlockCtx} {stx : SignedTransaction} {o : TxOutcome}
    (h : applyTx K ctx stx = .ok (ctx', o)) (hb : TxBacked ctx stx.tx) :
    ctx'.commit.supply ≤ ctx.commit.supply := by
  unfold applyTx at h
  split at h
  · rename_i src dst amount nonce fee _
    rcases applyTransfer_ok h with ⟨rfl, -⟩ | ⟨-, hne, -, balance, next, hbal, -, rfl⟩
    · exact Nat.le_refl _
    · have h₁ := balances_setAccount ctx src ⟨balance, next⟩
      have h₂ := balances_setAccount (ctx.setAccount src ⟨balance, next⟩) dst
        { ctx.account dst with balance := satAdd (ctx.account dst).balance amount }
      have h₃ := satAdd_le (ctx.account dst).balance amount
      have h₄ := supply_of_accounts (s := ctx.commit) (t := ((ctx.setAccount src ⟨balance, next⟩).setAccount
        dst { ctx.account dst with balance := satAdd (ctx.account dst).balance amount }).commit) rfl
      rw [BlockCtx.account_setAccount, if_neg hne] at h₂
      simp only at h₁ h₂ h₃ h₄ ⊢
      omega
  · exact applyStakeOp_supply h
  · obtain ⟨-, seen, rewards, hc⟩ := applyReceiptBatch_ok h
    rw [hc]
    exact Nat.le_refl _
  · rw [(applyDispute_ok h).1]
  · rename_i sender jobId amount nonce fee _
    rcases applyEscrowLock_ok h with ⟨rfl, -⟩ | ⟨-, -, -, -, balance, next, hbal, -, rfl⟩
    · exact Nat.le_refl _
    · have h₁ := balances_setAccount ctx sender ⟨balance, next⟩
      have h₂ := locked_setEscrow (ctx.setAccount sender ⟨balance, next⟩) jobId
        ⟨jobId, sender, amount, ctx.currentHeight.getD 0, .locked⟩
      have h₃ := le_satAdd amount (asAmount fee)
      have h₄ : State.lockedPart ⟨jobId, sender, amount, ctx.currentHeight.getD 0, .locked⟩ =
        amount.val := rfl
      simp only [State.supply, State.balances, State.staked, State.unbonding, State.locked,
        State.heldDeposits, BlockCtx.setEscrow_commit, BlockCtx.setAccount_commit] at h₁ h₂ ⊢
      omega
  · rename_i jobId _ computeAddr verifierAddr routerAddr treasuryAddr htx
    rw [htx] at hb
    rcases applyEscrowSettle_ok h with ⟨rfl, -⟩ | ⟨-, entry, credited, he, hlocked, hc, rfl⟩
    · exact Nat.le_refl _
    · have hbuf := hb entry he hlocked
      have h₁ := creditRewardSplit_supply hc
      obtain ⟨accounts, hacc⟩ := creditRewardSplit_commit hc
      have h₂ := locked_setEscrow (credited.setPendingReward jobId (settlementReward jobId entry.amount
        computeAddr verifierAddr routerAddr treasuryAddr (ctx.currentHeight.getD 0))) jobId
        { entry with state := .settled }
      have hget : (credited.setPendingReward jobId (settlementReward jobId entry.amount computeAddr
          verifierAddr routerAddr treasuryAddr (ctx.currentHeight.getD 0))).commit.escrows.get jobId =
          some entry := by
        rw [BlockCtx.setPendingReward_commit, hacc]
        exact hbuf
      have h₃ : State.lockedPart { entry with state := .settled } = 0 := rfl
      have h₄ : State.lockedPart entry = entry.amount.val := by simp [State.lockedPart, hlocked]
      rw [hget] at h₂
      simp only [State.supply, State.balances, State.staked, State.unbonding, State.locked,
        State.heldDeposits, BlockCtx.setEscrow_commit, BlockCtx.setPendingReward_commit,
        Option.elim_some] at h₁ h₂ ⊢
      omega
  · rename_i htx
    rw [htx] at hb
    rcases (applyRewardMint_ok h).2 with ⟨-, rfl⟩ | ⟨hne, -⟩
    · exact Nat.le_refl _
    · exact absurd hb hne
  · rename_i manifest registrar deposit _
    rcases applyRegisterModel_ok h with ⟨rfl, -⟩ | ⟨-, -, -, -, balance, hbal, rfl⟩
    · exact Nat.le_refl _
    · have h₁ := balances_setAccount ctx registrar { ctx.account registrar with balance := balance }
      simp only [State.supply, State.balances, State.staked, State.unbonding, State.locked,
        State.heldDeposits, BlockCtx.setModel_commit, BlockCtx.setAccount_commit] at h₁ ⊢
      omega
  · rename_i p _
    rcases applyGovProposal_ok h with ⟨rfl, -⟩ | ⟨-, -, balance, next, hbal, -, rfl⟩
    · exact Nat.le_refl _
    · have h₁ := balances_setAccount ctx (deriveAddressFromSigner K stx.signer)
        { ctx.account (deriveAddressFromSigner K stx.signer) with balance := balance }
      have h₂ := heldDeposits_setProposal (ctx.setAccount (deriveAddressFromSigner K stx.signer)
        { ctx.account (deriveAddressFromSigner K stx.signer) with balance := balance })
        ctx.state.nextProposalId ⟨p, .discussion, ctx.currentHeight.getD 0⟩
      have h₃ : State.depositPart ⟨p, .discussion, ctx.currentHeight.getD 0⟩ = p.deposit.val := rfl
      simp only [State.supply, State.balances, State.staked, State.unbonding, State.locked,
        State.heldDeposits, BlockCtx.setNextProposalId_commit, BlockCtx.setProposal_commit,
        BlockCtx.setAccount_commit] at h₁ h₂ ⊢
      omega
  · rcases applyGovVote_ok h with ⟨rfl, -⟩ | ⟨-, -, -, rfl⟩ <;> exact Nat.le_refl _
  · rcases applyRegisterTee_ok h with ⟨rfl, -⟩ | ⟨-, rfl⟩ <;> exact Nat.le_refl _
  · rcases applyRegisterGateway_ok h with ⟨rfl, -⟩ | ⟨-, rfl⟩ <;> exact Nat.le_refl _
  · rw [(applyUnregisterGateway_ok h).2]
    exact Nat.le_refl _

/-! ## Slashes -/

/-- What a slash writes back and credits is covered by what it overwrites. -/
def SlashBacked (ctx : BlockCtx) (node : NodeId) (role : StakeRole) (o : Offense) : Prop :=
  ((slashedStakes ctx.state node role o).map (fun e => (keeps o e.amount).val)).sum +
      ((slashedUnbondings ctx.state node role o).map (fun u => (keeps o u.amount).val)).sum +
      (reporterShare (slashTotal ctx.state node role o) + treasuryShare (slashTotal ctx.state node role o)) ≤
    ((slashedStakes ctx.state node role o).map (fun e => stakeAmount ctx.commit e.key)).sum +
      ((slashedUnbondings ctx.state node role o).map (fun u =>
        unbondingAmount ctx.commit ⟨node, u.unbondId⟩)).sum

section

variable {ctx : BlockCtx} {node : NodeId} {role : StakeRole} {o : Offense}

theorem staked_slashLoops (node : NodeId) (role : StakeRole) (o : Offense) (hk : Keyed ctx.state) :
    (slashLoops ctx node role o).ctx.commit.staked +
        ((slashedStakes ctx.state node role o).map (fun e => stakeAmount ctx.commit e.key)).sum =
      ctx.commit.staked +
        ((slashedStakes ctx.state node role o).map (fun e => (keeps o e.amount).val)).sum := by
  have h := Column.total_writeAll ctx.commit.stakes (fun _ (e : StakeEntry) => e.amount.val)
    (stakeWrites_distinct node role o hk)
  simp only [stakeWrites, List.map_map] at h
  have hold : (slashedStakes ctx.state node role o).map ((fun w : StakeKey × Option StakeEntry =>
      Column.part (fun _ (e : StakeEntry) => e.amount.val) w.1 (ctx.commit.stakes.get w.1)) ∘
        fun e => (e.key, StakeEntry.stored { e with amount := keeps o e.amount })) =
      (slashedStakes ctx.state node role o).map (fun e => stakeAmount ctx.commit e.key) := by
    refine List.map_congr_left (fun e _ => ?_)
    simp only [Function.comp_apply, stakeAmount]
    cases ctx.commit.stakes.get e.key <;> rfl
  have hnew : (slashedStakes ctx.state node role o).map ((fun w : StakeKey × Option StakeEntry =>
      Column.part (fun _ (e : StakeEntry) => e.amount.val) w.1 w.2) ∘
        fun e => (e.key, StakeEntry.stored { e with amount := keeps o e.amount })) =
      (slashedStakes ctx.state node role o).map (fun e => (keeps o e.amount).val) := by
    refine List.map_congr_left (fun e _ => ?_)
    by_cases hz : keeps o e.amount = 0
    · simp [StakeEntry.stored, StakeEntry.isEmpty, hz]
    · simp [StakeEntry.stored, StakeEntry.isEmpty, hz]
  rw [hold, hnew] at h
  unfold State.staked
  rw [slashLoops_commit]
  exact h

theorem unbonding_slashLoops (node : NodeId) (role : StakeRole) (o : Offense) (hk : Keyed ctx.state) :
    (slashLoops ctx node role o).ctx.commit.unbonding +
        ((slashedUnbondings ctx.state node role o).map (fun u =>
          unbondingAmount ctx.commit ⟨node, u.unbondId⟩)).sum =
      ctx.commit.unbonding +
        ((slashedUnbondings ctx.state node role o).map (fun u => (keeps o u.amount).val)).sum := by
  have h := Column.total_writeAll ctx.commit.unbondings (fun _ (u : UnbondingEntry) => u.amount.val)
    (unbondingWrites_distinct node role o hk)
  simp only [unbondingWrites, List.map_map] at h
  have hold : (slashedUnbondings ctx.state node role o).map ((fun w : UnbondKey × Option UnbondingEntry =>
      Column.part (fun _ (u : UnbondingEntry) => u.amount.val) w.1 (ctx.commit.unbondings.get w.1)) ∘
        fun u => (⟨node, u.unbondId⟩, some { u with amount := keeps o u.amount })) =
      (slashedUnbondings ctx.state node role o).map (fun u =>
        unbondingAmount ctx.commit ⟨node, u.unbondId⟩) := by
    refine List.map_congr_left (fun u _ => ?_)
    simp only [Function.comp_apply, unbondingAmount]
    cases ctx.commit.unbondings.get ⟨node, u.unbondId⟩ <;> rfl
  have hnew : (slashedUnbondings ctx.state node role o).map ((fun w : UnbondKey × Option UnbondingEntry =>
      Column.part (fun _ (u : UnbondingEntry) => u.amount.val) w.1 w.2) ∘
        fun u => (⟨node, u.unbondId⟩, some { u with amount := keeps o u.amount })) =
      (slashedUnbondings ctx.state node role o).map (fun u => (keeps o u.amount).val) := rfl
  rw [hold, hnew] at h
  unfold State.unbonding
  rw [slashLoops_commit]
  exact h

/-- A backed slash destroys value or moves it; it creates none. -/
theorem applySlash_supply (hk : Keyed ctx.state) {reporter treasury : Address} {ctx' : BlockCtx}
    {report : SlashReport} (h : applySlash ctx node role o reporter treasury = .ok (ctx', report))
    (hb : SlashBacked ctx node role o) : ctx'.commit.supply ≤ ctx.commit.supply := by
  obtain ⟨-, -, -, hr, ht, -, rfl⟩ := (applySlash_eq_ok ctx node role o reporter treasury _ _).mp h
  have h₁ := staked_slashLoops node role o hk
  have h₂ := unbonding_slashLoops node role o hk
  have h₃ := supply_creditPositive (slashLoops ctx node role o).ctx reporter report.toReporter
  have h₄ := supply_creditPositive ((slashLoops ctx node role o).ctx.creditPositive reporter
    report.toReporter) treasury report.toTreasury
  have h₅ : (slashLoops ctx node role o).ctx.commit.supply =
      ctx.commit.balances + (slashLoops ctx node role o).ctx.commit.staked +
        (slashLoops ctx node role o).ctx.commit.unbonding + ctx.commit.locked +
        ctx.commit.heldDeposits := by
    simp only [State.supply, State.balances, State.locked, State.heldDeposits, slashLoops_commit]
  unfold SlashBacked at hb
  have h₆ : ctx.commit.supply = ctx.commit.balances + ctx.commit.staked + ctx.commit.unbonding +
    ctx.commit.locked + ctx.commit.heldDeposits := rfl
  omega

end

/-! ## The mint -/

/-- A mint stays within its budget and counts what it mints. -/
theorem tryMint_within {e : EpochEmissionState} (amount : Amount) (h : e.minted.val ≤ e.budget.val) :
    (e.tryMint amount).2.minted.val = e.minted.val + (e.tryMint amount).1.val ∧
      (e.tryMint amount).2.minted.val ≤ (e.tryMint amount).2.budget.val ∧
      (e.tryMint amount).2.budget = e.budget := by
  have hle : (e.tryMint amount).1.val ≤ e.remaining.val := by
    simp only [EpochEmissionState.tryMint]
    exact Nat.le_trans (show _ ≤ _ from min_le_left (min amount e.remaining) _)
      (show _ ≤ _ from min_le_right amount e.remaining)
  have hrem : e.remaining.val = e.budget.val - e.minted.val := rfl
  have hlt := e.budget.isLt
  have hval : (e.tryMint amount).2.minted.val =
      min (e.minted.val + (e.tryMint amount).1.val) (2 ^ 128 - 1) := rfl
  have hbud : (e.tryMint amount).2.budget = e.budget := rfl
  rw [hbud]
  exact ⟨by omega, by omega, rfl⟩

theorem supply_creditAll (ctx : BlockCtx) (credits : List (Address × Amount)) :
    (creditAll ctx credits).commit.supply ≤ ctx.commit.supply + creditSum credits := by
  induction credits generalizing ctx with
  | nil => exact Nat.le_refl _
  | cons c credits ih =>
    have h₁ := supply_creditPositive ctx c.1 c.2
    have h₂ : (creditAll ctx (c :: credits)).commit.supply ≤
        (ctx.creditPositive c.1 c.2).commit.supply + creditSum credits := ih _
    have h₃ : creditSum (c :: credits) = c.2.val + creditSum credits := rfl
    omega

theorem distributeToDelegators_supply {ctx ctx' : BlockCtx} {computeAddr : Address}
    {delegatorTotal : Amount} (h : distributeToDelegators ctx computeAddr delegatorTotal = .ok ctx') :
    ctx'.commit.supply ≤ ctx.commit.supply + delegatorTotal.val := by
  obtain ⟨credits, rfl, hsum⟩ := distributeToDelegators_credits h
  rw [← hsum]
  exact supply_creditAll ctx credits

theorem payReward_supply {ctx ctx' : BlockCtx} {pr : PendingReward} {minted : Amount}
    (h : payReward ctx pr minted = .ok ctx') :
    ctx'.commit.supply ≤ ctx.commit.supply + minted.val := by
  obtain ⟨dist, paid, hsplit, hp, rfl⟩ := payReward_ok h
  obtain ⟨hsum, -⟩ := rewardSplit_ok hsplit
  have h₁ := supply_creditPositive ctx pr.computeAddr dist.compute
  have h₂ := supply_creditPositive (ctx.creditPositive pr.computeAddr dist.compute) pr.verifierAddr
    dist.verifier
  have h₃ := supply_creditPositive ((ctx.creditPositive pr.computeAddr dist.compute).creditPositive
    pr.verifierAddr dist.verifier) pr.treasuryAddr dist.treasury
  have h₄ := distributeToDelegators_supply hp
  have h₅ : (paid.deletePendingReward pr.jobId).commit.supply = paid.commit.supply := rfl
  omega

/-- What the mint loop keeps: the supply has grown by no more than was minted, within the budget. -/
structure MintInv (base : Nat) (budget : Amount) (acc : MintAcc) : Prop where
  supply : acc.ctx.commit.supply ≤ base + acc.totalMinted.val
  counted : acc.totalMinted.val = acc.emission.minted.val
  within : acc.emission.minted.val ≤ budget.val
  budget : acc.emission.budget = budget

theorem mintOne_inv {base : Nat} {budget perToken : Amount} {acc acc' : MintAcc} {pr : PendingReward}
    (hinv : MintInv base budget acc) (h : mintOne perToken acc pr = .ok acc') :
    MintInv base budget acc' := by
  obtain ⟨reward, -, hem, hcase⟩ := mintOne_ok h
  have hbud := hinv.budget
  obtain ⟨hcount, hwithin, hsame⟩ := @tryMint_within acc.emission reward
    (by rw [hbud]; exact hinv.within)
  have hsup := hinv.supply
  have hcnt := hinv.counted
  rw [hsame, hbud] at hwithin
  have hbl := budget.isLt
  rcases hcase with ⟨hz, hctx, htot⟩ | ⟨-, hp, htot⟩
  · rw [hz] at hcount
    have hzero : (0 : Amount).val = 0 := rfl
    exact ⟨by rw [hctx, htot]; exact hsup, by rw [htot, hem]; omega, by rw [hem]; exact hwithin,
      by rw [hem, hsame, hbud]⟩
  · have hpay := payReward_supply hp
    have hadd : acc'.totalMinted.val = acc.totalMinted.val + (acc.emission.tryMint reward).1.val := by
      rw [htot, satAdd_val]
      omega
    exact ⟨by omega, by rw [hem]; omega, by rw [hem]; exact hwithin, by rw [hem, hsame, hbud]⟩

theorem epochBoundaryMint_supply {ctx ctx' : BlockCtx} {endingEpoch : U64} {height : Height}
    {minted : Amount} (h : epochBoundaryMint ctx endingEpoch height = .ok (ctx', minted)) :
    ctx'.commit.supply ≤ ctx.commit.supply + minted.val ∧
      (minted.val = 0 ∨ ∃ budget, epochBudget (yearForHeight height) = .ok budget ∧
        minted.val ≤ budget.val) := by
  obtain ⟨rfl, rfl⟩ | ⟨budget, perToken, acc, hb, ha, rfl, rfl⟩ := epochBoundaryMint_ok h
  · exact ⟨Nat.le_add_right _ _, .inl rfl⟩
  · have hz : (0 : Amount).val = 0 := rfl
    have hinv := foldlM_invariant (MintInv ctx.commit.supply budget) _ _
      (fun _ _ _ _ hi hf => mintOne_inv hi hf)
      ⟨by simp only; omega, rfl, by simp only; omega, rfl⟩ ha
    have h₁ := hinv.counted
    have h₂ := hinv.within
    exact ⟨hinv.supply, .inr ⟨budget, hb, by omega⟩⟩

/-! ## Governance -/

/-- Resolving a proposal gives back at most the deposit its record held. -/
theorem advanceProposal_supply {bonded : Amount} {now : Timestamp} {ctx ctx' : BlockCtx} {id : U64}
    {record : ProposalRecord} (hget : ctx.commit.proposals.get id = some record)
    (h : advanceProposal bonded now ctx (id, record) = .ok ctx') :
    ctx'.commit.supply ≤ ctx.commit.supply := by
  obtain rfl | ⟨hphase, -, rfl⟩ | ⟨hphase, -, ⟨phase, hres, rfl⟩ | rfl⟩ := advanceProposal_ok h
  · exact Nat.le_refl _
  · have h₁ := heldDeposits_setProposal ctx id { record with phase := .voting }
    have h₂ : State.depositPart { record with phase := .voting } = State.depositPart record := by
      simp [State.depositPart, hphase]
    rw [hget] at h₁
    simp only [State.supply, State.balances, State.staked, State.unbonding, State.locked,
      State.heldDeposits, BlockCtx.setProposal_commit, Option.elim_some] at h₁ h₂ ⊢
    omega
  · have h₂ : State.depositPart record = record.proposal.deposit.val := by
      simp [State.depositPart, hphase]
    have h₃ : State.depositPart { record with phase := phase } = 0 := by
      rcases hres with rfl | rfl <;> simp [State.depositPart]
    have h₄ : (returnDeposit ctx record.proposal.proposer record.proposal.deposit).commit.supply ≤
        ctx.commit.supply + record.proposal.deposit.val := by
      unfold returnDeposit
      split
      · omega
      · exact supply_creditAddress _ _ _
    obtain ⟨accounts, ha⟩ := returnDeposit_commit ctx record.proposal.proposer record.proposal.deposit
    have h₁ := heldDeposits_setProposal
      (returnDeposit ctx record.proposal.proposer record.proposal.deposit) id { record with phase := phase }
    have hget' : (returnDeposit ctx record.proposal.proposer
        record.proposal.deposit).commit.proposals.get id = some record := by
      rw [ha]
      exact hget
    rw [hget'] at h₁
    simp only [State.supply, State.balances, State.staked, State.unbonding, State.locked,
      State.heldDeposits, BlockCtx.setProposal_commit, Option.elim_some] at h₁ h₄ ⊢
    omega
  · have h₁ := heldDeposits_setProposal ctx id { record with phase := .rejectedWithVeto }
    have h₂ : State.depositPart { record with phase := .rejectedWithVeto } = 0 := by
      simp [State.depositPart]
    rw [hget] at h₁
    simp only [State.supply, State.balances, State.staked, State.unbonding, State.locked,
      State.heldDeposits, BlockCtx.setProposal_commit, Option.elim_some] at h₁ h₂ ⊢
    omega

theorem advanceProposals_supply {bonded : Amount} {now : Timestamp}
    {items : List (U64 × ProposalRecord)} {ctx ctx' : BlockCtx}
    (hd : items.Pairwise (fun a b => a.1 < b.1))
    (hget : ∀ item ∈ items, ctx.commit.proposals.get item.1 = some item.2)
    (h : items.foldlM (advanceProposal bonded now) ctx = .ok ctx') :
    ctx'.commit.supply ≤ ctx.commit.supply := by
  induction items generalizing ctx with
  | nil =>
    simp only [List.foldlM_nil, pure_eq_ok] at h
    rw [h]
  | cons item items ih =>
    obtain ⟨hlt, hd⟩ := List.pairwise_cons.mp hd
    rw [List.foldlM_cons, bind_eq_ok] at h
    obtain ⟨mid, hmid, h⟩ := h
    have h₁ := advanceProposal_supply (hget item (by simp)) hmid
    have hkept : ∀ other ∈ items, mid.commit.proposals.get other.1 = some other.2 := by
      intro other hother
      have hsame := hget other (by simp [hother])
      obtain rfl | ⟨a, phase, ha⟩ := advanceProposal_commit hmid
      · exact hsame
      · rw [ha]
        simp only
        rw [Column.get_write_ne _ (ne_of_lt (hlt other hother))]
        exact hsame
    exact Nat.le_trans (ih hd hkept h) h₁

/-! ## A block -/

section

variable {K : Primitives}

/-- Each transaction is backed where it is applied. -/
def TxsBacked (K : Primitives) : BlockCtx → List SignedTransaction → Prop :=
  EachTx K (fun ctx stx => TxBacked ctx stx.tx)

/-- Each slash that is dispatched is backed where it runs. -/
def DispatchBacked (K : Primitives) : BlockCtx → List SignedTransaction → Prop :=
  Each (dispatchSlash K) (fun ctx stx => ∀ d, stx.tx = .dispute d →
    d.claimedOutputHash ≠ d.reexecOutputHash →
      SlashBacked ctx d.computeNode .compute .failedDeterministicVerification)

/-- No positive mint, no second settlement of an escrow, no slash that writes back more than it
finds. -/
def BlockBacked (K : Primitives) (s : State) (b : Block) : Prop :=
  TxsBacked K s.beginBlock b.txs ∧
    ∀ ctx os, applyTxs K s.beginBlock b.txs = .ok (ctx, os) → DispatchBacked K ctx b.txs

theorem applyTxs_supply {txs : List SignedTransaction} {ctx ctx' : BlockCtx} {os : List TxOutcome}
    (hb : TxsBacked K ctx txs) (h : applyTxs K ctx txs = .ok (ctx', os)) :
    ctx'.commit.supply ≤ ctx.commit.supply :=
  applyTxs_each (fun c => c.commit.supply ≤ ctx.commit.supply)
    (fun _ _ _ _ hback hc hstep => Nat.le_trans (applyTx_supply hstep hback) hc) hb (Nat.le_refl _) h

theorem dispatch_supply {txs : List SignedTransaction} {s : State} {ctx ctx' : BlockCtx}
    (hw : WellFormed s) (hs : ctx.state = s) (hb : DispatchBacked K ctx txs)
    (h : txs.foldlM (dispatchSlash K) ctx = .ok ctx') : ctx'.commit.supply ≤ ctx.commit.supply := by
  refine (foldlM_each (fun c => c.state = s ∧ c.commit.supply ≤ ctx.commit.supply) ?_ hb
    ⟨hs, Nat.le_refl _⟩ h).2
  rintro c c' stx hback ⟨hc, hle⟩ hstep
  refine ⟨(dispatchSlash_frame hstep).state.trans hc, ?_⟩
  rcases dispatchSlash_ok hstep with rfl | ⟨d, report, hd, hne, hsl⟩
  · exact hle
  · exact Nat.le_trans (applySlash_supply (hc ▸ hw.keyed) hsl (hback d hd hne)) hle

/-- The budget of the epoch that a boundary block pays out; no other block pays. -/
def WithinBudget (header : BlockHeader) (minted : Amount) : Prop :=
  minted.val = 0 ∨ (isEpochBoundary header.height = true ∧
    ∃ budget, epochBudget (yearForHeight header.height) = .ok budget ∧ minted.val ≤ budget.val)

theorem epochHooks_supply {s : State} {ctx ctx' : BlockCtx} {header : BlockHeader} {minted : Amount}
    (hw : WellFormed s) (hi : InBlock s ctx) (h : epochHooks ctx header = .ok (ctx', minted)) :
    ctx'.commit.supply ≤ ctx.commit.supply + minted.val ∧ WithinBudget header minted := by
  obtain ⟨-, rfl, rfl⟩ | ⟨hb, rotated, n, paid, h₁, h₂, h₃⟩ := epochHooks_ok h
  · exact ⟨Nat.le_add_right _ _, .inl rfl⟩
  · obtain ⟨v, hv⟩ := recomputeValidatorSet_commit h₁
    obtain ⟨x, y, hxy⟩ := epochBoundaryMint_commit h₂
    have hrot : rotated.commit.supply = ctx.commit.supply := by rw [hv]; rfl
    obtain ⟨hmint, hbudget⟩ := epochBoundaryMint_supply h₂
    have hstate : paid.state = s :=
      ((epochBoundaryMint_frame h₂).state.trans (recomputeValidatorSet_frame h₁).state).trans hi.state
    have hpr : paid.commit.proposals = ctx.commit.proposals := by rw [hxy, hv]
    have hgov : ctx'.commit.supply ≤ paid.commit.supply := by
      refine advanceProposals_supply (show paid.state.iterProposals.Pairwise _ from paid.state.proposals.sorted)
        ?_ h₃
      intro item hmem
      rw [hstate] at hmem
      have hget : s.proposals.get item.1 = some item.2 := Column.get_eq_some.mpr hmem
      have hne : item.1 ≠ s.nextProposalId := by
        intro heq
        have := hw.proposals item.1 item.2 hget
        rw [heq] at this
        omega
      rw [hpr, hi.proposals.kept item.1 hne]
      exact hget
    exact ⟨by omega, hbudget.imp_right (fun hx => ⟨hb, hx⟩)⟩

/-- A backed block adds at most what it mints, and it mints within the budget. -/
theorem replayBlock_supply {s : State} {b : Block} {r : Replay} (hw : WellFormed s)
    (hb : BlockBacked K s b) (h : replayBlock K s b = .ok r) :
    r.ctx.commit.supply ≤ s.supply + r.minted.val ∧ WithinBudget b.header r.minted := by
  obtain ⟨ctx₁, ctx₂, ctx₃, fee, h₁, h₂, h₃, hr⟩ := replayBlock_ok h
  obtain ⟨hi₁, hi₂⟩ := slashed_inBlock hw h₁ h₂
  have htx := applyTxs_supply hb.1 h₁
  have hsl := dispatch_supply hw hi₁.state (hb.2 ctx₁ r.outcomes h₁) h₂
  obtain ⟨hhook, hbudget⟩ := epochHooks_supply hw hi₂ h₃
  have hend : r.ctx.commit.supply = ctx₃.commit.supply := by rw [hr]; rfl
  have hbegin : s.beginBlock.commit.supply = s.supply := rfl
  exact ⟨by omega, hbudget⟩

theorem commits_supply {s s' : State} {b : Block} {r : Replay} (hw : WellFormed s)
    (hb : BlockBacked K s b) (h : Commits K s b r s') :
    s'.supply ≤ s.supply + r.minted.val ∧ WithinBudget b.header r.minted := by
  obtain ⟨blocks, idx, hp⟩ := persist_columns (K := K) r.ctx b
  have hsup : s'.supply = r.ctx.commit.supply := by rw [h.stored, hp]; rfl
  rw [hsup]
  exact replayBlock_supply hw hb h.replay

end

/-! ## The schedule adds up -/

/-- Annual emission in whole ARK, for every year. -/
def annualArk (year : Nat) : Nat :=
  if year < 16 then (ANNUAL_EMISSION_ARK.getD year 0).val else 12500000 / 2 ^ ((year - 12) / 4)

/-- Epoch budget in atoms, for every year. -/
def budgetAtoms (year : Nat) : Nat := annualArk year * 1000000000 / 8760

theorem annualArk_le (year : Nat) : annualArk year ≤ 120000000 := by
  unfold annualArk
  split
  · rename_i hy
    have htable : ∀ y < 16, (ANNUAL_EMISSION_ARK.getD y 0).val ≤ 120000000 := by decide
    exact htable _ hy
  · exact Nat.le_trans (Nat.div_le_self _ _) (by omega)

theorem epochBudget_val {year : U64} {budget : Amount} (h : epochBudget year = .ok budget) :
    budget.val = budgetAtoms year.val := by
  simp only [epochBudget, annualEmission, bind_eq_ok, pure_eq_ok, div_eq_ok] at h
  obtain ⟨annual, ⟨ark, hark, rfl⟩, -, hb⟩ := h
  have hlen : ANNUAL_EMISSION_ARK.length = 16 := rfl
  have hval : ark.val = annualArk year.val := by
    unfold annualEmissionArk at hark
    unfold annualArk
    rw [hlen] at hark
    split at hark
    · rename_i hy
      simp only [pure_eq_ok] at hark
      rw [if_pos hy, ← hark]
    · rename_i hy
      rw [shr_eq_ok] at hark
      have hlast : (ANNUAL_EMISSION_ARK.getLastD 0).val = 12500000 := rfl
      have hexp : (year.val - 16 + 4) / 4 = (year.val - 12) / 4 := by
        congr 1
        omega
      rw [if_neg hy, hark.2, hlast, hexp]
  have hsmall := annualArk_le year.val
  have hatoms : ATOMS_PER_ARK.val = 1000000000 := rfl
  have hepochs : (asAmount EPOCHS_PER_YEAR).val = 8760 := by decide
  rw [hb, hepochs, satMul_val, hval, hatoms]
  unfold budgetAtoms
  congr 1
  omega

theorem annualArk_tail (n : Nat) : annualArk (112 + n) = 0 := by
  unfold annualArk
  rw [if_neg (by omega)]
  apply Nat.div_eq_of_lt
  have hexp : 24 ≤ (112 + n - 12) / 4 := by omega
  calc 12500000 < 2 ^ 24 := by decide
    _ ≤ 2 ^ ((112 + n - 12) / 4) := Nat.pow_le_pow_right (by omega) hexp

def annualSum (years : Nat) : Nat := ((List.range years).map annualArk).sum

theorem annualSum_succ (n : Nat) : annualSum (n + 1) = annualSum n + annualArk n := by
  simp [annualSum, List.range_succ]

theorem annualSum_mono (n k : Nat) : annualSum n ≤ annualSum (n + k) := by
  induction k with
  | zero => exact Nat.le_refl _
  | succ k ih =>
    have := annualSum_succ (n + k)
    rw [← Nat.add_assoc]
    omega

theorem annualSum_tail (n : Nat) : annualSum (112 + n) = annualSum 112 := by
  induction n with
  | zero => rfl
  | succ n ih =>
    have h := annualSum_succ (112 + n)
    rw [annualArk_tail, ih] at h
    exact h

/-- The schedule emits at most 795 million ARK over all years. -/
theorem annualSum_le (n : Nat) : annualSum n ≤ 795000000 := by
  have h₁ := annualSum_mono n 112
  rw [Nat.add_comm, annualSum_tail] at h₁
  have h₂ : annualSum 112 ≤ 795000000 := by decide
  omega

/-- The budgets of the first `n` epoch boundaries; boundary `i + 1` falls in year `(i + 1) / 8760`. -/
def emitted : Nat → Nat
  | 0 => 0
  | n + 1 => emitted n + budgetAtoms ((n + 1) / 8760)

theorem emitted_mono (n k : Nat) : emitted n ≤ emitted (n + k) := by
  induction k with
  | zero => exact Nat.le_refl _
  | succ k ih =>
    rw [← Nat.add_assoc]
    exact Nat.le_trans ih (Nat.le_add_right _ _)

/-- The boundaries of a year take at most that year's emission. -/
theorem emitted_le (n : Nat) :
    emitted n ≤ annualSum (n / 8760) * 1000000000 + (n % 8760 + 1) * budgetAtoms (n / 8760) := by
  induction n with
  | zero => simp [emitted]
  | succ n ih =>
    have hbudget : 8760 * budgetAtoms (n / 8760) ≤ annualArk (n / 8760) * 1000000000 :=
      Nat.mul_div_le _ _
    simp only [emitted]
    by_cases hwrap : n % 8760 = 8759
    · have hdiv : (n + 1) / 8760 = n / 8760 + 1 := by omega
      have hmod : (n + 1) % 8760 = 0 := by omega
      rw [hwrap] at ih
      rw [hdiv, hmod, annualSum_succ, Nat.add_mul]
      omega
    · have hdiv : (n + 1) / 8760 = n / 8760 := by omega
      have hmod : (n + 1) % 8760 = n % 8760 + 1 := by omega
      rw [hdiv, hmod, Nat.add_mul (n % 8760 + 1) 1]
      omega

theorem emitted_le_cap (n : Nat) : emitted n ≤ TOTAL_SUPPLY_CAP.val := by
  have h₁ := emitted_le n
  have h₂ : (n % 8760 + 1) * budgetAtoms (n / 8760) ≤ annualArk (n / 8760) * 1000000000 :=
    Nat.le_trans (Nat.mul_le_mul_right _ (by omega)) (Nat.mul_div_le _ 8760)
  have h₃ := annualSum_succ (n / 8760)
  have h₄ := annualSum_le (n / 8760 + 1)
  have h₅ : TOTAL_SUPPLY_CAP.val = 1000000000000000000 := rfl
  rw [h₃] at h₄
  have h₆ := Nat.mul_le_mul_right 1000000000 h₄
  rw [Nat.add_mul] at h₆
  omega

/-! ## Runs -/

section

variable {K : Primitives}

/-- A run of backed blocks from the empty ledger. -/
inductive BackedRun (K : Primitives) : List (Block × Replay) → State → Prop where
  | nil : BackedRun K [] State.empty
  | snoc {hist : List (Block × Replay)} {s s' : State} {b : Block} {r : Replay}
      (run : BackedRun K hist s) (step : Commits K s b r s') (backed : BlockBacked K s b) :
      BackedRun K (hist ++ [(b, r)]) s'

theorem BackedRun.run {hist : List (Block × Replay)} {s : State} (h : BackedRun K hist s) :
    Run K State.empty hist s := by
  induction h with
  | nil => exact .nil
  | snoc _ step _ ih => exact .snoc ih step

/-- The heights of a run, from before the first block. -/
def heights (hist : List (Block × Replay)) : List Nat := 0 :: hist.map (fun e => e.1.header.height.val)

/-- Every block is higher than the ones before it. -/
def Rising (hist : List (Block × Replay)) : Prop := (heights hist).Pairwise (· < ·)

theorem rising_snoc {hist : List (Block × Replay)} {b : Block} {r : Replay}
    (h : Rising (hist ++ [(b, r)])) : Rising hist ∧ ∀ h' ∈ heights hist, h' < b.header.height.val := by
  have happ : heights (hist ++ [(b, r)]) = heights hist ++ [b.header.height.val] := by simp [heights]
  unfold Rising at h
  rw [happ, List.pairwise_append] at h
  exact ⟨h.1, fun h' hmem => h.2.2 h' hmem _ (by simp)⟩

/-- A year is 8760 epochs of 3600 blocks. -/
theorem yearForHeight_val (height : Height) :
    (yearForHeight height).val = height.val / 3600 / 8760 := by
  have hdef : (yearForHeight height).val = height.val / 31536000 := rfl
  rw [hdef, Nat.div_div_eq_div_mul]

/-- One more backed block keeps the supply under what the schedule has emitted by its height. -/
theorem emitted_step {s s' : State} {b : Block} {r : Replay} (hw : WellFormed s)
    (step : Commits K s b r s') (hb : BlockBacked K s b)
    (rising : (s.metaHeight.getD 0).val < b.header.height.val)
    (hs : s.supply ≤ emitted ((s.metaHeight.getD 0).val / 3600)) :
    s'.supply ≤ emitted (b.header.height.val / 3600) := by
  obtain ⟨hsup, hbudget⟩ := commits_supply hw hb step
  rcases hbudget with hz | ⟨hbound, budget, hbud, hle⟩
  · obtain ⟨k, hk⟩ := Nat.exists_eq_add_of_le (Nat.div_le_div_right (c := 3600) (Nat.le_of_lt rising))
    rw [hk]
    have := emitted_mono ((s.metaHeight.getD 0).val / 3600) k
    omega
  · simp only [isEpochBoundary, Bool.and_eq_true, decide_eq_true_eq] at hbound
    have hmod : b.header.height.val % 3600 = 0 := congrArg Fin.val hbound.2
    obtain ⟨k, hk⟩ : ∃ k, b.header.height.val / 3600 =
        (s.metaHeight.getD 0).val / 3600 + k + 1 := ⟨b.header.height.val / 3600 -
          (s.metaHeight.getD 0).val / 3600 - 1, by omega⟩
    have hmono := emitted_mono ((s.metaHeight.getD 0).val / 3600) k
    rw [epochBudget_val hbud, yearForHeight_val, hk] at hle
    rw [hk]
    simp only [emitted]
    omega

theorem height_mem {hist : List (Block × Replay)} {s : State} (h : BackedRun K hist s) :
    (s.metaHeight.getD 0).val ∈ heights hist := by
  cases h with
  | nil => exact List.mem_cons_self
  | snoc run step backed =>
    rw [commits_height step]
    simp [heights]

theorem backedRun_emitted {hist : List (Block × Replay)} {s : State} (h : BackedRun K hist s)
    (hr : Rising hist) : s.supply ≤ emitted ((s.metaHeight.getD 0).val / 3600) := by
  induction h with
  | nil => exact Nat.le_refl _
  | snoc run step backed ih =>
    obtain ⟨hr, hlt⟩ := rising_snoc hr
    rw [commits_height step]
    exact emitted_step (run_wellFormed run.run) step backed (hlt _ (height_mem run)) (ih hr)

/-- No unbacked money, in every state a backed run reaches: a block adds at most what its epoch mint
has minted, the mint stays within the epoch's budget, and while heights rise the supply stays under
the cap. -/
theorem supply_law {hist : List (Block × Replay)} {s s' : State} {b : Block} {r : Replay}
    (run : BackedRun K hist s) (step : Commits K s b r s') (backed : BlockBacked K s b) :
    s'.supply ≤ s.supply + r.minted.val ∧ WithinBudget b.header r.minted ∧
      (Rising (hist ++ [(b, r)]) → s'.supply ≤ TOTAL_SUPPLY_CAP.val) := by
  obtain ⟨h₁, h₂⟩ := commits_supply (run_wellFormed run.run) backed step
  exact ⟨h₁, h₂, fun hr => Nat.le_trans (backedRun_emitted (.snoc run step backed) hr) (emitted_le_cap _)⟩

end

/-- A free-tier receipt for ten tokens. -/
def freeReceipt : InferenceReceipt where
  jobId := 5
  poolId := 0
  modelId := ""
  modelHash := 0
  quantization := .f16
  userAddress := 7
  routerNode := 2
  computeNode := 1
  backupNode := none
  inputHash := 0
  outputHash := 0
  daReference := none
  inputTokenCount := 1
  outputTokenCount := 10
  latencyMs := 1
  totalTimeMs := 1
  seed := 0
  computeProof := .hashChain []
  teeAttestation := none
  verificationTier := .optimistic
  promptEncrypted := false
  timestampStart := 0
  timestampEnd := 0
  computeSignature := ⟨.ed25519, []⟩
  userSignature := ⟨.ed25519, []⟩

def freeBatch : SignedTransaction :=
  unsigned [] (.receiptBatch ⟨9, [freeReceipt], receiptMerkleRoot toyPrimitives [freeReceipt], 2,
    ⟨.ed25519, []⟩⟩)

/-- The block that anchors it, and what follows. -/
def freeBlock : Block := sealBlock toyPrimitives State.empty (bodyAt 1 [freeBatch])

set_option maxRecDepth 2000 in
theorem freeBlock_replays :
    (replayBlock toyPrimitives State.empty (bodyAt 1 [freeBatch])).toOption.isSome = true := by
  decide

def freeState : State := persist toyPrimitives (returned _ freeBlock_replays).ctx freeBlock

set_option maxRecDepth 2000 in
theorem mintBlock_replays :
    (replayBlock toyPrimitives freeState (bodyAt 3600 [])).toOption.isSome = true := by
  decide

set_option maxRecDepth 2000 in
/-- A receipt at height 1, its reward at the first epoch boundary. -/
theorem supply_law_first_epoch : ∃ b r s', Commits toyPrimitives freeState b r s' ∧
    0 < r.minted.val ∧ 0 < s'.supply ∧ s'.supply ≤ freeState.supply + r.minted.val ∧
    WithinBudget b.header r.minted ∧ s'.supply ≤ TOTAL_SUPPLY_CAP.val := by
  have step₁ : Commits toyPrimitives State.empty freeBlock (returned _ freeBlock_replays) freeState :=
    sealBlock_commits (eq_ok_returned freeBlock_replays)
  have backed₁ : BlockBacked toyPrimitives State.empty freeBlock := by
    unfold BlockBacked freeBlock
    rw [sealBlock_txs]
    exact ⟨⟨trivial, fun _ _ _ => trivial⟩, fun _ _ _ => ⟨fun d hd => (by cases hd), fun _ _ => trivial⟩⟩
  have step₂ := sealBlock_commits (eq_ok_returned mintBlock_replays)
  have backed₂ : BlockBacked toyPrimitives freeState
      (sealBlock toyPrimitives freeState (bodyAt 3600 [])) := by
    unfold BlockBacked
    rw [sealBlock_txs]
    exact ⟨trivial, fun _ _ _ => trivial⟩
  have law := supply_law (.snoc .nil step₁ backed₁) step₂ backed₂
  refine ⟨_, _, _, step₂, by decide, by decide, law.1, law.2.1, law.2.2 ?_⟩
  simp only [Rising, heights, freeBlock, List.nil_append, List.cons_append, List.map_cons, List.map_nil,
    sealBlock_height]
  decide

/-- A reward-mint transaction creates what nothing backs. -/
theorem reward_mint_unbacked : ∃ b r s', Run toyPrimitives State.empty [(b, r)] s' ∧
    r.minted.val = 0 ∧ State.empty.supply + r.minted.val < s'.supply := by
  have step := sealBlock_commits (K := toyPrimitives) (s := State.empty)
    (b := bodyAt 1 [unsigned [] (.rewardMint 5 1000 1 2 3 4 0)]) rfl
  exact ⟨_, _, _, .snoc .nil step, rfl, by decide⟩

end Arknet.Laws
