import Arknet.Laws.Escrow

/-!
What a settlement rests on. It names a receipt batch and the addresses it pays; the code reads
neither the batch nor the receipts, so whoever submits a settlement of a Locked escrow decides who is
paid. The rule that only anchored work is paid holds of the runs that settle nothing.
-/

namespace Arknet.Laws

open Machine Store Arknet.Chain Arknet.Staking Arknet.Payments Arknet.Governance Arknet.Consensus

section

variable (K : Primitives)

/-- Among `past` is the batch with this id; it holds a receipt for the job, and the receipt's compute
node has this address. -/
def Anchored (past : List SignedTransaction) (jobId : JobId) (batchId : Hash256)
    (computeAddr : Address) : Prop :=
  ∃ stx ∈ past, ∃ batch, stx.tx = .receiptBatch batch ∧ batch.batchId = batchId ∧
    ∃ r ∈ batch.receipts, r.jobId = jobId ∧ nodeIdToAddress K r.computeNode = computeAddr

/-- A settlement that is applied here is paid to the addresses that any other settlement of the job
would have to name here. -/
def AddressesFixed (ctx : BlockCtx) (stx : SignedTransaction) : Prop :=
  ∀ jobId batchId computeAddr verifierAddr routerAddr treasuryAddr,
    stx.tx = .escrowSettle jobId batchId computeAddr verifierAddr routerAddr treasuryAddr →
    ∀ ctx' o, applyTx K ctx stx = .ok (ctx', o) → o.isApplied = true →
    ∀ stx₂ batchId₂ computeAddr₂ verifierAddr₂ routerAddr₂ treasuryAddr₂,
      stx₂.tx = .escrowSettle jobId batchId₂ computeAddr₂ verifierAddr₂ routerAddr₂ treasuryAddr₂ →
      ∀ ctx₂ o₂, applyTx K ctx stx₂ = .ok (ctx₂, o₂) → o₂.isApplied = true →
        computeAddr₂ = computeAddr ∧ verifierAddr₂ = verifierAddr ∧ treasuryAddr₂ = treasuryAddr

/-- Over a run: every applied settlement follows the applied batch it names, pays the compute node of
its receipt, and could not have been submitted with other addresses. -/
structure SettlementLaw (hist : List (Block × Replay)) : Prop where
  anchored : ∀ past stx rest, appliedOf hist = past ++ stx :: rest →
    ∀ jobId batchId computeAddr verifierAddr routerAddr treasuryAddr,
      stx.tx = .escrowSettle jobId batchId computeAddr verifierAddr routerAddr treasuryAddr →
        Anchored K past jobId batchId computeAddr
  fixed : ∀ p ∈ hist, EachTx K (AddressesFixed K) p.2.ctx.state.beginBlock p.1.txs

end

/-- No block of the run carries a settlement of an escrow that was Locked before the block. -/
def NothingSettled (hist : List (Block × Replay)) : Prop :=
  ∀ p ∈ hist, ∀ stx ∈ p.1.txs, ∀ jobId batchId computeAddr verifierAddr routerAddr treasuryAddr,
    stx.tx = .escrowSettle jobId batchId computeAddr verifierAddr routerAddr treasuryAddr →
      ∀ e, p.2.ctx.state.escrows.get jobId = some e → e.state ≠ .locked

section

variable {K : Primitives} {ctx ctx' : BlockCtx} {stx : SignedTransaction} {o : TxOutcome}
  {jobId : JobId} {batchId : Hash256} {computeAddr verifierAddr routerAddr treasuryAddr : Address}

/-- Who is paid plays no part in whether a split can be credited. -/
theorem creditRewardSplit_any {credited : BlockCtx} {total : Amount}
    (h : creditRewardSplit ctx total computeAddr verifierAddr treasuryAddr = .ok credited)
    (a b c : Address) : ∃ credited', creditRewardSplit ctx total a b c = .ok credited' := by
  simp only [creditRewardSplit, bind_eq_ok] at h
  obtain ⟨split, hsplit, computeTotal, htotal, -⟩ := h
  simp only [creditRewardSplit, hsplit, htotal, ok_bind]
  exact ⟨_, rfl⟩

/-- Where one settlement of a job is applied, every other one is, whoever signs it and whatever batch
and addresses it names. -/
theorem settle_any (htx : stx.tx = .escrowSettle jobId batchId computeAddr verifierAddr routerAddr treasuryAddr)
    (h : applyTx K ctx stx = .ok (ctx', o)) (ho : o.isApplied = true) (stx₂ : SignedTransaction)
    {batchId₂ : Hash256} {a b c d : Address} (htx₂ : stx₂.tx = .escrowSettle jobId batchId₂ a b c d) :
    ∃ ctx₂ o₂, applyTx K ctx stx₂ = .ok (ctx₂, o₂) ∧ o₂.isApplied = true := by
  simp only [applyTx, htx] at h
  simp only [applyTx, htx₂]
  rcases applyEscrowSettle_ok h with ⟨-, hno⟩ | ⟨-, entry, credited, hget, hlocked, hc, -⟩
  · rw [hno] at ho
    cases ho
  · obtain ⟨credited', hc'⟩ := creditRewardSplit_any hc a b d
    have hget' : ctx.getEscrow jobId = some entry := hget
    simp only [applyEscrowSettle, hget', hlocked, ne_eq, not_true_eq_false, ↓reduceIte, hc', ok_bind]
    exact ⟨_, _, rfl, rfl⟩

theorem exists_other (a : Address) : ∃ b : Address, b ≠ a := by
  by_cases h : a = 0
  · exact ⟨1, by rw [h]; decide⟩
  · exact ⟨0, fun h' => h h'.symm⟩

/-- No applied settlement has its addresses fixed. -/
theorem not_addressesFixed
    (htx : stx.tx = .escrowSettle jobId batchId computeAddr verifierAddr routerAddr treasuryAddr)
    (h : applyTx K ctx stx = .ok (ctx', o)) (ho : o.isApplied = true) : ¬ AddressesFixed K ctx stx := by
  intro hfix
  obtain ⟨other, hne⟩ := exists_other computeAddr
  obtain ⟨ctx₂, o₂, h₂, ho₂⟩ := settle_any htx h ho
    (unsigned [] (.escrowSettle jobId batchId other verifierAddr routerAddr treasuryAddr)) rfl
  exact hne (hfix _ _ _ _ _ _ htx ctx' o h ho _ _ _ _ _ _ rfl ctx₂ o₂ h₂ ho₂).1

/-- A settlement in a block is applied exactly when it finds its escrow Locked in the committed store. -/
theorem settlement_applied_iff
    (htx : stx.tx = .escrowSettle jobId batchId computeAddr verifierAddr routerAddr treasuryAddr)
    (h : applyTx K ctx stx = .ok (ctx', o)) :
    o.isApplied = true ↔ ∃ e, ctx.state.escrows.get jobId = some e ∧ e.state = .locked := by
  simp only [applyTx, htx] at h
  exact settle_applied_iff h

/-- A committed run pays settlements for anchored work only, to addresses its submitters could not
choose, exactly when it applies none. -/
theorem settlement_law {s t : State} {hist : List (Block × Replay)} (run : Run K s hist t) :
    SettlementLaw K hist ↔ NothingSettled hist := by
  constructor
  · intro h p hp stx hstx jobId batchId computeAddr verifierAddr routerAddr treasuryAddr htx e hget hlocked
    obtain ⟨u, u', step⟩ := run_step run hp
    obtain ⟨hs, ctx, htxs, -⟩ := commits_txs step
    have hfixed := h.fixed p hp
    rw [hs] at hfixed hget
    obtain ⟨c, c', o, hc, hstep, hfix⟩ := hfixed.of_mem htxs hstx
    rw [State.beginBlock_state] at hc
    have ho := (settlement_applied_iff htx hstep).mpr ⟨e, by rw [hc]; exact hget, hlocked⟩
    exact not_addressesFixed htx hstep ho hfix
  · intro h
    constructor
    · intro past stx rest happ jobId batchId computeAddr verifierAddr routerAddr treasuryAddr htx
      have hmem : stx ∈ appliedOf hist := by simp [happ]
      obtain ⟨p, hp, hin⟩ := List.mem_flatMap.mp hmem
      obtain ⟨o, hzip, ho⟩ := mem_appliedTxs.mp hin
      obtain ⟨u, u', step⟩ := run_step run hp
      obtain ⟨hs, ctx, htxs, -⟩ := commits_txs step
      obtain ⟨c, c', hc, hstep⟩ := applyTxs_mem htxs hzip
      obtain ⟨e, hget, hlocked⟩ := (settlement_applied_iff htx hstep).mp ho
      rw [hc, State.beginBlock_state, ← hs] at hget
      exact absurd hlocked (h p hp stx (List.of_mem_zip hzip).1 _ _ _ _ _ _ htx e hget)
    · intro p hp
      refine eachTx_of_forall rfl (fun c stx hc hstx => ?_)
      intro jobId batchId computeAddr verifierAddr routerAddr treasuryAddr htx c' o hstep ho
      obtain ⟨e, hget, hlocked⟩ := (settlement_applied_iff htx hstep).mp ho
      rw [hc, State.beginBlock_state] at hget
      exact absurd hlocked (h p hp stx hstx _ _ _ _ _ _ htx e hget)

end

/-- A lock alone settles nothing. -/
theorem settlement_law_lock :
    ∃ hist, Run toyPrimitives soleHolder hist lockedState ∧ SettlementLaw toyPrimitives hist := by
  refine ⟨_, Run.nil.snoc lock_commits, (settlement_law (Run.nil.snoc lock_commits)).mpr ?_⟩
  intro p hp stx hstx jobId batchId computeAddr verifierAddr routerAddr treasuryAddr htx
  rw [List.nil_append, List.mem_singleton] at hp
  subst hp
  simp only [sealBlock_txs, lockBody, bodyAt, List.mem_singleton] at hstx
  subst hstx
  cases htx

/-- Nobody has signed the settlement, no batch was ever applied, and address 1 is paid. -/
theorem stranger_settles : ∃ hist t, Run toyPrimitives soleHolder hist t ∧
    appliedOf hist = lockBody.txs ++ settleBody.txs ∧ balanceOf t 1 = 850 ∧
    ¬ SettlementLaw toyPrimitives hist := by
  have happ : appliedOf settledHist = lockBody.txs ++ settleBody.txs := by decide
  refine ⟨_, _, settledHist_run, happ, by decide, fun h => ?_⟩
  obtain ⟨stx, hstx, batch, htx, -⟩ := h.anchored lockBody.txs _ [] happ _ _ _ _ _ _ rfl
  rw [lockBody, bodyAt, List.mem_singleton] at hstx
  subst hstx
  cases htx

end Arknet.Laws
