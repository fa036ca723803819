import Arknet.Laws.BuildAgreement
import Arknet.Laws.Escrow
import Arknet.Laws.Replay

/-!
A chain whose blocks all come from proposers. A proposer takes its transactions from a pool, and a pool takes
no stake operation, receipt, dispute, settlement or mint. So stake stands still, what was locked is never
released, and nothing is minted but for rewards that were queued before (`built_chain_frozen`).
-/

namespace Arknet.Laws

open Machine Store Arknet.Chain Arknet.Staking Arknet.Payments Arknet.Governance Arknet.Consensus

/-- A proposer built the block, on whatever store and out of whatever pool it had. -/
def Built (K : Primitives) (b : Block) : Prop :=
  ∃ s m height params now built, build K s m height params now = .ok built ∧ built.block = b

/-! ## What no pool takes -/

theorem Pooled.ne {stx : SignedTransaction} {tx : Transaction} (h : Pooled stx)
    (hno : ∀ r, extractSenderNonceFee tx ≠ .ok r) : stx.tx ≠ tx := by
  rintro rfl
  obtain ⟨r, hr⟩ := h
  exact hno r hr

section

variable {stx : SignedTransaction} (h : Pooled stx)
include h

theorem Pooled.not_stakeOp (op : StakeOp) : stx.tx ≠ .stakeOp op := h.ne fun _ hr => nomatch hr

theorem Pooled.not_escrowSettle (jobId : JobId) (batchId : Hash256)
    (computeAddr verifierAddr routerAddr treasuryAddr : Address) :
    stx.tx ≠ .escrowSettle jobId batchId computeAddr verifierAddr routerAddr treasuryAddr :=
  h.ne fun _ hr => nomatch hr

/-- A pooled transaction credits nothing that it does not debit. -/
theorem Pooled.backed (ctx : BlockCtx) : TxBacked ctx stx.tx := by
  obtain ⟨r, hr⟩ := h
  cases htx : stx.tx with
  | rewardMint =>
    rw [htx] at hr
    cases hr
  | escrowSettle =>
    rw [htx] at hr
    cases hr
  | _ => trivial

end

theorem built_pooled {K : Primitives} {b : Block} (h : Built K b) : ∀ stx ∈ b.txs, Pooled stx := by
  obtain ⟨s, m, height, params, now, built, hbuild, rfl⟩ := h
  obtain ⟨-, -, -, -, hpooled, -⟩ := build_ok hbuild
  exact hpooled

/-! ## A block -/

/-- Stake, receipt marks and what was locked, as they were. -/
structure StoodStill (s t : State) : Prop where
  stakes : t.stakes = s.stakes
  unbondings : t.unbondings = s.unbondings
  receiptsSeen : t.receiptsSeen = s.receiptsSeen
  escrows : ∀ job e, s.escrows.get job = some e → t.escrows.get job = some e

theorem StoodStill.refl (s : State) : StoodStill s s := ⟨rfl, rfl, rfl, fun _ _ h => h⟩

theorem StoodStill.trans {s t u : State} (h : StoodStill s t) (h' : StoodStill t u) : StoodStill s u where
  stakes := h'.stakes.trans h.stakes
  unbondings := h'.unbondings.trans h.unbondings
  receiptsSeen := h'.receiptsSeen.trans h.receiptsSeen
  escrows job e he := h'.escrows job e (h.escrows job e he)

section

variable {K : Primitives} {s : State} {ctx ctx' : BlockCtx} {stx : SignedTransaction} {o : TxOutcome}

/-- A lock never takes the place of one that was there before the block. -/
theorem applyTx_escrows_kept (hp : Pooled stx) (hs : ctx.state = s)
    (hkept : ∀ job e, s.escrows.get job = some e → ctx.commit.escrows.get job = some e)
    (h : applyTx K ctx stx = .ok (ctx', o)) {job : JobId} {e : EscrowEntry}
    (he : s.escrows.get job = some e) : ctx'.commit.escrows.get job = some e := by
  by_cases hlock : ∃ src jobId amount nonce fee, stx.tx = .escrowLock src jobId amount nonce fee
  · obtain ⟨src, jobId, amount, nonce, fee, htx⟩ := hlock
    simp only [applyTx, htx] at h
    rcases applyEscrowLock_ok h with ⟨rfl, -⟩ | ⟨-, -, hfree, -, balance, next, -, -, rfl⟩
    · exact hkept job e he
    · have hne : jobId ≠ job := by
        rintro rfl
        rw [hs, he] at hfree
        cases hfree
      rw [BlockCtx.setEscrow_commit]
      exact (Column.get_write_ne _ hne _).trans (hkept job e he)
  · push Not at hlock
    rw [(applyTx_frame h).escrows hlock (hp.not_escrowSettle)]
    exact hkept job e he

theorem applyTx_stoodStill (hp : Pooled stx) (hs : ctx.state = s) (hstill : StoodStill s ctx.commit)
    (h : applyTx K ctx stx = .ok (ctx', o)) : StoodStill s ctx'.commit := by
  obtain ⟨hstakes, hunbondings, -⟩ := (applyTx_frame h).stakes hp.not_stakeOp
  exact {
    stakes := hstakes.trans hstill.stakes
    unbondings := hunbondings.trans hstill.unbondings
    receiptsSeen := ((applyTx_writesOnly h).receiptsSeen hp.not_receiptBatch).trans hstill.receiptsSeen
    escrows := fun _ _ he => applyTx_escrows_kept hp hs hstill.escrows h he }

end

section

variable {K : Primitives} {s s' : State} {b : Block} {r : Replay}

/-- The transactions of a block of pooled ones are followed by no slash. -/
theorem commits_pooled (hp : ∀ stx ∈ b.txs, Pooled stx) (h : Commits K s b r s') :
    ∃ ctx ctx' fee blocks idx, applyTxs K s.beginBlock b.txs = .ok (ctx, r.outcomes) ∧
      epochHooks ctx b.header = .ok (ctx', r.minted) ∧
      s' = { ctx'.commit with
        metaHeight := some b.header.height, metaBaseFee := some fee, blocks := blocks, txIndex := idx } := by
  obtain ⟨ctx₁, ctx₂, ctx₃, fee, h₁, h₂, h₃, hr⟩ := replayBlock_ok h.replay
  obtain rfl := dispatchSlash_calm (fun stx hstx d hd => absurd hd ((hp stx hstx).not_dispute d)) h₂
  obtain ⟨blocks, idx, hs'⟩ := persist_columns (K := K) r.ctx b
  refine ⟨ctx₂, ctx₃, fee, blocks, idx, h₁, h₃, ?_⟩
  rw [h.stored, hs', hr]
  rfl

theorem commits_stoodStill (hp : ∀ stx ∈ b.txs, Pooled stx) (h : Commits K s b r s') : StoodStill s s' := by
  obtain ⟨ctx, ctx', fee, blocks, idx, htxs, hhooks, rfl⟩ := commits_pooled hp h
  have hbegin : StoodStill s s.beginBlock.commit := by
    rw [State.beginBlock_commit]
    exact .refl s
  have hstill := (applyTxs_invariant (P := fun c => StoodStill s c.commit)
    (fun c c' stx o hstx hs hc hstep => applyTx_stoodStill (hp stx hstx) hs hc hstep) rfl hbegin htxs).2
  obtain ⟨a, v, rewards, p, hc⟩ := epochHooks_commit hhooks
  refine hstill.trans ⟨?_, ?_, ?_, fun job e he => ?_⟩
  · dsimp only
    rw [hc]
  · dsimp only
    rw [hc]
  · dsimp only
    rw [hc]
  · dsimp only
    rw [hc]
    exact he

theorem epochBoundaryMint_unpaid {ctx : BlockCtx} (hs : ctx.state.pendingRewards = .empty) (endingEpoch : U64)
    (height : Height) : epochBoundaryMint ctx endingEpoch height = .ok (ctx, 0) := by
  have hnone : ctx.state.iterPendingRewardsForEpoch endingEpoch = [] := by
    rw [State.iterPendingRewardsForEpoch, hs]
    rfl
  rw [epochBoundaryMint, hnone]
  rfl

/-- With no reward queued there is nothing to mint, and none is queued. -/
theorem epochHooks_unpaid {ctx ctx' : BlockCtx} {header : BlockHeader} {minted : Amount}
    (hs : ctx.state.pendingRewards = .empty) (h : epochHooks ctx header = .ok (ctx', minted)) :
    minted = 0 ∧ ctx'.commit.pendingRewards = ctx.commit.pendingRewards := by
  obtain ⟨-, rfl, rfl⟩ | ⟨-, rotated, n, paid, h₁, h₂, h₃⟩ := epochHooks_ok h
  · exact ⟨rfl, rfl⟩
  · rw [epochBoundaryMint_unpaid (by rw [(recomputeValidatorSet_frame h₁).state]; exact hs)] at h₂
    obtain ⟨rfl, rfl⟩ := Prod.mk.inj (Except.ok.inj h₂)
    obtain ⟨v, hv⟩ := recomputeValidatorSet_commit h₁
    obtain ⟨a, p, hp⟩ := processGovernanceProposals_commit h₃
    exact ⟨rfl, by rw [hp, hv]⟩

theorem commits_unpaid (hw : WellFormed s) (hp : ∀ stx ∈ b.txs, Pooled stx)
    (hs : s.pendingRewards = .empty) (h : Commits K s b r s') :
    s'.pendingRewards = .empty ∧ r.minted = 0 ∧ s'.supply ≤ s.supply := by
  have hbacked : BlockBacked K s b := by
    have htxs : ∀ txs ctx, (∀ stx ∈ txs, Pooled stx) → TxsBacked K ctx txs := by
      intro txs
      induction txs with
      | nil => exact fun _ _ => trivial
      | cons stx rest ih =>
        intro ctx hall
        obtain ⟨hfirst, hrest⟩ := List.forall_mem_cons.mp hall
        exact ⟨hfirst.backed ctx, fun c _ _ => ih c hrest⟩
    have hslash : ∀ txs ctx, (∀ stx ∈ txs, Pooled stx) → DispatchBacked K ctx txs := by
      intro txs
      induction txs with
      | nil => exact fun _ _ => trivial
      | cons stx rest ih =>
        intro ctx hall
        obtain ⟨hfirst, hrest⟩ := List.forall_mem_cons.mp hall
        exact ⟨fun d hd => absurd hd (hfirst.not_dispute d), fun c _ => ih c hrest⟩
    exact ⟨htxs _ _ hp, fun ctx _ _ => hslash _ ctx hp⟩
  have hsupply := (commits_supply hw hbacked h).1
  obtain ⟨ctx, ctx', fee, blocks, idx, htxs, hhooks, rfl⟩ := commits_pooled hp h
  have hqueue := (applyTxs_invariant (P := fun c => c.commit.pendingRewards = s.pendingRewards)
    (fun c c' stx o hstx _ hc hstep => ((applyTx_writesOnly hstep).pendingRewards
      (hp stx hstx).not_receiptBatch (hp stx hstx).not_escrowSettle).trans hc) rfl rfl htxs).2
  have hstate : ctx.state = s := applyTxs_state htxs
  obtain ⟨hminted, hkept⟩ := epochHooks_unpaid (by rw [hstate]; exact hs) hhooks
  refine ⟨?_, hminted, ?_⟩
  · exact (hkept.trans hqueue).trans hs
  · rw [hminted] at hsupply
    exact hsupply

end

/-! ## The law -/

/-- Whatever pools the blocks of a chain were built from: no stake, no unbonding entry and no receipt mark
ever changes, an escrow that a block has locked stays as it is for good, and without queued rewards none is
ever queued, nothing is minted and the supply does not grow. -/
theorem built_chain_frozen {K : Primitives} {s t : State} {hist : List (Block × Replay)} (hw : WellFormed s)
    (run : Run K s hist t) (built : ∀ p ∈ hist, Built K p.1) :
    StoodStill s t ∧ (s.pendingRewards = .empty →
      t.pendingRewards = .empty ∧ t.supply ≤ s.supply ∧ ∀ p ∈ hist, p.2.minted = 0) := by
  induction run with
  | nil => exact ⟨.refl s, fun hs => ⟨hs, Nat.le_refl _, fun _ hp => nomatch hp⟩⟩
  | @snoc hist u u' b r run step ih =>
    obtain ⟨hstill, hunpaid⟩ := ih fun p hp => built p (List.mem_append_left _ hp)
    have hpooled := built_pooled (built (b, r) (List.mem_append_right _ List.mem_cons_self))
    refine ⟨hstill.trans (commits_stoodStill hpooled step), fun hs => ?_⟩
    obtain ⟨hqueue, hsupply, hminted⟩ := hunpaid hs
    obtain ⟨hqueue', hnone, hsupply'⟩ :=
      commits_unpaid (run_keeps_wellFormed hw run) hpooled hqueue step
    refine ⟨hqueue', hsupply'.trans hsupply, fun p hp => ?_⟩
    rcases List.mem_append.mp hp with hp | hp
    · exact hminted p hp
    · obtain rfl := List.mem_singleton.mp hp
      exact hnone

theorem soleHolder_wellFormed : WellFormed soleHolder :=
  ⟨wellFormed_empty.keyed.congr rfl rfl, wellFormed_empty.unbondIds.congr rfl rfl, wellFormed_empty.proposals⟩

/-- A block with two locks. -/
theorem built_chain_frozen_locks : ∃ r s', Commits toyPrimitives soleHolder (returned _ lockPool_builds).block r s' ∧
    StoodStill soleHolder s' ∧ s'.supply ≤ soleHolder.supply ∧ r.minted = 0 := by
  have step : Commits toyPrimitives soleHolder (returned _ lockPool_builds).block (returned _ lockPool_replays) _ :=
    ⟨eq_ok_returned lockPool_replays, by decide, rfl⟩
  have built : Built toyPrimitives (returned _ lockPool_builds).block :=
    ⟨_, _, _, _, _, _, eq_ok_returned lockPool_builds, rfl⟩
  have law := built_chain_frozen soleHolder_wellFormed (Run.nil.snoc step) fun p hp => by
    obtain rfl := List.mem_singleton.mp hp
    exact built
  obtain ⟨hstill, hunpaid⟩ := law
  obtain ⟨-, hsupply, hminted⟩ := hunpaid rfl
  exact ⟨_, _, step, hstill, hsupply, hminted _ List.mem_cons_self⟩

end Arknet.Laws
