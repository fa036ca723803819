import Arknet.Laws.Slash

/-!
What every store reached by commits satisfies: entries lie under their own keys, unbonding ids and
proposal ids lie below the counters they are drawn from (`WellFormed`, `run_wellFormed`).
-/

namespace Arknet.Laws

open Machine Store Arknet.Chain Arknet.Staking Arknet.Payments Arknet.Governance Arknet.Consensus

/-- Every unbonding id is below the next one. -/
def UnbondIdsBelow (s : State) : Prop :=
  ∀ k u, s.unbondings.get k = some u → k.unbondId.val < (s.metaUnbondId.getD 0).val

/-- Every proposal id is below the next one. -/
def ProposalsBelow (s : State) : Prop :=
  ∀ id r, s.proposals.get id = some r → id.val < s.nextProposalId.val

theorem Keyed.congr {s t : State} (h : Keyed s) (hs : t.stakes = s.stakes)
    (hu : t.unbondings = s.unbondings) : Keyed t :=
  ⟨by rw [hs]; exact h.stakes, by rw [hu]; exact h.unbondings⟩

theorem UnbondIdsBelow.congr {s t : State} (h : UnbondIdsBelow s) (hu : t.unbondings = s.unbondings)
    (hm : t.metaUnbondId = s.metaUnbondId) : UnbondIdsBelow t := by
  unfold UnbondIdsBelow
  rw [hu, hm]
  exact h

structure WellFormed (s : State) : Prop where
  keyed : Keyed s
  unbondIds : UnbondIdsBelow s
  proposals : ProposalsBelow s

theorem wellFormed_empty : WellFormed State.empty where
  keyed := ⟨fun _ _ h => absurd h (by simp [State.empty]), fun _ _ h => absurd h (by simp [State.empty])⟩
  unbondIds := fun _ _ h => absurd h (by simp [State.empty])
  proposals := fun _ _ h => absurd h (by simp [State.empty])

/-! ## Stake columns -/

theorem stored_eq_some {e e' : StakeEntry} (h : e.stored = some e') : e' = e := by
  unfold StakeEntry.stored at h
  split at h
  · cases h
  · exact (Option.some.inj h).symm

theorem depositEntry_key {o : Option StakeEntry} {k : StakeKey} (amount : Amount) (height : Height)
    (h : ∀ e, o = some e → e.key = k) : (depositEntry o k amount height).key = k := by
  cases o with
  | none => rfl
  | some e => exact h e rfl

theorem stakeAmount_setStake (ctx : BlockCtx) (k : StakeKey) (e : StakeEntry) (k' : StakeKey) :
    stakeAmount (ctx.setStake k e).commit k' =
      if k = k' then e.amount.val else stakeAmount ctx.commit k' := by
  simp only [stakeAmount, BlockCtx.setStake_commit, Column.get_write]
  split
  · exact stored_amount e
  · rfl

theorem stakeAmount_of_getStake {ctx : BlockCtx} {k : StakeKey} {e : StakeEntry}
    (h : ctx.getStake k = some e) : stakeAmount ctx.commit k = e.amount.val := by
  rw [BlockCtx.getStake_eq] at h
  rw [stakeAmount, h]
  rfl

/-- A deposit lowers no entry. -/
theorem stakeAmount_le_depositEntry (ctx : BlockCtx) (k : StakeKey) (amount : Amount)
    (height : Height) :
    stakeAmount ctx.commit k ≤ (depositEntry (ctx.getStake k) k amount height).amount.val := by
  cases h : ctx.getStake k with
  | none =>
    rw [BlockCtx.getStake_eq] at h
    rw [stakeAmount, h]
    exact Nat.zero_le _
  | some e =>
    rw [stakeAmount_of_getStake h]
    exact le_satAdd _ _

/-- A deposit adds at most its amount. -/
theorem depositEntry_le (ctx : BlockCtx) (k : StakeKey) (amount : Amount) (height : Height) :
    (depositEntry (ctx.getStake k) k amount height).amount.val ≤ stakeAmount ctx.commit k + amount.val := by
  rw [BlockCtx.getStake_eq, stakeAmount]
  cases ctx.commit.stakes.get k with
  | none => exact Nat.le_add_left _ _
  | some e => exact satAdd_le _ _

/-- The entry a withdrawal or redelegation draws on is the sender's own when it has one. -/
theorem drawnEntry_own {ctx : BlockCtx} {nodeId : NodeId} {role : StakeRole} {poolId : Option PoolId}
    {sender : Address} {k : Option Address} {e : StakeEntry}
    (h : drawnEntry ctx nodeId role poolId sender = some (k, e))
    (hown : ctx.getStake ⟨nodeId, role, poolId, some sender⟩ ≠ none) : k = some sender :=
  (drawnEntry_eq_some h).2.resolve_right (fun hn => hown hn.2)

/-- Applied here, the operation takes something from the balance or a position of its sender `a`. -/
def OpTakes (ctx : BlockCtx) (op : StakeOp) (a : Address) : Prop :=
  match op with
  | .deposit _ _ _ amount _ => 0 < amount.val
  | .withdraw nodeId role poolId amount =>
    0 < amount.val ∧ ctx.getStake ⟨nodeId, role, poolId, some a⟩ ≠ none
  | .complete .. => False
  | .redelegate src _ role amount => 0 < amount.val ∧ ctx.getStake ⟨src, role, none, some a⟩ ≠ none

/-- An operation that lowers a delegator's position is that delegator's. -/
theorem applyStakeOp_lowered {ctx ctx' : BlockCtx} {op : StakeOp} {sender : Address} {height : Height}
    {o : TxOutcome} (h : applyStakeOp ctx op sender height = .ok (ctx', o)) {k : StakeKey} {a : Address}
    (hd : k.delegator = some a) (hlt : stakeAmount ctx'.commit k < stakeAmount ctx.commit k) :
    o.isApplied = true ∧ sender = a ∧ OpTakes ctx op a := by
  have hstay : ctx' ≠ ctx := by
    rintro rfl
    exact Nat.lt_irrefl _ hlt
  -- Only the write that takes from the drawn entry can be the one that lowers `k`.
  have hdrawn : ∀ {nodeId role poolId d entry} {rest : Amount},
      drawnEntry ctx nodeId role poolId sender = some (d, entry) →
      stakeAmount (ctx.setStake ⟨nodeId, role, poolId, d⟩ { entry with amount := rest }).commit k <
        stakeAmount ctx.commit k →
      sender = a ∧ rest.val < entry.amount.val ∧
        ctx.getStake ⟨nodeId, role, poolId, some a⟩ ≠ none := by
    intro nodeId role poolId d entry rest hdr hlow
    obtain ⟨hget, howner⟩ := drawnEntry_eq_some hdr
    rw [stakeAmount_setStake] at hlow
    split at hlow
    · rename_i hkey
      subst hkey
      simp only at hd
      subst hd
      rw [stakeAmount_of_getStake hget] at hlow
      refine ⟨?_, hlow, by rw [hget]; simp⟩
      rcases howner with hs | ⟨hn, -⟩
      · exact (Option.some.inj hs).symm
      · cases hn
    · exact absurd hlow (Nat.lt_irrefl _)
  cases op with
  | deposit nodeId role poolId amount delegator =>
    rcases applyDeposit_ok h with ⟨hk, -⟩ | ⟨-, -, balance, -, rfl⟩
    · exact absurd hk hstay
    · rw [stakeAmount_setStake] at hlt
      split at hlt
      · rename_i hkey
        subst hkey
        exact absurd hlt (Nat.not_lt.mpr (stakeAmount_le_depositEntry ctx _ amount _))
      · exact absurd hlt (Nat.lt_irrefl _)
  | withdraw nodeId role poolId amount =>
    rcases applyWithdraw_ok h with ⟨hk, -⟩ | ⟨rfl, d, entry, rest, _, _, hdr, hrest, -, -, rfl⟩
    · exact absurd hk hstay
    · obtain ⟨rfl, hlow, hget⟩ := hdrawn hdr hlt
      exact ⟨rfl, rfl, by omega, hget⟩
  | complete nodeId role poolId unbondId =>
    rcases applyComplete_ok h with ⟨hk, -⟩ | ⟨-, entry, -, -, -, rfl⟩
    · exact absurd hk hstay
    · exact absurd hlt (Nat.lt_irrefl _)
  | redelegate src dst role amount =>
    rcases applyRedelegate_ok h with ⟨hk, -⟩ | ⟨rfl, hne, d, entry, rest, hdr, hrest, rfl⟩
    · exact absurd hk hstay
    · have hset := stakeAmount_setStake (ctx.setStake ⟨src, role, none, d⟩ { entry with amount := rest })
        ⟨dst, role, none, d⟩ (depositEntry (ctx.getStake ⟨dst, role, none, d⟩) ⟨dst, role, none, d⟩
          amount height) k
      rw [hset] at hlt
      split at hlt
      · rename_i hkey
        subst hkey
        exact absurd hlt (Nat.not_lt.mpr (stakeAmount_le_depositEntry ctx _ amount _))
      · obtain ⟨rfl, hlow, hget⟩ := hdrawn hdr hlt
        exact ⟨rfl, rfl, by omega, hget⟩

theorem keyed_setStake {ctx : BlockCtx} {k : StakeKey} {e : StakeEntry} (hk : Keyed ctx.commit)
    (he : e.key = k) : Keyed (ctx.setStake k e).commit where
  stakes := by
    intro k' e' h
    rw [BlockCtx.setStake_commit] at h
    simp only [Column.get_write] at h
    split at h
    · rename_i hkk
      rw [stored_eq_some h, he, hkk]
    · exact hk.stakes k' e' h
  unbondings := hk.unbondings

theorem keyed_setUnbonding {ctx : BlockCtx} (node : NodeId) (u : UnbondingEntry)
    (hk : Keyed ctx.commit) : Keyed (ctx.setUnbonding node u).commit where
  stakes := hk.stakes
  unbondings := by
    intro k' u' h
    rw [BlockCtx.setUnbonding_commit] at h
    simp only [Column.get_write] at h
    split at h
    · rename_i hkk
      rw [← Option.some.inj h, ← hkk]
    · exact hk.unbondings k' u' h

theorem keyed_deleteUnbonding {ctx : BlockCtx} {node : NodeId} {id : U64} (hk : Keyed ctx.commit) :
    Keyed (ctx.deleteUnbonding node id).commit where
  stakes := hk.stakes
  unbondings := by
    intro k' u' h
    rw [BlockCtx.deleteUnbonding_commit] at h
    simp only [Column.get_write] at h
    split at h
    · cases h
    · exact hk.unbondings k' u' h

theorem applyStakeOp_keyed {ctx ctx' : BlockCtx} {op : StakeOp} {sender : Address} {height : Height}
    {o : TxOutcome} (hk : Keyed ctx.commit) (h : applyStakeOp ctx op sender height = .ok (ctx', o)) :
    Keyed ctx'.commit := by
  have hget : ∀ k e, ctx.getStake k = some e → e.key = k := by
    intro k e he
    rw [BlockCtx.getStake_eq] at he
    exact hk.stakes k e he
  cases op with
  | deposit nodeId role poolId amount delegator =>
    rcases applyDeposit_ok h with ⟨rfl, -⟩ | ⟨-, -, balance, -, rfl⟩
    · exact hk
    · have hkeyed : Keyed (ctx.setAccount sender { ctx.account sender with balance := balance }).commit :=
        ⟨hk.stakes, hk.unbondings⟩
      exact keyed_setStake hkeyed (depositEntry_key amount height (hget _))
  | withdraw nodeId role poolId amount =>
    rcases applyWithdraw_ok h with ⟨rfl, -⟩ | ⟨-, k, entry, rest, completesAt, next, hk', -, -, -, rfl⟩
    · exact hk
    · have hkey : entry.key = ⟨nodeId, role, poolId, k⟩ := hget _ _ (drawnEntry_eq_some hk').1
      have hset := keyed_setStake (e := { entry with amount := rest }) hk hkey
      have hun := keyed_setUnbonding nodeId
        ⟨ctx.nextUnbondId, nodeId, role, poolId, k, amount, height, completesAt⟩ hset
      exact ⟨hun.stakes, hun.unbondings⟩
  | complete nodeId role poolId unbondId =>
    rcases applyComplete_ok h with ⟨rfl, -⟩ | ⟨-, entry, -, -, -, rfl⟩
    · exact hk
    · have hkeyed : Keyed (ctx.creditAddress (entry.delegator.getD sender) entry.amount).commit :=
        ⟨hk.stakes, hk.unbondings⟩
      exact keyed_deleteUnbonding hkeyed
  | redelegate src dst role amount =>
    rcases applyRedelegate_ok h with ⟨rfl, -⟩ | ⟨-, -, k, entry, rest, hk', -, rfl⟩
    · exact hk
    · have hkey : entry.key = ⟨src, role, none, k⟩ := hget _ _ (drawnEntry_eq_some hk').1
      have hset := keyed_setStake (e := { entry with amount := rest }) hk hkey
      exact keyed_setStake hset (depositEntry_key amount height (hget _))

theorem applyStakeOp_unbondIds {ctx ctx' : BlockCtx} {op : StakeOp} {sender : Address} {height : Height}
    {o : TxOutcome} (hu : UnbondIdsBelow ctx.commit)
    (h : applyStakeOp ctx op sender height = .ok (ctx', o)) : UnbondIdsBelow ctx'.commit := by
  cases op with
  | deposit nodeId role poolId amount delegator =>
    rcases applyDeposit_ok h with ⟨rfl, -⟩ | ⟨-, -, balance, -, rfl⟩ <;> exact hu
  | withdraw nodeId role poolId amount =>
    rcases applyWithdraw_ok h with ⟨rfl, -⟩ | ⟨-, k, entry, rest, completesAt, next, -, -, -, hnext, rfl⟩
    · exact hu
    · intro k' u' hget
      have hmeta : ctx.nextUnbondId = ctx.commit.metaUnbondId.getD 0 := rfl
      simp only [BlockCtx.setNextUnbondId_commit, BlockCtx.setUnbonding_commit,
        BlockCtx.setStake_commit, Column.get_write, Option.getD_some] at hget ⊢
      split at hget
      · rename_i hkk
        rw [← hkk, hnext]
        exact Nat.lt_succ_self _
      · have := hu k' u' hget
        rw [hnext, hmeta]
        exact Nat.lt_succ_of_lt this
  | complete nodeId role poolId unbondId =>
    rcases applyComplete_ok h with ⟨rfl, -⟩ | ⟨-, entry, -, -, -, rfl⟩
    · exact hu
    · intro k' u' hget
      simp only [BlockCtx.deleteUnbonding_commit, BlockCtx.creditAddress, BlockCtx.setAccount_commit,
        Column.get_write] at hget ⊢
      split at hget
      · cases hget
      · exact hu k' u' hget
  | redelegate src dst role amount =>
    rcases applyRedelegate_ok h with ⟨rfl, -⟩ | ⟨-, -, k, entry, rest, -, -, rfl⟩ <;> exact hu

section

variable {K : Primitives} {ctx ctx' : BlockCtx} {stx : SignedTransaction} {o : TxOutcome}

theorem applyTx_keyed (hk : Keyed ctx.commit) (h : applyTx K ctx stx = .ok (ctx', o)) :
    Keyed ctx'.commit := by
  cases htx : stx.tx with
  | stakeOp op =>
    simp only [applyTx, htx] at h
    exact applyStakeOp_keyed hk h
  | _ =>
    obtain ⟨hs, hu, -⟩ := (applyTx_frame h).stakes (by simp [htx])
    exact ⟨by rw [hs]; exact hk.stakes, by rw [hu]; exact hk.unbondings⟩

theorem applyTx_unbondIds (hk : UnbondIdsBelow ctx.commit) (h : applyTx K ctx stx = .ok (ctx', o)) :
    UnbondIdsBelow ctx'.commit := by
  cases htx : stx.tx with
  | stakeOp op =>
    simp only [applyTx, htx] at h
    exact applyStakeOp_unbondIds hk h
  | _ =>
    obtain ⟨-, hu, hm⟩ := (applyTx_frame h).stakes (by simp [htx])
    unfold UnbondIdsBelow
    rw [hu, hm]
    exact hk

/-! ## Proposals -/

/-- Inside a block: new proposals go under the committed counter's value, and the buffered counter
is that value or the next. -/
structure ProposalsInBlock (s : State) (ctx : BlockCtx) : Prop where
  below : ProposalsBelow ctx.commit
  counter : s.nextProposalId.val ≤ ctx.commit.nextProposalId.val ∧
    ctx.commit.nextProposalId.val ≤ s.nextProposalId.val + 1
  kept : ∀ id, id ≠ s.nextProposalId → ctx.commit.proposals.get id = s.proposals.get id

theorem applyTx_proposals (hp : ProposalsInBlock ctx.state ctx)
    (h : applyTx K ctx stx = .ok (ctx', o)) : ProposalsInBlock ctx'.state ctx' := by
  rw [applyTx_state h]
  cases htx : stx.tx with
  | govProposal p =>
    simp only [applyTx, htx] at h
    rcases applyGovProposal_ok h with ⟨rfl, -⟩ | ⟨-, -, balance, next, -, hnext, rfl⟩
    · exact hp
    · have hc := hp.counter
      have hcounter : ((((ctx.setAccount (deriveAddressFromSigner K stx.signer)
          { ctx.account (deriveAddressFromSigner K stx.signer) with balance := balance }).setProposal
          ctx.state.nextProposalId ⟨p, .discussion, ctx.currentHeight.getD 0⟩).setNextProposalId
          next).commit).nextProposalId = next := rfl
      refine ⟨?_, by rw [hcounter]; omega, ?_⟩
      · intro id r hget
        rw [hcounter]
        simp only [BlockCtx.setNextProposalId_commit, BlockCtx.setProposal_commit,
          BlockCtx.setAccount_commit, Column.get_write] at hget
        split at hget
        · rename_i hid
          rw [← hid]
          omega
        · have := hp.below id r hget
          omega
      · intro id hne
        simp only [BlockCtx.setNextProposalId_commit, BlockCtx.setProposal_commit,
          BlockCtx.setAccount_commit]
        rw [Column.get_write_ne _ (Ne.symm hne)]
        exact hp.kept id hne
  | _ =>
    obtain ⟨hpr, hm⟩ := (applyTx_frame h).proposals (by simp [htx])
    have hnext : ctx'.commit.nextProposalId = ctx.commit.nextProposalId := by
      simp only [State.nextProposalId, hm]
    exact ⟨by unfold ProposalsBelow; rw [hpr, hnext]; exact hp.below, by rw [hnext]; exact hp.counter,
      by rw [hpr]; exact hp.kept⟩

end

/-! ## Slashes and hooks -/

section

variable {K : Primitives} {ctx ctx' : BlockCtx}

theorem applySlash_keyed {node : NodeId} {role : StakeRole} {o : Offense} {reporter treasury : Address}
    {report : SlashReport} (hs : Keyed ctx.state) (hk : Keyed ctx.commit)
    (h : applySlash ctx node role o reporter treasury = .ok (ctx', report)) : Keyed ctx'.commit where
  stakes := by
    intro k e hget
    rcases stakes_applySlash hs h k with ⟨e', -, hkey, hw⟩ | ⟨-, hw⟩
    · rw [hw] at hget
      rw [stored_eq_some hget]
      exact hkey
    · exact hk.stakes k e (hw ▸ hget)
  unbondings := by
    intro k u hget
    rcases unbondings_applySlash hs h k with ⟨u', -, hkey, hw⟩ | ⟨-, hw⟩
    · rw [hw] at hget
      rw [← Option.some.inj hget, ← hkey]
    · exact hk.unbondings k u (hw ▸ hget)

/-- A slash brings back no unbonding id that was never drawn. -/
theorem applySlash_unbondIds {node : NodeId} {role : StakeRole} {o : Offense}
    {reporter treasury : Address} {report : SlashReport} (hs : Keyed ctx.state)
    (hbase : UnbondIdsBelow ctx.state)
    (hm : (ctx.state.metaUnbondId.getD 0).val ≤ (ctx.commit.metaUnbondId.getD 0).val)
    (hu : UnbondIdsBelow ctx.commit)
    (h : applySlash ctx node role o reporter treasury = .ok (ctx', report)) :
    UnbondIdsBelow ctx'.commit := by
  intro k u hget
  rw [(applySlash_frame h).metaUnbondId]
  rcases unbondings_applySlash hs h k with ⟨u', hmem, hkey, -⟩ | ⟨-, hw⟩
  · have := hbase _ _ (mem_slashedUnbondings hs hmem).1
    rw [← hkey]
    exact Nat.lt_of_lt_of_le this hm
  · exact hu k u (hw ▸ hget)

theorem applySlash_commit {node : NodeId} {role : StakeRole} {o : Offense}
    {reporter treasury : Address} {report : SlashReport}
    (h : applySlash ctx node role o reporter treasury = .ok (ctx', report)) :
    ∃ accounts stakes unbondings, ctx'.commit = { ctx.commit with
      accounts := accounts, stakes := stakes, unbondings := unbondings } := by
  obtain ⟨-, -, -, -, -, -, rfl⟩ := (applySlash_eq_ok ctx node role o reporter treasury _ _).mp h
  obtain ⟨a₁, h₁⟩ := (slashLoops ctx node role o).ctx.creditPositive_commit reporter report.toReporter
  obtain ⟨a₂, h₂⟩ := ((slashLoops ctx node role o).ctx.creditPositive reporter
    report.toReporter).creditPositive_commit treasury report.toTreasury
  exact ⟨a₂, _, _, by rw [h₂, h₁, slashLoops_commit]⟩

/-- A dispatch is a slash for a dispute whose hashes differ, and nothing otherwise. -/
theorem dispatchSlash_ok {stx : SignedTransaction} (h : dispatchSlash K ctx stx = .ok ctx') :
    ctx' = ctx ∨ ∃ d report, stx.tx = .dispute d ∧ d.claimedOutputHash ≠ d.reexecOutputHash ∧
      applySlash ctx d.computeNode .compute .failedDeterministicVerification d.reporter
        (bootstrapTreasuryAddress K) = .ok (ctx', report) := by
  unfold dispatchSlash at h
  split at h
  · rename_i d hd
    split at h
    · rename_i hne
      rw [map_eq_ok] at h
      obtain ⟨⟨c, report⟩, hs, rfl⟩ := h
      exact .inr ⟨d, report, hd, hne, hs⟩
    · simp only [pure_eq_ok] at h
      exact .inl h.symm
  · simp only [pure_eq_ok] at h
    exact .inl h.symm

/-- The slash dispatch looks at disputes only. -/
theorem dispatchSlash_of_no_dispute {ctx : BlockCtx} {txs : List SignedTransaction}
    (h : ∀ stx ∈ txs, ∀ d, stx.tx ≠ .dispute d) : txs.foldlM (dispatchSlash K) ctx = .ok ctx := by
  induction txs with
  | nil => rfl
  | cons stx rest ih =>
    have hhead : dispatchSlash K ctx stx = .ok ctx := by
      unfold dispatchSlash
      split
      · rename_i d hd
        exact absurd hd (h stx (by simp) d)
      · rfl
    rw [List.foldlM_cons, hhead, ok_bind]
    exact ih (fun t ht => h t (by simp [ht]))

/-- Off an epoch boundary and without disputes, a block is its transactions. -/
theorem commits_plain {s s' : State} {b : Block} {r : Replay} (h : Commits K s b r s')
    (hoff : isEpochBoundary b.header.height = false)
    (hnd : ∀ stx ∈ b.txs, ∀ d, stx.tx ≠ .dispute d) :
    ∃ ctx fee blocks idx, applyTxs K s.beginBlock b.txs = .ok (ctx, r.outcomes) ∧
      s' = { ctx.commit with
        metaHeight := some b.header.height, metaBaseFee := some fee, blocks := blocks, txIndex := idx } := by
  obtain ⟨ctx₁, ctx₂, ctx₃, fee, h₁, h₂, h₃, hr⟩ := replayBlock_ok h.replay
  obtain ⟨blocks, idx, hp⟩ := persist_columns (K := K) r.ctx b
  rw [dispatchSlash_of_no_dispute hnd] at h₂
  obtain rfl := Except.ok.inj h₂
  obtain ⟨-, rfl, -⟩ | ⟨hb, -⟩ := epochHooks_ok h₃
  · refine ⟨ctx₃, fee, blocks, idx, h₁, ?_⟩
    rw [h.stored, hp, hr]
    rfl
  · rw [hoff] at hb
    cases hb

/-- What the slash dispatch keeps of a block's context. -/
structure InBlock (s : State) (ctx : BlockCtx) : Prop where
  state : ctx.state = s
  keyed : Keyed ctx.commit
  unbondIds : UnbondIdsBelow ctx.commit
  counter : (s.metaUnbondId.getD 0).val ≤ (ctx.commit.metaUnbondId.getD 0).val
  proposals : ProposalsInBlock s ctx

theorem inBlock_begin {s : State} (hw : WellFormed s) : InBlock s s.beginBlock where
  state := rfl
  keyed := hw.keyed
  unbondIds := hw.unbondIds
  counter := Nat.le_refl _
  proposals := ⟨hw.proposals, ⟨Nat.le_refl _, Nat.le_succ _⟩, fun _ _ => rfl⟩

theorem applyStakeOp_counter {op : StakeOp} {sender : Address} {height : Height} {o : TxOutcome}
    (h : applyStakeOp ctx op sender height = .ok (ctx', o)) :
    (ctx.commit.metaUnbondId.getD 0).val ≤ (ctx'.commit.metaUnbondId.getD 0).val := by
  cases op with
  | deposit nodeId role poolId amount delegator =>
    rcases applyDeposit_ok h with ⟨rfl, -⟩ | ⟨-, -, balance, -, rfl⟩ <;> exact Nat.le_refl _
  | withdraw nodeId role poolId amount =>
    rcases applyWithdraw_ok h with ⟨rfl, -⟩ | ⟨-, k, entry, rest, completesAt, next, -, -, -, hnext, rfl⟩
    · exact Nat.le_refl _
    · have hmeta : ctx.nextUnbondId = ctx.commit.metaUnbondId.getD 0 := rfl
      simp only [BlockCtx.setNextUnbondId_commit, Option.getD_some]
      rw [hnext, hmeta]
      exact Nat.le_succ _
  | complete nodeId role poolId unbondId =>
    rcases applyComplete_ok h with ⟨rfl, -⟩ | ⟨-, entry, -, -, -, rfl⟩ <;> exact Nat.le_refl _
  | redelegate src dst role amount =>
    rcases applyRedelegate_ok h with ⟨rfl, -⟩ | ⟨-, -, k, entry, rest, -, -, rfl⟩ <;> exact Nat.le_refl _

theorem applyTx_inBlock {s : State} {stx : SignedTransaction} {o : TxOutcome} (hi : InBlock s ctx)
    (h : applyTx K ctx stx = .ok (ctx', o)) : InBlock s ctx' where
  state := (applyTx_state h).trans hi.state
  keyed := applyTx_keyed hi.keyed h
  unbondIds := applyTx_unbondIds hi.unbondIds h
  counter := by
    refine Nat.le_trans hi.counter ?_
    cases htx : stx.tx with
    | stakeOp op =>
      simp only [applyTx, htx] at h
      exact applyStakeOp_counter h
    | _ => rw [((applyTx_frame h).stakes (by simp [htx])).2.2]
  proposals := by
    obtain rfl := hi.state
    have := applyTx_proposals hi.proposals h
    rw [applyTx_state h] at this
    exact this

theorem dispatchSlash_inBlock {s : State} {stx : SignedTransaction} (hw : WellFormed s)
    (hi : InBlock s ctx) (h : dispatchSlash K ctx stx = .ok ctx') : InBlock s ctx' := by
  rcases dispatchSlash_ok h with rfl | ⟨d, report, -, -, hs⟩
  · exact hi
  obtain rfl := hi.state
  have hframe := applySlash_frame hs
  obtain ⟨a, st, un, hc⟩ := applySlash_commit hs
  refine ⟨hframe.state, applySlash_keyed hw.keyed hi.keyed hs,
    applySlash_unbondIds hw.keyed hw.unbondIds hi.counter hi.unbondIds hs, ?_, ?_⟩
  · rw [hframe.metaUnbondId]
    exact hi.counter
  · exact ⟨by rw [hc]; exact hi.proposals.below, by rw [hc]; exact hi.proposals.counter,
      by rw [hc]; exact hi.proposals.kept⟩

/-- After the transactions and the slashes of a block. -/
theorem slashed_inBlock {s : State} {b : Block} {ctx₁ ctx₂ : BlockCtx} {os : List TxOutcome}
    (hw : WellFormed s) (h₁ : applyTxs K s.beginBlock b.txs = .ok (ctx₁, os))
    (h₂ : b.txs.foldlM (dispatchSlash K) ctx₁ = .ok ctx₂) : InBlock s ctx₁ ∧ InBlock s ctx₂ := by
  have hi₁ : InBlock s ctx₁ := (applyTxs_invariant (P := InBlock s)
    (fun c c' t o _ _ hc hstep => applyTx_inBlock hc hstep) rfl (inBlock_begin hw) h₁).2
  exact ⟨hi₁, foldlM_invariant (InBlock s) _ _
    (fun c c' t _ hc hstep => dispatchSlash_inBlock hw hc hstep) hi₁ h₂⟩

/-- Governance writes under ids that exist. -/
theorem processGovernanceProposals_below {now : Timestamp}
    (hb : ∀ id r, ctx.state.proposals.get id = some r → id.val < ctx.commit.nextProposalId.val)
    (hp : ProposalsBelow ctx.commit) (h : processGovernanceProposals ctx now = .ok ctx') :
    ProposalsBelow ctx'.commit := by
  refine (foldlM_invariant (fun c : BlockCtx => ProposalsBelow c.commit ∧
    c.commit.metaProposalId = ctx.commit.metaProposalId) _ _ ?_ ⟨hp, rfl⟩ h).1
  rintro c c' ⟨id, record⟩ hmem ⟨hc, hm⟩ hf
  obtain rfl | ⟨a, phase, ha⟩ := advanceProposal_commit hf
  · exact ⟨hc, hm⟩
  · refine ⟨?_, by rw [ha]; exact hm⟩
    have hnext : c'.commit.nextProposalId = ctx.commit.nextProposalId := by
      simp only [State.nextProposalId, ha, hm]
    have hnext' : c.commit.nextProposalId = ctx.commit.nextProposalId := by
      simp only [State.nextProposalId, hm]
    intro id' r' hget
    rw [hnext]
    rw [ha] at hget
    simp only [Column.get_write] at hget
    split at hget
    · rename_i hid
      rw [← hid]
      exact hb id record (Column.get_eq_some.mpr hmem)
    · have := hc id' r' hget
      rw [hnext'] at this
      exact this

theorem replayBlock_wellFormed {s : State} {b : Block} {r : Replay} (hw : WellFormed s)
    (h : replayBlock K s b = .ok r) : WellFormed r.ctx.commit := by
  obtain ⟨ctx₁, ctx₂, ctx₃, fee, h₁, h₂, h₃, hr⟩ := replayBlock_ok h
  obtain ⟨-, hi⟩ := slashed_inBlock hw h₁ h₂
  obtain ⟨a, v, rw', p, hc⟩ := epochHooks_commit h₃
  rw [hr]
  refine ⟨⟨?_, ?_⟩, ?_, ?_⟩
  · show ∀ k e, ctx₃.commit.stakes.get k = some e → e.key = k
    rw [hc]
    exact hi.keyed.stakes
  · show ∀ k u, ctx₃.commit.unbondings.get k = some u → u.unbondId = k.unbondId
    rw [hc]
    exact hi.keyed.unbondings
  · show UnbondIdsBelow ctx₃.commit
    rw [hc]
    exact hi.unbondIds
  · show ProposalsBelow ctx₃.commit
    obtain ⟨-, rfl, -⟩ | ⟨-, rotated, n, paid, g₁, g₂, g₃⟩ := epochHooks_ok h₃
    · exact hi.proposals.below
    · obtain ⟨v', hv⟩ := recomputeValidatorSet_commit g₁
      obtain ⟨x, y, hxy⟩ := epochBoundaryMint_commit g₂
      have hstate : paid.state = s :=
        ((epochBoundaryMint_frame g₂).state.trans (recomputeValidatorSet_frame g₁).state).trans hi.state
      have hcommit : paid.commit.proposals = ctx₂.commit.proposals ∧
          paid.commit.metaProposalId = ctx₂.commit.metaProposalId := by
        rw [hxy, hv]
        exact ⟨rfl, rfl⟩
      have hnext : paid.commit.nextProposalId = ctx₂.commit.nextProposalId := by
        simp only [State.nextProposalId, hcommit.2]
      refine processGovernanceProposals_below ?_ ?_ g₃
      · intro id rec hget
        rw [hstate] at hget
        rw [hnext]
        exact Nat.lt_of_lt_of_le (hw.proposals id rec hget) hi.proposals.counter.1
      · intro id rec hget
        rw [hnext]
        rw [hcommit.1] at hget
        exact hi.proposals.below id rec hget

theorem commits_wellFormed {s s' : State} {b : Block} {r : Replay} (hw : WellFormed s)
    (h : Commits K s b r s') : WellFormed s' := by
  have hr := replayBlock_wellFormed hw h.replay
  obtain ⟨blocks, idx, hp⟩ := persist_columns (K := K) r.ctx b
  rw [h.stored, hp]
  exact ⟨⟨hr.keyed.stakes, hr.keyed.unbondings⟩, hr.unbondIds, hr.proposals⟩

/-- Every store a run reaches from the empty one is well formed. -/
theorem run_wellFormed {hist : List (Block × Replay)} {s : State} (h : Run K State.empty hist s) :
    WellFormed s := by
  induction h with
  | nil => exact wellFormed_empty
  | snoc _ step ih => exact commits_wellFormed ih step

theorem run_keeps_wellFormed {s t : State} {hist : List (Block × Replay)} (hw : WellFormed s)
    (run : Run K s hist t) : WellFormed t := by
  induction run with
  | nil => exact hw
  | snoc _ step ih => exact commits_wellFormed ih step

/-- Every block of a run from a well-formed store was committed on one. -/
theorem run_step_wellFormed {s t : State} {hist : List (Block × Replay)} (hw : WellFormed s)
    (run : Run K s hist t) {p : Block × Replay} (hp : p ∈ hist) :
    ∃ u u', WellFormed u ∧ Commits K u p.1 p.2 u' := by
  induction run with
  | nil => simp at hp
  | snoc run step ih =>
    rcases List.mem_append.mp hp with hp | hp
    · exact ih hp
    · rw [List.mem_singleton.mp hp]
      exact ⟨_, _, run_keeps_wellFormed hw run, step⟩

end

end Arknet.Laws
