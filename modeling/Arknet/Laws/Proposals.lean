import Arknet.Lib.Trace
import Arknet.Laws.Invariants

/-!
Proposals across a block. Its transactions may store new records under the committed counter's value
and nowhere else; then, on an epoch boundary, the governance hook moves the records of the committed
store, each by its own iteration (`governance_item`).
-/

namespace Arknet.Laws

open Machine Store Arknet.Chain Arknet.Staking Arknet.Payments Arknet.Governance Arknet.Consensus

/-- The record is past its vote. -/
def Resolved (record : ProposalRecord) : Prop := record.phase ≠ .discussion ∧ record.phase ≠ .voting

instance (record : ProposalRecord) : Decidable (Resolved record) :=
  inferInstanceAs (Decidable (_ ∧ _))

/-- No vote ends: the record stays, or its vote is opened. -/
def GoesOn (before after : ProposalRecord) : Prop :=
  after = before ∨ (before.phase = .discussion ∧ after = { before with phase := .voting })

theorem GoesOn.resolved_iff {before after : ProposalRecord} (h : GoesOn before after) :
    after.proposal = before.proposal ∧ (Resolved after ↔ Resolved before) := by
  obtain rfl | ⟨hphase, rfl⟩ := h
  · exact ⟨rfl, Iff.rfl⟩
  · simp [Resolved, hphase]

/-- The vote on the record is over by `now`. -/
def VoteEnds (now : Timestamp) (record : ProposalRecord) : Prop :=
  record.phase = .voting ∧ record.proposal.votingEnds ≤ now

instance (now : Timestamp) (record : ProposalRecord) : Decidable (VoteEnds now record) :=
  inferInstanceAs (Decidable (_ ∧ _))

section

variable (K : Primitives)

/-- The context in which the governance hook of a block starts, when it runs. -/
def governanceStart (s : State) (b : Block) : Exec (Option BlockCtx) := do
  let (ctx, _) ← applyTxs K s.beginBlock b.txs
  let ctx ← b.txs.foldlM (dispatchSlash K) ctx
  if isEpochBoundary b.header.height then do
    let (ctx, _) ← recomputeValidatorSet ctx b.header.height
    let (ctx, _) ← epochBoundaryMint ctx (satSub (epochForHeight b.header.height) 1) b.header.height
    pure (some ctx)
  else pure none

/-- What the iterations of the governance hook emit in a block. -/
def governanceEvents {ε : Type} (emit : BlockCtx → U64 × ProposalRecord → BlockCtx → List ε) (s : State)
    (b : Block) : List ε :=
  match governanceStart K s b with
  | .ok (some ctx) => Trace.ofLoop (advanceProposal s.totalBondedStake b.header.timestampMs) emit ctx
      s.iterProposals
  | _ => []

/-- The governance hook of a block meets the record under `id` in the context `c`. -/
def Meets (s : State) (b : Block) (id : U64) (c : BlockCtx) : Prop :=
  ∃ start before record after, governanceStart K s b = .ok (some start) ∧
    s.iterProposals = before ++ (id, record) :: after ∧
    before.foldlM (advanceProposal s.totalBondedStake b.header.timestampMs) start = .ok c

end

/-- Each record is met once. -/
theorem Meets.unique {K : Primitives} {s : State} {b : Block} {id : U64} {c d : BlockCtx}
    (h : Meets K s b id c) (h' : Meets K s b id d) : c = d := by
  obtain ⟨start, before, record, after, hstart, hsplit, hc⟩ := h
  obtain ⟨start', before', record', after', hstart', hsplit', hd⟩ := h'
  rw [hstart] at hstart'
  obtain rfl := Option.some.inj (Except.ok.inj hstart')
  obtain ⟨rfl, -⟩ := Trace.split_unique Prod.fst s.proposals.keys_nodup hsplit hsplit' rfl
  rw [hc] at hd
  exact Except.ok.inj hd

/-! ## One iteration of the hook -/

section

variable {bonded : Amount} {now : Timestamp} {ctx ctx' : BlockCtx}

/-- The phase a verdict ends in. -/
def verdict : TallyOutcome → ProposalPhase
  | .passed => .passed
  | .rejected => .rejected
  | .rejectedWithVeto => .rejectedWithVeto

/-- A vote that ends: the tally gives a verdict, and unless it is a veto the deposit goes back. -/
theorem advanceProposal_ends {id : U64} {record : ProposalRecord} (hv : VoteEnds now record)
    (h : advanceProposal bonded now ctx (id, record) = .ok ctx') :
    ∃ outcome, (tallyVotes ctx id).evaluate bonded = .ok outcome ∧
      ctx' = (if outcome = .rejectedWithVeto then ctx
        else returnDeposit ctx record.proposal.proposer record.proposal.deposit).setProposal id
          { record with phase := verdict outcome } := by
  simp only [advanceProposal, hv.1, if_neg (not_lt.mpr hv.2), bind_eq_ok] at h
  obtain ⟨outcome, heval, h⟩ := h
  refine ⟨outcome, heval, ?_⟩
  cases outcome with
  | passed =>
    simp only [pure_eq_ok] at h
    exact h.symm
  | rejected =>
    simp only [pure_eq_ok] at h
    exact h.symm
  | rejectedWithVeto =>
    simp only [pure_eq_ok] at h
    exact h.symm

/-- Otherwise an iteration opens a vote or does nothing. -/
theorem advanceProposal_not_ends {id : U64} {record : ProposalRecord} (hv : ¬ VoteEnds now record)
    (h : advanceProposal bonded now ctx (id, record) = .ok ctx') :
    ctx' = ctx ∨
      (record.phase = .discussion ∧ ctx' = ctx.setProposal id { record with phase := .voting }) := by
  obtain rfl | ⟨hphase, -, rfl⟩ | ⟨hphase, hends, -⟩ := advanceProposal_ok h
  · exact .inl rfl
  · exact .inr ⟨hphase, rfl⟩
  · exact absurd ⟨hphase, hends⟩ hv

/-- What an iteration leaves of its own record. -/
theorem advanceProposal_record {id : U64} {record : ProposalRecord}
    (hget : ctx.commit.proposals.get id = some record)
    (h : advanceProposal bonded now ctx (id, record) = .ok ctx') :
    ∃ after, ctx'.commit.proposals.get id = some after ∧
      (VoteEnds now record → ∃ outcome, after = { record with phase := verdict outcome }) ∧
      (¬ VoteEnds now record → GoesOn record after) := by
  by_cases hv : VoteEnds now record
  · obtain ⟨outcome, -, rfl⟩ := advanceProposal_ends hv h
    refine ⟨{ record with phase := verdict outcome }, ?_, fun _ => ⟨outcome, rfl⟩, fun hn => absurd hv hn⟩
    rw [BlockCtx.setProposal_commit]
    exact Column.get_write_self _ _ _
  · rcases advanceProposal_not_ends hv h with rfl | ⟨hphase, rfl⟩
    · exact ⟨record, hget, fun he => absurd he hv, fun _ => .inl rfl⟩
    · refine ⟨{ record with phase := .voting }, ?_, fun he => absurd he hv, fun _ => .inr ⟨hphase, rfl⟩⟩
      rw [BlockCtx.setProposal_commit]
      exact Column.get_write_self _ _ _

theorem resolved_verdict (record : ProposalRecord) (outcome : TallyOutcome) :
    Resolved { record with phase := verdict outcome } := by
  cases outcome <;> simp [Resolved, verdict]

/-- Iterations for other proposals leave a record alone. -/
theorem advanceProposals_other {items : List (U64 × ProposalRecord)} {id : U64}
    (hne : ∀ item ∈ items, item.1 ≠ id) (h : items.foldlM (advanceProposal bonded now) ctx = .ok ctx') :
    ctx'.commit.proposals.get id = ctx.commit.proposals.get id := by
  refine foldlM_invariant (fun c : BlockCtx => c.commit.proposals.get id = ctx.commit.proposals.get id)
    _ _ ?_ rfl h
  rintro c c' ⟨id', record⟩ hmem hc hf
  obtain rfl | ⟨accounts, phase, ha⟩ := advanceProposal_commit hf
  · exact hc
  · rw [ha]
    simp only
    rw [Column.get_write_ne _ (hne _ hmem), hc]

theorem advanceProposals_state {items : List (U64 × ProposalRecord)}
    (h : items.foldlM (advanceProposal bonded now) ctx = .ok ctx') : ctx'.state = ctx.state :=
  (HookFrame.foldlM (fun _ _ _ hf => advanceProposal_frame hf) h).state

/-- The hook's one iteration for a stored record: what it met, what it left, what it emitted. -/
theorem governance_item {ε : Type} {emit : BlockCtx → U64 × ProposalRecord → BlockCtx → List ε}
    {s : State} {id : U64} {record : ProposalRecord}
    (quiet : ∀ c item c', item.1 ≠ id → emit c item c' = []) (hget : s.proposals.get id = some record)
    (h : s.iterProposals.foldlM (advanceProposal bonded now) ctx = .ok ctx') :
    ∃ c c', advanceProposal bonded now c (id, record) = .ok c' ∧
      (∃ before after, s.iterProposals = before ++ (id, record) :: after ∧
        before.foldlM (advanceProposal bonded now) ctx = .ok c) ∧
      c.state = ctx.state ∧ c.commit.proposals.get id = ctx.commit.proposals.get id ∧
      ctx'.commit.proposals.get id = c'.commit.proposals.get id ∧
      Trace.ofLoop (advanceProposal bonded now) emit ctx s.iterProposals = emit c (id, record) c' := by
  obtain ⟨before, after, hsplit⟩ := List.append_of_mem (Column.get_eq_some.mp hget)
  obtain ⟨c, c', h₁, h₂, h₃, hne, htrace⟩ := Trace.ofLoop_keyed Prod.fst
    (fun c item c' hi _ => quiet c item c' hi) s.proposals.keys_nodup hsplit h
  exact ⟨c, c', h₂, ⟨before, after, hsplit, h₁⟩, advanceProposals_state h₁,
    advanceProposals_other (fun item hi => hne item (by simp [hi])) h₁,
    advanceProposals_other (fun item hi => hne item (by simp [hi])) h₃, htrace⟩

/-- Where no record is stored the hook does nothing. -/
theorem governance_absent {ε : Type} {emit : BlockCtx → U64 × ProposalRecord → BlockCtx → List ε}
    {s : State} {id : U64} (quiet : ∀ c item c', item.1 ≠ id → emit c item c' = [])
    (hget : s.proposals.get id = none)
    (h : s.iterProposals.foldlM (advanceProposal bonded now) ctx = .ok ctx') :
    ctx'.commit.proposals.get id = ctx.commit.proposals.get id ∧
      Trace.ofLoop (advanceProposal bonded now) emit ctx s.iterProposals = [] := by
  have hne : ∀ item ∈ s.iterProposals, item.1 ≠ id := by
    rintro ⟨id', record⟩ hmem rfl
    rw [Column.get_eq_some.mpr hmem] at hget
    cases hget
  exact ⟨advanceProposals_other hne h,
    Trace.ofLoop_quiet (fun c item c' hmem _ => quiet c item c' (hne item hmem)) ctx⟩

end

/-! ## One block -/

section

variable {K : Primitives}

/-- The proposals a list of transactions brings, each with its signer's address. -/
def proposalsIn (K : Primitives) (txs : List SignedTransaction) : List (Address × Proposal) :=
  txs.filterMap (fun stx =>
    match stx.tx with
    | .govProposal p => some (deriveAddressFromSigner K stx.signer, p)
    | _ => none)

theorem proposalsIn_cons (stx : SignedTransaction) (txs : List SignedTransaction) :
    proposalsIn K (stx :: txs) = proposalsIn K [stx] ++ proposalsIn K txs := by
  rw [← List.singleton_append]
  exact List.filterMap_append

theorem proposalsIn_applied (stx : SignedTransaction) (o : TxOutcome) (txs : List SignedTransaction)
    (os : List TxOutcome) :
    proposalsIn K (appliedTxs (stx :: txs) (o :: os)) =
      proposalsIn K (appliedTxs [stx] [o]) ++ proposalsIn K (appliedTxs txs os) := by
  simp only [appliedTxs_cons]
  split
  · exact proposalsIn_cons stx _
  · rfl

/-- A record as its transaction stored it. -/
def Stored (p : Proposal) (o : Option ProposalRecord) : Prop :=
  ∃ record, o = some record ∧ record.proposal = p ∧ record.phase = .discussion

/-- The record under the committed counter's value is the last proposal's; the others stay. -/
theorem applyTx_record {ctx ctx' : BlockCtx} {stx : SignedTransaction} {o : TxOutcome}
    (h : applyTx K ctx stx = .ok (ctx', o)) (id : U64) :
    (ctx'.commit.proposals.get id = ctx.commit.proposals.get id ∧
      (id = ctx.state.nextProposalId → proposalsIn K (appliedTxs [stx] [o]) = [])) ∨
    (id = ctx.state.nextProposalId ∧ ∃ payer p, proposalsIn K (appliedTxs [stx] [o]) = [(payer, p)] ∧
      Stored p (ctx'.commit.proposals.get id)) := by
  cases htx : stx.tx with
  | govProposal p =>
    simp only [applyTx, htx] at h
    rcases applyGovProposal_ok h with ⟨rfl, ho⟩ | ⟨rfl, -, balance, next, -, -, rfl⟩
    · exact .inl ⟨rfl, fun _ => by simp [appliedTxs, ho, proposalsIn]⟩
    · simp only [BlockCtx.setNextProposalId_commit, BlockCtx.setProposal_commit,
        BlockCtx.setAccount_commit]
      by_cases hid : id = ctx.state.nextProposalId
      · refine .inr ⟨hid, deriveAddressFromSigner K stx.signer, p, ?_, ?_⟩
        · simp [appliedTxs, TxOutcome.isApplied, proposalsIn, htx]
        · rw [hid, Column.get_write_self]
          exact ⟨_, rfl, rfl, rfl⟩
      · exact .inl ⟨Column.get_write_ne _ (Ne.symm hid) _, fun he => absurd he hid⟩
  | _ =>
    refine .inl ⟨by rw [((applyTx_frame h).proposals (by simp [htx])).1], fun _ => ?_⟩
    simp only [appliedTxs_cons]
    split <;> simp [proposalsIn, appliedTxs, htx]

/-- After a block's transactions, the record under the committed counter's value is the last applied
proposal's, and every other record is the committed one. -/
theorem applyTxs_record {txs : List SignedTransaction} {os : List TxOutcome} {ctx ctx' : BlockCtx}
    (h : applyTxs K ctx txs = .ok (ctx', os)) (id : U64) :
    (id ≠ ctx.state.nextProposalId → ctx'.commit.proposals.get id = ctx.commit.proposals.get id) ∧
    (id = ctx.state.nextProposalId → match (proposalsIn K (appliedTxs txs os)).getLast? with
      | none => ctx'.commit.proposals.get id = ctx.commit.proposals.get id
      | some last => Stored last.2 (ctx'.commit.proposals.get id)) := by
  induction txs generalizing ctx os with
  | nil =>
    obtain ⟨rfl, rfl⟩ := applyTxs_nil_ok.mp h
    exact ⟨fun _ => rfl, fun _ => rfl⟩
  | cons stx rest ih =>
    obtain ⟨mid, o, os', h₁, h₂, rfl⟩ := applyTxs_cons_ok.mp h
    have hrest := ih h₂
    rw [applyTx_state h₁] at hrest
    rw [proposalsIn_applied]
    rcases applyTx_record h₁ id with ⟨hkeep, hnil⟩ | ⟨hid, payer, p, hone, hstored⟩
    · rw [hkeep] at hrest
      refine ⟨hrest.1, fun hid => ?_⟩
      rw [hnil hid, List.nil_append]
      exact hrest.2 hid
    · refine ⟨fun hne => absurd hid hne, fun _ => ?_⟩
      have hlast := hrest.2 hid
      rw [hone]
      cases hl : (proposalsIn K (appliedTxs rest os')).getLast? with
      | none =>
        rw [hl] at hlast
        rw [List.getLast?_eq_none_iff.mp hl]
        simp only at hlast
        rw [← hlast] at hstored
        exact hstored
      | some last =>
        rw [hl] at hlast
        rw [List.getLast?_append, hl]
        exact hlast

/-- What a committed block does to votes and proposals: its transactions, then, on a boundary, the
governance hook. -/
theorem commits_governance {s s' : State} {b : Block} {r : Replay} (h : Commits K s b r s') :
    ∃ ctx, applyTxs K s.beginBlock b.txs = .ok (ctx, r.outcomes) ∧ s'.votes = ctx.commit.votes ∧
      ((isEpochBoundary b.header.height = false ∧ governanceStart K s b = .ok none ∧
          s'.proposals = ctx.commit.proposals) ∨
        (isEpochBoundary b.header.height = true ∧ ∃ start final,
          governanceStart K s b = .ok (some start) ∧ start.state = s ∧
          start.commit.proposals = ctx.commit.proposals ∧
          s.iterProposals.foldlM (advanceProposal s.totalBondedStake b.header.timestampMs) start =
            .ok final ∧ s'.proposals = final.commit.proposals)) := by
  obtain ⟨ctx₁, ctx₂, ctx₃, fee, h₁, h₂, h₃, hr⟩ := replayBlock_ok h.replay
  obtain ⟨blocks, idx, hp⟩ := persist_columns (K := K) r.ctx b
  have hs₂ : ctx₂.state = s :=
    (HookFrame.foldlM (fun _ _ _ hf => dispatchSlash_frame hf) h₂).state.trans (applyTxs_state h₁)
  have hvotes : ctx₃.commit.votes = ctx₁.commit.votes :=
    ((HookFrame.foldlM (fun _ _ _ hf => dispatchSlash_frame hf) h₂).trans (epochHooks_frame h₃)).votes
  have hprops : ctx₂.commit.proposals = ctx₁.commit.proposals := by
    refine foldlM_invariant (fun c : BlockCtx => c.commit.proposals = ctx₁.commit.proposals) _ _
      (fun c c' t _ hc hf => ?_) rfl h₂
    rcases dispatchSlash_ok hf with rfl | ⟨d, report, -, -, hs⟩
    · exact hc
    · obtain ⟨accounts, stakes, unbondings, hcommit⟩ := applySlash_commit hs
      rw [hcommit]
      exact hc
  have hs' : s'.votes = ctx₃.commit.votes ∧ s'.proposals = ctx₃.commit.proposals := by
    rw [h.stored, hp, hr]
    exact ⟨rfl, rfl⟩
  refine ⟨ctx₁, h₁, hs'.1.trans hvotes, ?_⟩
  obtain ⟨hb, rfl, -⟩ | ⟨hb, rotated, n, paid, g₁, g₂, g₃⟩ := epochHooks_ok h₃
  · refine .inl ⟨hb, ?_, hs'.2.trans hprops⟩
    simp only [governanceStart, h₁, h₂, ok_bind, hb]
    rfl
  · have hpaid : paid.state = s :=
      ((epochBoundaryMint_frame g₂).state.trans (recomputeValidatorSet_frame g₁).state).trans hs₂
    obtain ⟨v, hv⟩ := recomputeValidatorSet_commit g₁
    obtain ⟨x, y, hxy⟩ := epochBoundaryMint_commit g₂
    refine .inr ⟨hb, paid, ctx₃, ?_, hpaid, ?_, ?_, hs'.2⟩
    · simp only [governanceStart, h₁, h₂, ok_bind, hb, g₁, g₂]
      rfl
    · rw [hxy, hv]
      exact hprops
    · rw [processGovernanceProposals, hpaid] at g₃
      exact g₃

/-- The proposal is past its vote in the store. -/
def ResolvedAt (s : State) (id : U64) : Prop := ∃ record, s.proposals.get id = some record ∧ Resolved record

/-- The block ends the vote on a stored proposal. -/
structure EndsVote (s : State) (b : Block) (id : U64) (record : ProposalRecord) : Prop where
  boundary : isEpochBoundary b.header.height = true
  stored : s.proposals.get id = some record
  ended : VoteEnds b.header.timestampMs record

theorem EndsVote.not_resolved {s : State} {b : Block} {id : U64} {record : ProposalRecord}
    (h : EndsVote s b id record) : ¬ ResolvedAt s id := by
  rintro ⟨record', hget, hres⟩
  rw [h.stored] at hget
  obtain rfl := Option.some.inj hget
  exact hres.2 h.ended.1

/-- A block's transactions keep the stored records and add none past its discussion. -/
theorem applyTxs_stored {s : State} {b : Block} {os : List TxOutcome} {ctx : BlockCtx} (hw : WellFormed s)
    (h : applyTxs K s.beginBlock b.txs = .ok (ctx, os)) (id : U64) :
    (∀ record, s.proposals.get id = some record → ctx.commit.proposals.get id = some record) ∧
    (s.proposals.get id = none → ∀ record, ctx.commit.proposals.get id = some record →
      record.phase = .discussion) := by
  have hrecord := applyTxs_record h id
  rw [State.beginBlock_state, State.beginBlock_commit] at hrecord
  constructor
  · intro record hget
    rw [hrecord.1 (fun he => by have := hw.proposals id record hget; rw [he] at this; omega), hget]
  · intro hnone record hget
    by_cases hid : id = s.nextProposalId
    · have hlast := hrecord.2 hid
      split at hlast
      · rw [hlast, hnone] at hget
        cases hget
      · obtain ⟨record', hget', -, hphase⟩ := hlast
        rw [hget'] at hget
        obtain rfl := Option.some.inj hget
        exact hphase
    · rw [hrecord.1 hid, hnone] at hget
      cases hget

/-- Where no vote ends, a proposal is resolved when it was. -/
theorem resolvedAt_iff {s s' : State} {id : U64}
    (hsome : ∀ record, s.proposals.get id = some record →
      ∃ after, s'.proposals.get id = some after ∧ GoesOn record after)
    (hnone : s.proposals.get id = none → ∀ record, s'.proposals.get id = some record →
      record.phase = .discussion) : ResolvedAt s' id ↔ ResolvedAt s id := by
  unfold ResolvedAt
  cases hget : s.proposals.get id with
  | none =>
    constructor
    · rintro ⟨record, hget', hres⟩
      exact absurd (hnone hget record hget') hres.1
    · rintro ⟨record, hget', -⟩
      cases hget'
  | some record =>
    obtain ⟨after, hafter, hon⟩ := hsome record hget
    simp only [hafter, Option.some.injEq, exists_eq_left', hon.resolved_iff.2]

/-- A committed block ends the vote on a proposal, by one iteration of the hook on the record as the
store has it, or it keeps the proposal, and whether it is resolved, as it was. -/
theorem governance_resolves {ε : Type} {s s' : State} {b : Block} {r : Replay} {ctx : BlockCtx} (id : U64)
    (emit : BlockCtx → U64 × ProposalRecord → BlockCtx → List ε)
    (quiet : ∀ c item c', ¬ (item.1 = id ∧ VoteEnds b.header.timestampMs item.2) → emit c item c' = [])
    (hw : WellFormed s) (h : Commits K s b r s')
    (htxs : applyTxs K s.beginBlock b.txs = .ok (ctx, r.outcomes)) :
    (∃ record c c', EndsVote s b id record ∧ Meets K s b id c ∧ c.state = s ∧
        c.commit.proposals.get id = some record ∧
        advanceProposal s.totalBondedStake b.header.timestampMs c (id, record) = .ok c' ∧
        s'.proposals.get id = c'.commit.proposals.get id ∧
        governanceEvents K emit s b = emit c (id, record) c') ∨
      ((∀ record, ¬ EndsVote s b id record) ∧ governanceEvents K emit s b = [] ∧
        (ResolvedAt s' id ↔ ResolvedAt s id) ∧
        (∀ record, s.proposals.get id = some record →
          ∃ after, s'.proposals.get id = some after ∧ GoesOn record after) ∧
        (s.proposals.get id = none → s'.proposals.get id = ctx.commit.proposals.get id)) := by
  obtain ⟨ctx', htxs', -, hcases⟩ := commits_governance h
  obtain ⟨rfl, -⟩ := Prod.mk.inj (Except.ok.inj (htxs.symm.trans htxs'))
  obtain ⟨hkept, hfresh⟩ := applyTxs_stored hw htxs id
  obtain ⟨hb, hstart, hprops⟩ | ⟨hb, start, final, hstart, hstate, hsame, hloop, hprops⟩ := hcases
  · -- no boundary: the hook does not run
    have hsome : ∀ record, s.proposals.get id = some record →
        ∃ after, s'.proposals.get id = some after ∧ GoesOn record after := by
      intro record hget
      exact ⟨record, by rw [hprops]; exact hkept record hget, .inl rfl⟩
    have hnone : s.proposals.get id = none → s'.proposals.get id = ctx.commit.proposals.get id := by
      intro _
      rw [hprops]
    refine .inr ⟨?_, ?_, resolvedAt_iff hsome (fun hn => by rw [hnone hn]; exact hfresh hn), hsome, hnone⟩
    · intro record he
      rw [he.boundary] at hb
      cases hb
    · simp only [governanceEvents, hstart]
  · have hevents : governanceEvents K emit s b =
        Trace.ofLoop (advanceProposal s.totalBondedStake b.header.timestampMs) emit start
          s.iterProposals := by
      simp only [governanceEvents, hstart]
    rw [hevents]
    cases hget : s.proposals.get id with
    | none =>
      -- the hook goes over the committed records and does not meet this one
      obtain ⟨hfinal, hnil⟩ := governance_absent
        (fun c item c' hi => quiet c item c' (fun he => hi he.1)) hget hloop
      have hnone : s'.proposals.get id = ctx.commit.proposals.get id := by rw [hprops, hfinal, hsame]
      have hsome : ∀ record, s.proposals.get id = some record →
          ∃ after, s'.proposals.get id = some after ∧ GoesOn record after := by
        intro record hr
        rw [hget] at hr
        cases hr
      refine .inr ⟨?_, hnil, resolvedAt_iff hsome (fun _ => by rw [hnone]; exact hfresh hget), ?_,
        fun _ => hnone⟩
      · intro record he
        rw [he.stored] at hget
        cases hget
      · intro record hr
        cases hr
    | some record =>
      obtain ⟨c, c', hadv, ⟨before, after, hsplit, hbefore⟩, hcs, hcget, hfinal, htrace⟩ :=
        governance_item
        (fun c item c' hi => quiet c item c' (fun he => hi he.1)) hget hloop
      have hmet : c.commit.proposals.get id = some record := by rw [hcget, hsame, hkept record hget]
      by_cases hends : VoteEnds b.header.timestampMs record
      · exact .inl ⟨record, c, c', ⟨hb, hget, hends⟩,
          ⟨start, before, record, after, hstart, hsplit, hbefore⟩, hcs.trans hstate, hmet, hadv,
          by rw [hprops, hfinal], htrace⟩
      · obtain ⟨left, hleft, -, hon⟩ := advanceProposal_record hmet hadv
        have hsome : ∀ record', some record = some record' →
            ∃ after, s'.proposals.get id = some after ∧ GoesOn record' after := by
          intro record' heq
          obtain rfl := Option.some.inj heq
          exact ⟨left, by rw [hprops, hfinal, hleft], hon hends⟩
        refine .inr ⟨?_, ?_, resolvedAt_iff (by rw [hget]; exact hsome) (fun hn => by rw [hget] at hn; cases hn),
          hsome, fun hn => by cases hn⟩
        · intro record' he
          have hsame' := he.stored
          rw [hget] at hsame'
          obtain rfl := Option.some.inj hsame'
          exact hends he.ended
        · rw [htrace]
          exact quiet c (id, record) c' (fun he => hends he.2)

end

end Arknet.Laws
