import Arknet.Laws.Invariants
import Arknet.Chain.Reads

/-!
One context for a whole block against one context for each transaction. Escrows, models, proposals
and votes are read from the committed store also when the block has written them already, so the two
agree exactly on the lists in which no transaction asks for something an earlier one has changed
(`NoStale`).
-/

namespace Arknet.Laws

open Machine Store Arknet.Chain Arknet.Staking Arknet.Payments Arknet.Governance Arknet.Consensus

section

variable (K : Primitives)

/-- All transactions in one context, then one commit. -/
def runBatch (s : State) (txs : List SignedTransaction) : Exec (State × List TxOutcome) := do
  let (ctx, os) ← applyTxs K s.beginBlock txs
  pure (ctx.commit, os)

/-- Each transaction in its own context, committed before the next one begins. -/
def runSequential : State → List SignedTransaction → Exec (State × List TxOutcome)
  | s, [] => pure (s, [])
  | s, stx :: rest => do
    let (ctx, o) ← applyTx K s.beginBlock stx
    let (t, os) ← runSequential ctx.commit rest
    pure (t, o :: os)

/-- The committed store answers the transaction as the buffered writes would. -/
def ReadsFresh (ctx : BlockCtx) (stx : SignedTransaction) : Prop :=
  SameReads K ctx ctx.commit.beginBlock stx

/-- No transaction of the list reads what an earlier one has changed. -/
def NoStale : BlockCtx → List SignedTransaction → Prop := EachTx K (ReadsFresh K)

end

/-! ## What a block has buffered -/

/-- An escrow under the buffered writes: as committed, locked by the block, or settled by it. -/
inductive EscrowStep : Option EscrowEntry → Option EscrowEntry → Prop where
  | same (o : Option EscrowEntry) : EscrowStep o o
  | locked {e : EscrowEntry} (h : e.state = .locked) : EscrowStep none (some e)
  | settled {e : EscrowEntry} (h : e.state = .locked) :
      EscrowStep (some e) (some { e with state := .settled })

/-- A context reached by transactions alone. -/
structure Buffered (ctx : BlockCtx) : Prop where
  fee : ctx.commit.metaBaseFee = ctx.state.metaBaseFee
  validators : ctx.commit.validators = ctx.state.validators
  escrows : ∀ j, EscrowStep (ctx.state.escrows.get j) (ctx.commit.escrows.get j)
  counter : ctx.commit.nextProposalId = ctx.state.nextProposalId ∨
    ctx.commit.nextProposalId.val = ctx.state.nextProposalId.val + 1

theorem buffered_begin (s : State) : Buffered s.beginBlock :=
  ⟨rfl, rfl, fun _ => .same _, .inl rfl⟩

section

variable {K : Primitives} {ctx ctx' : BlockCtx} {stx : SignedTransaction} {o : TxOutcome}

/-- A proposal moves the buffered counter to one past the committed one; nothing else moves it. -/
theorem applyTx_counter (h : applyTx K ctx stx = .ok (ctx', o)) :
    ctx'.commit.nextProposalId = ctx.commit.nextProposalId ∨
      ctx'.commit.nextProposalId.val = ctx.state.nextProposalId.val + 1 := by
  cases htx : stx.tx with
  | govProposal p =>
    simp only [applyTx, htx] at h
    rcases applyGovProposal_ok h with ⟨rfl, -⟩ | ⟨-, -, balance, next, -, hnext, rfl⟩
    · exact .inl rfl
    · exact .inr hnext
  | _ =>
    obtain ⟨-, hm⟩ := (applyTx_frame h).proposals (by simp [htx])
    exact .inl (by simp only [State.nextProposalId, hm])

/-- The escrow a transaction locks or settles steps on from the committed one; others stay. -/
theorem applyTx_escrows (h : applyTx K ctx stx = .ok (ctx', o)) (j : JobId) :
    ctx'.commit.escrows.get j = ctx.commit.escrows.get j ∨
      (ctx.state.escrows.get j = none ∧ ∃ e, e.state = .locked ∧ ctx'.commit.escrows.get j = some e) ∨
      (∃ e, ctx.state.escrows.get j = some e ∧ e.state = .locked ∧
        ctx'.commit.escrows.get j = some { e with state := .settled }) := by
  cases htx : stx.tx with
  | escrowLock src jobId amount nonce fee =>
    simp only [applyTx, htx] at h
    rcases applyEscrowLock_ok h with ⟨rfl, -⟩ | ⟨-, -, hnone, -, balance, next, -, -, rfl⟩
    · exact .inl rfl
    · simp only [BlockCtx.setEscrow_commit, BlockCtx.setAccount_commit, Column.get_write]
      split
      · rename_i hj
        subst hj
        exact .inr (.inl ⟨hnone, _, rfl, rfl⟩)
      · exact .inl rfl
  | escrowSettle jobId batchId computeAddr verifierAddr routerAddr treasuryAddr =>
    simp only [applyTx, htx] at h
    rcases applyEscrowSettle_ok h with ⟨rfl, -⟩ | ⟨-, entry, credited, hget, hlocked, hc, rfl⟩
    · exact .inl rfl
    · obtain ⟨accounts, hacc⟩ := creditRewardSplit_commit hc
      simp only [BlockCtx.setEscrow_commit, BlockCtx.setPendingReward_commit, hacc, Column.get_write]
      split
      · rename_i hj
        subst hj
        exact .inr (.inr ⟨entry, hget, hlocked, rfl⟩)
      · exact .inl rfl
  | _ => exact .inl (by rw [(applyTx_frame h).escrows (by simp [htx]) (by simp [htx])])

theorem applyTx_buffered (hb : Buffered ctx) (h : applyTx K ctx stx = .ok (ctx', o)) :
    Buffered ctx' := by
  have hs := applyTx_state h
  have hf := applyTx_frame h
  refine ⟨by rw [hs, hf.metaBaseFee]; exact hb.fee, by rw [hs, hf.validators]; exact hb.validators,
    fun j => ?_, ?_⟩
  · rw [hs]
    rcases applyTx_escrows h j with hget | ⟨hnone, e, he, hget⟩ | ⟨e, hbase, he, hget⟩
    · rw [hget]
      exact hb.escrows j
    · rw [hnone, hget]
      exact .locked he
    · rw [hbase, hget]
      exact .settled he
  · rw [hs]
    rcases applyTx_counter h with hc | hc
    · rw [hc]
      exact hb.counter
    · exact .inr hc

/-! ## Fresh reads -/

/-- With fresh reads the transaction does in the block's context what it would do on its own. -/
theorem applyTx_fresh (hb : Buffered ctx) (hr : ReadsFresh K ctx stx) :
    outcomeView (applyTx K ctx stx) = outcomeView (applyTx K ctx.commit.beginBlock stx) := by
  refine applyTx_view rfl ?_ ?_ hr
  · simp only [State.baseFee, State.beginBlock_state, hb.fee]
  · simp only [State.validatorCount, State.iterValidators, State.beginBlock_state, hb.validators]

theorem batch_of_fresh {txs : List SignedTransaction} (hb : Buffered ctx) (hn : NoStale K ctx txs) :
    (fun p => (p.1.commit, p.2)) <$> applyTxs K ctx txs = runSequential K ctx.commit txs := by
  induction txs generalizing ctx with
  | nil => rfl
  | cons stx rest ih =>
    obtain ⟨hr, hrest⟩ := hn
    have hview := applyTx_fresh hb hr
    simp only [applyTxs, runSequential]
    cases h₁ : applyTx K ctx stx with
    | error p =>
      rw [h₁] at hview
      cases h₂ : applyTx K ctx.commit.beginBlock stx with
      | error q =>
        rw [h₂] at hview
        have hpq : p = q := Except.error.inj hview
        rw [hpq]
        rfl
      | ok out =>
        rw [h₂] at hview
        cases hview
    | ok out =>
      obtain ⟨c, o⟩ := out
      rw [h₁] at hview
      cases h₂ : applyTx K ctx.commit.beginBlock stx with
      | error q =>
        rw [h₂] at hview
        cases hview
      | ok out' =>
        obtain ⟨d, o'⟩ := out'
        rw [h₂] at hview
        obtain ⟨hcd, rfl⟩ := Prod.mk.inj (Except.ok.inj hview)
        have htail := ih (applyTx_buffered hb h₁) (hrest c o h₁)
        simp only at hcd
        rw [hcd] at htail
        simp only [ok_bind]
        rw [← htail]
        cases applyTxs K c rest <;> rfl

/-! ## Stale reads show -/

/-- A lock of value is refused as a duplicate exactly when its job has a committed record. -/
theorem lock_duplicate_iff {sender : Address} {jobId : JobId} {amount : Amount} {nonce : Nonce} {fee : Gas}
    {height : Height} (h : applyEscrowLock ctx sender jobId amount nonce fee height = .ok (ctx', o))
    (hz : amount ≠ 0) :
    o = .rejected (.receiptDoubleAnchor jobId.hexEncode) ↔ (ctx.getEscrow jobId).isSome = true := by
  simp only [applyEscrowLock, if_neg hz] at h
  split at h
  · rename_i hsome
    cases h
    exact ⟨fun _ => hsome, fun _ => rfl⟩
  rename_i hnone
  refine ⟨fun ho => ?_, fun hs => absurd hs hnone⟩
  subst ho
  split at h
  · cases h
  split at h
  · cases h
  simp only [bind_eq_ok] at h
  obtain ⟨_, -, _, -, h⟩ := h
  cases h

theorem model_duplicate_iff {manifest : OnChainModelManifest} {registrar : Address} {deposit : Amount}
    (h : applyRegisterModel ctx manifest registrar deposit = .ok (ctx', o))
    (hd : MODEL_DEPOSIT ≤ deposit) (hid : manifest.modelId ≠ "") :
    o = .rejected (.notYetImplemented "model already registered") ↔
      (ctx.getModel manifest.modelId).isSome = true := by
  simp only [applyRegisterModel, if_neg (not_lt.mpr hd), if_neg hid] at h
  split at h
  · rename_i hsome
    cases h
    exact ⟨fun _ => hsome, fun _ => rfl⟩
  rename_i hnone
  refine ⟨fun ho => ?_, fun hs => absurd hs hnone⟩
  subst ho
  split at h
  · cases h
  simp only [bind_eq_ok] at h
  obtain ⟨_, -, h⟩ := h
  cases h

/-- What a settlement answers for a missing, a closed and a locked escrow. -/
def settleOutcome : Option EscrowEntry → TxOutcome
  | none => .rejected (.notYetImplemented "escrow not found for settle")
  | some e =>
    if e.state ≠ .locked then .rejected (.notYetImplemented "escrow not in Locked state")
    else .applied ESCROW_SETTLE_GAS

theorem settle_outcome {jobId : JobId} {computeAddr verifierAddr routerAddr treasuryAddr : Address}
    {height : Height}
    (h : applyEscrowSettle ctx jobId computeAddr verifierAddr routerAddr treasuryAddr height =
      .ok (ctx', o)) : o = settleOutcome (ctx.getEscrow jobId) := by
  simp only [applyEscrowSettle] at h
  split at h
  · rename_i hnone
    cases h
    rw [hnone]
    rfl
  · rename_i e he
    rw [he]
    simp only [settleOutcome]
    split at h
    · rename_i hs
      cases h
      rw [if_pos hs]
    · rename_i hs
      simp only [bind_eq_ok] at h
      obtain ⟨_, -, h⟩ := h
      cases h
      rw [if_neg hs]

def voteOutcome : Option String → TxOutcome
  | some text => .rejected (.notYetImplemented text)
  | none => .applied GOV_VOTE_GAS

theorem voteOutcome_injective {x y : Option String} (h : voteOutcome x = voteOutcome y) : x = y := by
  cases x <;> cases y <;> simp_all [voteOutcome]

theorem vote_outcome {proposalId : U64} {voter : Address} {choice : VoteChoice}
    (h : applyGovVote ctx proposalId voter choice = .ok (ctx', o)) :
    o = voteOutcome (voteRefusal (ctx.getProposal proposalId) (ctx.getVote ⟨proposalId, voter⟩)) := by
  rw [applyGovVote_eq] at h
  split at h <;> rename_i hv <;> rw [hv] <;> cases h <;> rfl

/-- The block's own lock or settlement of an escrow changes what a settlement answers. -/
theorem EscrowStep.outcome_ne {x y : Option EscrowEntry} (h : EscrowStep x y) (hne : x ≠ y) :
    settleOutcome x ≠ settleOutcome y := by
  cases h with
  | same => exact absurd rfl hne
  | locked he => simp [settleOutcome, he]
  | settled he => simp [settleOutcome, he]

/-- A stale read shows in the outcome, except for a proposal's. -/
theorem stale_shows {d : BlockCtx} {o' : TxOutcome} (hb : Buffered ctx) (hr : ¬ ReadsFresh K ctx stx)
    (hp : ∀ p, stx.tx ≠ .govProposal p) (h₁ : applyTx K ctx stx = .ok (ctx', o))
    (h₂ : applyTx K ctx.commit.beginBlock stx = .ok (d, o')) : o ≠ o' := by
  rintro rfl
  refine hr ?_
  unfold ReadsFresh SameReads
  cases htx : stx.tx with
  | govProposal p => exact absurd htx (hp p)
  | escrowLock src jobId amount nonce fee =>
    simp only [applyTx, htx] at h₁ h₂
    intro hz
    exact Bool.eq_iff_iff.mpr ((lock_duplicate_iff h₁ hz).symm.trans (lock_duplicate_iff h₂ hz))
  | escrowSettle jobId batchId computeAddr verifierAddr routerAddr treasuryAddr =>
    simp only [applyTx, htx] at h₁ h₂
    simp only
    by_contra hne
    exact (hb.escrows jobId).outcome_ne hne ((settle_outcome h₁).symm.trans (settle_outcome h₂))
  | registerModel manifest registrar deposit =>
    simp only [applyTx, htx] at h₁ h₂
    intro hd hid
    exact Bool.eq_iff_iff.mpr ((model_duplicate_iff h₁ hd hid).symm.trans (model_duplicate_iff h₂ hd hid))
  | govVote proposalId voter choice =>
    simp only [applyTx, htx] at h₁ h₂
    exact voteOutcome_injective ((vote_outcome h₁).symm.trans (vote_outcome h₂))
  | _ => trivial

/-- Once a proposal of the block has been stored, the block's counter stays one past the committed. -/
theorem batch_counter {txs : List SignedTransaction} {os : List TxOutcome}
    (hc : ctx.commit.nextProposalId.val = ctx.state.nextProposalId.val + 1)
    (h : applyTxs K ctx txs = .ok (ctx', os)) :
    ctx'.commit.nextProposalId.val = ctx.state.nextProposalId.val + 1 := by
  refine (applyTxs_invariant (s := ctx.state)
    (P := fun c => c.commit.nextProposalId.val = ctx.state.nextProposalId.val + 1) ?_ rfl hc h).2
  intro c c' t o _ hs hcc hstep
  rcases applyTx_counter hstep with hn | hn
  · rw [hn]
    exact hcc
  · rw [hn, hs]

theorem sequential_counter {s t : State} {txs : List SignedTransaction} {os : List TxOutcome}
    (h : runSequential K s txs = .ok (t, os)) : s.nextProposalId.val ≤ t.nextProposalId.val := by
  induction txs generalizing s os with
  | nil =>
    simp only [runSequential, pure_eq_ok, Prod.mk.injEq] at h
    rw [h.1]
  | cons stx rest ih =>
    simp only [runSequential, bind_eq_ok, pure_eq_ok, Prod.exists, Prod.mk.injEq] at h
    obtain ⟨c, o, h₁, t', os', h₂, rfl, -⟩ := h
    have hle := ih h₂
    rcases applyTx_counter h₁ with hn | hn
    · rw [hn] at hle
      exact hle
    · rw [State.beginBlock_state] at hn
      omega

/-- A proposal that reads a stale counter is applied on both sides, under different ids. -/
theorem stale_proposal {d : BlockCtx} {o' : TxOutcome} {p : Proposal} (hb : Buffered ctx)
    (htx : stx.tx = .govProposal p) (hr : ¬ ReadsFresh K ctx stx)
    (h₁ : applyTx K ctx stx = .ok (ctx', o)) (h₂ : applyTx K ctx.commit.beginBlock stx = .ok (d, o')) :
    ctx'.commit.nextProposalId.val = ctx.state.nextProposalId.val + 1 ∧
      d.commit.nextProposalId.val = ctx.state.nextProposalId.val + 2 := by
  unfold ReadsFresh SameReads at hr
  simp only [htx] at hr
  push Not at hr
  obtain ⟨hmin, hbal, hne⟩ := hr
  have hstep : ctx.commit.nextProposalId.val = ctx.state.nextProposalId.val + 1 :=
    hb.counter.resolve_left (fun h => hne h.symm)
  simp only [applyTx, htx] at h₁ h₂
  have happlied : ∀ {c c' : BlockCtx} {height : Height} {o : TxOutcome},
      p.deposit ≤ (c.account (deriveAddressFromSigner K stx.signer)).balance →
      applyGovProposal c (deriveAddressFromSigner K stx.signer) p height = .ok (c', o) →
      c'.commit.nextProposalId.val = c.state.nextProposalId.val + 1 := by
    intro c c' height o hle h
    rcases applyGovProposal_ok h with ⟨-, ho⟩ | ⟨-, -, balance, next, -, hnext, rfl⟩
    · simp only [applyGovProposal, if_neg (not_lt.mpr hmin), if_neg (not_lt.mpr hle), bind_eq_ok] at h
      obtain ⟨_, -, _, -, h⟩ := h
      cases h
      cases ho
    · exact hnext
  refine ⟨happlied hbal h₁, ?_⟩
  have h := happlied (by rw [account_of_commit (c := ctx.commit.beginBlock) (d := ctx) rfl]; exact hbal) h₂
  rw [State.beginBlock_state] at h
  omega

/-- Equal results come from fresh reads only. -/
theorem fresh_of_batch {txs : List SignedTransaction} {os : List TxOutcome} (hb : Buffered ctx)
    (h₁ : applyTxs K ctx txs = .ok (ctx', os))
    (h₂ : runSequential K ctx.commit txs = .ok (ctx'.commit, os)) : NoStale K ctx txs := by
  induction txs generalizing ctx os with
  | nil => trivial
  | cons stx rest ih =>
    obtain ⟨c, o, os₁, hc, hrest, rfl⟩ := applyTxs_cons_ok.mp h₁
    simp only [runSequential, bind_eq_ok, pure_eq_ok, Prod.exists, Prod.mk.injEq, List.cons.injEq] at h₂
    obtain ⟨d, o', hd, t, os₂, hseq, rfl, rfl, rfl⟩ := h₂
    by_cases hr : ReadsFresh K ctx stx
    · have hview := applyTx_fresh hb hr
      rw [hc, hd] at hview
      have hcd : c.commit = d.commit := (Prod.mk.inj (Except.ok.inj hview)).1
      refine ⟨hr, fun c' o'' hc' => ?_⟩
      obtain ⟨rfl, rfl⟩ := Prod.mk.inj (Except.ok.inj (hc.symm.trans hc'))
      exact ih (applyTx_buffered hb hc) hrest (by rw [hcd]; exact hseq)
    · by_cases hp : ∃ p, stx.tx = .govProposal p
      · obtain ⟨p, htx⟩ := hp
        obtain ⟨hcount, hcount'⟩ := stale_proposal hb htx hr hc hd
        have hfinal := batch_counter (by rw [hcount, applyTx_state hc]) hrest
        have hmono := sequential_counter hseq
        rw [applyTx_state hc] at hfinal
        omega
      · exact absurd rfl (stale_shows hb hr (fun p h => hp ⟨p, h⟩) hc hd)

end

/-- Without stale reads, one context and separate contexts give the same outcomes and the same store,
or stop alike; and where both return the same, no read was stale. -/
theorem batch_equals_sequential (K : Primitives) (s : State) (txs : List SignedTransaction) :
    (NoStale K s.beginBlock txs → runBatch K s txs = runSequential K s txs) ∧
      ∀ out, runBatch K s txs = .ok out → runSequential K s txs = .ok out →
        NoStale K s.beginBlock txs := by
  constructor
  · intro hn
    have h := batch_of_fresh (buffered_begin s) hn
    rw [State.beginBlock_commit] at h
    rw [← h]
    unfold runBatch
    cases applyTxs K s.beginBlock txs <;> rfl
  · rintro ⟨t, os⟩ h₁ h₂
    simp only [runBatch, bind_eq_ok, pure_eq_ok, Prod.exists, Prod.mk.injEq] at h₁
    obtain ⟨ctx, os', h₁, rfl, rfl⟩ := h₁
    exact fresh_of_batch (buffered_begin s) h₁ h₂

def openProposal : Proposal := ⟨0, 9, 0, "raise the fee", "", 0, 100, none⟩

/-- Proposal 1 is up for a vote. -/
def votingState : State :=
  { State.empty with proposals := Column.empty.insert 1 ⟨openProposal, .voting, 0⟩ }

def twoVotes : List SignedTransaction :=
  [unsigned [] (.govVote 1 7 .yes), unsigned [] (.govVote 1 7 .no)]

/-- In one block the second vote replaces the first; in two blocks it is a duplicate. -/
theorem second_vote_counts :
    (∃ t, runBatch toyPrimitives votingState twoVotes = .ok (t, [.applied 30000, .applied 30000]) ∧
      t.votes.get ⟨1, 7⟩ = some .no) ∧
    ∃ t, runSequential toyPrimitives votingState twoVotes =
        .ok (t, [.applied 30000, .rejected (.notYetImplemented "duplicate vote")]) ∧
      t.votes.get ⟨1, 7⟩ = some .yes :=
  ⟨⟨_, rfl, rfl⟩, ⟨_, rfl, rfl⟩⟩

end Arknet.Laws
