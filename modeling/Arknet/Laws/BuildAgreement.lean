import Arknet.Laws.Supply

/-!
The proposer's path against the verifier's. The builder refunds expired escrows and runs no epoch
hook; the commit path runs the hooks and refunds nothing. Where neither has anything to pay, a built
block commits with the root in its header (`agrees_of_idle`); where one of them has, it does not.
-/

namespace Arknet.Laws

open Machine Store Arknet.Chain Arknet.Staking Arknet.Payments Arknet.Governance Arknet.Consensus

/-! ## What the pool hands out -/

/-- The pool takes the transaction. -/
def Pooled (stx : SignedTransaction) : Prop := ∃ r, extractSenderNonceFee stx.tx = .ok r

theorem removeByHash_pooled {m m' : Mempool} {h : TxHash} {e : Entry}
    (_ : m.removeByHash h = (m', some e)) : Pooled e.tx := ⟨_, e.pooled⟩

theorem drainForBlock_pooled (m : Mempool) (maxGas : Gas) (maxBytes : Nat) :
    ∀ stx ∈ (m.drainForBlock maxGas maxBytes).picked, Pooled stx := by
  unfold Mempool.drainForBlock
  suffices ∀ (items : List (TxHash × Gas × Nat)) (d : Mempool.Drain), (∀ stx ∈ d.picked, Pooled stx) →
      ∀ stx ∈ (items.foldl (Mempool.drainStep maxGas maxBytes) d).picked, Pooled stx from
    this _ _ (by simp)
  intro items
  induction items with
  | nil => exact fun d hd => hd
  | cons item items ih =>
    intro d hd
    refine ih _ ?_
    obtain ⟨hash, fee, size⟩ := item
    simp only [Mempool.drainStep]
    split
    · exact hd
    split
    · exact hd
    split
    · exact hd
    · rename_i m' e he
      intro stx hstx
      rcases List.mem_append.mp hstx with hstx | hstx
      · exact hd stx hstx
      · rw [List.mem_singleton.mp hstx]
        exact removeByHash_pooled he

theorem Pooled.not_dispute {stx : SignedTransaction} (h : Pooled stx) (d : Dispute) :
    stx.tx ≠ .dispute d := by
  rintro hd
  obtain ⟨r, hr⟩ := h
  rw [hd] at hr
  cases hr

theorem Pooled.not_receiptBatch {stx : SignedTransaction} (h : Pooled stx) (b : ReceiptBatch) :
    stx.tx ≠ .receiptBatch b := by
  rintro hb
  obtain ⟨r, hr⟩ := h
  rw [hb] at hr
  cases hr

/-- A pooled transaction that is rejected leaves no trace. -/
theorem Pooled.rejected_keeps {K : Primitives} {ctx ctx' : BlockCtx} {stx : SignedTransaction}
    {o : TxOutcome} (hp : Pooled stx) (h : applyTx K ctx stx = .ok (ctx', o))
    (ho : o.isApplied = false) : ctx' = ctx := by
  rcases applyTx_rejected h ho with h | ⟨b, hb⟩
  · exact h
  · exact absurd hb (hp.not_receiptBatch b)

section

variable {K : Primitives}

/-- Replaying what the builder kept repeats its run without the rejections. -/
theorem includeTxs_replay {ctx ctx' : BlockCtx} {picked included : List SignedTransaction}
    (hp : ∀ stx ∈ picked, Pooled stx) (h : includeTxs K ctx picked = .ok (ctx', included)) :
    (∀ stx ∈ included, stx ∈ picked) ∧ ∃ os, applyTxs K ctx picked = .ok (ctx', os) ∧
      applyTxs K ctx included = .ok (ctx', os.filter TxOutcome.isApplied) := by
  induction picked generalizing ctx included with
  | nil =>
    simp only [includeTxs, pure_eq_ok, Prod.mk.injEq] at h
    obtain ⟨rfl, rfl⟩ := h
    exact ⟨by simp, [], rfl, rfl⟩
  | cons stx rest ih =>
    simp only [includeTxs, bind_eq_ok, pure_eq_ok, Prod.exists, Prod.mk.injEq] at h
    obtain ⟨mid, o, h₁, c, inc, h₂, rfl, rfl⟩ := h
    obtain ⟨hsub, os, hall, hkept⟩ := ih (fun t ht => hp t (by simp [ht])) h₂
    have hfull : applyTxs K ctx (stx :: rest) = .ok (c, o :: os) :=
      applyTxs_cons_ok.mpr ⟨mid, o, os, h₁, hall, rfl⟩
    cases ho : o.isApplied with
    | true =>
      refine ⟨?_, o :: os, hfull, ?_⟩
      · intro t ht
        rcases List.mem_cons.mp ht with rfl | ht
        · simp
        · simp [hsub t ht]
      · rw [List.filter_cons_of_pos ho]
        exact applyTxs_cons_ok.mpr ⟨mid, o, _, h₁, hkept, rfl⟩
    | false =>
      obtain rfl := (hp stx (by simp)).rejected_keeps h₁ ho
      refine ⟨fun t ht => by simp [hsub t ht], o :: os, hfull, ?_⟩
      rw [List.filter_cons_of_neg (by simp [ho])]
      exact hkept

end

/-! ## Balances that stay -/

/-- Every balance is the same. -/
def SameBalances (c c' : BlockCtx) : Prop := ∀ a, (c'.account a).balance = (c.account a).balance

/-- No balance is at the top of its word. -/
def Room (c : BlockCtx) : Prop := ∀ a, (c.account a).balance.val < 2 ^ 128 - 1

theorem sameBalances_of_accounts {c c' : BlockCtx} (h : c'.commit.accounts = c.commit.accounts) :
    SameBalances c c' := by
  intro a
  rw [BlockCtx.account_eq, BlockCtx.account_eq, h]

/-- Between two contexts with the same balances, credits have credited nothing. -/
theorem SameBalances.squeeze {a b c : BlockCtx} (h : SameBalances a c)
    (hab : ∀ x, (a.account x).balance.val ≤ (b.account x).balance.val)
    (hbc : ∀ x, (b.account x).balance.val ≤ (c.account x).balance.val) :
    SameBalances a b ∧ SameBalances b c := by
  have heq : ∀ x, (b.account x).balance = (a.account x).balance := by
    intro x
    have h₁ := hab x
    have h₂ := hbc x
    rw [h x] at h₂
    exact Fin.ext (Nat.le_antisymm h₂ h₁)
  exact ⟨heq, fun x => by rw [h x, heq x]⟩

theorem Room.of_same {c c' : BlockCtx} (h : Room c) (hs : SameBalances c c') : Room c' := by
  intro a
  rw [hs a]
  exact h a

theorem creditAddress_raises {c : BlockCtx} {a : Address} {amount : Amount} (h : Room c)
    (hpos : amount ≠ 0) :
    (c.account a).balance.val < ((c.creditAddress a amount).account a).balance.val := by
  have hroom := h a
  have hlt : 0 < amount.val := Nat.pos_of_ne_zero (fun hz => hpos (Fin.ext hz))
  rw [BlockCtx.account_creditAddress, if_pos rfl]
  simp only [satAdd_val]
  omega

theorem SameBalances.not_raised {c c' : BlockCtx} {a : Address} (h : SameBalances c c') :
    ¬ (c.account a).balance.val < (c'.account a).balance.val := by
  rw [h a]
  exact Nat.lt_irrefl _

/-! ## Refunds -/

/-- No Locked escrow is at or past its timeout. -/
def NoRefundDue (s : State) (height : Height) : Prop :=
  ∀ item ∈ s.iterEscrows, isExpired height item.2 = false

instance (s : State) (height : Height) : Decidable (NoRefundDue s height) :=
  inferInstanceAs (Decidable (∀ item ∈ s.iterEscrows, isExpired height item.2 = false))

theorem refundEscrow_of_not_expired {ctx : BlockCtx} {height : Height} {item : JobId × EscrowEntry}
    (h : isExpired height item.2 = false) : refundEscrow height ctx item = ctx := by
  simp [refundEscrow, h]

theorem refundEscrow_credits (height : Height) (ctx : BlockCtx) (item : JobId × EscrowEntry)
    (a : Address) :
    (ctx.account a).balance.val ≤ ((refundEscrow height ctx item).account a).balance.val := by
  unfold refundEscrow
  split
  · exact ctx.balance_le_creditAddress item.2.user item.2.amount a
  · exact Nat.le_refl _

theorem refunds_credits (height : Height) (items : List (JobId × EscrowEntry)) (ctx : BlockCtx)
    (a : Address) :
    (ctx.account a).balance.val ≤
      ((items.foldl (refundEscrow height) ctx).account a).balance.val := by
  induction items generalizing ctx with
  | nil => exact Nat.le_refl _
  | cons item items ih => exact Nat.le_trans (refundEscrow_credits height ctx item a) (ih _)

theorem refundExpiredEscrows_of_none {ctx : BlockCtx} {height : Height}
    (h : NoRefundDue ctx.state height) : refundExpiredEscrows ctx height = ctx := by
  unfold refundExpiredEscrows
  unfold NoRefundDue at h
  generalize ctx.state.iterEscrows = items at h
  induction items generalizing ctx with
  | nil => rfl
  | cons item items ih =>
    rw [List.foldl_cons, refundEscrow_of_not_expired (h item (by simp))]
    exact ih (fun e he => h e (by simp [he]))

/-- Refunds that change no balance were refunds of nothing. -/
theorem refunded_nothing {height : Height} {items : List (JobId × EscrowEntry)} {ctx : BlockCtx}
    (hroom : Room ctx) (h : SameBalances ctx (items.foldl (refundEscrow height) ctx)) :
    ∀ item ∈ items, isExpired height item.2 = true → item.2.amount = 0 := by
  induction items generalizing ctx with
  | nil => simp
  | cons item items ih =>
    obtain ⟨h₁, h₂⟩ := h.squeeze (refundEscrow_credits height ctx item)
      (refunds_credits height items (refundEscrow height ctx item))
    intro e he hexp
    rcases List.mem_cons.mp he with rfl | he
    · by_contra hpos
      have hraise := creditAddress_raises (a := e.2.user) hroom hpos
      have hstep : refundEscrow height ctx e =
          (ctx.creditAddress e.2.user e.2.amount).deleteEscrow e.1 := by
        simp [refundEscrow, hexp]
      rw [hstep] at h₁
      exact h₁.not_raised hraise
    · exact ih (hroom.of_same h₁) h₂ e he hexp

/-! ## The mint -/

/-- The queued rewards of the epoch that ends at `height`. -/
def endingRewards (s : State) (height : Height) : List PendingReward :=
  s.iterPendingRewardsForEpoch (satSub (epochForHeight height) 1)

/-- The mint of a queued reward would come to nothing. -/
def MintsNothing (perToken : Amount) (e : EpochEmissionState) (pr : PendingReward) : Prop :=
  ∃ reward, pendingBlockReward perToken pr = .ok reward ∧ (e.tryMint reward).1 = 0

/-- The rewards of the ending epoch come to nothing. -/
def NothingMinted (s : State) (height : Height) : Prop :=
  endingRewards s height = [] ∨ ∃ tokens budget perToken,
    sum ((endingRewards s height).map (fun pr => widen width32_le_64 pr.outputTokens)) =
      .ok tokens ∧
    epochBudget (yearForHeight height) = .ok budget ∧
    perTokenRate ⟨epochForHeight height, budget, 0, 0⟩ tokens = .ok perToken ∧
    ∀ pr ∈ endingRewards s height, MintsNothing perToken ⟨epochForHeight height, budget, 0, 0⟩ pr

theorem tryMint_of_zero {e : EpochEmissionState} {amount : Amount} (h : (e.tryMint amount).1 = 0) :
    (e.tryMint amount).2 = e := by
  have hadd : ∀ x : Amount, satAdd x 0 = x := by
    intro x
    apply Fin.ext
    have hlt := x.isLt
    have hz : (0 : Amount).val = 0 := rfl
    rw [satAdd_val, hz]
    omega
  simp only [EpochEmissionState.tryMint] at h ⊢
  rw [h, hadd, hadd]

theorem mintOne_of_nothing {perToken : Amount} {acc : MintAcc} {pr : PendingReward}
    (h : MintsNothing perToken acc.emission pr) : mintOne perToken acc pr = .ok acc := by
  obtain ⟨reward, hr, hz⟩ := h
  simp only [mintOne, hr, ok_bind, hz, ↓reduceIte, tryMint_of_zero hz]
  rfl

theorem mint_of_nothing {perToken : Amount} {pending : List PendingReward} {acc : MintAcc}
    (h : ∀ pr ∈ pending, MintsNothing perToken acc.emission pr) :
    pending.foldlM (mintOne perToken) acc = .ok acc := by
  induction pending with
  | nil => rfl
  | cons pr rest ih =>
    rw [List.foldlM_cons, mintOne_of_nothing (h pr (by simp)), ok_bind]
    exact ih (fun q hq => h q (by simp [hq]))

/-- A positive mint reaches the treasury: it receives what rounding leaves. -/
theorem payReward_raises {ctx ctx' : BlockCtx} {pr : PendingReward} {minted : Amount}
    (h : payReward ctx pr minted = .ok ctx') (hpos : minted ≠ 0) (hroom : Room ctx) :
    ∃ a, (ctx.account a).balance.val < (ctx'.account a).balance.val := by
  obtain ⟨dist, paid, hd, hp, rfl⟩ := payReward_ok h
  obtain ⟨hsum, hc, hv, hb, hdel⟩ := rewardSplit_ok hd
  have hm : 0 < minted.val := Nat.pos_of_ne_zero (fun hz => hpos (Fin.ext hz))
  have ht : dist.treasury ≠ 0 := by
    intro hz
    have hz' : dist.treasury.val = 0 := congrArg Fin.val hz
    omega
  refine ⟨pr.treasuryAddr, ?_⟩
  have h₁ := ((creditPositive_frame ctx pr.computeAddr dist.compute).trans
    (creditPositive_frame _ pr.verifierAddr dist.verifier)).credits pr.treasuryAddr
  have h₃ := (distributeToDelegators_frame hp).credits pr.treasuryAddr
  have hpay : ∀ c : BlockCtx, c.creditPositive pr.treasuryAddr dist.treasury =
      c.creditAddress pr.treasuryAddr dist.treasury := by
    intro c
    have hlt : 0 < dist.treasury := Fin.pos_of_ne_zero ht
    simp [BlockCtx.creditPositive, hlt]
  rw [hpay, BlockCtx.account_creditAddress, if_pos rfl] at h₃
  have hroom' := hroom pr.treasuryAddr
  have htpos : 0 < dist.treasury.val := Nat.pos_of_ne_zero (fun hz => ht (Fin.ext hz))
  have hdel' : ((paid.deletePendingReward pr.jobId).account pr.treasuryAddr) =
      paid.account pr.treasuryAddr := rfl
  rw [hdel']
  simp only [satAdd_val] at h₃
  omega

theorem mint_frame {perToken : Amount} {pending : List PendingReward} {acc acc' : MintAcc}
    (h : pending.foldlM (mintOne perToken) acc = .ok acc') : HookFrame acc.ctx acc'.ctx :=
  foldlM_invariant (fun a => HookFrame acc.ctx a.ctx) _ _
    (fun _ _ _ _ hx hf => hx.trans (mintOne_frame hf)) (HookFrame.refl acc.ctx) h

/-- A mint that changes no balance minted nothing for any reward. -/
theorem minted_nothing {perToken : Amount} {pending : List PendingReward} {acc acc' : MintAcc}
    (h : pending.foldlM (mintOne perToken) acc = .ok acc') (hroom : Room acc.ctx)
    (hsame : SameBalances acc.ctx acc'.ctx) :
    ∀ pr ∈ pending, MintsNothing perToken acc.emission pr := by
  induction pending generalizing acc with
  | nil => simp
  | cons pr rest ih =>
    rw [List.foldlM_cons, bind_eq_ok] at h
    obtain ⟨mid, hmid, hrest⟩ := h
    obtain ⟨h₁, h₂⟩ := hsame.squeeze (mintOne_frame hmid).credits (mint_frame hrest).credits
    obtain ⟨reward, hr, hem, ⟨hz, -, -⟩ | ⟨hne, hp, -⟩⟩ := mintOne_ok hmid
    · rw [tryMint_of_zero hz] at hem
      have htail := ih hrest (hroom.of_same h₁) h₂
      rw [hem] at htail
      exact List.forall_mem_cons.mpr ⟨⟨reward, hr, hz⟩, htail⟩
    · obtain ⟨a, ha⟩ := payReward_raises hp hne hroom
      exact absurd ha h₁.not_raised

theorem epochBoundaryMint_of_nothing {ctx : BlockCtx} {height : Height}
    (h : NothingMinted ctx.state height) :
    ∃ minted, epochBoundaryMint ctx (satSub (epochForHeight height) 1) height = .ok (ctx, minted) := by
  unfold NothingMinted endingRewards at h
  simp only [epochBoundaryMint]
  split
  · exact ⟨0, rfl⟩
  · rename_i hne
    obtain ⟨tokens, budget, perToken, htok, hbudget, hrate, hz⟩ := h.resolve_left hne
    refine ⟨0, ?_⟩
    rw [htok, ok_bind, hbudget, ok_bind, hrate, ok_bind, mint_of_nothing hz]
    rfl

theorem nothingMinted_of_same {ctx ctx' : BlockCtx} {height : Height} {minted : Amount}
    (h : epochBoundaryMint ctx (satSub (epochForHeight height) 1) height = .ok (ctx', minted))
    (hroom : Room ctx) (hsame : SameBalances ctx ctx') : NothingMinted ctx.state height := by
  simp only [epochBoundaryMint] at h
  split at h
  · rename_i hnil
    exact .inl hnil
  · simp only [bind_eq_ok, pure_eq_ok, Prod.mk.injEq] at h
    obtain ⟨tokens, htok, budget, hbudget, perToken, hrate, acc, hacc, rfl, -⟩ := h
    exact .inr ⟨tokens, budget, perToken, htok, hbudget, hrate, minted_nothing hacc hroom hsame⟩

/-! ## Returned deposits -/

/-- If the vote ends, it ends in a veto or there is no deposit to return. -/
def ReturnsNothing (bonded : Amount) (now : Timestamp) (ctx : BlockCtx) (item : U64 × ProposalRecord) :
    Prop :=
  item.2.phase = .voting → item.2.proposal.votingEnds ≤ now → ∃ outcome,
    (tallyVotes ctx item.1).evaluate bonded = .ok outcome ∧
      (outcome = .rejectedWithVeto ∨ item.2.proposal.deposit = 0)

def NothingReturned (ctx : BlockCtx) (now : Timestamp) : Prop :=
  ∀ item ∈ ctx.state.iterProposals, ReturnsNothing ctx.state.totalBondedStake now ctx item

/-- A tally reads the committed votes and the balances. -/
theorem tallyVotes_congr {c c' : BlockCtx} (hs : c'.state = c.state) (hb : SameBalances c c')
    (id : U64) : tallyVotes c' id = tallyVotes c id := by
  unfold tallyVotes
  rw [hs]
  congr
  funext tally v
  rw [hb v.1]

theorem ReturnsNothing.congr {bonded : Amount} {now : Timestamp} {c c' : BlockCtx}
    {item : U64 × ProposalRecord} (hs : c'.state = c.state) (hb : SameBalances c c') :
    ReturnsNothing bonded now c' item ↔ ReturnsNothing bonded now c item := by
  unfold ReturnsNothing
  rw [tallyVotes_congr hs hb]

theorem advanceProposal_of_nothing {bonded : Amount} {now : Timestamp} {ctx : BlockCtx}
    {item : U64 × ProposalRecord} (h : ReturnsNothing bonded now ctx item) :
    ∃ ctx', advanceProposal bonded now ctx item = .ok ctx' ∧
      ctx'.commit.accounts = ctx.commit.accounts := by
  obtain ⟨id, record⟩ := item
  simp only [advanceProposal]
  split
  · split
    · exact ⟨_, rfl, rfl⟩
    · exact ⟨_, rfl, rfl⟩
  · rename_i hphase
    split
    · exact ⟨_, rfl, rfl⟩
    · rename_i hnow
      obtain ⟨outcome, hev, hout⟩ := h hphase (not_lt.mp hnow)
      simp only at hev hout
      rw [hev, ok_bind]
      cases outcome with
      | rejectedWithVeto => exact ⟨_, rfl, rfl⟩
      | passed =>
        have hz := hout.resolve_left (by simp)
        exact ⟨_, rfl, by simp [returnDeposit, hz]⟩
      | rejected =>
        have hz := hout.resolve_left (by simp)
        exact ⟨_, rfl, by simp [returnDeposit, hz]⟩
  · exact ⟨_, rfl, rfl⟩

theorem advanceProposals_of_nothing {bonded : Amount} {now : Timestamp}
    {items : List (U64 × ProposalRecord)} {ctx : BlockCtx}
    (h : ∀ item ∈ items, ReturnsNothing bonded now ctx item) :
    ∃ ctx', items.foldlM (advanceProposal bonded now) ctx = .ok ctx' ∧
      ctx'.commit.accounts = ctx.commit.accounts := by
  induction items generalizing ctx with
  | nil => exact ⟨ctx, rfl, rfl⟩
  | cons item items ih =>
    obtain ⟨mid, hmid, hacc⟩ := advanceProposal_of_nothing (h item (by simp))
    have hs := (advanceProposal_frame hmid).state
    have hrest : ∀ e ∈ items, ReturnsNothing bonded now mid e := fun e he =>
      (ReturnsNothing.congr hs (sameBalances_of_accounts hacc)).mpr (h e (by simp [he]))
    obtain ⟨ctx', h', hacc'⟩ := ih hrest
    exact ⟨ctx', by rw [List.foldlM_cons, hmid, ok_bind]; exact h', hacc'.trans hacc⟩

/-- A step that changes no balance returned nothing. -/
theorem returnsNothing_of_same {bonded : Amount} {now : Timestamp} {ctx ctx' : BlockCtx}
    {item : U64 × ProposalRecord} (h : advanceProposal bonded now ctx item = .ok ctx')
    (hroom : Room ctx) (hsame : SameBalances ctx ctx') : ReturnsNothing bonded now ctx item := by
  obtain ⟨id, record⟩ := item
  intro hphase hnow
  simp only at hphase hnow
  simp only [advanceProposal, hphase, if_neg (not_lt.mpr hnow), bind_eq_ok] at h
  obtain ⟨outcome, hev, h⟩ := h
  refine ⟨outcome, hev, ?_⟩
  have hback : ∀ phase, ctx' = (returnDeposit ctx record.proposal.proposer
      record.proposal.deposit).setProposal id { record with phase := phase } →
      record.proposal.deposit = 0 := by
    rintro phase rfl
    by_contra hpos
    have hraise := creditAddress_raises (a := record.proposal.proposer) hroom hpos
    have hstep : returnDeposit ctx record.proposal.proposer record.proposal.deposit =
        ctx.creditAddress record.proposal.proposer record.proposal.deposit := by
      simp [returnDeposit, hpos]
    rw [hstep] at hsame
    exact hsame.not_raised hraise
  cases outcome with
  | rejectedWithVeto => exact .inl rfl
  | passed =>
    simp only [pure_eq_ok] at h
    exact .inr (hback _ h.symm)
  | rejected =>
    simp only [pure_eq_ok] at h
    exact .inr (hback _ h.symm)

theorem returned_nothing {bonded : Amount} {now : Timestamp} {items : List (U64 × ProposalRecord)}
    {ctx ctx' : BlockCtx} (h : items.foldlM (advanceProposal bonded now) ctx = .ok ctx')
    (hroom : Room ctx) (hsame : SameBalances ctx ctx') :
    ∀ item ∈ items, ReturnsNothing bonded now ctx item := by
  induction items generalizing ctx with
  | nil => simp
  | cons item items ih =>
    rw [List.foldlM_cons, bind_eq_ok] at h
    obtain ⟨mid, hmid, hrest⟩ := h
    have hframe := HookFrame.foldlM (fun _ _ _ hf => advanceProposal_frame hf) hrest
    obtain ⟨h₁, h₂⟩ := hsame.squeeze (advanceProposal_frame hmid).credits hframe.credits
    refine List.forall_mem_cons.mpr ⟨returnsNothing_of_same hmid hroom h₁, fun e he => ?_⟩
    exact (ReturnsNothing.congr (advanceProposal_frame hmid).state h₁).mp
      (ih hrest (hroom.of_same h₁) h₂ e he)

/-! ## The hooks -/

/-- Off an epoch boundary, or nothing is minted and nothing returned at it. -/
def BoundaryIdle (ctx : BlockCtx) (header : BlockHeader) : Prop :=
  isEpochBoundary header.height = true →
    NothingMinted ctx.state header.height ∧ NothingReturned ctx header.timestampMs

theorem rankCandidates_length (ctx : BlockCtx) : (rankCandidates ctx).length ≤ MAX_ACTIVE_VALIDATORS := by
  simp only [rankCandidates, List.length_take]
  exact Nat.min_le_left _ _

/-- A rotation always returns: at most twenty-one are counted. -/
theorem rotate_foldlM_isOk (bootstrap : Bool) (cs : List Candidate) (ctx : BlockCtx) (n : U32)
    (h : n.val + cs.length < 2 ^ 32) : ∃ ctx' n', cs.foldlM (rotate bootstrap) (ctx, n) = .ok (ctx', n') := by
  induction cs generalizing ctx n with
  | nil => exact ⟨ctx, n, rfl⟩
  | cons c cs ih =>
    rw [List.length_cons] at h
    rw [List.foldlM_cons]
    unfold rotate
    split
    · have hone : (1 : U32).val = 1 := rfl
      have hadd : add n 1 = .ok ⟨n.val + 1, by omega⟩ := add_eq_ok.mpr rfl
      simp only [hadd, ok_bind]
      exact ih _ ⟨n.val + 1, by omega⟩ (by simp only; omega)
    · exact ih _ n (by omega)

theorem recomputeValidatorSet_isOk (ctx : BlockCtx) (height : Height) :
    ∃ ctx' n, recomputeValidatorSet ctx height = .ok (ctx', n) := by
  have hlen := rankCandidates_length ctx
  refine rotate_foldlM_isOk _ _ ctx 0 ?_
  have : (0 : U32).val = 0 := rfl
  simp only [MAX_ACTIVE_VALIDATORS] at hlen
  omega

theorem recomputeValidatorSet_accounts {ctx ctx' : BlockCtx} {height : Height} {n : U32}
    (h : recomputeValidatorSet ctx height = .ok (ctx', n)) :
    ctx'.commit.accounts = ctx.commit.accounts := by
  obtain ⟨validators, hv⟩ := recomputeValidatorSet_commit h
  rw [hv]

/-- What the boundary pays is the same from a context with the same balances. -/
theorem nothingReturned_congr {c c' : BlockCtx} {now : Timestamp} (hs : c'.state = c.state)
    (hb : SameBalances c c') : NothingReturned c' now ↔ NothingReturned c now := by
  unfold NothingReturned
  simp only [hs, ReturnsNothing.congr hs hb]

/-- Hooks with nothing to pay return and write no account. -/
theorem epochHooks_idle {ctx : BlockCtx} {header : BlockHeader} (h : BoundaryIdle ctx header) :
    ∃ ctx' minted, epochHooks ctx header = .ok (ctx', minted) ∧
      ctx'.commit.accounts = ctx.commit.accounts := by
  unfold epochHooks
  split
  · rename_i hb
    obtain ⟨hz, hv⟩ := h hb
    obtain ⟨c₁, n, h₁⟩ := recomputeValidatorSet_isOk ctx header.height
    have ha₁ := recomputeValidatorSet_accounts h₁
    have hs₁ := (recomputeValidatorSet_frame h₁).state
    have hz₁ : NothingMinted c₁.state header.height := by
      rw [hs₁]
      exact hz
    obtain ⟨minted, h₂⟩ := epochBoundaryMint_of_nothing hz₁
    have hv₁ := (nothingReturned_congr hs₁ (sameBalances_of_accounts ha₁)).mpr hv
    obtain ⟨c₂, h₃, ha₃⟩ := advanceProposals_of_nothing hv₁
    refine ⟨c₂, minted, ?_, ha₃.trans ha₁⟩
    simp only [h₁, h₂, ok_bind, processGovernanceProposals, h₃]
    rfl
  · exact ⟨ctx, 0, rfl, rfl⟩

/-- Hooks that change no balance had nothing to pay. -/
theorem idle_of_same {ctx ctx' : BlockCtx} {header : BlockHeader} {minted : Amount}
    (h : epochHooks ctx header = .ok (ctx', minted)) (hroom : Room ctx)
    (hsame : SameBalances ctx ctx') : BoundaryIdle ctx header := by
  intro hb
  obtain ⟨hoff, -, -⟩ | ⟨-, rotated, n, paid, h₁, h₂, h₃⟩ := epochHooks_ok h
  · rw [hb] at hoff
    cases hoff
  · have hframe := HookFrame.foldlM (fun _ _ _ hf => advanceProposal_frame hf) h₃
    have f₁ := recomputeValidatorSet_frame h₁
    have f₂ := epochBoundaryMint_frame h₂
    obtain ⟨hs₁, hs'⟩ := hsame.squeeze f₁.credits (f₂.trans hframe).credits
    obtain ⟨hs₂, hs₃⟩ := hs'.squeeze f₂.credits hframe.credits
    have hroom₁ := hroom.of_same hs₁
    have hmint := nothingMinted_of_same h₂ hroom₁ hs₂
    have hvote : NothingReturned paid header.timestampMs :=
      returned_nothing h₃ (hroom₁.of_same hs₂) hs₃
    rw [f₁.state] at hmint
    refine ⟨hmint, ?_⟩
    exact (nothingReturned_congr f₁.state hs₁).mp ((nothingReturned_congr f₂.state hs₂).mp hvote)

/-! ## Agreement -/

section

variable {K : Primitives} {s : State} {m : Mempool} {height : Height} {params : BuildParams}
  {now : Timestamp} {built : BuiltBlock}

/-- The built block commits on the same store: every kept transaction is applied with the outcome the
builder saw, and the root is the header's. -/
def Agrees (K : Primitives) (s : State) (built : BuiltBlock) (pool : Mempool) : Prop :=
  ∃ c r ctx os, commitBlock K s pool built.block = .ok (.ok c) ∧
    replayBlock K s built.block = .ok r ∧
    applyTxs K s.beginBlock built.drained = .ok (ctx, os) ∧
    r.outcomes = os.filter TxOutcome.isApplied ∧
    c.report.stateRoot = built.block.header.stateRoot

/-- What a build is: the drained transactions, the ones kept, and the root after the refunds. -/
theorem build_ok (h : build K s m height params now = .ok built) :
    ∃ ctx os, applyTxs K s.beginBlock built.drained = .ok (ctx, os) ∧
      applyTxs K s.beginBlock built.block.txs = .ok (ctx, os.filter TxOutcome.isApplied) ∧
      (∀ stx ∈ built.block.txs, Pooled stx) ∧
      built.block.header.height = height ∧ built.block.header.timestampMs = now ∧
      built.block.header.stateRoot = previewStateRoot K (refundExpiredEscrows ctx height) := by
  simp only [build, bind_eq_ok, pure_eq_ok, Prod.exists] at h
  obtain ⟨ctx, included, hinc, rfl⟩ := h
  have hpool := drainForBlock_pooled m params.gasLimit params.bytesBudget
  obtain ⟨hsub, os, hall, hkept⟩ := includeTxs_replay hpool hinc
  exact ⟨ctx, os, hall, hkept, fun stx hstx => hpool stx (hsub stx hstx), rfl, rfl, rfl⟩

/-- The commit path has nothing to pay after the block's transactions. -/
def NoPayoutDue (K : Primitives) (s : State) (b : Block) : Prop :=
  ∃ ctx os, applyTxs K s.beginBlock b.txs = .ok (ctx, os) ∧ BoundaryIdle ctx b.header

/-- The replay of a built block: its transactions, then the hooks. -/
theorem built_replay_ok {b : Block} {ctx : BlockCtx} {os : List TxOutcome} {r : Replay}
    (hp : ∀ stx ∈ b.txs, Pooled stx) (htx : applyTxs K s.beginBlock b.txs = .ok (ctx, os)) :
    (∃ ctx' minted, epochHooks ctx b.header = .ok (ctx', minted) ∧
      r = ⟨(ctx'.setCurrentHeight b.header.height).setBaseFee
        ((nextBaseFee b.header.baseFee (totalGas os) TARGET_GAS_PER_BLOCK).getD b.header.baseFee),
        os, minted⟩) ↔ replayBlock K s b = .ok r := by
  have hslash : b.txs.foldlM (dispatchSlash K) ctx = .ok ctx :=
    dispatchSlash_of_no_dispute (fun stx hstx d => (hp stx hstx).not_dispute d)
  simp only [replayBlock, htx, hslash, ok_bind, bind_eq_ok, pure_eq_ok, Prod.exists, eq_comm (a := r)]

theorem agrees_of_idle (h : build K s m height params now = .ok built) (hr : NoRefundDue s height)
    (hp : NoPayoutDue K s built.block) (pool : Mempool) : Agrees K s built pool := by
  obtain ⟨ctx, os, hall, hkept, hpool, hheight, -, hroot⟩ := build_ok h
  obtain ⟨ctx₁, os₁, hrun, hidle⟩ := hp
  obtain ⟨rfl, rfl⟩ := Prod.mk.inj (Except.ok.inj (hrun.symm.trans hkept))
  obtain ⟨ctx', minted, hhook, hacc⟩ := epochHooks_idle hidle
  have hrep := (built_replay_ok hpool hkept).mp ⟨ctx', minted, hhook, rfl⟩
  have hnone : refundExpiredEscrows ctx₁ height = ctx₁ :=
    refundExpiredEscrows_of_none (by rw [applyTxs_state hall]; exact hr)
  rw [hnone] at hroot
  have hpreview : previewStateRoot K ((ctx'.setCurrentHeight built.block.header.height).setBaseFee
      ((nextBaseFee built.block.header.baseFee (totalGas (os.filter TxOutcome.isApplied))
        TARGET_GAS_PER_BLOCK).getD built.block.header.baseFee)) = built.block.header.stateRoot := by
    rw [hroot]
    exact congrArg K.smtRoot hacc
  exact ⟨_, _, ctx₁, os, commitBlock_ok.mpr ⟨_, hrep, hpreview, rfl⟩, hrep, hall, rfl, hpreview⟩

/-! ## What is due breaks agreement -/

theorem balance_le_balances (ctx : BlockCtx) (a : Address) :
    (ctx.account a).balance.val ≤ ctx.commit.balances := by
  have h := Column.part_le_total ctx.commit.accounts (fun _ (x : Account) => x.balance.val) a
  rw [BlockCtx.account_eq]
  cases hget : ctx.commit.accounts.get a with
  | none => exact Nat.zero_le _
  | some x =>
    rw [hget] at h
    exact h

/-- A pooled transaction never raises the sum of balances. -/
theorem applyTx_balances_of_pooled {ctx ctx' : BlockCtx} {stx : SignedTransaction} {o : TxOutcome}
    (hp : Pooled stx) (h : applyTx K ctx stx = .ok (ctx', o)) :
    ctx'.commit.balances ≤ ctx.commit.balances := by
  obtain ⟨r, hr⟩ := hp
  cases htx : stx.tx <;> rw [htx] at hr <;> simp only [applyTx, htx] at h <;> try cases hr
  case transfer src dst amount nonce fee =>
    rcases applyTransfer_ok h with ⟨rfl, -⟩ | ⟨-, hne, -, balance, next, hbal, -, rfl⟩
    · exact Nat.le_refl _
    · have h₁ := balances_setAccount ctx src ⟨balance, next⟩
      have h₂ := balances_setAccount (ctx.setAccount src ⟨balance, next⟩) dst
        { ctx.account dst with balance := satAdd (ctx.account dst).balance amount }
      have h₃ := satAdd_le (ctx.account dst).balance amount
      rw [BlockCtx.account_setAccount, if_neg hne] at h₂
      simp only at h₁ h₂ ⊢
      omega
  case registerModel manifest registrar deposit =>
    rcases applyRegisterModel_ok h with ⟨rfl, -⟩ | ⟨-, -, -, -, balance, hbal, rfl⟩
    · exact Nat.le_refl _
    · have h₁ := balances_setAccount ctx registrar { ctx.account registrar with balance := balance }
      simp only [State.balances, BlockCtx.setModel_commit] at h₁ ⊢
      omega
  case govProposal p =>
    rcases applyGovProposal_ok h with ⟨rfl, -⟩ | ⟨-, -, balance, next, hbal, -, rfl⟩
    · exact Nat.le_refl _
    · have h₁ := balances_setAccount ctx (deriveAddressFromSigner K stx.signer)
        { ctx.account (deriveAddressFromSigner K stx.signer) with balance := balance }
      simp only [State.balances, BlockCtx.setNextProposalId_commit, BlockCtx.setProposal_commit] at h₁ ⊢
      omega
  case govVote =>
    rcases applyGovVote_ok h with ⟨rfl, -⟩ | ⟨-, -, -, rfl⟩ <;> exact Nat.le_refl _
  case escrowLock sender jobId amount nonce fee =>
    rcases applyEscrowLock_ok h with ⟨rfl, -⟩ | ⟨-, -, -, -, balance, next, hbal, -, rfl⟩
    · exact Nat.le_refl _
    · have h₁ := balances_setAccount ctx sender ⟨balance, next⟩
      simp only [State.balances, BlockCtx.setEscrow_commit] at h₁ ⊢
      omega
  case registerTeeCapability =>
    rcases applyRegisterTee_ok h with ⟨rfl, -⟩ | ⟨-, rfl⟩ <;> exact Nat.le_refl _
  case registerGateway =>
    rcases applyRegisterGateway_ok h with ⟨rfl, -⟩ | ⟨-, rfl⟩ <;> exact Nat.le_refl _
  case unregisterGateway =>
    rw [(applyUnregisterGateway_ok h).2]
    exact Nat.le_refl _

/-- The balances the hooks leave and those the refunds leave, where a built block agrees. -/
theorem accounts_of_agrees (hinj : Function.Injective K.smtRoot)
    (h : build K s m height params now = .ok built) (hfit : s.balances < 2 ^ 128 - 1) {pool : Mempool}
    (ha : Agrees K s built pool) :
    ∃ ctx os ctx' minted, applyTxs K s.beginBlock built.block.txs = .ok (ctx, os) ∧ ctx.state = s ∧
      Room ctx ∧ epochHooks ctx built.block.header = .ok (ctx', minted) ∧
      ctx'.commit.accounts = (refundExpiredEscrows ctx height).commit.accounts := by
  obtain ⟨c, r, _, _, hcommit, hrep, -, -, -⟩ := ha
  obtain ⟨ctx, os, hall, hkept, hpool, -, -, hroot⟩ := build_ok h
  obtain ⟨ctx', minted, hhook, rfl⟩ := (built_replay_ok hpool hkept).mpr hrep
  obtain ⟨r₂, hr₂, hroot₂, -⟩ := commitBlock_ok.mp hcommit
  obtain rfl := Except.ok.inj (hrep.symm.trans hr₂)
  have hbal : ctx.commit.balances ≤ s.balances :=
    (applyTxs_invariant (P := fun c => c.commit.balances ≤ s.balances)
      (fun c c' t o ht _ hc hstep =>
        Nat.le_trans (applyTx_balances_of_pooled (hpool t ht) hstep) hc) rfl (Nat.le_refl _) hkept).2
  have hroom : Room ctx := by
    intro a
    have := balance_le_balances ctx a
    omega
  exact ⟨ctx, _, ctx', minted, hkept, applyTxs_state hkept, hroom, hhook, hinj (hroot₂.trans hroot)⟩

/-- Every Locked escrow holds something, as a lock demands. -/
def LocksHoldValue (s : State) : Prop :=
  ∀ item ∈ s.iterEscrows, item.2.state = .locked → item.2.amount ≠ 0

/-- A built block agrees with its commit when no escrow is due for a refund and the boundary pays
nothing. Under a root that determines the accounts, and unless both sides pay, it agrees only then. -/
theorem build_commit_agreement (h : build K s m height params now = .ok built) :
    (NoRefundDue s height ∧ NoPayoutDue K s built.block → ∀ pool, Agrees K s built pool) ∧
    (Function.Injective K.smtRoot → s.balances < 2 ^ 128 - 1 → LocksHoldValue s →
      (NoRefundDue s height ∨ NoPayoutDue K s built.block) →
      ∀ pool, Agrees K s built pool → NoRefundDue s height ∧ NoPayoutDue K s built.block) := by
  refine ⟨fun ⟨hr, hp⟩ pool => agrees_of_idle h hr hp pool, fun hinj hfit hval hone pool ha => ?_⟩
  obtain ⟨ctx, os, ctx', minted, htx, hstate, hroom, hhook, hacc⟩ := accounts_of_agrees hinj h hfit ha
  rcases hone with hr | hp
  · have hnone : refundExpiredEscrows ctx height = ctx :=
      refundExpiredEscrows_of_none (by rw [hstate]; exact hr)
    rw [hnone] at hacc
    exact ⟨hr, ctx, os, htx, idle_of_same hhook hroom (sameBalances_of_accounts hacc)⟩
  · refine ⟨?_, hp⟩
    obtain ⟨ctx₁, os₁, htx₁, hidle⟩ := hp
    obtain ⟨rfl, rfl⟩ := Prod.mk.inj (Except.ok.inj (htx₁.symm.trans htx))
    obtain ⟨ctx₂, minted₂, hhook₂, hacc₂⟩ := epochHooks_idle hidle
    obtain ⟨rfl, rfl⟩ := Prod.mk.inj (Except.ok.inj (hhook₂.symm.trans hhook))
    have hsame := sameBalances_of_accounts (hacc.symm.trans hacc₂)
    unfold refundExpiredEscrows at hsame
    rw [hstate] at hsame
    intro item hitem
    by_contra hexp
    have hexp' : isExpired height item.2 = true := by simpa using hexp
    have hlocked : item.2.state = .locked := by
      simp only [isExpired, Bool.and_eq_true, decide_eq_true_eq] at hexp'
      exact hexp'.1
    exact hval item hitem hlocked (refunded_nothing hroom hsame item hitem hexp')

end

/-! ## A transfer agrees, a refund is lost -/

def proposerParams : BuildParams := ⟨"arknet-test", 1, 0, 0, 1, 1, 30000000, 1000000, ""⟩

/-- Address 7 is funded and its transfer is in the pool. -/
def fundedState : State := { State.empty with accounts := Column.empty.insert 7 ⟨1000000, 0⟩ }

def pooledTransfer : SignedTransaction := unsigned [7] (.transfer 7 9 500 0 21000)

def transferPool : Mempool :=
  (Mempool.withLimits 10 10000).enroll (pooledTransfer.hash toyPrimitives)
    ⟨pooledTransfer, 7, 0, 21000, 0, 40, rfl⟩

theorem transferPool_builds :
    (build toyPrimitives fundedState transferPool 1 proposerParams 1).toOption.isSome = true := by
  decide

theorem transferPool_included :
    (returned _ transferPool_builds).block.txs = [pooledTransfer] := by decide

/-- A block with one transfer, off the boundary and with no escrow open. -/
theorem build_commit_transfer :
    ∃ built, build toyPrimitives fundedState transferPool 1 proposerParams 1 = .ok built ∧
      built.block.txs = [pooledTransfer] ∧ ∀ pool, Agrees toyPrimitives fundedState built pool := by
  have hb := eq_ok_returned transferPool_builds
  have hrefund : NoRefundDue fundedState 1 := fun item h => nomatch h
  refine ⟨_, hb, transferPool_included, (build_commit_agreement hb).1 ⟨hrefund, ?_⟩⟩
  obtain ⟨ctx, os, -, hrun, -, hheight, -⟩ := build_ok hb
  refine ⟨ctx, _, hrun, fun hboundary => ?_⟩
  rw [hheight] at hboundary
  cases hboundary

/-- Job 5 was locked at height 0 and has timed out. -/
def expiredState : State :=
  { State.empty with escrows := Column.empty.insert 5 ⟨5, 7, 1000, 0, .locked⟩ }

/-- The proposer builds a block that refunds it; the same store refuses that block. -/
theorem refund_refused :
    ∃ built, build toyPrimitives expiredState (.withLimits 10 10000) 7201 proposerParams 0 = .ok built ∧
      ∃ e, commitBlock toyPrimitives expiredState (.withLimits 10 10000) built.block = .ok (.error e) :=
  ⟨_, rfl, _, rfl⟩

end Arknet.Laws
