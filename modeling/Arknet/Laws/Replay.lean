import Arknet.Laws.Authorization
import Arknet.Laws.Batching
import Arknet.Lib.Marks

/-!
Replay. Transfers and escrow locks spend the nonces of their account in order. Every other protection
is a mark in the store that the handler looks for; which marks it sees decides whether a transaction
can be applied twice in one block, in two blocks, or again at will.
-/

namespace Arknet.Laws

open Machine Store Trace Arknet.Chain Arknet.Staking Arknet.Payments Arknet.Governance Arknet.Consensus

/-! ## Nonces -/

/-- The nonce of `a` that the transaction spends when it is applied. -/
def spentNonce (a : Address) : Transaction → Option Nonce
  | .transfer src _ _ nonce _ => if src = a then some nonce else none
  | .escrowLock src _ _ nonce _ => if src = a then some nonce else none
  | _ => none

/-- The nonces of `a` in the order in which the transactions spend them. -/
def spentNonces (a : Address) (txs : List SignedTransaction) : List Nat :=
  txs.filterMap (fun stx => (spentNonce a stx.tx).map Fin.val)

/-- The nonce the next transaction of an account must carry. -/
def nonceOf (s : State) (a : Address) : Nat := ((s.accounts.get a).getD .zero).nonce.val

/-- No account's nonce has changed. -/
def NoncesKept (c c' : BlockCtx) : Prop := ∀ a, nonceOf c'.commit a = nonceOf c.commit a

theorem nonceOf_commit (ctx : BlockCtx) (a : Address) : nonceOf ctx.commit a = (ctx.account a).nonce.val := by
  rw [nonceOf, BlockCtx.account_eq]

theorem nonceOf_setAccount (ctx : BlockCtx) (a : Address) (x : Account) (b : Address) :
    nonceOf (ctx.setAccount a x).commit b = if a = b then x.nonce.val else nonceOf ctx.commit b := by
  rw [nonceOf_commit, BlockCtx.account_setAccount, nonceOf_commit]
  split <;> rfl

namespace NoncesKept

theorem refl (c : BlockCtx) : NoncesKept c c := fun _ => rfl

theorem trans {a b c : BlockCtx} (h : NoncesKept a b) (h' : NoncesKept b c) : NoncesKept a c :=
  fun x => (h' x).trans (h x)

theorem of_accounts {c c' : BlockCtx} (h : c'.commit.accounts = c.commit.accounts) : NoncesKept c c' :=
  fun a => by rw [nonceOf, nonceOf, h]

/-- A new balance under the old nonce. -/
theorem setBalance (c : BlockCtx) (a : Address) (balance : Amount) :
    NoncesKept c (c.setAccount a { c.account a with balance := balance }) := by
  intro b
  rw [nonceOf_setAccount]
  split
  · rename_i h
    rw [nonceOf_commit, h]
  · rfl

theorem credit (c : BlockCtx) (a : Address) (amount : Amount) : NoncesKept c (c.creditAddress a amount) :=
  setBalance c a _

theorem creditPositive (c : BlockCtx) (a : Address) (amount : Amount) :
    NoncesKept c (c.creditPositive a amount) := by
  unfold BlockCtx.creditPositive
  split
  · exact credit c a amount
  · exact refl c

theorem creditRewardSplit {c c' : BlockCtx} {total : Amount}
    {computeAddr verifierAddr treasuryAddr : Address}
    (h : creditRewardSplit c total computeAddr verifierAddr treasuryAddr = .ok c') : NoncesKept c c' := by
  obtain ⟨_, _, _, -, rfl⟩ := creditRewardSplit_ok h
  exact ((creditPositive _ _ _).trans (creditPositive _ _ _)).trans (creditPositive _ _ _)

theorem stakeOp {c c' : BlockCtx} {op : StakeOp} {sender : Address} {height : Height} {o : TxOutcome}
    (h : applyStakeOp c op sender height = .ok (c', o)) : NoncesKept c c' := by
  cases op with
  | deposit nodeId role poolId amount delegator =>
    rcases applyDeposit_ok h with ⟨rfl, -⟩ | ⟨-, -, balance, -, rfl⟩
    · exact refl _
    · exact (setBalance c sender balance).trans (of_accounts rfl)
  | withdraw nodeId role poolId amount =>
    rcases applyWithdraw_ok h with ⟨rfl, -⟩ | ⟨-, _, _, _, _, _, -, -, -, -, rfl⟩
    · exact refl _
    · exact of_accounts rfl
  | complete nodeId role poolId unbondId =>
    rcases applyComplete_ok h with ⟨rfl, -⟩ | ⟨-, entry, -, -, -, rfl⟩
    · exact refl _
    · exact (credit c _ _).trans (of_accounts rfl)
  | redelegate src dst role amount =>
    rcases applyRedelegate_ok h with ⟨rfl, -⟩ | ⟨-, -, _, _, _, -, -, rfl⟩
    · exact refl _
    · exact of_accounts rfl

end NoncesKept

section

variable {K : Primitives} {ctx ctx' : BlockCtx} {stx : SignedTransaction} {o : TxOutcome}

theorem spentNonces_cons (a : Address) (stx : SignedTransaction) (txs : List SignedTransaction) :
    spentNonces a (stx :: txs) = ((spentNonce a stx.tx).map Fin.val).toList ++ spentNonces a txs := by
  unfold spentNonces
  rw [List.filterMap_cons]
  cases spentNonce a stx.tx with
  | none => rfl
  | some n => rfl

theorem spentNonces_append (a : Address) (xs ys : List SignedTransaction) :
    spentNonces a (xs ++ ys) = spentNonces a xs ++ spentNonces a ys := List.filterMap_append

/-- An applied transaction spends the account's next nonce, and no other transaction moves a nonce. -/
theorem applyTx_nonces (h : applyTx K ctx stx = .ok (ctx', o)) (a : Address) :
    spentNonces a (appliedTxs [stx] [o]) =
      List.range' (nonceOf ctx.commit a) (nonceOf ctx'.commit a - nonceOf ctx.commit a) ∧
    nonceOf ctx.commit a ≤ nonceOf ctx'.commit a := by
  have kept : NoncesKept ctx ctx' → (o.isApplied = true → spentNonce a stx.tx = none) →
      spentNonces a (appliedTxs [stx] [o]) =
        List.range' (nonceOf ctx.commit a) (nonceOf ctx'.commit a - nonceOf ctx.commit a) ∧
      nonceOf ctx.commit a ≤ nonceOf ctx'.commit a := by
    intro hk hn
    rw [hk a, Nat.sub_self, appliedTxs_cons]
    refine ⟨?_, Nat.le_refl _⟩
    split
    · rename_i ho
      rw [spentNonces_cons, hn ho]
      rfl
    · rfl
  have spends : ∀ (src : Address) (nonce : Nonce), o.isApplied = true →
      (spentNonce a stx.tx = if src = a then some nonce else none) →
      (∀ b, nonceOf ctx'.commit b = if src = b then nonce.val + 1 else nonceOf ctx.commit b) →
      nonceOf ctx.commit src = nonce.val →
      spentNonces a (appliedTxs [stx] [o]) =
        List.range' (nonceOf ctx.commit a) (nonceOf ctx'.commit a - nonceOf ctx.commit a) ∧
      nonceOf ctx.commit a ≤ nonceOf ctx'.commit a := by
    intro src nonce ho hspent hafter hbefore
    rw [appliedTxs_cons, if_pos ho, spentNonces_cons, hspent, hafter a]
    by_cases ha : src = a
    · subst ha
      simp [hbefore, spentNonces, appliedTxs]
    · simp [if_neg ha, spentNonces, appliedTxs]
  cases htx : stx.tx with
  | transfer src dst amount nonce fee =>
    simp only [applyTx, htx] at h
    rcases applyTransfer_ok h with ⟨rfl, ho⟩ | ⟨rfl, hne, hn, balance, next, -, hnext, rfl⟩
    · exact kept (.refl _) (fun hf => by rw [ho] at hf; cases hf)
    · refine spends src nonce rfl (by simp [spentNonce, htx]) (fun b => ?_) (by rw [nonceOf_commit, hn])
      rw [nonceOf_setAccount, nonceOf_setAccount]
      by_cases hd : dst = b
      · subst hd
        rw [if_pos rfl, if_neg hne, nonceOf_commit]
      · rw [if_neg hd, hnext]
  | escrowLock src jobId amount nonce fee =>
    simp only [applyTx, htx] at h
    rcases applyEscrowLock_ok h with ⟨rfl, ho⟩ | ⟨rfl, -, -, hn, balance, next, -, hnext, rfl⟩
    · exact kept (.refl _) (fun hf => by rw [ho] at hf; cases hf)
    · refine spends src nonce rfl (by simp [spentNonce, htx]) (fun b => ?_) (by rw [nonceOf_commit, hn])
      have hset : nonceOf ((ctx.setAccount src ⟨balance, next⟩).setEscrow jobId
          ⟨jobId, src, amount, ctx.currentHeight.getD 0, .locked⟩).commit b =
          nonceOf (ctx.setAccount src ⟨balance, next⟩).commit b := rfl
      rw [hset, nonceOf_setAccount, hnext]
  | stakeOp op =>
    simp only [applyTx, htx] at h
    exact kept (.stakeOp h) (fun _ => by simp [spentNonce, htx])
  | escrowSettle jobId batchId computeAddr verifierAddr routerAddr treasuryAddr =>
    simp only [applyTx, htx] at h
    rcases applyEscrowSettle_ok h with ⟨rfl, -⟩ | ⟨-, entry, credited, -, -, hc, rfl⟩
    · exact kept (.refl _) (fun _ => by simp [spentNonce, htx])
    · exact kept ((NoncesKept.creditRewardSplit hc).trans (.of_accounts rfl))
        (fun _ => by simp [spentNonce, htx])
  | rewardMint jobId totalReward computeAddr verifierAddr routerAddr treasuryAddr outputTokens =>
    simp only [applyTx, htx] at h
    rcases (applyRewardMint_ok h).2 with ⟨-, rfl⟩ | ⟨-, hc⟩
    · exact kept (.refl _) (fun _ => by simp [spentNonce, htx])
    · exact kept (.creditRewardSplit hc) (fun _ => by simp [spentNonce, htx])
  | registerModel manifest registrar deposit =>
    simp only [applyTx, htx] at h
    rcases applyRegisterModel_ok h with ⟨rfl, -⟩ | ⟨-, -, -, -, balance, -, rfl⟩
    · exact kept (.refl _) (fun _ => by simp [spentNonce, htx])
    · exact kept ((NoncesKept.setBalance ctx registrar balance).trans (.of_accounts rfl))
        (fun _ => by simp [spentNonce, htx])
  | govProposal p =>
    simp only [applyTx, htx] at h
    rcases applyGovProposal_ok h with ⟨rfl, -⟩ | ⟨-, -, balance, next, -, -, rfl⟩
    · exact kept (.refl _) (fun _ => by simp [spentNonce, htx])
    · exact kept ((NoncesKept.setBalance ctx _ balance).trans (.of_accounts rfl))
        (fun _ => by simp [spentNonce, htx])
  | _ =>
    have hw := applyTx_writesOnly h
    simp only [htx, WritesOnly] at hw
    refine kept (.of_accounts ?_) (fun _ => by simp [spentNonce, htx])
    first
      | obtain ⟨_, _, hw⟩ := hw; rw [hw]
      | obtain ⟨_, hw⟩ := hw; rw [hw]
      | rw [hw]

/-! ### The hooks -/

namespace NoncesKept

theorem dispatch {c c' : BlockCtx} {txs : List SignedTransaction}
    (h : txs.foldlM (dispatchSlash K) c = .ok c') : NoncesKept c c' := by
  refine foldlM_invariant (NoncesKept c) _ _ (fun a b t _ ha hf => ha.trans ?_) (refl c) h
  rcases dispatchSlash_ok hf with rfl | ⟨d, report, -, -, hs⟩
  · exact refl _
  · intro x
    rw [nonceOf_commit, nonceOf_commit, (account_applySlash hs x).2]

theorem creditAll (c : BlockCtx) (credits : List (Address × Amount)) :
    NoncesKept c (Consensus.creditAll c credits) := by
  induction credits generalizing c with
  | nil => exact refl c
  | cons x credits ih => exact (creditPositive c x.1 x.2).trans (ih _)

theorem delegators {c c' : BlockCtx} {computeAddr : Address} {delegatorTotal : Amount}
    (h : distributeToDelegators c computeAddr delegatorTotal = .ok c') : NoncesKept c c' := by
  obtain ⟨credits, rfl, -⟩ := distributeToDelegators_credits h
  exact creditAll c credits

theorem mint {c c' : BlockCtx} {endingEpoch : U64} {height : Height} {minted : Amount}
    (h : epochBoundaryMint c endingEpoch height = .ok (c', minted)) : NoncesKept c c' := by
  obtain ⟨rfl, -⟩ | ⟨_, _, acc, -, ha, rfl, -⟩ := epochBoundaryMint_ok h
  · exact refl _
  refine foldlM_invariant (fun acc : MintAcc => NoncesKept c acc.ctx) _ _ ?_ (refl c) ha
  intro a a' pr _ hk hf
  obtain ⟨_, -, -, ⟨-, hc, -⟩ | ⟨-, hp, -⟩⟩ := mintOne_ok hf
  · rw [hc]
    exact hk
  · obtain ⟨dist, paid, -, hd, hpaid⟩ := payReward_ok hp
    have hpay : NoncesKept a.ctx paid :=
      (((creditPositive _ _ _).trans (creditPositive _ _ _)).trans (creditPositive _ _ _)).trans
        (delegators hd)
    exact hk.trans (hpay.trans (of_accounts (by rw [hpaid]; rfl)))

theorem governance {c c' : BlockCtx} {now : Timestamp} (h : processGovernanceProposals c now = .ok c') :
    NoncesKept c c' := by
  refine foldlM_invariant (NoncesKept c) _ _ ?_ (refl c) h
  rintro a a' ⟨id, record⟩ - hk hf
  refine hk.trans ?_
  obtain rfl | ⟨-, -, rfl⟩ | ⟨-, -, ⟨phase, -, rfl⟩ | rfl⟩ := advanceProposal_ok hf
  · exact refl _
  · exact of_accounts rfl
  · unfold returnDeposit
    split
    · exact of_accounts rfl
    · exact (credit a _ _).trans (of_accounts rfl)
  · exact of_accounts rfl

theorem hooks {c c' : BlockCtx} {header : BlockHeader} {minted : Amount}
    (h : epochHooks c header = .ok (c', minted)) : NoncesKept c c' := by
  obtain ⟨-, rfl, -⟩ | ⟨-, rotated, n, paid, h₁, h₂, h₃⟩ := epochHooks_ok h
  · exact refl _
  · obtain ⟨v, hv⟩ := recomputeValidatorSet_commit h₁
    exact ((of_accounts (by rw [hv])).trans (mint h₂)).trans (governance h₃)

end NoncesKept

theorem spentNonces_applied (a : Address) (stx : SignedTransaction) (o : TxOutcome)
    (txs : List SignedTransaction) (os : List TxOutcome) :
    spentNonces a (appliedTxs (stx :: txs) (o :: os)) =
      spentNonces a (appliedTxs [stx] [o]) ++ spentNonces a (appliedTxs txs os) := by
  rw [← spentNonces_append]
  simp only [appliedTxs_cons]
  split <;> rfl

/-- Two ranges that meet. -/
theorem range'_append_of_le {l m n : Nat} (h₁ : l ≤ m) (h₂ : m ≤ n) :
    List.range' l (m - l) ++ List.range' m (n - m) = List.range' l (n - l) := by
  have hm : l + 1 * (m - l) = m := by omega
  have h := @List.range'_append l (m - l) (n - m) 1
  rw [hm] at h
  rw [h]
  congr 1
  omega

theorem applyTxs_nonces {txs : List SignedTransaction} {os : List TxOutcome}
    (h : applyTxs K ctx txs = .ok (ctx', os)) (a : Address) :
    spentNonces a (appliedTxs txs os) =
      List.range' (nonceOf ctx.commit a) (nonceOf ctx'.commit a - nonceOf ctx.commit a) ∧
    nonceOf ctx.commit a ≤ nonceOf ctx'.commit a := by
  induction txs generalizing ctx os with
  | nil =>
    obtain ⟨rfl, rfl⟩ := applyTxs_nil_ok.mp h
    rw [Nat.sub_self]
    exact ⟨rfl, Nat.le_refl _⟩
  | cons stx rest ih =>
    obtain ⟨mid, o, os', h₁, h₂, rfl⟩ := applyTxs_cons_ok.mp h
    obtain ⟨e₁, le₁⟩ := applyTx_nonces h₁ a
    obtain ⟨e₂, le₂⟩ := ih h₂
    rw [spentNonces_applied, e₁, e₂, range'_append_of_le le₁ le₂]
    exact ⟨rfl, Nat.le_trans le₁ le₂⟩

theorem commits_nonces {s s' : State} {b : Block} {r : Replay} (h : Commits K s b r s') (a : Address) :
    spentNonces a (appliedTxs b.txs r.outcomes) = List.range' (nonceOf s a) (nonceOf s' a - nonceOf s a) ∧
      nonceOf s a ≤ nonceOf s' a := by
  obtain ⟨ctx₁, ctx₂, ctx₃, fee, h₁, h₂, h₃, hr⟩ := replayBlock_ok h.replay
  obtain ⟨blocks, idx, hp⟩ := persist_columns (K := K) r.ctx b
  have hs' : nonceOf s' a = nonceOf ctx₁.commit a := by
    have hacc : s'.accounts = ctx₃.commit.accounts := by rw [h.stored, hp, hr]; rfl
    rw [nonceOf, hacc]
    exact ((NoncesKept.dispatch h₂).trans (NoncesKept.hooks h₃)) a
  rw [hs']
  exact applyTxs_nonces h₁ a

theorem appliedOf_snoc (hist : List (Block × Replay)) (b : Block) (r : Replay) :
    appliedOf (hist ++ [(b, r)]) = appliedOf hist ++ appliedTxs b.txs r.outcomes := by
  simp [appliedOf]

theorem run_nonces {s t : State} {hist : List (Block × Replay)} (run : Run K s hist t) (a : Address) :
    spentNonces a (appliedOf hist) = List.range' (nonceOf s a) (nonceOf t a - nonceOf s a) ∧
      nonceOf s a ≤ nonceOf t a := by
  induction run with
  | nil =>
    rw [Nat.sub_self]
    exact ⟨rfl, Nat.le_refl _⟩
  | snoc run step ih =>
    obtain ⟨e₁, le₁⟩ := ih
    obtain ⟨e₂, le₂⟩ := commits_nonces step a
    rw [appliedOf_snoc, spentNonces_append, e₁, e₂, range'_append_of_le le₁ le₂]
    exact ⟨rfl, Nat.le_trans le₁ le₂⟩

end

/-! ## Marks -/

/-- The mark by which the store shows that the transaction has been applied, for those that leave
one. -/
def Spent (s : State) : Transaction → Prop
  | .transfer src _ _ nonce _ => nonce.val < nonceOf s src
  | .escrowLock src _ _ nonce _ => nonce.val < nonceOf s src
  | .receiptBatch batch =>
    batch.receipts ≠ [] ∧ ∀ r ∈ batch.receipts, (s.receiptsSeen.get r.jobId).isSome = true
  | .stakeOp (.complete nodeId _ _ unbondId) =>
    s.unbondings.get ⟨nodeId, unbondId⟩ = none ∧ unbondId.val < (s.metaUnbondId.getD 0).val
  | .registerModel manifest _ _ => (s.models.get manifest.modelId).isSome = true
  | .govVote id voter _ => (s.votes.get ⟨id, voter⟩).isSome = true
  | .escrowSettle jobId _ _ _ _ _ => ∃ e, s.escrows.get jobId = some e ∧ e.state ≠ .locked
  | _ => False

/-- The handler looks for its mark through the block's buffer. -/
def guarded : Transaction → Bool
  | .transfer .. | .escrowLock .. | .receiptBatch _ => true
  | _ => false

/-- A completed unbonding, whose mark is the entry it deletes. -/
def completes : Transaction → Bool
  | .stakeOp (.complete ..) => true
  | _ => false

/-- The handler looks for its mark in the committed store. -/
def recorded : Transaction → Bool
  | .registerModel .. | .govVote .. | .escrowSettle .. => true
  | _ => false

/-- The marks that nothing removes. -/
structure MarksKept (s s' : State) : Prop where
  nonces : ∀ a, nonceOf s a ≤ nonceOf s' a
  seen : ∀ j, (s.receiptsSeen.get j).isSome = true → (s'.receiptsSeen.get j).isSome = true
  models : ∀ m, (s.models.get m).isSome = true → (s'.models.get m).isSome = true
  votes : ∀ k, (s.votes.get k).isSome = true → (s'.votes.get k).isSome = true
  settled : ∀ j e, s.escrows.get j = some e → e.state ≠ .locked →
    ∃ e', s'.escrows.get j = some e' ∧ e'.state ≠ .locked

/-- The entry of a spent unbonding id does not come back. -/
def ConsumedKept (s s' : State) : Prop :=
  ∀ k, s.unbondings.get k = none → k.unbondId.val < (s.metaUnbondId.getD 0).val →
    s'.unbondings.get k = none ∧ k.unbondId.val < (s'.metaUnbondId.getD 0).val

theorem MarksKept.refl (s : State) : MarksKept s s :=
  ⟨fun _ => Nat.le_refl _, fun _ h => h, fun _ h => h, fun _ h => h, fun _ e h hl => ⟨e, h, hl⟩⟩

theorem MarksKept.trans {s t u : State} (h : MarksKept s t) (h' : MarksKept t u) : MarksKept s u where
  nonces a := Nat.le_trans (h.nonces a) (h'.nonces a)
  seen j hj := h'.seen j (h.seen j hj)
  models m hm := h'.models m (h.models m hm)
  votes k hk := h'.votes k (h.votes k hk)
  settled j e he hl := by
    obtain ⟨e', he', hl'⟩ := h.settled j e he hl
    exact h'.settled j e' he' hl'

theorem MarksKept.spent {s s' : State} (h : MarksKept s s') {tx : Transaction}
    (hc : completes tx = true → ConsumedKept s s') (hs : Spent s tx) : Spent s' tx := by
  cases tx with
  | transfer src dst amount nonce fee => exact Nat.lt_of_lt_of_le hs (h.nonces src)
  | escrowLock src jobId amount nonce fee => exact Nat.lt_of_lt_of_le hs (h.nonces src)
  | receiptBatch batch => exact ⟨hs.1, fun r hr => h.seen _ (hs.2 r hr)⟩
  | stakeOp op =>
    cases op with
    | complete nodeId role poolId unbondId => exact hc rfl _ hs.1 hs.2
    | _ => exact hs.elim
  | registerModel manifest registrar deposit => exact h.models _ hs
  | govVote id voter choice => exact h.votes _ hs
  | escrowSettle jobId batchId computeAddr verifierAddr routerAddr treasuryAddr =>
    obtain ⟨e, he, hl⟩ := hs
    exact h.settled _ e he hl
  | _ => exact hs.elim

theorem isSome_write {κ ν : Type} [LinearOrder κ] (c : Column κ ν) (k : κ) (v : ν) {k' : κ}
    (h : (c.get k').isSome = true) : ((c.write k (some v)).get k').isSome = true := by
  rw [Column.get_write]
  split
  · rfl
  · exact h

section

variable {K : Primitives} {ctx ctx' : BlockCtx} {stx : SignedTransaction} {o : TxOutcome}

/-- A batch marks its receipts up to the first that is marked already. -/
theorem markReceipts_seen (ctx : BlockCtx) (height : Height) (rs : List InferenceReceipt) (j : JobId)
    (h : (ctx.commit.receiptsSeen.get j).isSome = true) :
    ((markReceipts ctx height rs).1.commit.receiptsSeen.get j).isSome = true := by
  induction rs generalizing ctx with
  | nil => exact h
  | cons r rs ih =>
    simp only [markReceipts]
    split
    · exact h
    · exact ih _ (isSome_write _ _ _ h)

theorem markReceipts_all (height : Height) {rs : List InferenceReceipt} {ctx ctx' : BlockCtx}
    (h : markReceipts ctx height rs = (ctx', none)) :
    (∀ r ∈ rs, (ctx'.commit.receiptsSeen.get r.jobId).isSome = true) ∧
      ∀ r, rs.head? = some r → ctx.isReceiptSeen r.jobId = false := by
  induction rs generalizing ctx with
  | nil => exact ⟨fun _ hr => absurd hr List.not_mem_nil, fun _ hr => by cases hr⟩
  | cons r rs ih =>
    simp only [markReceipts] at h
    split at h
    · cases h
    rename_i hseen
    have hself : ((ctx.markReceiptSeen r.jobId height).commit.receiptsSeen.get r.jobId).isSome = true := by
      rw [BlockCtx.markReceiptSeen_commit]
      simp
    have hhead := markReceipts_seen (ctx.markReceiptSeen r.jobId height) height rs r.jobId hself
    rw [h] at hhead
    refine ⟨fun x hx => ?_, fun x hx => ?_⟩
    · rcases List.mem_cons.mp hx with rfl | hx
      · exact hhead
      · exact (ih h).1 x hx
    · cases hx
      simpa using hseen

theorem queueRewards_seen (K : Primitives) (height : Height) (rs : List InferenceReceipt) (ctx : BlockCtx) :
    (rs.foldl (fun ctx r => ctx.setPendingReward r.jobId (bootstrapReward K height r))
      ctx).commit.receiptsSeen = ctx.commit.receiptsSeen := by
  obtain ⟨-, rewards, hr⟩ := queueRewards_commit K height rs ctx
  rw [hr]

/-- The receipts an applied batch has marked, the first of which was not marked before. -/
theorem receiptBatch_applied {batch : ReceiptBatch} {height : Height}
    (h : applyReceiptBatch K ctx batch height = .ok (ctx', o)) (ho : o.isApplied = true) :
    batch.receipts ≠ [] ∧ (∀ r ∈ batch.receipts, (ctx'.commit.receiptsSeen.get r.jobId).isSome = true) ∧
      ∃ r ∈ batch.receipts, (ctx.commit.receiptsSeen.get r.jobId).isSome = false := by
  unfold applyReceiptBatch at h
  split at h
  · rw [(of_reject h).2] at ho
    cases ho
  rename_i hne
  split at h
  · rw [(of_reject h).2] at ho
    cases ho
  split at h
  · rw [(of_reject h).2] at ho
    cases ho
  rename_i ctx₁ hm
  obtain ⟨hall, hhead⟩ := markReceipts_all _ hm
  obtain ⟨rfl, -⟩ := of_applied h
  refine ⟨hne, fun r hr => ?_, ?_⟩
  · split
    · rw [queueRewards_seen]
      exact hall r hr
    · exact hall r hr
  · obtain ⟨r, rs, hcons⟩ := List.exists_cons_of_ne_nil hne
    refine ⟨r, by simp [hcons], ?_⟩
    rw [← BlockCtx.isReceiptSeen_eq]
    exact hhead r (by rw [hcons]; rfl)

theorem receiptBatch_seen {batch : ReceiptBatch} {height : Height}
    (h : applyReceiptBatch K ctx batch height = .ok (ctx', o)) (j : JobId)
    (hj : (ctx.commit.receiptsSeen.get j).isSome = true) :
    (ctx'.commit.receiptsSeen.get j).isSome = true := by
  have hmark := markReceipts_seen ctx height batch.receipts j hj
  unfold applyReceiptBatch at h
  split at h
  · rw [(of_reject h).1]
    exact hj
  split at h
  · rw [(of_reject h).1]
    exact hj
  split at h <;> rename_i hm <;> rw [hm] at hmark
  · rw [(of_reject h).1]
    exact hmark
  · rw [(of_applied h).1]
    split
    · rw [queueRewards_seen]
      exact hmark
    · exact hmark

theorem applyTx_marksKept (hb : Buffered ctx) (h : applyTx K ctx stx = .ok (ctx', o)) :
    MarksKept ctx.commit ctx'.commit where
  nonces a := (applyTx_nonces h a).2
  seen j hj := by
    cases htx : stx.tx with
    | receiptBatch batch =>
      simp only [applyTx, htx] at h
      exact receiptBatch_seen h j hj
    | _ =>
      rw [(applyTx_writesOnly h).receiptsSeen (by simp [htx])]
      exact hj
  models m hm := by
    cases htx : stx.tx with
    | registerModel manifest registrar deposit =>
      simp only [applyTx, htx] at h
      rcases applyRegisterModel_ok h with ⟨rfl, -⟩ | ⟨-, -, -, -, balance, -, rfl⟩
      · exact hm
      · exact isSome_write _ _ _ hm
    | _ =>
      rw [(applyTx_writesOnly h).models (by simp [htx])]
      exact hm
  votes k hk := by
    cases htx : stx.tx with
    | govVote id voter choice =>
      simp only [applyTx, htx] at h
      rcases applyGovVote_ok h with ⟨rfl, -⟩ | ⟨-, -, -, rfl⟩
      · exact hk
      · exact isSome_write _ _ _ hk
    | _ =>
      rw [(applyTx_frame h).votes (by simp [htx])]
      exact hk
  settled j e he hl := by
    have hbase := hb.escrows j
    rw [he] at hbase
    rcases applyTx_escrows h j with hget | ⟨hnone, -, -, -⟩ | ⟨e', -, -, hget⟩
    · exact ⟨e, hget.trans he, hl⟩
    · rw [hnone] at hbase
      cases hbase with
      | locked hlock => exact absurd hlock hl
    · exact ⟨_, hget, by simp⟩

theorem applyStakeOp_consumed {op : StakeOp} {sender : Address} {height : Height}
    (h : applyStakeOp ctx op sender height = .ok (ctx', o)) : ConsumedKept ctx.commit ctx'.commit := by
  intro k hnone hlt
  have hcount := applyStakeOp_counter h
  refine ⟨?_, Nat.lt_of_lt_of_le hlt hcount⟩
  cases op with
  | deposit nodeId role poolId amount delegator =>
    rcases applyDeposit_ok h with ⟨rfl, -⟩ | ⟨-, -, balance, -, rfl⟩ <;> exact hnone
  | withdraw nodeId role poolId amount =>
    rcases applyWithdraw_ok h with ⟨rfl, -⟩ | ⟨-, d, entry, rest, completesAt, next, -, -, -, -, rfl⟩
    · exact hnone
    · simp only [BlockCtx.setNextUnbondId_commit, BlockCtx.setUnbonding_commit, BlockCtx.setStake_commit,
        Column.get_write]
      split
      · rename_i hk
        -- The entry goes under the counter, and `k` lies below it.
        rw [← hk] at hlt
        exact absurd hlt (Nat.lt_irrefl _)
      · exact hnone
  | complete nodeId role poolId unbondId =>
    rcases applyComplete_ok h with ⟨rfl, -⟩ | ⟨-, entry, -, -, -, rfl⟩
    · exact hnone
    · show (ctx.commit.unbondings.write ⟨nodeId, unbondId⟩ none).get k = none
      rw [Column.get_write]
      split
      · rfl
      · exact hnone
  | redelegate src dst role amount =>
    rcases applyRedelegate_ok h with ⟨rfl, -⟩ | ⟨-, -, d, entry, rest, -, -, rfl⟩ <;> exact hnone

theorem ConsumedKept.of_columns {s s' : State} (hu : s'.unbondings = s.unbondings)
    (hm : s'.metaUnbondId = s.metaUnbondId) : ConsumedKept s s' := by
  intro k hnone hlt
  rw [hu, hm]
  exact ⟨hnone, hlt⟩

theorem applyTx_consumed (h : applyTx K ctx stx = .ok (ctx', o)) : ConsumedKept ctx.commit ctx'.commit := by
  cases htx : stx.tx with
  | stakeOp op =>
    simp only [applyTx, htx] at h
    exact applyStakeOp_consumed h
  | _ =>
    obtain ⟨-, hu, hm⟩ := (applyTx_frame h).stakes (by simp [htx])
    exact .of_columns hu hm

/-- A nonce is spent when it is the account's next. -/
theorem nonce_spent (h : applyTx K ctx stx = .ok (ctx', o)) (ho : o.isApplied = true) {a : Address}
    {n : Nonce} (hn : spentNonce a stx.tx = some n) :
    n.val = nonceOf ctx.commit a ∧ nonceOf ctx'.commit a = n.val + 1 := by
  obtain ⟨hrange, hle⟩ := applyTx_nonces h a
  rw [appliedTxs_cons, if_pos ho, spentNonces_cons, hn] at hrange
  have hone : [n.val] = List.range' (nonceOf ctx.commit a) (nonceOf ctx'.commit a - nonceOf ctx.commit a) :=
    hrange
  have hlen := congrArg List.length hone
  rw [List.length_range', List.length_singleton] at hlen
  rw [← hlen] at hone
  have hval : n.val = nonceOf ctx.commit a := (List.cons.inj hone).1
  exact ⟨hval, by omega⟩

/-- An applied transaction leaves its mark. -/
theorem applied_left (hu : completes stx.tx = true → UnbondIdsBelow ctx.commit)
    (h : applyTx K ctx stx = .ok (ctx', o))
    (ho : o.isApplied = true)
    (hp : guarded stx.tx = true ∨ completes stx.tx = true ∨ recorded stx.tx = true) :
    Spent ctx'.commit stx.tx := by
  have rejected : ¬ Kept ctx ctx' o := fun hk => by rw [hk.2] at ho; cases ho
  have hnonce := @nonce_spent K ctx ctx' stx o h ho
  cases htx : stx.tx with
  | transfer src dst amount nonce fee =>
    show nonce.val < nonceOf ctx'.commit src
    rw [(hnonce (a := src) (n := nonce) (by simp [spentNonce, htx])).2]
    exact Nat.lt_succ_self _
  | escrowLock src jobId amount nonce fee =>
    show nonce.val < nonceOf ctx'.commit src
    rw [(hnonce (a := src) (n := nonce) (by simp [spentNonce, htx])).2]
    exact Nat.lt_succ_self _
  | receiptBatch batch =>
    simp only [applyTx, htx] at h
    obtain ⟨hne, hall, -⟩ := receiptBatch_applied h ho
    exact ⟨hne, hall⟩
  | stakeOp op =>
    simp only [applyTx, htx] at h
    cases op with
    | complete nodeId role poolId unbondId =>
      obtain ⟨-, entry, hget, -, -, rfl⟩ := (applyComplete_ok h).resolve_left rejected
      rw [BlockCtx.getUnbonding_eq] at hget
      refine ⟨?_, hu (by rw [htx]; rfl) ⟨nodeId, unbondId⟩ entry hget⟩
      rw [BlockCtx.deleteUnbonding_commit]
      exact Column.get_write_self _ _ _
    | _ => simp [htx, guarded, completes, recorded] at hp
  | registerModel manifest registrar deposit =>
    simp only [applyTx, htx] at h
    obtain ⟨-, -, -, -, balance, -, rfl⟩ := (applyRegisterModel_ok h).resolve_left rejected
    show ((ctx.commit.models.write manifest.modelId (some manifest)).get manifest.modelId).isSome = true
    rw [Column.get_write_self]
    rfl
  | govVote id voter choice =>
    simp only [applyTx, htx] at h
    obtain ⟨-, -, -, rfl⟩ := (applyGovVote_ok h).resolve_left rejected
    show ((ctx.commit.votes.write ⟨id, voter⟩ (some choice)).get ⟨id, voter⟩).isSome = true
    rw [Column.get_write_self]
    rfl
  | escrowSettle jobId batchId computeAddr verifierAddr routerAddr treasuryAddr =>
    simp only [applyTx, htx] at h
    obtain ⟨-, entry, credited, -, -, -, rfl⟩ := (applyEscrowSettle_ok h).resolve_left rejected
    refine ⟨{ entry with state := .settled }, ?_, by simp⟩
    rw [BlockCtx.setEscrow_commit]
    exact Column.get_write_self _ _ _
  | _ => simp [htx, guarded, completes, recorded] at hp

/-- The marks a handler sees through the buffer stop the transaction. -/
theorem applied_fresh (h : applyTx K ctx stx = .ok (ctx', o)) (ho : o.isApplied = true)
    (hp : guarded stx.tx = true ∨ completes stx.tx = true) : ¬ Spent ctx.commit stx.tx := by
  have rejected : ¬ Kept ctx ctx' o := fun hk => by rw [hk.2] at ho; cases ho
  have hnonce := @nonce_spent K ctx ctx' stx o h ho
  cases htx : stx.tx with
  | transfer src dst amount nonce fee =>
    show ¬ nonce.val < nonceOf ctx.commit src
    rw [← (hnonce (a := src) (n := nonce) (by simp [spentNonce, htx])).1]
    exact Nat.lt_irrefl _
  | escrowLock src jobId amount nonce fee =>
    show ¬ nonce.val < nonceOf ctx.commit src
    rw [← (hnonce (a := src) (n := nonce) (by simp [spentNonce, htx])).1]
    exact Nat.lt_irrefl _
  | receiptBatch batch =>
    simp only [applyTx, htx] at h
    obtain ⟨-, -, r, hr, hunseen⟩ := receiptBatch_applied h ho
    rintro ⟨-, hall⟩
    rw [hall r hr] at hunseen
    cases hunseen
  | stakeOp op =>
    simp only [applyTx, htx] at h
    cases op with
    | complete nodeId role poolId unbondId =>
      obtain ⟨-, entry, hget, -⟩ := (applyComplete_ok h).resolve_left rejected
      rw [BlockCtx.getUnbonding_eq] at hget
      rintro ⟨hnone, -⟩
      rw [hget] at hnone
      cases hnone
    | _ => simp [htx, guarded, completes] at hp
  | _ => simp [htx, guarded, completes] at hp

/-- The marks in the committed store stop the transaction from the next block on. -/
theorem applied_unrecorded (h : applyTx K ctx stx = .ok (ctx', o)) (ho : o.isApplied = true)
    (hp : recorded stx.tx = true) : ¬ Spent ctx.state stx.tx := by
  have rejected : ¬ Kept ctx ctx' o := fun hk => by rw [hk.2] at ho; cases ho
  cases htx : stx.tx with
  | registerModel manifest registrar deposit =>
    simp only [applyTx, htx] at h
    obtain ⟨-, -, -, hnone, -⟩ := (applyRegisterModel_ok h).resolve_left rejected
    show ¬ (ctx.state.models.get manifest.modelId).isSome = true
    rw [hnone]
    simp
  | govVote id voter choice =>
    simp only [applyTx, htx] at h
    obtain ⟨-, -, hnone, -⟩ := (applyGovVote_ok h).resolve_left rejected
    show ¬ (ctx.state.votes.get ⟨id, voter⟩).isSome = true
    rw [hnone]
    simp
  | escrowSettle jobId batchId computeAddr verifierAddr routerAddr treasuryAddr =>
    simp only [applyTx, htx] at h
    obtain ⟨-, entry, credited, hget, hlocked, -⟩ := (applyEscrowSettle_ok h).resolve_left rejected
    rintro ⟨e, he, hl⟩
    rw [hget] at he
    obtain rfl := Option.some.inj he
    exact hl hlocked
  | _ => simp [htx, recorded] at hp

/-! ## Blocks and runs -/

/-- The bodies of a kind among transactions. -/
def bodies (G : Transaction → Bool) (txs : List SignedTransaction) : List Transaction :=
  (txs.map SignedTransaction.tx).filter G

theorem bodies_append (G : Transaction → Bool) (xs ys : List SignedTransaction) :
    bodies G (xs ++ ys) = bodies G xs ++ bodies G ys := by
  simp [bodies]

theorem bodies_applied (G : Transaction → Bool) (stx : SignedTransaction) (o : TxOutcome)
    (txs : List SignedTransaction) (os : List TxOutcome) :
    bodies G (appliedTxs (stx :: txs) (o :: os)) =
      (if o.isApplied = true ∧ G stx.tx = true then [stx.tx] else []) ++ bodies G (appliedTxs txs os) := by
  rw [appliedTxs_cons]
  by_cases ho : o.isApplied = true
  · by_cases hg : G stx.tx = true <;> simp [bodies, ho, hg]
  · simp [ho]

/-- A context that transactions have reached from one whose store was to be `s`. -/
structure KeptSince (s : State) (ctx : BlockCtx) : Prop where
  buffered : Buffered ctx
  marks : MarksKept s ctx.commit
  consumed : ConsumedKept s ctx.commit

theorem KeptSince.refl (hb : Buffered ctx) : KeptSince ctx.commit ctx :=
  ⟨hb, .refl _, fun _ h hlt => ⟨h, hlt⟩⟩

theorem applyTx_keptSince {s : State} (hm : KeptSince s ctx) (h : applyTx K ctx stx = .ok (ctx', o)) :
    KeptSince s ctx' where
  buffered := applyTx_buffered hm.buffered h
  marks := hm.marks.trans (applyTx_marksKept hm.buffered h)
  consumed k hnone hlt := by
    obtain ⟨hnone', hlt'⟩ := hm.consumed k hnone hlt
    exact applyTx_consumed h k hnone' hlt'

theorem applyTxs_keptSince {s : State} {txs : List SignedTransaction} {os : List TxOutcome}
    (hm : KeptSince s ctx) (h : applyTxs K ctx txs = .ok (ctx', os)) : KeptSince s ctx' :=
  (applyTxs_invariant (P := KeptSince s) (fun _ _ _ _ _ _ hc hstep => applyTx_keptSince hc hstep) rfl
    hm h).2

/-- An applied transaction was not marked where the block began, and is marked where the block's
transactions end. -/
theorem applyTxs_spent {s : State} {txs : List SignedTransaction} {os : List TxOutcome}
    (hs : ctx.state = s) (hm : KeptSince s ctx) (h : applyTxs K ctx txs = .ok (ctx', os))
    {stx : SignedTransaction} (hmem : stx ∈ appliedTxs txs os)
    (hu : completes stx.tx = true → UnbondIdsBelow ctx.commit)
    (hp : guarded stx.tx = true ∨ completes stx.tx = true ∨ recorded stx.tx = true) :
    ¬ Spent s stx.tx ∧ Spent ctx'.commit stx.tx := by
  induction txs generalizing ctx os with
  | nil =>
    obtain ⟨-, rfl⟩ := applyTxs_nil_ok.mp h
    exact absurd hmem List.not_mem_nil
  | cons head rest ih =>
    obtain ⟨mid, o, os', h₁, h₂, rfl⟩ := applyTxs_cons_ok.mp h
    have hmid := applyTx_keptSince hm h₁
    have hrest : stx ∈ appliedTxs rest os' → ¬ Spent s stx.tx ∧ Spent ctx'.commit stx.tx := fun hmem' =>
      ih ((applyTx_state h₁).trans hs) hmid h₂ hmem' (fun hc => applyTx_unbondIds (hu hc) h₁)
    rw [appliedTxs_cons] at hmem
    split at hmem
    · rename_i ho
      rcases List.mem_cons.mp hmem with rfl | hmem
      · refine ⟨fun hspent => ?_, ?_⟩
        · have hseen := hm.marks.spent (fun _ => hm.consumed) hspent
          rcases hp with hg | hc | hr
          · exact applied_fresh h₁ ho (.inl hg) hseen
          · exact applied_fresh h₁ ho (.inr hc) hseen
          · exact applied_unrecorded h₁ ho hr (hs ▸ hspent)
        · have hend := applyTxs_keptSince (.refl hmid.buffered) h₂
          exact hend.marks.spent (fun _ => hend.consumed) (applied_left hu h₁ ho hp)
      · exact hrest hmem
    · exact hrest hmem

/-- In one block, a transaction whose mark is seen through the buffer is applied once. -/
theorem applyTxs_once {G : Transaction → Bool} {txs : List SignedTransaction} {os : List TxOutcome}
    (hg : ∀ tx, G tx = true → guarded tx = true ∨ completes tx = true)
    (hb : Buffered ctx) (hu : ∀ tx, G tx = true → completes tx = true → UnbondIdsBelow ctx.commit)
    (h : applyTxs K ctx txs = .ok (ctx', os)) :
    Marks (fun c => Spent (BlockCtx.commit c)) ctx (bodies G (appliedTxs txs os)) ctx' ∧
      (bodies G (appliedTxs txs os)).Nodup := by
  induction txs generalizing ctx os with
  | nil =>
    obtain ⟨rfl, rfl⟩ := applyTxs_nil_ok.mp h
    exact ⟨.silent (fun _ he => he), List.nodup_nil⟩
  | cons stx rest ih =>
    obtain ⟨mid, o, os', h₁, h₂, rfl⟩ := applyTxs_cons_ok.mp h
    have hkeep : ∀ tx, Spent ctx.commit tx → Spent mid.commit tx := fun tx hs =>
      (applyTx_marksKept hb h₁).spent (fun _ => applyTx_consumed h₁) hs
    obtain ⟨hrest, hnodup⟩ := ih (applyTx_buffered hb h₁)
      (fun tx ht hc => applyTx_unbondIds (hu tx ht hc) h₁) h₂
    rw [bodies_applied]
    split
    · rename_i hap
      have hhead : Marks (fun c => Spent (BlockCtx.commit c)) ctx [stx.tx] mid := by
        refine Marks.single (applied_fresh h₁ hap.1 (hg _ hap.2)) (applied_left (hu _ hap.2) h₁ hap.1 ?_)
          hkeep
        rcases hg _ hap.2 with hgd | hc
        · exact .inl hgd
        · exact .inr (.inl hc)
      exact ⟨hhead.append hrest, hhead.nodup_append hrest (List.nodup_singleton _) hnodup⟩
    · have hhead : Marks (fun c => Spent (BlockCtx.commit c)) ctx [] mid := .silent hkeep
      exact ⟨hhead.append hrest, hnodup⟩

/-- No slash is dispatched over the history. -/
def Calm (hist : List (Block × Replay)) : Prop :=
  ∀ p ∈ hist, ∀ stx ∈ p.1.txs, ∀ d, stx.tx = .dispute d → d.claimedOutputHash = d.reexecOutputHash

theorem dispatchSlash_calm {txs : List SignedTransaction}
    (hc : ∀ stx ∈ txs, ∀ d, stx.tx = .dispute d → d.claimedOutputHash = d.reexecOutputHash)
    (h : txs.foldlM (dispatchSlash K) ctx = .ok ctx') : ctx' = ctx := by
  refine foldlM_invariant (· = ctx) _ _ ?_ rfl h
  rintro a a' stx hmem rfl hf
  rcases dispatchSlash_ok hf with rfl | ⟨d, report, hd, hne, -⟩
  · rfl
  · exact absurd (hc stx hmem d hd) hne

/-- What follows the transactions of a block keeps their marks. -/
theorem commits_marksKept {s s' : State} {b : Block} {r : Replay} (h : Commits K s b r s') :
    ∃ ctx, applyTxs K s.beginBlock b.txs = .ok (ctx, r.outcomes) ∧ MarksKept ctx.commit s' ∧
      (Calm [(b, r)] → ConsumedKept ctx.commit s') := by
  obtain ⟨ctx₁, ctx₂, ctx₃, fee, h₁, h₂, h₃, hr⟩ := replayBlock_ok h.replay
  obtain ⟨blocks, idx, hp⟩ := persist_columns (K := K) r.ctx b
  have hs' : s' = { ctx₃.commit with
      metaHeight := some b.header.height, metaBaseFee := some fee, blocks := blocks, txIndex := idx } := by
    rw [h.stored, hp, hr]
    rfl
  have hframe := (HookFrame.foldlM (fun _ _ _ hf => dispatchSlash_frame hf) h₂).trans (epochHooks_frame h₃)
  refine ⟨ctx₁, h₁, ⟨fun a => ?_, fun j hj => ?_, fun m hm => ?_, fun k hk => ?_, fun j e he hl => ?_⟩,
    fun hcalm => ?_⟩
  · rw [hs']
    exact Nat.le_of_eq (((NoncesKept.dispatch h₂).trans (NoncesKept.hooks h₃)) a).symm
  · rw [hs']
    show (ctx₃.commit.receiptsSeen.get j).isSome = true
    rw [hframe.receiptsSeen]
    exact hj
  · rw [hs']
    show (ctx₃.commit.models.get m).isSome = true
    rw [hframe.models]
    exact hm
  · rw [hs']
    show (ctx₃.commit.votes.get k).isSome = true
    rw [hframe.votes]
    exact hk
  · refine ⟨e, ?_, hl⟩
    rw [hs']
    show ctx₃.commit.escrows.get j = some e
    rw [hframe.escrows]
    exact he
  · obtain rfl := dispatchSlash_calm (hcalm (b, r) (List.mem_singleton.mpr rfl)) h₂
    obtain ⟨_, _, _, _, hc₃⟩ := epochHooks_commit h₃
    exact .of_columns (by rw [hs', hc₃]) (by rw [hs', hc₃])

/-- Of every kind with a mark, what a block applies was not applied before it and stays marked. -/
theorem commits_marks {G : Transaction → Bool} {s s' : State} {b : Block} {r : Replay}
    (h : Commits K s b r s')
    (hg : ∀ tx, G tx = true → guarded tx = true ∨ completes tx = true ∨ recorded tx = true)
    (hc : ∀ tx, G tx = true → completes tx = true → UnbondIdsBelow s ∧ Calm [(b, r)]) :
    Marks (fun s tx => G tx = true ∧ Spent s tx) s (bodies G (appliedTxs b.txs r.outcomes)) s' := by
  obtain ⟨ctx, htxs, hkept, hconsumed⟩ := commits_marksKept h
  have hsince := applyTxs_keptSince (KeptSince.refl (buffered_begin s)) htxs
  have hspent : ∀ tx ∈ bodies G (appliedTxs b.txs r.outcomes),
      G tx = true ∧ ¬ Spent s tx ∧ Spent ctx.commit tx := by
    intro tx htx
    obtain ⟨hmem, hG⟩ := List.mem_filter.mp htx
    obtain ⟨stx, hstx, rfl⟩ := List.mem_map.mp hmem
    exact ⟨hG, applyTxs_spent rfl (KeptSince.refl (buffered_begin s)) htxs hstx
      (fun hcomp => (hc _ hG hcomp).1) (hg _ hG)⟩
  refine ⟨fun tx htx hmark => (hspent tx htx).2.1 hmark.2, fun tx htx => ?_, fun tx hmark => ?_⟩
  · obtain ⟨hG, -, hs⟩ := hspent tx htx
    exact ⟨hG, hkept.spent (fun hcomp => hconsumed (hc _ hG hcomp).2) hs⟩
  · obtain ⟨hG, hs⟩ := hmark
    exact ⟨hG, hkept.spent (fun hcomp => hconsumed (hc _ hG hcomp).2)
      (hsince.marks.spent (fun _ => hsince.consumed) hs)⟩

theorem bodies_appliedOf_snoc (G : Transaction → Bool) (hist : List (Block × Replay)) (b : Block)
    (r : Replay) : bodies G (appliedOf (hist ++ [(b, r)])) =
      bodies G (appliedOf hist) ++ bodies G (appliedTxs b.txs r.outcomes) := by
  rw [appliedOf_snoc, bodies_append]

/-- Over a run, no block applies what an earlier block has applied. -/
theorem run_marks {G : Transaction → Bool} {s t : State} {hist : List (Block × Replay)}
    (run : Run K s hist t)
    (hg : ∀ tx, G tx = true → guarded tx = true ∨ completes tx = true ∨ recorded tx = true)
    (hc : ∀ tx, G tx = true → completes tx = true → WellFormed s ∧ Calm hist) :
    Marks (fun s tx => G tx = true ∧ Spent s tx) s (bodies G (appliedOf hist)) t ∧
      hist.Pairwise (fun p q => List.Disjoint (bodies G (appliedTxs p.1.txs p.2.outcomes))
        (bodies G (appliedTxs q.1.txs q.2.outcomes))) := by
  induction run with
  | nil => exact ⟨.silent (fun _ he => he), List.Pairwise.nil⟩
  | snoc run step ih =>
    rename_i hist t t' b r
    have hcalm : ∀ {xs : List (Block × Replay)}, (∀ p ∈ xs, p ∈ hist ++ [(b, r)]) →
        Calm (hist ++ [(b, r)]) → Calm xs := fun hsub hcalm p hp => hcalm p (hsub p hp)
    obtain ⟨hmarks, hpair⟩ := ih (fun tx hG hcomp =>
      ⟨(hc tx hG hcomp).1, hcalm (fun p hp => List.mem_append_left _ hp) (hc tx hG hcomp).2⟩)
    have hstep := commits_marks step hg (fun tx hG hcomp =>
      ⟨(run_keeps_wellFormed (hc tx hG hcomp).1 run).unbondIds,
        hcalm (fun p hp => List.mem_append_right _ hp) (hc tx hG hcomp).2⟩)
    rw [bodies_appliedOf_snoc]
    refine ⟨hmarks.append hstep, List.pairwise_append.mpr ⟨hpair, List.pairwise_singleton _ _, ?_⟩⟩
    intro p hp q hq
    rw [List.mem_singleton.mp hq]
    intro tx hold hnew
    refine hmarks.disjoint hstep (a := tx) ?_ hnew
    obtain ⟨hmem, hG⟩ := List.mem_filter.mp hold
    obtain ⟨stx, hstx, rfl⟩ := List.mem_map.mp hmem
    exact List.mem_filter.mpr ⟨List.mem_map.mpr ⟨stx, List.mem_flatMap.mpr ⟨p, hp, hstx⟩, rfl⟩, hG⟩

/-- A kind whose marks are seen through the buffer is applied once over a run. -/
theorem run_once {G : Transaction → Bool} {s t : State} {hist : List (Block × Replay)}
    (run : Run K s hist t) (hg : ∀ tx, G tx = true → guarded tx = true ∨ completes tx = true)
    (hc : ∀ tx, G tx = true → completes tx = true → WellFormed s ∧ Calm hist) :
    (bodies G (appliedOf hist)).Nodup := by
  have hg' : ∀ tx, G tx = true → guarded tx = true ∨ completes tx = true ∨ recorded tx = true :=
    fun tx hG => (hg tx hG).imp id .inl
  induction run with
  | nil => exact List.nodup_nil
  | snoc run step ih =>
    rename_i hist t t' b r
    have hbefore : ∀ tx, G tx = true → completes tx = true → WellFormed s ∧ Calm hist := fun tx hG hcomp =>
      ⟨(hc tx hG hcomp).1, fun p hp => (hc tx hG hcomp).2 p (List.mem_append_left _ hp)⟩
    have hwell : ∀ tx, G tx = true → completes tx = true → UnbondIdsBelow t := fun tx hG hcomp =>
      (run_keeps_wellFormed (hc tx hG hcomp).1 run).unbondIds
    have hstep := commits_marks step hg' (fun tx hG hcomp =>
      ⟨hwell tx hG hcomp, fun p hp => (hc tx hG hcomp).2 p (List.mem_append_right _ hp)⟩)
    obtain ⟨ctx, htxs, -, -⟩ := commits_marksKept step
    rw [bodies_appliedOf_snoc]
    exact (run_marks run hg' hbefore).1.nodup_append hstep (ih hbefore)
      (applyTxs_once hg (buffered_begin t) hwell htxs).2

/-! ## The law -/

/-- No signed transaction is applied twice: the same body by the same signer. -/
def AppliedOnce (hist : List (Block × Replay)) : Prop :=
  ((appliedOf hist).map (fun stx => (stx.tx, stx.signer))).Nodup

/-- What protects a run from replays: nonces in order, marks seen at once, marks seen from the next
block on. -/
structure ReplayProtected (s : State) (hist : List (Block × Replay)) : Prop where
  nonces : ∀ a, ∃ k, spentNonces a (appliedOf hist) = List.range' (nonceOf s a) k
  once : (bodies guarded (appliedOf hist)).Nodup
  completedOnce : WellFormed s → Calm hist → (bodies completes (appliedOf hist)).Nodup
  laterBlocks : hist.Pairwise (fun p q => List.Disjoint (bodies recorded (appliedTxs p.1.txs p.2.outcomes))
    (bodies recorded (appliedTxs q.1.txs q.2.outcomes)))

theorem replay_protection {s t : State} {hist : List (Block × Replay)} (run : Run K s hist t) :
    ReplayProtected s hist where
  nonces a := ⟨_, (run_nonces run a).1⟩
  once := run_once run (fun _ hG => .inl hG) (fun tx hG hcomp => by
    cases tx <;> simp [guarded, completes] at hG hcomp)
  completedOnce hw hcalm := run_once run (fun _ hG => .inr hG) (fun _ _ _ => ⟨hw, hcalm⟩)
  laterBlocks := (run_marks run (fun _ hG => .inr (.inr hG)) (fun tx hG hcomp => by
    cases tx <;> simp [recorded, completes] at hG hcomp)).2

end

/-! ## A deposit carries no nonce -/

/-- The owner bonds a hundred atoms to a compute node. -/
def ownerDeposit : SignedTransaction := toySigned ownerKey (.stakeOp (.deposit 3 .compute none 100 (some owner)))

theorem depositBody_replays : (replayBlock toyPrimitives ownerState
    (bodyAt 1 [ownerTransfer, ownerDeposit])).toOption.isSome = true := by decide

def depositedState : State :=
  persist toyPrimitives (returned _ depositBody_replays).ctx
    (sealBlock toyPrimitives ownerState (bodyAt 1 [ownerTransfer, ownerDeposit]))

theorem redepositBody_replays : (replayBlock toyPrimitives depositedState
    (bodyAt 2 [ownerDeposit, ownerTransfer])).toOption.isSome = true := by decide

/-- The owner's transfer and deposit, each put in two blocks. -/
def redepositHist : List (Block × Replay) :=
  [(sealBlock toyPrimitives ownerState (bodyAt 1 [ownerTransfer, ownerDeposit]),
      returned _ depositBody_replays),
    (sealBlock toyPrimitives depositedState (bodyAt 2 [ownerDeposit, ownerTransfer]),
      returned _ redepositBody_replays)]

theorem redepositHist_run : ∃ t, Run toyPrimitives ownerState redepositHist t :=
  ⟨_, (Run.nil.snoc (sealBlock_commits (eq_ok_returned depositBody_replays))).snoc
    (sealBlock_commits (eq_ok_returned redepositBody_replays))⟩

/-- The transfer's nonce stops it the second time. -/
theorem replay_protection_redeposit :
    appliedOf redepositHist = [ownerTransfer, ownerDeposit, ownerDeposit] ∧
      ReplayProtected ownerState redepositHist := by
  obtain ⟨t, run⟩ := redepositHist_run
  exact ⟨by decide, replay_protection run⟩

/-- Nothing stops the deposit. -/
theorem deposit_applied_twice :
    ∃ t, Run toyPrimitives ownerState redepositHist t ∧ ¬ AppliedOnce redepositHist := by
  obtain ⟨t, run⟩ := redepositHist_run
  refine ⟨t, run, fun honce => ?_⟩
  have happlied : appliedOf redepositHist = [ownerTransfer, ownerDeposit, ownerDeposit] := by
    decide
  rw [AppliedOnce, happlied] at honce
  simp at honce

end Arknet.Laws
