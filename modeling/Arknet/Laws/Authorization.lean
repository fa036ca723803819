import Arknet.Laws.Invariants

/-!
Who can be debited. The account a transaction takes from is a field of its body for transfers, locks
and model registrations, and the signer's own address for stake operations and proposals (`Takes`).
Nothing at commit checks the signature or compares the field with the signer, so the rule that only a
signer is debited holds of the blocks whose transactions observe it themselves.
-/

namespace Arknet.Laws

open Machine Store Arknet.Chain Arknet.Staking Arknet.Payments Arknet.Governance Arknet.Consensus

/-! ## The property -/

def balanceOf (s : State) (a : Address) : Nat := ((s.accounts.get a).getD Account.zero).balance.val

theorem balanceOf_commit (ctx : BlockCtx) (a : Address) :
    balanceOf ctx.commit a = (ctx.account a).balance.val := by
  rw [BlockCtx.account_eq]
  rfl

section

variable (K : Primitives)

/-- The signature verifies and the key's address is `a`. -/
def SignedBy (stx : SignedTransaction) (a : Address) : Prop :=
  stx.verifies K = true ∧ deriveAddressFromSigner K stx.signer = a

/-- Some transaction of the list was applied and is signed by the key of `a`. -/
def AppliedBy (txs : List SignedTransaction) (os : List TxOutcome) (a : Address) : Prop :=
  ∃ p ∈ txs.zip os, p.2.isApplied = true ∧ SignedBy K p.1 a

/-- A dispute of the list slashes the node whose entry lies under `k`. -/
def SlashedIn (s : State) (txs : List SignedTransaction) (k : StakeKey) : Prop :=
  ∃ stx ∈ txs, ∃ d, stx.tx = .dispute d ∧ d.claimedOutputHash ≠ d.reexecOutputHash ∧
    ∃ e ∈ slashableStakes s d.computeNode .compute, e.key = k

/-- Only signers are debited; a delegator's position may also be slashed. -/
structure DebitsSigned (s s' : State) (txs : List SignedTransaction) (os : List TxOutcome) : Prop where
  balances : ∀ a, balanceOf s' a < balanceOf s a → AppliedBy K txs os a
  stakes : ∀ k a, k.delegator = some a → stakeAmount s' k < stakeAmount s k →
    AppliedBy K txs os a ∨ SlashedIn s txs k

/-! ## What a transaction takes -/

/-- Applied here, the transaction takes something from the balance or a stake position of `a`. -/
def Takes (ctx : BlockCtx) (stx : SignedTransaction) (a : Address) : Prop :=
  match stx.tx with
  | .transfer src _ amount _ fee =>
    src = a ∧ 0 < amount.val + (satMul (asAmount fee) ctx.state.baseFee).val
  | .escrowLock src _ amount _ fee => src = a ∧ 0 < (satAdd amount (asAmount fee)).val
  | .registerModel _ registrar deposit => registrar = a ∧ 0 < deposit.val
  | .govProposal p => deriveAddressFromSigner K stx.signer = a ∧ 0 < p.deposit.val
  | .stakeOp op => deriveAddressFromSigner K stx.signer = a ∧ OpTakes ctx op a
  | _ => False

/-- Every applied transaction takes only from the address of the key that signed it. -/
def TxsSigned : BlockCtx → List SignedTransaction → Prop :=
  EachTx K (fun ctx stx => ∀ ctx' o, applyTx K ctx stx = .ok (ctx', o) → o.isApplied = true →
    ∀ a, Takes K ctx stx a → SignedBy K stx a)

end

/-! ## One transaction -/

/-- A write to one account lowers no other account's balance. -/
theorem lowered_setAccount {ctx : BlockCtx} {x : Address} {acct : Account} {a : Address}
    (h : ((ctx.setAccount x acct).account a).balance.val < (ctx.account a).balance.val) :
    x = a ∧ acct.balance.val < (ctx.account a).balance.val := by
  rw [BlockCtx.account_setAccount] at h
  split at h
  · exact ⟨‹_›, h⟩
  · exact absurd h (Nat.lt_irrefl _)

theorem lowers_setAccount {ctx : BlockCtx} {x : Address} (acct : Account)
    (h : acct.balance.val < (ctx.account x).balance.val) :
    ((ctx.setAccount x acct).account x).balance.val < (ctx.account x).balance.val := by
  rw [BlockCtx.account_setAccount, if_pos rfl]
  exact h

theorem creditRewardSplit_frame {ctx ctx' : BlockCtx} {total : Amount}
    {computeAddr verifierAddr treasuryAddr : Address}
    (h : creditRewardSplit ctx total computeAddr verifierAddr treasuryAddr = .ok ctx') :
    HookFrame ctx ctx' := by
  obtain ⟨_, _, _, -, rfl⟩ := creditRewardSplit_ok h
  exact ((creditPositive_frame _ _ _).trans (creditPositive_frame _ _ _)).trans
    (creditPositive_frame _ _ _)

section

variable {K : Primitives} {ctx ctx' : BlockCtx} {stx : SignedTransaction} {o : TxOutcome}

/-- A transaction that lowers a balance was applied and takes from that account. -/
theorem takes_of_balance (h : applyTx K ctx stx = .ok (ctx', o)) {a : Address}
    (hlt : (ctx'.account a).balance.val < (ctx.account a).balance.val) :
    o.isApplied = true ∧ Takes K ctx stx a := by
  have hstay : ctx' ≠ ctx := by
    rintro rfl
    exact Nat.lt_irrefl _ hlt
  cases htx : stx.tx with
  | transfer src dst amount nonce fee =>
    simp only [applyTx, htx] at h
    simp only [Takes, htx]
    rcases applyTransfer_ok h with ⟨hk, -⟩ | ⟨rfl, hne, -, balance, next, hbal, -, rfl⟩
    · exact absurd hk hstay
    · rw [BlockCtx.account_setAccount] at hlt
      split at hlt
      · rename_i hd
        subst hd
        have := le_satAdd (ctx.account dst).balance amount
        simp only at hlt
        omega
      · obtain ⟨rfl, hlt⟩ := lowered_setAccount hlt
        exact ⟨rfl, rfl, by simp only at hlt; omega⟩
  | escrowLock src jobId amount nonce fee =>
    simp only [applyTx, htx] at h
    simp only [Takes, htx]
    rcases applyEscrowLock_ok h with ⟨hk, -⟩ | ⟨rfl, -, -, -, balance, next, hbal, -, rfl⟩
    · exact absurd hk hstay
    · obtain ⟨rfl, hlt⟩ := lowered_setAccount hlt
      exact ⟨rfl, rfl, by simp only at hlt; omega⟩
  | registerModel manifest registrar deposit =>
    simp only [applyTx, htx] at h
    simp only [Takes, htx]
    rcases applyRegisterModel_ok h with ⟨hk, -⟩ | ⟨rfl, -, -, -, balance, hbal, rfl⟩
    · exact absurd hk hstay
    · obtain ⟨rfl, hlt⟩ := lowered_setAccount hlt
      exact ⟨rfl, rfl, by simp only at hlt; omega⟩
  | govProposal p =>
    simp only [applyTx, htx] at h
    simp only [Takes, htx]
    rcases applyGovProposal_ok h with ⟨hk, -⟩ | ⟨rfl, -, balance, next, hbal, -, rfl⟩
    · exact absurd hk hstay
    · obtain ⟨rfl, hlt⟩ := lowered_setAccount hlt
      exact ⟨rfl, rfl, by simp only at hlt; omega⟩
  | stakeOp op =>
    simp only [applyTx, htx] at h
    cases op with
    | deposit nodeId role poolId amount delegator =>
      simp only [Takes, htx, OpTakes]
      rcases applyDeposit_ok h with ⟨hk, -⟩ | ⟨rfl, -, balance, hbal, rfl⟩
      · exact absurd hk hstay
      · obtain ⟨rfl, hlt⟩ := lowered_setAccount hlt
        exact ⟨rfl, rfl, by simp only at hlt; omega⟩
    | withdraw nodeId role poolId amount =>
      rcases applyWithdraw_ok h with ⟨hk, -⟩ | ⟨-, _, _, _, _, _, -, -, -, -, rfl⟩
      · exact absurd hk hstay
      · exact absurd hlt (Nat.lt_irrefl _)
    | complete nodeId role poolId unbondId =>
      rcases applyComplete_ok h with ⟨hk, -⟩ | ⟨-, entry, -, -, -, rfl⟩
      · exact absurd hk hstay
      · exact absurd hlt (Nat.not_lt.mpr
          (ctx.balance_le_creditAddress (entry.delegator.getD _) entry.amount a))
    | redelegate src dst role amount =>
      rcases applyRedelegate_ok h with ⟨hk, -⟩ | ⟨-, -, _, _, _, -, -, rfl⟩
      · exact absurd hk hstay
      · exact absurd hlt (Nat.lt_irrefl _)
  | escrowSettle jobId batchId computeAddr verifierAddr routerAddr treasuryAddr =>
    simp only [applyTx, htx] at h
    rcases applyEscrowSettle_ok h with ⟨hk, -⟩ | ⟨-, entry, credited, -, -, hc, rfl⟩
    · exact absurd hk hstay
    · exact absurd hlt (Nat.not_lt.mpr ((creditRewardSplit_frame hc).credits a))
  | rewardMint jobId totalReward computeAddr verifierAddr routerAddr treasuryAddr outputTokens =>
    simp only [applyTx, htx] at h
    rcases (applyRewardMint_ok h).2 with ⟨-, hk⟩ | ⟨-, hc⟩
    · exact absurd hk hstay
    · exact absurd hlt (Nat.not_lt.mpr ((creditRewardSplit_frame hc).credits a))
  | _ =>
    -- The remaining variants write no account.
    have hw := applyTx_writesOnly h
    rw [htx] at hw
    have hacc : ctx'.commit.accounts = ctx.commit.accounts := by
      simp only [WritesOnly] at hw
      first
        | (obtain ⟨_, _, hw⟩ := hw; rw [hw])
        | (obtain ⟨_, hw⟩ := hw; rw [hw])
        | rw [hw]
    rw [BlockCtx.account_eq, BlockCtx.account_eq, hacc] at hlt
    exact absurd hlt (Nat.lt_irrefl _)

/-- A transaction that lowers a delegator's position was applied and takes from that delegator. -/
theorem takes_of_stake (h : applyTx K ctx stx = .ok (ctx', o)) {k : StakeKey} {a : Address}
    (hd : k.delegator = some a) (hlt : stakeAmount ctx'.commit k < stakeAmount ctx.commit k) :
    o.isApplied = true ∧ Takes K ctx stx a := by
  cases htx : stx.tx with
  | stakeOp op =>
    simp only [applyTx, htx] at h
    simp only [Takes, htx]
    exact applyStakeOp_lowered h hd hlt
  | _ =>
    obtain ⟨hs, -⟩ := (applyTx_frame h).stakes (by simp [htx])
    unfold stakeAmount at hlt
    rw [hs] at hlt
    exact absurd hlt (Nat.lt_irrefl _)

/-- An applied transaction that takes from an account leaves its balance or a position of it lower. -/
theorem lowered_of_takes (h : applyTx K ctx stx = .ok (ctx', o)) (ho : o.isApplied = true)
    {a : Address} (ht : Takes K ctx stx a) :
    (ctx'.account a).balance.val < (ctx.account a).balance.val ∨
      ∃ k, k.delegator = some a ∧ stakeAmount ctx'.commit k < stakeAmount ctx.commit k := by
  have hkept : ¬ Kept ctx ctx' o := fun hk => by rw [hk.2] at ho; cases ho
  cases htx : stx.tx with
  | transfer src dst amount nonce fee =>
    simp only [applyTx, htx] at h
    simp only [Takes, htx] at ht
    obtain ⟨rfl, hpos⟩ := ht
    rcases applyTransfer_ok h with hk | ⟨-, hne, -, balance, next, hbal, -, rfl⟩
    · exact absurd hk hkept
    · left
      rw [BlockCtx.account_setAccount, if_neg (Ne.symm hne)]
      exact lowers_setAccount ⟨balance, next⟩ (by simp only; omega)
  | escrowLock src jobId amount nonce fee =>
    simp only [applyTx, htx] at h
    simp only [Takes, htx] at ht
    obtain ⟨rfl, hpos⟩ := ht
    rcases applyEscrowLock_ok h with hk | ⟨-, -, -, -, balance, next, hbal, -, rfl⟩
    · exact absurd hk hkept
    · exact .inl (lowers_setAccount ⟨balance, next⟩ (by simp only; omega))
  | registerModel manifest registrar deposit =>
    simp only [applyTx, htx] at h
    simp only [Takes, htx] at ht
    obtain ⟨rfl, hpos⟩ := ht
    rcases applyRegisterModel_ok h with hk | ⟨-, -, -, -, balance, hbal, rfl⟩
    · exact absurd hk hkept
    · exact .inl (lowers_setAccount { ctx.account registrar with balance := balance }
        (by simp only; omega))
  | govProposal p =>
    simp only [applyTx, htx] at h
    simp only [Takes, htx] at ht
    obtain ⟨rfl, hpos⟩ := ht
    rcases applyGovProposal_ok h with hk | ⟨-, -, balance, next, hbal, -, rfl⟩
    · exact absurd hk hkept
    · exact .inl (lowers_setAccount { ctx.account _ with balance := balance }
        (by simp only; omega))
  | stakeOp op =>
    simp only [applyTx, htx] at h
    cases op with
    | deposit nodeId role poolId amount delegator =>
      simp only [Takes, htx, OpTakes] at ht
      obtain ⟨rfl, hpos⟩ := ht
      rcases applyDeposit_ok h with hk | ⟨-, -, balance, hbal, rfl⟩
      · exact absurd hk hkept
      · exact .inl (lowers_setAccount { ctx.account _ with balance := balance }
          (by simp only; omega))
    | withdraw nodeId role poolId amount =>
      simp only [Takes, htx, OpTakes] at ht
      obtain ⟨rfl, hpos, hown⟩ := ht
      rcases applyWithdraw_ok h with hk | ⟨-, d, entry, rest, completesAt, next, hdrawn, hrest, -, -, rfl⟩
      · exact absurd hk hkept
      · obtain rfl := drawnEntry_own hdrawn hown
        refine .inr ⟨⟨nodeId, role, poolId, _⟩, rfl, ?_⟩
        have hset := stakeAmount_setStake ctx ⟨nodeId, role, poolId, some (deriveAddressFromSigner K stx.signer)⟩
          { entry with amount := rest } ⟨nodeId, role, poolId, some (deriveAddressFromSigner K stx.signer)⟩
        rw [stakeAmount_of_getStake (drawnEntry_eq_some hdrawn).1]
        refine Nat.lt_of_le_of_lt (Nat.le_of_eq hset) ?_
        rw [if_pos rfl]
        simp only
        omega
    | complete nodeId role poolId unbondId =>
      simp only [Takes, htx, OpTakes, and_false] at ht
    | redelegate src dst role amount =>
      simp only [Takes, htx, OpTakes] at ht
      obtain ⟨rfl, hpos, hown⟩ := ht
      rcases applyRedelegate_ok h with hk | ⟨-, hne, d, entry, rest, hdrawn, hrest, rfl⟩
      · exact absurd hk hkept
      · obtain rfl := drawnEntry_own hdrawn hown
        refine .inr ⟨⟨src, role, none, _⟩, rfl, ?_⟩
        rw [stakeAmount_of_getStake (drawnEntry_eq_some hdrawn).1, stakeAmount_setStake,
          if_neg (by simpa using Ne.symm hne), stakeAmount_setStake, if_pos rfl]
        simp only
        omega
  | _ => simp only [Takes, htx] at ht

/-! ## Blocks -/

theorem appliedBy_cons {txs : List SignedTransaction} {os : List TxOutcome} {a : Address}
    (h : AppliedBy K txs os a) : AppliedBy K (stx :: txs) (o :: os) a := by
  obtain ⟨p, hp, hpo, hps⟩ := h
  exact ⟨p, by simp [hp], hpo, hps⟩

/-- Over the transactions of a block: who is left lower has signed one of them. -/
theorem txs_debits {txs : List SignedTransaction} {ctx ctx' : BlockCtx} {os : List TxOutcome}
    (h : applyTxs K ctx txs = .ok (ctx', os)) (hs : TxsSigned K ctx txs) :
    (∀ a, (ctx'.account a).balance.val < (ctx.account a).balance.val → AppliedBy K txs os a) ∧
    (∀ k a, k.delegator = some a → stakeAmount ctx'.commit k < stakeAmount ctx.commit k →
      AppliedBy K txs os a) := by
  induction txs generalizing ctx os with
  | nil =>
    obtain ⟨rfl, -⟩ := applyTxs_nil_ok.mp h
    exact ⟨fun a hlt => absurd hlt (Nat.lt_irrefl _), fun k a _ hlt => absurd hlt (Nat.lt_irrefl _)⟩
  | cons stx rest ih =>
    obtain ⟨mid, o, os', h₁, h₂, rfl⟩ := applyTxs_cons_ok.mp h
    obtain ⟨hbal, hstk⟩ := ih h₂ (hs.2 mid o h₁)
    have hhead := hs.1 mid o h₁
    constructor
    · intro a hlt
      by_cases hmid : (mid.account a).balance.val < (ctx.account a).balance.val
      · obtain ⟨ho, ht⟩ := takes_of_balance h₁ hmid
        exact ⟨(stx, o), by simp, ho, hhead ho a ht⟩
      · exact appliedBy_cons (hbal a (by omega))
    · intro k a hd hlt
      by_cases hmid : stakeAmount mid.commit k < stakeAmount ctx.commit k
      · obtain ⟨ho, ht⟩ := takes_of_stake h₁ hd hmid
        exact ⟨(stx, o), by simp, ho, hhead ho a ht⟩
      · exact appliedBy_cons (hstk k a hd (by omega))

/-- The slash dispatch writes only the entries of the nodes it slashes. -/
theorem dispatch_stakes {s : State} {txs : List SignedTransaction} (hs : ctx.state = s)
    (h : txs.foldlM (dispatchSlash K) ctx = .ok ctx') {k : StakeKey} (hk : ¬ SlashedIn s txs k) :
    ctx'.commit.stakes.get k = ctx.commit.stakes.get k := by
  refine (foldlM_invariant (fun c => c.state = s ∧
    c.commit.stakes.get k = ctx.commit.stakes.get k) _ _ ?_ ⟨hs, rfl⟩ h).2
  rintro c c' stx hmem ⟨hc, hget⟩ hstep
  rcases dispatchSlash_ok hstep with rfl | ⟨d, report, htx, hne, hslash⟩
  · exact ⟨hc, hget⟩
  · refine ⟨(applySlash_frame hslash).state.trans hc, ?_⟩
    rw [(applySlash_columns hslash).1, Column.get_writeAll_of_notMem _ ?_, hget]
    intro w hw hkey
    obtain ⟨e, he, rfl⟩ := List.mem_map.mp hw
    rw [hc] at he
    exact hk ⟨stx, hmem, d, htx, hne, e, (List.mem_filter.mp he).1, hkey⟩

/-- After the slashes nothing of a block writes a stake. -/
theorem commits_stakes {s s' : State} {b : Block} {r : Replay} (h : Commits K s b r s') :
    ∃ ctx₁ ctx₂, applyTxs K s.beginBlock b.txs = .ok (ctx₁, r.outcomes) ∧
      b.txs.foldlM (dispatchSlash K) ctx₁ = .ok ctx₂ ∧ s'.stakes = ctx₂.commit.stakes := by
  obtain ⟨ctx₁, ctx₂, ctx₃, fee, h₁, h₂, h₃, hr⟩ := replayBlock_ok h.replay
  obtain ⟨blocks, idx, hp⟩ := persist_columns (K := K) r.ctx b
  obtain ⟨_, _, _, _, hc⟩ := epochHooks_commit h₃
  refine ⟨ctx₁, ctx₂, h₁, h₂, ?_⟩
  rw [h.stored, hp, hr]
  simp only [BlockCtx.setBaseFee_commit, BlockCtx.setCurrentHeight_commit, hc]

/-- A committed block, as balances and positions see it: the transactions, the slashes, and hooks
that only credit. -/
theorem commits_debits {s s' : State} {b : Block} {r : Replay} (h : Commits K s b r s') :
    ∃ ctx, applyTxs K s.beginBlock b.txs = .ok (ctx, r.outcomes) ∧
      (∀ a, (ctx.account a).balance.val ≤ balanceOf s' a) ∧
      (∀ k, ¬ SlashedIn s b.txs k → stakeAmount s' k = stakeAmount ctx.commit k) := by
  obtain ⟨ctx₁, ctx₂, ctx₃, fee, h₁, h₂, h₃, hr⟩ := replayBlock_ok h.replay
  obtain ⟨blocks, idx, hp⟩ := persist_columns (K := K) r.ctx b
  have hs' : s' = { r.ctx.commit with blocks := blocks, txIndex := idx } := h.stored.trans hp
  refine ⟨ctx₁, h₁, fun a => ?_, fun k hk => ?_⟩
  · have hframe := (HookFrame.foldlM (fun _ _ _ hf => dispatchSlash_frame hf) h₂).trans
      (epochHooks_frame h₃)
    have hbal : balanceOf s' a = (ctx₃.account a).balance.val := by
      rw [hs', ← balanceOf_commit, hr]
      rfl
    rw [hbal]
    exact hframe.credits a
  · obtain ⟨ctx, mid, htxs, hdispatch, hstk⟩ := commits_stakes h
    obtain rfl : ctx = ctx₁ := by
      rw [h₁] at htxs
      cases htxs
      rfl
    rw [stakeAmount, hstk, dispatch_stakes (applyTxs_state h₁) hdispatch hk]
    rfl

/-- Blocks whose transactions take only from their signers debit only signers. For a block of one
transaction off an epoch boundary the converse holds: if only signers are debited, the transaction
takes only from its signer. -/
theorem debits_signed {s s' : State} {b : Block} {r : Replay} (h : Commits K s b r s') :
    (TxsSigned K s.beginBlock b.txs → DebitsSigned K s s' b.txs r.outcomes) ∧
    (∀ stx, b.txs = [stx] → isEpochBoundary b.header.height = false →
      DebitsSigned K s s' b.txs r.outcomes → TxsSigned K s.beginBlock b.txs) := by
  constructor
  · intro hs
    obtain ⟨ctx, htxs, hbal, hstk⟩ := commits_debits h
    obtain ⟨hb, hst⟩ := txs_debits htxs hs
    refine ⟨fun a hlt => hb a ?_, fun k a hd hlt => ?_⟩
    · have hle := hbal a
      have hbegin : balanceOf s a = (s.beginBlock.account a).balance.val :=
        balanceOf_commit s.beginBlock a
      omega
    · by_cases hk : SlashedIn s b.txs k
      · exact .inr hk
      · rw [hstk k hk] at hlt
        exact .inl (hst k a hd hlt)
  · intro stx htxs hoff hsigned
    rw [htxs]
    refine ⟨fun ctx' o happ ho a ht => ?_, fun _ _ _ => trivial⟩
    have hnd : ∀ d, stx.tx ≠ .dispute d := by
      intro d hd
      simp only [Takes, hd] at ht
    obtain ⟨ctx, fee, blocks, idx, hrun, hs'⟩ := commits_plain h hoff (by simpa [htxs] using hnd)
    rw [htxs] at hrun hsigned
    obtain ⟨mid, o', os, h₁, h₂, hos⟩ := applyTxs_cons_ok.mp hrun
    obtain ⟨rfl, rfl⟩ := applyTxs_nil_ok.mp h₂
    obtain ⟨rfl, rfl⟩ := Prod.mk.inj (Except.ok.inj (h₁.symm.trans happ))
    have hby : AppliedBy K [stx] r.outcomes a := by
      rcases lowered_of_takes happ ho ht with hlt | ⟨k, hd, hlt⟩
      · refine hsigned.balances a ?_
        have hbal : balanceOf s' a = balanceOf ctx.commit a := by rw [hs']; rfl
        rw [hbal, balanceOf_commit]
        exact Nat.lt_of_lt_of_eq hlt (balanceOf_commit s.beginBlock a).symm
      · have hstk : stakeAmount s' k = stakeAmount ctx.commit k := by rw [hs']; rfl
        refine (hsigned.stakes k a hd (by rw [hstk]; exact hlt)).resolve_right ?_
        rintro ⟨t, ht', d, hd', -⟩
        rw [List.mem_singleton.mp ht'] at hd'
        exact hnd d hd'
    obtain ⟨p, hp, -, hsig⟩ := hby
    rw [hos, List.zip_cons_cons, List.zip_nil_left, List.mem_singleton] at hp
    rw [hp] at hsig
    exact hsig

end

/-! ## A signed transfer, an unsigned lock -/

def ownerKey : List UInt8 := List.replicate 32 1

def owner : Address := deriveAddressFromSigner toyPrimitives ⟨.ed25519, ownerKey⟩

def ownerState : State := { State.empty with accounts := Column.empty.insert owner ⟨1000000, 0⟩ }

def ownerTransfer : SignedTransaction := toySigned ownerKey (.transfer owner 9 500 0 21000)

theorem ownerTransfer_signed : SignedBy toyPrimitives ownerTransfer owner := by
  constructor
  · decide
  · rfl

theorem ownerTransfer_replays :
    (replayBlock toyPrimitives ownerState (bodyAt 1 [ownerTransfer])).toOption.isSome = true := by
  decide

/-- The owner's own transfer debits the owner. -/
theorem debits_signed_transfer : ∃ b r s', Commits toyPrimitives ownerState b r s' ∧
    balanceOf s' owner < balanceOf ownerState owner ∧
    DebitsSigned toyPrimitives ownerState s' b.txs r.outcomes := by
  have step := sealBlock_commits (eq_ok_returned ownerTransfer_replays)
  refine ⟨_, _, _, step, by decide, (debits_signed step).1 ?_⟩
  rw [sealBlock_txs]
  refine ⟨fun ctx' o _ _ a ht => ?_, fun _ _ _ => trivial⟩
  obtain ⟨rfl, -⟩ : owner = a ∧ _ := ht
  exact ownerTransfer_signed

/-- A lock in the name of address 7 that nobody signed. -/
theorem unsigned_lock_debits : ∃ b r s', Commits toyPrimitives soleHolder b r s' ∧
    balanceOf s' 7 < balanceOf soleHolder 7 ∧
    (∀ stx ∈ b.txs, stx.verifies toyPrimitives = false) ∧
    ¬ DebitsSigned toyPrimitives soleHolder s' b.txs r.outcomes := by
  have step := sealBlock_commits (K := toyPrimitives) (s := soleHolder)
    (b := bodyAt 1 [unsigned [] (.escrowLock 7 5 1000 0 0)]) rfl
  refine ⟨_, _, _, step, by decide, ?_, fun h => ?_⟩
  · rw [sealBlock_txs]
    simp [bodyAt, unsigned_verifies]
  · obtain ⟨p, hp, -, hv, -⟩ := h.balances 7 (by decide)
    rw [sealBlock_txs] at hp
    rw [List.mem_singleton.mp (List.of_mem_zip hp).1] at hv
    cases hv

end Arknet.Laws
