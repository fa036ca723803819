import Arknet.Laws.BuildAgreement
import Arknet.Laws.Admission
import Arknet.Laws.Mempool

/-!
The gas of a built block. The pool budgets the fee it extracts from a transaction and the ledger charges
by variant; only an escrow lock, whose fee is the sender's choice, can be charged more than was budgeted.
-/

namespace Arknet.Laws

open Machine Store Arknet.Chain Arknet.Consensus

variable {K : Primitives} {m : Mempool}

/-! ## The law -/

def gasOf : TxOutcome → Nat
  | .applied gasUsed => gasUsed.val
  | .rejected _ => 0

/-- The block's transactions apply, and report at most this much gas. -/
def GasWithin (K : Primitives) (s : State) (b : Block) (limit : Gas) : Prop :=
  ∃ ctx os, applyTxs K s.beginBlock b.txs = .ok (ctx, os) ∧ (os.map gasOf).sum ≤ limit.val

/-- The gas budget is not the largest, or the fees in the pool do not reach it. -/
def BudgetCounts (m : Mempool) (limit : Gas) : Prop :=
  limit.val < 2 ^ 64 - 1 ∨ (m.byHash.total fun _ e => e.fee.val) < 2 ^ 64

/-- An escrow lock that can be applied for less than it is charged. -/
def Undercharged (K : Primitives) (stx : SignedTransaction) : Prop :=
  stx.encodedLen K ≤ MAX_SIGNED_TX_BYTES ∧ ∃ src jobId amount nonce fee,
    stx.tx = .escrowLock src jobId amount nonce fee ∧ amount ≠ 0 ∧ nonce.val < 2 ^ 64 - 1 ∧
      fee < ESCROW_LOCK_GAS

/-! ## Charges against budgets -/

/-- Every other transaction is charged at most what the pool budgeted. -/
theorem gasOf_le_fee {ctx ctx' : BlockCtx} {stx : SignedTransaction} {o : TxOutcome} {sender : Address}
    {nonce : Nonce} {fee : Gas} (hsize : stx.encodedLen K ≤ MAX_SIGNED_TX_BYTES)
    (hextract : extractSenderNonceFee stx.tx = .ok (sender, nonce, fee)) (hu : ¬ Undercharged K stx)
    (h : applyTx K ctx stx = .ok (ctx', o)) : gasOf o ≤ fee.val := by
  have kept : Kept ctx ctx' o → gasOf o ≤ fee.val := by
    rintro ⟨-, ho⟩
    cases o with
    | applied gas => cases ho
    | rejected reason => exact Nat.zero_le _
  cases htx : stx.tx with
  | transfer src dst amount n f =>
    simp only [applyTx, htx] at h
    simp only [htx, extractSenderNonceFee, Except.ok.injEq, Prod.mk.injEq] at hextract
    obtain ⟨rfl, rfl, rfl⟩ := hextract
    rcases applyTransfer_ok h with hk | ⟨rfl, -⟩
    · exact kept hk
    · exact le_rfl
  | escrowLock src jobId amount n f =>
    simp only [applyTx, htx] at h
    simp only [htx, extractSenderNonceFee, Except.ok.injEq, Prod.mk.injEq] at hextract
    obtain ⟨rfl, rfl, rfl⟩ := hextract
    rcases applyEscrowLock_ok h with hk | ⟨rfl, hamount, -, -, balance, next, -, hnext, -⟩
    · exact kept hk
    · apply le_of_not_gt
      intro hlow
      refine hu ⟨hsize, _, _, _, _, _, htx, hamount, ?_, hlow⟩
      have hlt := next.isLt
      omega
  | registerModel manifest registrar deposit =>
    simp only [applyTx, htx] at h
    simp only [htx, extractSenderNonceFee, Except.ok.injEq, Prod.mk.injEq] at hextract
    obtain ⟨-, -, rfl⟩ := hextract
    rcases applyRegisterModel_ok h with hk | ⟨rfl, -⟩
    · exact kept hk
    · exact le_rfl
  | govProposal p =>
    simp only [applyTx, htx] at h
    simp only [htx, extractSenderNonceFee, Except.ok.injEq, Prod.mk.injEq] at hextract
    obtain ⟨-, -, rfl⟩ := hextract
    rcases applyGovProposal_ok h with hk | ⟨rfl, -⟩
    · exact kept hk
    · exact le_rfl
  | govVote proposalId voter choice =>
    simp only [applyTx, htx] at h
    simp only [htx, extractSenderNonceFee, Except.ok.injEq, Prod.mk.injEq] at hextract
    obtain ⟨-, -, rfl⟩ := hextract
    rcases applyGovVote_ok h with hk | ⟨rfl, -⟩
    · exact kept hk
    · exact le_rfl
  | registerTeeCapability nodeId operator capability =>
    simp only [applyTx, htx] at h
    simp only [htx, extractSenderNonceFee, Except.ok.injEq, Prod.mk.injEq] at hextract
    obtain ⟨-, -, rfl⟩ := hextract
    rcases applyRegisterTee_ok h with hk | ⟨rfl, -⟩
    · exact kept hk
    · exact le_rfl
  | registerGateway nodeId operator url https =>
    simp only [applyTx, htx] at h
    simp only [htx, extractSenderNonceFee, Except.ok.injEq, Prod.mk.injEq] at hextract
    obtain ⟨-, -, rfl⟩ := hextract
    rcases applyRegisterGateway_ok h with hk | ⟨rfl, -⟩
    · exact kept hk
    · exact le_rfl
  | unregisterGateway nodeId operator =>
    simp only [applyTx, htx] at h
    simp only [htx, extractSenderNonceFee, Except.ok.injEq, Prod.mk.injEq] at hextract
    obtain ⟨-, -, rfl⟩ := hextract
    obtain ⟨rfl, -⟩ := applyUnregisterGateway_ok h
    exact le_rfl
  | stakeOp | receiptBatch | dispute | escrowSettle | rewardMint =>
    rw [htx] at hextract
    cases hextract

/-- Entries none of which is undercharged cost at most their fees. -/
theorem gas_le_fees {ctx ctx' : BlockCtx} {taken : List Entry} {os : List TxOutcome}
    (hfair : ∀ e ∈ taken, e.tx.encodedLen K ≤ MAX_SIGNED_TX_BYTES ∧ ¬ Undercharged K e.tx)
    (h : applyTxs K ctx (taken.map (·.tx)) = .ok (ctx', os)) :
    (os.map gasOf).sum ≤ (taken.map (·.fee.val)).sum := by
  induction taken generalizing ctx os with
  | nil =>
    obtain ⟨-, rfl⟩ := applyTxs_nil_ok.mp h
    exact le_rfl
  | cons e taken ih =>
    obtain ⟨mid, o, os', h₁, h₂, rfl⟩ := applyTxs_cons_ok.mp h
    obtain ⟨hsize, hu⟩ := hfair e (List.mem_cons_self ..)
    have hfirst := gasOf_le_fee hsize e.pooled hu h₁
    have hrest := ih (fun e' he' => hfair e' (List.mem_cons_of_mem _ he')) h₂
    rw [List.map_cons, List.map_cons, List.sum_cons, List.sum_cons]
    omega

theorem sum_gas_applied (os : List TxOutcome) :
    ((os.filter TxOutcome.isApplied).map gasOf).sum = (os.map gasOf).sum := by
  induction os with
  | nil => rfl
  | cons o os ih =>
    cases o with
    | applied gas =>
      rw [List.filter_cons_of_pos rfl, List.map_cons, List.map_cons, List.sum_cons, List.sum_cons, ih]
    | rejected reason =>
      rw [List.filter_cons_of_neg (by simp [TxOutcome.isApplied]), List.map_cons, List.sum_cons, ih]
      simp [gasOf]

/-- A block of transactions that are all budgeted for keeps the limit. -/
theorem gasWithin_of_fair (hi : Indexed K m) {s : State} {height : Height} {params : BuildParams}
    {now : Timestamp} {built : BuiltBlock}
    (hfair : ∀ h e, m.byHash.get h = some e → ¬ Undercharged K e.tx)
    (hbudget : BudgetCounts m params.gasLimit) (h : build K s m height params now = .ok built) :
    GasWithin K s built.block params.gasLimit := by
  obtain ⟨ctx, os, hall, hkept, -⟩ := build_ok h
  obtain ⟨taken, hd, -⟩ := drainForBlock_lawful hi params.gasLimit params.bytesBudget
  rw [(build_drained h).1, hd.picked] at hall
  have hgas := gas_le_fees (K := K) (fun e he => by
    obtain ⟨y, hget⟩ := hd.pooled e he
    exact ⟨(hi.size y e hget).2, hfair y e hget⟩) hall
  refine ⟨ctx, _, hkept, ?_⟩
  rw [sum_gas_applied]
  have htotal := sum_le_total hi (fun e => e.fee.val) hd.pooled hd.order
  have hused := hd.gas
  have hlimit := Fin.le_def.mp hd.gasLimit
  rcases hbudget with hlt | hlt
  · omega
  · omega

/-! ## An undercharged lock alone -/

/-- A pool that holds one transaction gives it up under a budget of its own fee. -/
theorem solo_pool {stx : SignedTransaction} {sender : Address} (nonce : Nonce) (fee : Gas)
    (hsize : stx.encodedLen K ≤ MAX_SIGNED_TX_BYTES)
    (hextract : extractSenderNonceFee stx.tx = .ok (sender, nonce, fee)) :
    ∃ m, [PoolOp.insert stx].foldlM (PoolOp.run K) (.withLimits 1 MAX_SIGNED_TX_BYTES) = .ok m ∧
      (∀ h e, m.byHash.get h = some e → e.tx = stx) ∧
      (m.drainForBlock fee MAX_SIGNED_TX_BYTES).picked = [stx] := by
  have hempty := withLimits_indexed (K := K) 1 MAX_SIGNED_TX_BYTES
  have hrefusal : refusal K (.withLimits 1 MAX_SIGNED_TX_BYTES) stx = none := by
    unfold refusal
    rw [if_neg (not_lt.mpr hsize), hextract]
    rfl
  obtain ⟨m, r, hins, hi, -, -, -, hout⟩ :=
    insert_outcome hempty (withLimits_bounded 1 MAX_SIGNED_TX_BYTES) stx
  rw [hrefusal] at hout
  rcases hout with ⟨err, href, -⟩ | ⟨-, hentered⟩
  · cases href
  cases hentered with
  | dropped htx hfull =>
    refine absurd ⟨?_, ?_⟩ hfull
    · exact le_rfl
    · simpa [bytesFrom, Mempool.withLimits] using hsize
  | kept htx hfits hthere hsub =>
    rename_i e
    have honly : ∀ h e', m.byHash.get h = some e' → e' = e := by
      intro h e' hget
      by_cases hh : h = stx.hash K
      · rw [hh, hthere] at hget
        exact (Option.some.inj hget).symm
      · cases hsub h e' hget hh
    refine ⟨m, ?_, fun h e' hget => by rw [honly h e' hget, htx], ?_⟩
    · rw [List.foldlM_cons]
      change (Prod.fst <$> Mempool.insert K _ stx) >>= _ = _
      rw [hins]
      rfl
    · obtain ⟨taken, hd, hall⟩ := drainForBlock_lawful hi fee MAX_SIGNED_TX_BYTES
      have halong : along m m.byPriority.keys = [e] := by
        have hmem : e ∈ along m m.byPriority.keys := by
          rw [mem_along hi, htx]
          exact hthere
        have hsame : ∀ e' ∈ along m m.byPriority.keys, e' = e := by
          intro e' he'
          exact honly _ e' ((mem_along hi).mp he')
        have horder := along_order hi
        cases hlist : along m m.byPriority.keys with
        | nil =>
          rw [hlist] at hmem
          cases hmem
        | cons a rest =>
          rw [hlist] at hsame horder
          have ha := hsame a (List.mem_cons_self ..)
          cases rest with
          | nil => rw [ha]
          | cons b rest =>
            have hb := hsame b (by simp)
            rw [ha, hb] at horder
            rcases (List.pairwise_cons.mp horder).1 e (List.mem_cons_self ..) with h | ⟨-, h⟩
            · exact absurd h (lt_irrefl _)
            · exact absurd h (lt_irrefl _)
      have hpooled := e.pooled
      rw [htx, hextract] at hpooled
      simp only [Except.ok.injEq, Prod.mk.injEq] at hpooled
      have hbytes := (hi.size _ _ hthere).1
      rw [halong] at hall
      rw [hd.picked, hall]
      · simp [htx]
      · simp [hpooled.2.2]
      · simpa [hbytes, htx] using hsize

/-- A state in which the account can pay anything. -/
def fundedAt (src : Address) (nonce : Nonce) : State :=
  { State.empty with accounts := Column.empty.insert src ⟨Fin.last _, nonce⟩ }

theorem lock_applies {stx : SignedTransaction} {src : Address} {jobId : JobId} {amount : Amount}
    {nonce : Nonce} {fee : Gas} (htx : stx.tx = .escrowLock src jobId amount nonce fee)
    (hamount : amount ≠ 0) (hnonce : nonce.val < 2 ^ 64 - 1) :
    ∃ ctx, applyTx K (fundedAt src nonce).beginBlock stx = .ok (ctx, .applied ESCROW_LOCK_GAS) := by
  have hacct : (fundedAt src nonce).beginBlock.account src = ⟨Fin.last _, nonce⟩ := by
    rw [BlockCtx.account_eq, State.beginBlock_commit]
    simp [fundedAt, Column.get_insert]
  obtain ⟨balance, hbalance⟩ := sub_isOk (w := 128) (Fin.le_last (satAdd amount (asAmount fee)))
  obtain ⟨next, hnext⟩ := add_isOk (w := 64) (a := nonce) (b := 1) (by
    have hone : (1 : U64).val = 1 := rfl
    omega)
  refine ⟨((fundedAt src nonce).beginBlock.setAccount src ⟨balance, next⟩).setEscrow jobId
    ⟨jobId, src, amount, (fundedAt src nonce).beginBlock.currentHeight.getD 0, .locked⟩, ?_⟩
  simp only [applyTx, htx, applyEscrowLock]
  rw [if_neg hamount, if_neg (by simp [BlockCtx.getEscrow, fundedAt, State.empty]), hacct, if_neg (by simp),
    if_neg (not_lt.mpr (Fin.le_last _)), hbalance, hnext]
  rfl

theorem build_of_include {s : State} {height : Height} {params : BuildParams} {now : Timestamp}
    {ctx : BlockCtx} {included : List SignedTransaction}
    (h : includeTxs K s.beginBlock (m.drainForBlock params.gasLimit params.bytesBudget).picked =
      .ok (ctx, included)) :
    ∃ built, build K s m height params now = .ok built ∧ built.block.txs = included := by
  unfold build
  dsimp only
  rw [h]
  exact ⟨_, rfl, rfl⟩

/-- For every set of transactions: every block built from a pool of them keeps the gas limit, whatever the
state and the parameters, exactly when none of them is an escrow lock with a fee below its charge that
can be applied. -/
theorem block_gas (K : Primitives) (T : SignedTransaction → Prop) :
    (∀ maxCount maxBytes (ops : List PoolOp) (m : Mempool) s height params now built,
      ops.foldlM (PoolOp.run K) (.withLimits maxCount maxBytes) = .ok m →
      (∀ h e, m.byHash.get h = some e → T e.tx) → BudgetCounts m params.gasLimit →
      build K s m height params now = .ok built → GasWithin K s built.block params.gasLimit) ↔
    ∀ stx, T stx → ¬ Undercharged K stx := by
  constructor
  · rintro hall stx hT ⟨hsize, src, jobId, amount, nonce, fee, htx, hamount, hnonce, hlow⟩
    obtain ⟨m, hrun, honly, hpicked⟩ := solo_pool nonce fee hsize (by rw [htx]; rfl)
    obtain ⟨ctx, happly⟩ := lock_applies (K := K) htx hamount hnonce
    have hinclude : includeTxs K (fundedAt src nonce).beginBlock
        (m.drainForBlock fee MAX_SIGNED_TX_BYTES).picked = .ok (ctx, [stx]) := by
      rw [hpicked]
      simp only [includeTxs, happly, ok_bind]
      rfl
    obtain ⟨built, hbuild, htxs⟩ : ∃ built, build K (fundedAt src nonce) m 0
        ⟨"", 0, 0, 0, 0, 0, fee, MAX_SIGNED_TX_BYTES, ""⟩ 0 = .ok built ∧ built.block.txs = [stx] :=
      build_of_include hinclude
    have hbudget : BudgetCounts m fee := by
      have hcharge : ESCROW_LOCK_GAS.val < 2 ^ 64 - 1 := by decide
      exact .inl (lt_trans hlow hcharge)
    obtain ⟨ctx', os, hblock, hgas⟩ := hall _ _ _ m _ 0 _ 0 built hrun
      (fun h e hget => by rw [honly h e hget]; exact hT) hbudget hbuild
    rw [htxs, applyTxs_cons_ok] at hblock
    obtain ⟨mid, o, os', h₁, h₂, rfl⟩ := hblock
    obtain ⟨-, rfl⟩ := applyTxs_nil_ok.mp h₂
    rw [happly] at h₁
    obtain ⟨-, rfl⟩ := Prod.mk.inj (Except.ok.inj h₁)
    have hle : ESCROW_LOCK_GAS.val ≤ fee.val := by simpa [gasOf] using hgas
    exact absurd hlow (not_lt.mpr hle)
  · intro hfair maxCount maxBytes ops m s height params now built hrun hT hbudget hbuild
    obtain ⟨m', hrun', hs⟩ := pool_sound K maxCount maxBytes ops
    rw [hrun] at hrun'
    obtain rfl := Except.ok.inj hrun'
    exact gasWithin_of_fair hs.indexed (fun h e hget => hfair _ (hT h e hget)) hbudget hbuild

def freeLock : List PoolOp := [.insert ⟨.escrowLock 7 1 5 0 0, ⟨.ed25519, [7]⟩, ⟨.ed25519, [7]⟩⟩]

theorem freeLock_run : (freeLock.foldlM (PoolOp.run toyPrimitives)
    (.withLimits DEFAULT_MAX_COUNT DEFAULT_MAX_BYTES)).toOption.isSome = true := by decide

theorem freeLock_builds : (build toyPrimitives fundedState (returned _ freeLock_run) 1
    ⟨"arknet-test", 1, 0, 0, 1, 1, 40000, 1000000, ""⟩ 0).toOption.isSome = true := by decide

theorem freeLock_applies : (applyTxs toyPrimitives fundedState.beginBlock
    (returned _ freeLock_builds).block.txs).toOption.isSome = true := by decide

/-- A lock that bids nothing fits under any budget and is charged in full. -/
theorem freeLock_above_limit : ∃ m built out, freeLock.foldlM (PoolOp.run toyPrimitives)
      (.withLimits DEFAULT_MAX_COUNT DEFAULT_MAX_BYTES) = .ok m ∧
      build toyPrimitives fundedState m 1 ⟨"arknet-test", 1, 0, 0, 1, 1, 40000, 1000000, ""⟩ 0 =
        .ok built ∧
      applyTxs toyPrimitives fundedState.beginBlock built.block.txs = .ok out ∧
      (out.2.map gasOf).sum = 50000 :=
  ⟨_, _, _, eq_ok_returned freeLock_run, eq_ok_returned freeLock_builds, eq_ok_returned freeLock_applies,
    by decide⟩

end Arknet.Laws
