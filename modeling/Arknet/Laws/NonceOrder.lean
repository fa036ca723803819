import Arknet.Laws.PoolConflicts
import Arknet.Laws.BlockGas

/-!
A sender's transfers in a built block. The pool drains by fee and the ledger asks for nonces in order:
transfers whose fees fall with their nonces are all included, and one that bids more than its predecessor
is drained first, rejected and lost.
-/

namespace Arknet.Laws

open Machine Store Arknet.Chain Arknet.Consensus

variable {K : Primitives} {m : Mempool} {a : Address}

/-! ## Transfers of a sender -/

/-- The recipient of a transfer of `a`. -/
def transferOf (a : Address) : Transaction → Option Address
  | .transfer src dst _ _ _ => if src = a then some dst else none
  | _ => none

/-- What `a` pays when the transaction is applied, locks apart. -/
def debit (K : Primitives) (baseFee : Amount) (a : Address) (stx : SignedTransaction) : Nat :=
  match stx.tx with
  | .transfer src _ amount _ fee =>
    if src = a then amount.val + (satMul (asAmount fee) baseFee).val else 0
  | .registerModel _ registrar deposit => if registrar = a then deposit.val else 0
  | .govProposal p => if deriveAddressFromSigner K stx.signer = a then p.deposit.val else 0
  | _ => 0

/-- The pool holds `count` transfers of `a` with consecutive nonces from the account's on and no others,
each goes to someone else with at least the least fee, and the account can pay for them on top of the
deposits the pool takes from it. -/
structure GaplessTransfers (K : Primitives) (s : State) (m : Mempool) (a : Address) (count : Nat) : Prop where
  there : ∀ i ∈ List.range count, ∃ e ∈ m.byHash.values,
    (transferOf a e.tx.tx).isSome ∧ e.nonce.val = nonceOf s a + i
  valid : ∀ e ∈ m.byHash.values, ∀ dst ∈ transferOf a e.tx.tx, dst ≠ a ∧ BASE_TRANSFER_GAS ≤ e.fee ∧
    nonceOf s a ≤ e.nonce.val ∧ e.nonce.val < nonceOf s a + count
  affordable : (m.byHash.values.map fun e => debit K s.baseFee a e.tx).sum ≤
    ((s.accounts.get a).getD .zero).balance.val

/-- The budgets take the whole pool. -/
structure BudgetsSuffice (m : Mempool) (params : BuildParams) : Prop where
  gas : (m.byHash.values.map (·.fee.val)).sum ≤ params.gasLimit.val
  bytes : (m.byHash.values.map (·.encodedBytes)).sum ≤ params.bytesBudget

/-- Of two transfers of `a` the one with the lower nonce bids more, or as much and came first. -/
def FeesFallWithNonce (m : Mempool) (a : Address) : Prop :=
  ∀ e ∈ m.byHash.values, ∀ e' ∈ m.byHash.values, (transferOf a e.tx.tx).isSome →
    (transferOf a e'.tx.tx).isSome → e.nonce < e'.nonce → DrainedBefore e e'

instance (e e' : Entry) : Decidable (DrainedBefore e e') := by unfold DrainedBefore; infer_instance

/-- The nonce of an entry that is a transfer of `a`. -/
def transferNonce (a : Address) (e : Entry) : Option Nat :=
  (transferOf a e.tx.tx).map fun _ => e.nonce.val

theorem transferOf_eq_some {tx : Transaction} {dst : Address} (h : transferOf a tx = some dst) :
    ∃ amount nonce fee, tx = .transfer a dst amount nonce fee := by
  cases tx with
  | transfer src d amount nonce fee =>
    simp only [transferOf] at h
    split at h
    · rename_i hsrc
      obtain rfl := Option.some.inj h
      rw [hsrc]
      exact ⟨amount, nonce, fee, rfl⟩
    · cases h
  | _ => cases h

theorem spentNonce_unique {tx : Transaction} {src src' : Address} {n n' : Nonce}
    (h : spentNonce src tx = some n) (h' : spentNonce src' tx = some n') : src = src' ∧ n = n' := by
  cases tx with
  | transfer | escrowLock =>
    simp only [spentNonce, Option.ite_none_right_eq_some, Option.some.injEq] at h h'
    exact ⟨h.1.symm.trans h'.1, h.2.symm.trans h'.2⟩
  | _ => cases h

/-- A transfer's entry and its body say the same. -/
theorem Entry.of_transfer {e : Entry} {dst : Address} (h : transferOf a e.tx.tx = some dst) :
    e.sender = a ∧ ∃ amount, e.tx.tx = .transfer a dst amount e.nonce e.fee := by
  obtain ⟨amount, nonce, fee, htx⟩ := transferOf_eq_some h
  have hpooled := e.pooled
  rw [htx] at hpooled
  simp only [extractSenderNonceFee, Except.ok.injEq, Prod.mk.injEq] at hpooled
  obtain ⟨hs, rfl, rfl⟩ := hpooled
  exact ⟨hs.symm, amount, htx⟩

/-! ## One transaction -/

/-- A transaction that spends no nonce of `a` leaves `a` its nonce, and its balance less the debit. -/
theorem applyTx_others {ctx ctx' : BlockCtx} {stx : SignedTransaction} {o : TxOutcome}
    (hp : Pooled stx) (hn : spentNonce a stx.tx = none) (h : applyTx K ctx stx = .ok (ctx', o)) :
    nonceOf ctx'.commit a = nonceOf ctx.commit a ∧
      (ctx.account a).balance.val ≤
        (ctx'.account a).balance.val + debit K ctx.state.baseFee a stx := by
  have hnonce : nonceOf ctx'.commit a = nonceOf ctx.commit a := by
    obtain ⟨hspent, hle⟩ := applyTx_nonces h a
    have hnone : spentNonces a (appliedTxs [stx] [o]) = [] := by
      rw [appliedTxs_cons]
      split
      · rw [spentNonces_cons, hn]
        rfl
      · rfl
    have hlen := congrArg List.length (hspent.symm.trans hnone)
    rw [List.length_range', List.length_nil] at hlen
    omega
  refine ⟨hnonce, ?_⟩
  have same : (ctx'.account a).balance = (ctx.account a).balance →
      (ctx.account a).balance.val ≤ (ctx'.account a).balance.val + debit K ctx.state.baseFee a stx := by
    intro heq
    rw [heq]
    exact Nat.le_add_right _ _
  have kept : Kept ctx ctx' o →
      (ctx.account a).balance.val ≤ (ctx'.account a).balance.val + debit K ctx.state.baseFee a stx := by
    rintro ⟨rfl, -⟩
    exact same rfl
  have frame : ctx'.commit.accounts = ctx.commit.accounts →
      (ctx.account a).balance.val ≤ (ctx'.account a).balance.val + debit K ctx.state.baseFee a stx := by
    intro heq
    exact same (by rw [BlockCtx.account_eq, BlockCtx.account_eq, heq])
  obtain ⟨r, hr⟩ := hp
  cases htx : stx.tx with
  | transfer src dst amount nonce fee =>
    have hsrc : src ≠ a := by
      rintro rfl
      simp [htx, spentNonce] at hn
    simp only [applyTx, htx] at h
    rcases applyTransfer_ok h with hk | ⟨-, -, -, balance, next, -, -, rfl⟩
    · exact kept hk
    · rw [BlockCtx.account_setAccount, BlockCtx.account_setAccount]
      split
      · rename_i hdst
        subst hdst
        exact (le_satAdd _ _).trans (Nat.le_add_right _ _)
      · exact Nat.le_add_right _ _
  | escrowLock src jobId amount nonce fee =>
    have hsrc : src ≠ a := by
      rintro rfl
      simp [htx, spentNonce] at hn
    simp only [applyTx, htx] at h
    rcases applyEscrowLock_ok h with hk | ⟨-, -, -, -, balance, next, -, -, rfl⟩
    · exact kept hk
    · refine same ?_
      change ((ctx.setAccount src ⟨balance, next⟩).account a).balance = _
      rw [BlockCtx.account_setAccount, if_neg hsrc]
  | registerModel manifest registrar deposit =>
    simp only [applyTx, htx] at h
    rcases applyRegisterModel_ok h with hk | ⟨-, -, -, -, balance, hbal, rfl⟩
    · exact kept hk
    · change _ ≤ ((ctx.setAccount registrar _).account a).balance.val + _
      rw [BlockCtx.account_setAccount]
      simp only [debit, htx]
      split
      · rename_i hown
        subst hown
        exact hbal.ge
      · exact Nat.le_add_right _ _
  | govProposal p =>
    simp only [applyTx, htx] at h
    rcases applyGovProposal_ok h with hk | ⟨-, -, balance, next, hbal, -, rfl⟩
    · exact kept hk
    · change _ ≤ ((ctx.setAccount (deriveAddressFromSigner K stx.signer) _).account a).balance.val + _
      rw [BlockCtx.account_setAccount]
      simp only [debit, htx]
      split
      · rename_i hown
        rw [hown] at hbal
        exact hbal.ge
      · exact Nat.le_add_right _ _
  | govVote proposalId voter choice =>
    simp only [applyTx, htx] at h
    rcases applyGovVote_ok h with hk | ⟨-, -, -, rfl⟩
    · exact kept hk
    · exact frame rfl
  | registerTeeCapability nodeId operator capability =>
    simp only [applyTx, htx] at h
    rcases applyRegisterTee_ok h with hk | ⟨-, rfl⟩
    · exact kept hk
    · exact frame rfl
  | registerGateway nodeId operator url https =>
    simp only [applyTx, htx] at h
    rcases applyRegisterGateway_ok h with hk | ⟨-, rfl⟩
    · exact kept hk
    · exact frame rfl
  | unregisterGateway nodeId operator =>
    simp only [applyTx, htx] at h
    obtain ⟨-, rfl⟩ := applyUnregisterGateway_ok h
    exact frame rfl
  | stakeOp | receiptBatch | dispute | escrowSettle | rewardMint =>
    rw [htx] at hr
    cases hr

/-- A transfer of `a` with the account's nonce is applied when the account can pay. -/
theorem applyTx_transfer {ctx : BlockCtx} {stx : SignedTransaction} {dst : Address} {amount : Amount}
    {nonce : Nonce} {fee : Gas} {ctx' : BlockCtx} {o : TxOutcome}
    (htx : stx.tx = .transfer a dst amount nonce fee) (hdst : dst ≠ a) (hfee : BASE_TRANSFER_GAS ≤ fee)
    (hn : nonceOf ctx.commit a = nonce.val)
    (hpay : debit K ctx.state.baseFee a stx ≤ (ctx.account a).balance.val)
    (h : applyTx K ctx stx = .ok (ctx', o)) :
    o = .applied fee ∧ nonceOf ctx'.commit a = nonce.val + 1 ∧
      (ctx.account a).balance.val = (ctx'.account a).balance.val + debit K ctx.state.baseFee a stx := by
  rw [nonceOf_commit] at hn
  have hdebit : debit K ctx.state.baseFee a stx =
      amount.val + (satMul (asAmount fee) ctx.state.baseFee).val := by
    simp [debit, htx]
  rw [hdebit] at hpay ⊢
  have happlied : o.isApplied = true := by
    have hlt := (ctx.account a).balance.isLt
    obtain ⟨total, htotal⟩ := add_isOk (a := amount) (b := satMul (asAmount fee) ctx.state.baseFee)
      (by omega)
    have hvalue := add_eq_ok.mp htotal
    simp only [applyTx, htx, applyTransfer, htotal] at h
    rw [if_neg (fun heq => hdst heq.symm), if_neg (not_lt.mpr hfee),
      if_neg (not_not.mpr (Fin.ext hn))] at h
    rw [if_neg (not_lt.mpr (Fin.le_def.mpr (by omega)))] at h
    obtain ⟨balance, -, h⟩ := bind_eq_ok.mp h
    obtain ⟨next, -, h⟩ := bind_eq_ok.mp h
    rw [(of_applied h).2]
    rfl
  simp only [applyTx, htx] at h
  rcases applyTransfer_ok h with ⟨-, hrejected⟩ | ⟨rfl, -, -, balance, next, hbal, hnext, rfl⟩
  · rw [happlied] at hrejected
    cases hrejected
  · have hafter : ((ctx.setAccount a ⟨balance, next⟩).setAccount dst
        { ctx.account dst with balance := satAdd (ctx.account dst).balance amount }).account a =
          ⟨balance, next⟩ := by
      rw [BlockCtx.account_setAccount, if_neg hdst, BlockCtx.account_setAccount, if_pos rfl]
    refine ⟨rfl, ?_, ?_⟩
    · rw [nonceOf_commit, hafter]
      exact hnext
    · rw [hafter]
      exact hbal.symm

/-! ## The block -/

theorem includeTxs_cons_ok {ctx ctx' : BlockCtx} {stx : SignedTransaction}
    {rest included : List SignedTransaction} (h : includeTxs K ctx (stx :: rest) = .ok (ctx', included)) :
    ∃ mid o inc, applyTx K ctx stx = .ok (mid, o) ∧ includeTxs K mid rest = .ok (ctx', inc) ∧
      included = if o.isApplied then stx :: inc else inc := by
  simp only [includeTxs, bind_eq_ok, pure_eq_ok, Prod.exists, Prod.mk.injEq] at h
  obtain ⟨mid, o, h₁, c, inc, h₂, rfl, rfl⟩ := h
  exact ⟨mid, o, inc, h₁, h₂, rfl⟩

/-- The transfers of `a` still to come have the next nonces in order, its locks have others, and it can
pay: then they all get in. -/
theorem transfers_included {taken : List Entry} {ctx ctx' : BlockCtx} {included : List SignedTransaction}
    (count : Nat)
    (hnext : taken.filterMap (transferNonce a) = List.range' (nonceOf ctx.commit a) count)
    (hlocks : ∀ e ∈ taken, ∀ n, spentNonce a e.tx.tx = some n → transferOf a e.tx.tx = none →
      n.val < nonceOf ctx.commit a ∨ nonceOf ctx.commit a + count ≤ n.val)
    (hvalid : ∀ e ∈ taken, ∀ dst, transferOf a e.tx.tx = some dst → dst ≠ a ∧ BASE_TRANSFER_GAS ≤ e.fee)
    (hpay : count ≠ 0 → (taken.map fun e => debit K ctx.state.baseFee a e.tx).sum ≤
      (ctx.account a).balance.val)
    (h : includeTxs K ctx (taken.map (·.tx)) = .ok (ctx', included)) :
    ∀ e ∈ taken, (transferOf a e.tx.tx).isSome → e.tx ∈ included := by
  induction taken generalizing ctx included count with
  | nil => simp
  | cons e rest ih =>
    obtain ⟨mid, o, inc, h₁, h₂, hinc⟩ := includeTxs_cons_ok h
    have hmem : ∀ stx ∈ inc, stx ∈ included := by
      intro stx hstx
      rw [hinc]
      split
      · exact List.mem_cons_of_mem _ hstx
      · exact hstx
    cases count with
    | zero =>
      -- no transfer is left
      intro e' he' hsome
      obtain ⟨dst, hdst⟩ := Option.isSome_iff_exists.mp hsome
      have hin : e'.nonce.val ∈ (e :: rest).filterMap (transferNonce a) :=
        List.mem_filterMap.mpr ⟨e', he', by simp [transferNonce, hdst]⟩
      rw [hnext] at hin
      cases hin
    | succ count =>
      have hbal := hpay (Nat.succ_ne_zero count)
      rw [List.map_cons, List.sum_cons] at hbal
      have hrest : ∀ e' ∈ rest, ∀ dst, transferOf a e'.tx.tx = some dst →
          dst ≠ a ∧ BASE_TRANSFER_GAS ≤ e'.fee := fun e' he' => hvalid e' (List.mem_cons_of_mem _ he')
      have hstate := applyTx_state h₁
      cases hto : transferOf a e.tx.tx with
      | some dst =>
        obtain ⟨-, amount, htx⟩ := Entry.of_transfer hto
        obtain ⟨hne, hfee⟩ := hvalid e (List.mem_cons_self ..) dst hto
        have hnonce : transferNonce a e = some e.nonce.val := by simp [transferNonce, hto]
        rw [List.filterMap_cons, hnonce, List.range'_succ] at hnext
        obtain ⟨hhead, htail⟩ := List.cons.inj hnext
        obtain ⟨rfl, hafter, hpaid⟩ := applyTx_transfer htx hne hfee hhead.symm
          (le_trans (Nat.le_add_right _ _) hbal) h₁
        have hgo := ih count (by rw [htail, hafter, hhead])
          (by
            intro e' he' n hn hnot
            rw [hafter, hhead]
            have hlock := hlocks e' (List.mem_cons_of_mem _ he') n hn hnot
            omega)
          hrest
          (by
            intro _
            rw [hstate]
            omega)
          h₂
        intro e' he' hsome
        rcases List.mem_cons.mp he' with rfl | he'
        · rw [hinc]
          exact List.mem_cons_self ..
        · exact hmem _ (hgo e' he' hsome)
      | none =>
        have hnonce : transferNonce a e = none := by simp [transferNonce, hto]
        rw [List.filterMap_cons, hnonce] at hnext
        have hpooled : Pooled e.tx := ⟨_, e.pooled⟩
        obtain ⟨hsame, hpaid⟩ : nonceOf mid.commit a = nonceOf ctx.commit a ∧
            (ctx.account a).balance.val ≤
              (mid.account a).balance.val + debit K ctx.state.baseFee a e.tx := by
          cases hspent : spentNonce a e.tx.tx with
          | none => exact applyTx_others hpooled hspent h₁
          | some n =>
            -- a lock whose turn has not come, or is over
            have hrejected : o.isApplied = false := by
              by_contra happlied
              rw [Bool.not_eq_false] at happlied
              have hat := (nonce_range h₁ happlied hspent).1
              have hlock := hlocks e (List.mem_cons_self ..) n hspent hto
              omega
            obtain rfl := hpooled.rejected_keeps h₁ hrejected
            exact ⟨rfl, Nat.le_add_right _ _⟩
        have hgo : ∀ e' ∈ rest, (transferOf a e'.tx.tx).isSome → e'.tx ∈ inc := by
          apply ih (count + 1)
          · rw [hsame]
            exact hnext
          · intro e' he'
            rw [hsame]
            exact hlocks e' (List.mem_cons_of_mem _ he')
          · exact hrest
          · intro _
            rw [hstate]
            omega
          · exact h₂
        intro e' he' hsome
        rcases List.mem_cons.mp he' with rfl | he'
        · rw [hto] at hsome
          cases hsome
        · exact hmem _ (hgo e' he' hsome)

/-! ## The pool -/

theorem mem_values_iff (hi : Indexed K m) {e : Entry} :
    e ∈ m.byHash.values ↔ m.byHash.get (e.tx.hash K) = some e := by
  rw [Column.mem_values]
  constructor
  · rintro ⟨h, hget⟩
    rw [hi.keyed h e hget]
    exact hget
  · intro hget
    exact ⟨_, hget⟩

/-- One entry for each sender and nonce. -/
theorem entry_unique (hi : Indexed K m) {e e' : Entry} (he : e ∈ m.byHash.values)
    (he' : e' ∈ m.byHash.values) (hs : e.sender = e'.sender) (hn : e.nonce = e'.nonce) : e = e' := by
  rw [mem_values_iff hi] at he he'
  have hslot := hi.slot_of_get he
  have hslot' := hi.slot_of_get he'
  rw [hs, hn, hslot'] at hslot
  rw [← Option.some.inj hslot, he'] at he
  exact (Option.some.inj he).symm

theorem sum_along_le (hi : Indexed K m) (f : Entry → Nat) :
    ((along m m.byPriority.keys).map f).sum ≤ (m.byHash.values.map f).sum := by
  have hle := sum_le_total hi f (fun e he => ⟨_, (mem_along hi).mp he⟩) (along_order hi)
  unfold Column.total at hle
  rw [Column.values, List.map_map]
  exact hle

/-- Fees that fall with the nonce bring the transfers out in nonce order. -/
theorem along_nonces (hi : Indexed K m) {s : State} {count : Nat} (hg : GaplessTransfers K s m a count)
    (hf : FeesFallWithNonce m a) :
    (along m m.byPriority.keys).filterMap (transferNonce a) = List.range' (nonceOf s a) count := by
  have hvalues : ∀ e ∈ along m m.byPriority.keys, e ∈ m.byHash.values :=
    fun e he => (mem_values_iff hi).mpr ((mem_along hi).mp he)
  have hnonce : ∀ e n, transferNonce a e = some n → (transferOf a e.tx.tx).isSome ∧ e.sender = a ∧
      e.nonce.val = n := by
    intro e n h
    obtain ⟨dst, hdst, hn⟩ := Option.map_eq_some_iff.mp h
    exact ⟨by rw [hdst]; rfl, (Entry.of_transfer hdst).1, hn⟩
  have hsorted : ((along m m.byPriority.keys).filterMap (transferNonce a)).Pairwise (· < ·) := by
    rw [List.pairwise_filterMap]
    refine (along_order hi).imp_of_mem ?_
    intro e e' he he' hbefore n hn n' hn'
    obtain ⟨hsome, hs, rfl⟩ := hnonce e n hn
    obtain ⟨hsome', hs', rfl⟩ := hnonce e' n' hn'
    rcases lt_trichotomy e.nonce e'.nonce with hlt | heq | hgt
    · exact hlt
    · have hsame := entry_unique hi (hvalues e he) (hvalues e' he') (hs.trans hs'.symm) heq
      subst hsame
      rcases hbefore with h | ⟨-, h⟩
      · exact absurd h (lt_irrefl _)
      · exact absurd h (lt_irrefl _)
    · exfalso
      rcases hf e' (hvalues e' he') e (hvalues e he) hsome' hsome hgt with h | ⟨h, h₂⟩
      · rcases hbefore with h' | ⟨h', -⟩
        · exact lt_asymm h h'
        · rw [h'] at h
          exact lt_irrefl _ h
      · rcases hbefore with h' | ⟨-, h'⟩
        · rw [h] at h'
          exact lt_irrefl _ h'
        · exact lt_asymm h₂ h'
  have hrange : (List.range' (nonceOf s a) count).Pairwise (· < ·) := List.pairwise_lt_range'
  have hmem : ∀ n, n ∈ (along m m.byPriority.keys).filterMap (transferNonce a) ↔
      n ∈ List.range' (nonceOf s a) count := by
    intro n
    rw [List.mem_filterMap, List.mem_range'_1]
    constructor
    · rintro ⟨e, he, hn⟩
      obtain ⟨hsome, -, rfl⟩ := hnonce e n hn
      obtain ⟨dst, hdst⟩ := Option.isSome_iff_exists.mp hsome
      exact (hg.valid e (hvalues e he) dst hdst).2.2
    · rintro ⟨hge, hlt⟩
      obtain ⟨e, he, hsome, hn⟩ := hg.there (n - nonceOf s a) (List.mem_range.mpr (by omega))
      obtain ⟨dst, hdst⟩ := Option.isSome_iff_exists.mp hsome
      refine ⟨e, (mem_along hi).mpr ((mem_values_iff hi).mp he), ?_⟩
      rw [transferNonce, hdst, Option.map_some, hn]
      congr 1
      omega
  refine List.Perm.eq_of_pairwise (fun x y _ _ hxy hyx => ?_) hsorted hrange ?_
  · exact absurd hxy (lt_asymm hyx)
  · exact (List.perm_ext_iff_of_nodup (hsorted.imp fun h => ne_of_lt h)
      (hrange.imp fun h => ne_of_lt h)).mpr hmem

/-- A sender's gapless transfers whose fees fall with the nonce are all in the block. -/
theorem gapless_included {maxCount maxBytes count : Nat} {ops : List PoolOp} {s : State} {height : Height}
    {params : BuildParams} {now : Timestamp} {built : BuiltBlock}
    (hrun : ops.foldlM (PoolOp.run K) (.withLimits maxCount maxBytes) = .ok m)
    (hg : GaplessTransfers K s m a count) (hb : BudgetsSuffice m params) (hf : FeesFallWithNonce m a)
    (h : build K s m height params now = .ok built) :
    ∀ e ∈ m.byHash.values, (transferOf a e.tx.tx).isSome → e.tx ∈ built.block.txs := by
  obtain ⟨m', hrun', hs⟩ := pool_sound K maxCount maxBytes ops
  rw [hrun] at hrun'
  obtain rfl := Except.ok.inj hrun'
  have hi := hs.indexed
  have hvalues : ∀ e ∈ along m m.byPriority.keys, e ∈ m.byHash.values :=
    fun e he => (mem_values_iff hi).mpr ((mem_along hi).mp he)
  obtain ⟨taken, hd, hall⟩ := drainForBlock_lawful hi params.gasLimit params.bytesBudget
  have htaken := hall ((sum_along_le hi _).trans hb.gas) ((sum_along_le hi _).trans hb.bytes)
  simp only [build, bind_eq_ok, pure_eq_ok, Prod.exists] at h
  obtain ⟨ctx, included, hinclude, rfl⟩ := h
  rw [hd.picked, htaken] at hinclude
  intro e he hsome
  refine transfers_included (a := a) count ?_ ?_ ?_ ?_ hinclude e
    ((mem_along hi).mpr ((mem_values_iff hi).mp he)) hsome
  · exact along_nonces hi hg hf
  · intro e' he' n hspent hnot
    by_contra hwithin
    rw [not_or, not_lt, not_le] at hwithin
    change nonceOf s a ≤ n.val ∧ n.val < nonceOf s a + count at hwithin
    obtain ⟨e₂, he₂, hsome₂, hn₂⟩ := hg.there (n.val - nonceOf s a) (List.mem_range.mpr (by omega))
    obtain ⟨dst, hdst⟩ := Option.isSome_iff_exists.mp hsome₂
    have hcarries := carriesNonce_of_spent hspent
    have hextracted := spentNonce_of_extract hcarries e'.pooled
    have hown : e'.sender = a ∧ e'.nonce = n := spentNonce_unique hextracted hspent
    have hsame := entry_unique hi he₂ (hvalues e' he') ((Entry.of_transfer hdst).1.trans hown.1.symm)
      (Fin.ext (by rw [hn₂, hown.2]; omega))
    rw [hsame, hnot] at hdst
    cases hdst
  · intro e' he' dst hdst
    obtain ⟨hne, hfee, -⟩ := hg.valid e' (hvalues e' he') dst hdst
    exact ⟨hne, hfee⟩
  · intro _
    refine (sum_along_le hi fun e => debit K s.baseFee a e.tx).trans ?_
    rw [BlockCtx.account_eq]
    exact hg.affordable

def fallingFees : List PoolOp :=
  [.insert ⟨.transfer 7 9 500 0 30000, ⟨.ed25519, [7]⟩, ⟨.ed25519, [7]⟩⟩,
    .insert ⟨.transfer 7 9 500 1 21000, ⟨.ed25519, [7]⟩, ⟨.ed25519, [7]⟩⟩]

theorem fallingFees_run : (fallingFees.foldlM (PoolOp.run toyPrimitives)
    (.withLimits DEFAULT_MAX_COUNT DEFAULT_MAX_BYTES)).toOption.isSome = true := by decide

theorem fallingFees_builds : (build toyPrimitives fundedState (returned _ fallingFees_run) 1 proposerParams
    0).toOption.isSome = true := by decide

theorem fallingFees_included : (returned _ fallingFees_run).byHash.values.length = 2 ∧
    ∀ e ∈ (returned _ fallingFees_run).byHash.values, (transferOf 7 e.tx.tx).isSome →
      e.tx ∈ (returned _ fallingFees_builds).block.txs :=
  ⟨by decide, @gapless_included toyPrimitives (returned _ fallingFees_run) 7 DEFAULT_MAX_COUNT
    DEFAULT_MAX_BYTES 2 fallingFees fundedState 1 proposerParams 0 (returned _ fallingFees_builds)
    (eq_ok_returned fallingFees_run) ⟨by decide, by decide, by decide⟩ ⟨by decide, by decide⟩
    (by unfold FeesFallWithNonce; decide) (eq_ok_returned fallingFees_builds)⟩

def risingFees : List PoolOp :=
  [.insert ⟨.transfer 7 9 500 0 21000, ⟨.ed25519, [7]⟩, ⟨.ed25519, [7]⟩⟩,
    .insert ⟨.transfer 7 9 500 1 30000, ⟨.ed25519, [7]⟩, ⟨.ed25519, [7]⟩⟩]

theorem risingFees_run : (risingFees.foldlM (PoolOp.run toyPrimitives)
    (.withLimits DEFAULT_MAX_COUNT DEFAULT_MAX_BYTES)).toOption.isSome = true := by decide

theorem risingFees_builds : (build toyPrimitives fundedState (returned _ risingFees_run) 1 proposerParams
    0).toOption.isSome = true := by decide

/-- The second transfer bids more, is drained first and is gone. -/
theorem risingFees_dropped : ∃ m built, risingFees.foldlM (PoolOp.run toyPrimitives)
      (.withLimits DEFAULT_MAX_COUNT DEFAULT_MAX_BYTES) = .ok m ∧
      GaplessTransfers toyPrimitives fundedState m 7 2 ∧ BudgetsSuffice m proposerParams ∧
      build toyPrimitives fundedState m 1 proposerParams 0 = .ok built ∧
      built.block.txs.map (·.tx) = [.transfer 7 9 500 0 21000] ∧ built.mempool.len = 0 :=
  ⟨_, _, eq_ok_returned risingFees_run, ⟨by decide, by decide, by decide⟩, ⟨by decide, by decide⟩,
    eq_ok_returned risingFees_builds, by decide, by decide⟩

end Arknet.Laws
