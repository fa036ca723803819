import Arknet.Laws.Mempool
import Arknet.Laws.Replay

/-!
Replacement in the pool against the nonces of the ledger. The pool keeps one transaction for each sender
and nonce; to the variants that carry none it gives nonce 0, which the ledger never asks of them.
-/

namespace Arknet.Laws

open Machine Store Arknet.Chain Arknet.Consensus

variable {K : Primitives} {m : Mempool} {stx : SignedTransaction} {old : Entry}

/-! ## The law -/

/-- The insertion gets as far as the slot of the transaction's sender and nonce, and finds it taken. -/
structure Contends (K : Primitives) (m : Mempool) (stx : SignedTransaction) (old : Entry) : Prop where
  size : stx.encodedLen K ≤ MAX_SIGNED_TX_BYTES
  fresh : m.contains (stx.hash K) = false
  slot : ∃ sender nonce fee, extractSenderNonceFee stx.tx = .ok (sender, nonce, fee) ∧
    predecessor m sender nonce = some old

/-- Applied one after the other, with anything in between, one of them is rejected. -/
def NotBothApplied (K : Primitives) (a b : SignedTransaction) : Prop :=
  ∀ ctx c₁ o₁ between c₂ os c₃ o₂, applyTx K ctx a = .ok (c₁, o₁) →
    applyTxs K c₁ between = .ok (c₂, os) → applyTx K c₂ b = .ok (c₃, o₂) →
      ¬ (o₁.isApplied = true ∧ o₂.isApplied = true)

/-- Two transactions that spend the same nonce of the same account, and so exclude each other. -/
structure LedgerConflict (K : Primitives) (a b : SignedTransaction) : Prop where
  nonce : ∃ src n, spentNonce src a.tx = some n ∧ spentNonce src b.tx = some n
  forth : NotBothApplied K a b
  back : NotBothApplied K b a

/-- Transfers and escrow locks. -/
def CarriesNonce : Transaction → Bool
  | .transfer .. => true
  | .escrowLock .. => true
  | _ => false

/-! ## What the pool does -/

/-- The older transaction wins with an equal or higher fee, and is gone otherwise. -/
theorem contends_outcome (hi : Indexed K m) (hb : Bounded m) (h : Contends K m stx old) :
    ∃ m' r, m.insert K stx = .ok (m', r) ∧ ∃ fee,
      (fee ≤ old.fee ∧ m' = m ∧ r = .error (.underpricedReplacement old.fee fee)) ∨
        (old.fee < fee ∧ m'.byHash.get (old.tx.hash K) = none) := by
  obtain ⟨sender, nonce, fee, hextract, hpred⟩ := h.slot
  obtain ⟨hget, hs, hn⟩ := (predecessor_eq_some hi).mp hpred
  have hrefusal : refusal K m stx =
      if fee ≤ old.fee then some (.underpricedReplacement old.fee fee) else none := by
    unfold refusal
    rw [if_neg (not_lt.mpr h.size), hextract]
    simp only [h.fresh, Bool.false_eq_true, ↓reduceIte, hpred]
  have hfresh : stx.hash K ≠ old.tx.hash K := by
    intro heq
    have hnone := h.fresh
    rw [heq, Mempool.contains, hget] at hnone
    cases hnone
  have hfee : ∀ e : Entry, e.tx = stx → e.sender = sender ∧ e.nonce = nonce ∧ e.fee = fee := by
    intro e htx
    have hpooled := e.pooled
    rw [htx, hextract] at hpooled
    simp only [Except.ok.injEq, Prod.mk.injEq] at hpooled
    exact ⟨hpooled.1.symm, hpooled.2.1.symm, hpooled.2.2.symm⟩
  obtain ⟨m', r, hins, hi', -, -, -, hout⟩ := insert_outcome hi hb stx
  refine ⟨m', r, hins, fee, ?_⟩
  rw [hrefusal] at hout
  rcases hout with ⟨err, href, rfl, rfl⟩ | ⟨href, hentered⟩
  · split at href
    · rename_i hle
      obtain rfl := Option.some.inj href
      exact .inl ⟨hle, rfl, rfl⟩
    · cases href
  · split at href
    · cases href
    · rename_i hgt
      refine .inr ⟨lt_of_not_ge hgt, ?_⟩
      apply Option.eq_none_iff_forall_ne_some.mpr
      intro o ho
      cases hentered with
      | kept htx hfits hthere hsub =>
        rename_i e
        have hold := hsub _ _ ho hfresh.symm
        rw [hget] at hold
        obtain rfl := Option.some.inj hold
        obtain ⟨hs', hn', -⟩ := hfee e htx
        have hslot := hi'.slot_of_get ho
        have hslot' := hi'.slot_of_get hthere
        rw [hs', hn'] at hslot'
        rw [hs, hn, hslot'] at hslot
        exact hfresh (Option.some.inj hslot)
      | dropped htx hfull hleft =>
        rename_i e
        obtain ⟨hold, hge⟩ := (hleft _ _).mp ho
        rw [hget] at hold
        obtain rfl := Option.some.inj hold
        rw [(hfee e htx).2.2] at hge
        exact hgt hge

/-! ## What the ledger does -/

theorem nonce_range {ctx ctx' : BlockCtx} {o : TxOutcome} {src : Address} {n : Nonce}
    (h : applyTx K ctx stx = .ok (ctx', o)) (ho : o.isApplied = true)
    (hn : spentNonce src stx.tx = some n) :
    nonceOf ctx.commit src = n.val ∧ nonceOf ctx'.commit src = n.val + 1 := by
  obtain ⟨hspent, hle⟩ := applyTx_nonces h src
  rw [appliedTxs_cons, if_pos ho, spentNonces_cons, hn] at hspent
  have hlen := congrArg List.length hspent
  have hone : nonceOf ctx'.commit src = nonceOf ctx.commit src + 1 := by
    simp [spentNonces, appliedTxs] at hlen
    omega
  rw [hone, Nat.add_sub_cancel_left] at hspent
  have hhead : n.val = nonceOf ctx.commit src := by
    simpa [spentNonces, appliedTxs] using hspent
  exact ⟨hhead.symm, by omega⟩

/-- A nonce is spent once. -/
theorem notBothApplied_of_nonce {a b : SignedTransaction} {src : Address} {n : Nonce}
    (ha : spentNonce src a.tx = some n) (hb : spentNonce src b.tx = some n) : NotBothApplied K a b := by
  rintro ctx c₁ o₁ between c₂ os c₃ o₂ h₁ hmid h₂ ⟨ho₁, ho₂⟩
  have hafter := (nonce_range h₁ ho₁ ha).2
  have hbefore := (nonce_range h₂ ho₂ hb).1
  have hgrown := (applyTxs_nonces hmid src).2
  omega

theorem ledgerConflict_of_nonce {a b : SignedTransaction} {src : Address} {n : Nonce}
    (ha : spentNonce src a.tx = some n) (hb : spentNonce src b.tx = some n) : LedgerConflict K a b :=
  ⟨⟨src, n, ha, hb⟩, notBothApplied_of_nonce ha hb, notBothApplied_of_nonce hb ha⟩

theorem carriesNonce_of_spent {tx : Transaction} {src : Address} {n : Nonce}
    (h : spentNonce src tx = some n) : CarriesNonce tx = true := by
  cases tx with
  | transfer | escrowLock => rfl
  | _ => simp [spentNonce] at h

/-- What the pool extracts of the two variants is what they spend. -/
theorem spentNonce_of_extract {tx : Transaction} {sender : Address} {nonce : Nonce} {fee : Gas}
    (hc : CarriesNonce tx = true) (h : extractSenderNonceFee tx = .ok (sender, nonce, fee)) :
    spentNonce sender tx = some nonce := by
  cases tx with
  | transfer | escrowLock =>
    simp only [extractSenderNonceFee, Except.ok.injEq, Prod.mk.injEq] at h
    obtain ⟨rfl, rfl, -⟩ := h
    simp [spentNonce]
  | _ => simp [CarriesNonce] at hc

theorem Contends.conflict (hi : Indexed K m) (h : Contends K m stx old) :
    LedgerConflict K old.tx stx ↔ CarriesNonce old.tx.tx = true ∧ CarriesNonce stx.tx = true := by
  obtain ⟨sender, nonce, fee, hextract, hpred⟩ := h.slot
  obtain ⟨-, hs, hn⟩ := (predecessor_eq_some hi).mp hpred
  constructor
  · intro hconflict
    obtain ⟨src, n, ha, hb⟩ := hconflict.nonce
    exact ⟨carriesNonce_of_spent ha, carriesNonce_of_spent hb⟩
  · rintro ⟨hold, hnew⟩
    have hpooled := old.pooled
    rw [hs, hn] at hpooled
    exact ledgerConflict_of_nonce (spentNonce_of_extract hold hpooled)
      (spentNonce_of_extract hnew hextract)

/-- Over every history of the pool: the transactions that contend for a slot in it conflict in the ledger
exactly when each of them is a transfer or an escrow lock. -/
theorem pool_conflicts (K : Primitives) (maxCount maxBytes : Nat) (ops : List PoolOp) :
    ∃ m, ops.foldlM (PoolOp.run K) (.withLimits maxCount maxBytes) = .ok m ∧
      ∀ stx, (∀ old, Contends K m stx old → LedgerConflict K old.tx stx) ↔
        ∀ old, Contends K m stx old → CarriesNonce old.tx.tx = true ∧ CarriesNonce stx.tx = true := by
  obtain ⟨m, hrun, hs⟩ := pool_sound K maxCount maxBytes ops
  refine ⟨m, hrun, fun stx => ?_⟩
  apply forall_congr'
  intro old
  apply imp_congr_right
  intro h
  exact h.conflict hs.indexed

def closingGateway : List PoolOp := [.insert ⟨.unregisterGateway 5 7, ⟨.ed25519, [7]⟩, ⟨.ed25519, [7]⟩⟩]

def firstTransfer : SignedTransaction := ⟨.transfer 7 2 5 0 60000, ⟨.ed25519, [7]⟩, ⟨.ed25519, [7]⟩⟩

def fundedOperator : State := { State.empty with accounts := Column.empty.insert 7 ⟨10 ^ 15, 0⟩ }

theorem closingGateway_run : (closingGateway.foldlM (PoolOp.run toyPrimitives)
    (.withLimits DEFAULT_MAX_COUNT DEFAULT_MAX_BYTES)).toOption.isSome = true := by decide

theorem firstTransfer_returns : ((returned _ closingGateway_run).insert toyPrimitives
    firstTransfer).toOption.isSome = true := by decide

theorem gateway_then_transfer : (applyTxs toyPrimitives fundedOperator.beginBlock
    [⟨.unregisterGateway 5 7, ⟨.ed25519, [7]⟩, ⟨.ed25519, [7]⟩⟩, firstTransfer]).toOption.isSome = true := by
  decide

/-- An operator's first transfer drives the operator's gateway removal out of the pool. The ledger
applies both. -/
theorem transfer_displaces_gateway : ∃ m out block,
    closingGateway.foldlM (PoolOp.run toyPrimitives) (.withLimits DEFAULT_MAX_COUNT DEFAULT_MAX_BYTES) =
      .ok m ∧ m.insert toyPrimitives firstTransfer = .ok out ∧
      m.byHash.values.map (fun e => e.tx.tx) = [.unregisterGateway 5 7] ∧
      out.1.byHash.values.map (fun e => e.tx.tx) = [firstTransfer.tx] ∧
      applyTxs toyPrimitives fundedOperator.beginBlock
        [⟨.unregisterGateway 5 7, ⟨.ed25519, [7]⟩, ⟨.ed25519, [7]⟩⟩, firstTransfer] = .ok block ∧
      block.2 = [.applied 50000, .applied 60000] :=
  ⟨_, _, _, eq_ok_returned closingGateway_run, eq_ok_returned firstTransfer_returns, by decide, by decide,
    eq_ok_returned gateway_then_transfer, by decide⟩

end Arknet.Laws
