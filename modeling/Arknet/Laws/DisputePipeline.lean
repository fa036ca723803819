import Arknet.Verifier.Dispute
import Arknet.Laws.Authorization
import Arknet.Laws.Disputes
import Arknet.Laws.ReceiptPipeline

/-!
From a verifier's finding to the slash. A signed dispute is applied wherever the job is anchored and
its block takes a twentieth of each committed position of the node; the pool has no lane for it.
-/

namespace Arknet.Laws

open Machine Store Arknet.Chain Arknet.Staking Arknet.Consensus Arknet.Verifier

/-! ## A twentieth of a position -/

/-- What a failed verification leaves of the position stored under `k`. -/
def reducedStake (s : State) (k : StakeKey) : Nat := stakeAmount s k - stakeAmount s k * 5 / 100

theorem keeps_failedVerification (amount : Amount) :
    (keeps .failedDeterministicVerification amount).val = amount.val - amount.val * 5 / 100 := by
  have hpercent : Offense.failedDeterministicVerification.penaltyPercent.val = 5 := rfl
  simp only [keeps, satSub_val, slashOf, hpercent]

theorem mem_slashableStakes_of_get {s : State} {k : StakeKey} {e : StakeEntry} (hk : Keyed s)
    (h : s.stakes.get k = some e) : e ∈ slashableStakes s k.nodeId k.role := by
  have hkey := hk.stakes k e h
  simp only [slashableStakes, State.iterStakesForNode, List.mem_filter, List.mem_map, decide_eq_true_eq]
  refine ⟨⟨(k, e), (Column.mem_scan StakeKey.nodeId_monotone).mpr ⟨h, rfl⟩, rfl⟩, ?_⟩
  rw [← hkey]
  rfl

section

variable {K : Primitives}

/-- A slash leaves a position alone or at what is left of the committed one; a position of the
slashed node that nothing else has touched ends at the latter. -/
theorem applySlash_reduces {ctx ctx' : BlockCtx} {node : NodeId} {reporter treasury : Address}
    {report : SlashReport} (hk : Keyed ctx.state) (h : applySlash ctx node .compute
      .failedDeterministicVerification reporter treasury = .ok (ctx', report)) (k : StakeKey) :
    (stakeAmount ctx'.commit k = stakeAmount ctx.commit k ∨
      stakeAmount ctx'.commit k = reducedStake ctx.state k) ∧
    (k.nodeId = node → k.role = .compute →
      (stakeAmount ctx.commit k = stakeAmount ctx.state k ∨
        stakeAmount ctx.commit k = reducedStake ctx.state k) →
      stakeAmount ctx'.commit k = reducedStake ctx.state k) := by
  rcases stakes_applySlash hk h k with ⟨e, he, rfl, hget⟩ | ⟨hnot, hsame⟩
  · have hreduced : stakeAmount ctx'.commit e.key = reducedStake ctx.state e.key := by
      rw [stakeAmount, hget, stored_amount, keeps_failedVerification, reducedStake, stakeAmount,
        (mem_slashedStakes hk he).1]
      rfl
    exact ⟨.inr hreduced, fun _ _ _ => hreduced⟩
  · have hamount : stakeAmount ctx'.commit k = stakeAmount ctx.commit k := by
      rw [stakeAmount, hsame]
      rfl
    refine ⟨.inl hamount, fun hnode hrole hbefore => ?_⟩
    -- Nothing was written, so there was nothing to take: the two amounts are one.
    have hnothing : reducedStake ctx.state k = stakeAmount ctx.state k := by
      rw [reducedStake, stakeAmount]
      cases hcommitted : ctx.state.stakes.get k with
      | none => rfl
      | some e =>
        by_cases hzero : slashOf .failedDeterministicVerification e.amount = 0
        · have htaken : e.amount.val * 5 / 100 = 0 := congrArg Fin.val hzero
          show e.amount.val - e.amount.val * 5 / 100 = e.amount.val
          rw [htaken]
          rfl
        · have hin : e ∈ slashedStakes ctx.state node .compute .failedDeterministicVerification := by
            refine List.mem_filter.mpr ⟨?_, by simpa using hzero⟩
            rw [← hnode, ← hrole]
            exact mem_slashableStakes_of_get hk hcommitted
          exact absurd (hk.stakes k e hcommitted) (hnot e hin)
    rw [hamount]
    rcases hbefore with hb | hb
    · rw [hb, hnothing]
    · exact hb

/-- A dispute that the dispatch acts on, against `node`. -/
def AgainstNode (node : NodeId) (stx : SignedTransaction) : Prop :=
  ∃ d, stx.tx = .dispute d ∧ d.claimedOutputHash ≠ d.reexecOutputHash ∧ d.computeNode = node

/-- The same for one step of the dispatch. -/
theorem dispatchSlash_reduces {ctx ctx' : BlockCtx} {stx : SignedTransaction} (hk : Keyed ctx.state)
    (h : dispatchSlash K ctx stx = .ok ctx') (k : StakeKey) :
    (stakeAmount ctx'.commit k = stakeAmount ctx.commit k ∨
      stakeAmount ctx'.commit k = reducedStake ctx.state k) ∧
    (AgainstNode k.nodeId stx → k.role = .compute →
      (stakeAmount ctx.commit k = stakeAmount ctx.state k ∨
        stakeAmount ctx.commit k = reducedStake ctx.state k) →
      stakeAmount ctx'.commit k = reducedStake ctx.state k) := by
  unfold dispatchSlash at h
  cases htx : stx.tx with
  | dispute d =>
    simp only [htx] at h
    by_cases hne : d.claimedOutputHash = d.reexecOutputHash
    · rw [if_neg (by simpa using hne), pure_eq_ok] at h
      subst h
      refine ⟨.inl rfl, ?_⟩
      rintro ⟨d', hd', hne', -⟩
      rw [htx] at hd'
      cases hd'
      exact absurd hne hne'
    · rw [if_pos hne, map_eq_ok] at h
      obtain ⟨⟨c, report⟩, hslash, rfl⟩ := h
      obtain ⟨hafter, hnode⟩ := applySlash_reduces hk hslash k
      refine ⟨hafter, ?_⟩
      rintro ⟨d', hd', -, hd'node⟩
      rw [htx] at hd'
      cases hd'
      exact hnode hd'node.symm
  | _ =>
    simp only [htx, pure_eq_ok] at h
    subst h
    refine ⟨.inl rfl, ?_⟩
    rintro ⟨d, hd, -⟩
    rw [htx] at hd
    cases hd

/-- And for all of it: however many disputes of a block name the node, its position is reduced once. -/
theorem dispatch_reduces {s : State} {txs : List SignedTransaction} {ctx ctx' : BlockCtx}
    (hk : Keyed s) (hs : ctx.state = s) (h : txs.foldlM (dispatchSlash K) ctx = .ok ctx') (k : StakeKey) :
    (stakeAmount ctx'.commit k = stakeAmount ctx.commit k ∨
      stakeAmount ctx'.commit k = reducedStake s k) ∧
    ((∃ stx ∈ txs, AgainstNode k.nodeId stx) → k.role = .compute →
      (stakeAmount ctx.commit k = stakeAmount s k ∨ stakeAmount ctx.commit k = reducedStake s k) →
      stakeAmount ctx'.commit k = reducedStake s k) := by
  induction txs generalizing ctx with
  | nil =>
    rw [List.foldlM_nil, pure_eq_ok] at h
    subst h
    refine ⟨.inl rfl, ?_⟩
    rintro ⟨stx, hmem, -⟩
    cases hmem
  | cons stx rest ih =>
    rw [List.foldlM_cons, bind_eq_ok] at h
    obtain ⟨mid, hmid, hrest⟩ := h
    have hstate : mid.state = s := (dispatchSlash_frame hmid).state.trans hs
    subst hs
    obtain ⟨hstep, hhead⟩ := dispatchSlash_reduces hk hmid k
    obtain ⟨hlater, htail⟩ := ih hstate hrest
    constructor
    · rcases hlater with hl | hl
      · rw [hl]
        exact hstep
      · exact .inr hl
    · rintro ⟨other, hmem, hother⟩ hrole hbefore
      rcases List.mem_cons.mp hmem with rfl | hmem
      · have hreduced := hhead hother hrole hbefore
        rcases hlater with hl | hl
        · rw [hl, hreduced]
        · exact hl
      · refine htail ⟨other, hmem, hother⟩ hrole ?_
        rcases hstep with hs | hs
        · rw [hs]
          exact hbefore
        · exact .inr hs

/-- A receipt and a different output: the signed dispute is built; it is applied in every context in
which the receipt's job is anchored; a block that commits with it leaves a twentieth less in every
position of the compute node that the block's transactions had left alone. The pool takes no dispute. -/
theorem dispute_pipeline (K : Primitives) (receipt : InferenceReceipt) (reexecOutputHash : Hash256)
    (reexecProof : ComputeProof) (verifierNode : NodeId) (reporter : Address) (vrfProof : VrfProof)
    (sk : SigningKey) (hne : receipt.outputHash ≠ reexecOutputHash) :
    ∃ stx, buildAndSignDispute K receipt reexecOutputHash reexecProof verifierNode reporter vrfProof sk =
        .ok stx ∧
      (∀ ctx : BlockCtx, ctx.isReceiptSeen receipt.jobId = true →
        applyTx K ctx stx = .ok (ctx, .applied DISPUTE_GAS)) ∧
      (∀ s b r s', WellFormed s → Commits K s b r s' → stx ∈ b.txs →
        ∀ ctx os, applyTxs K s.beginBlock b.txs = .ok (ctx, os) →
        ∀ k : StakeKey, k.nodeId = receipt.computeNode → k.role = .compute →
          stakeAmount ctx.commit k = stakeAmount s k →
          stakeAmount s' k = stakeAmount s k - stakeAmount s k * 5 / 100) ∧
      ∀ m : Mempool,
        m.insert K stx = .ok (m, .error (unpooled K stx (.unsupported "Dispute (Week 12 mempool lane)"))) ∧
        ∀ maxGas maxBytes, stx ∉ (m.drainForBlock maxGas maxBytes).picked := by
  refine ⟨_, if_neg hne, fun ctx hseen => ?_, fun s b r s' hw hc hin ctx os htxs k hnode hrole hsame => ?_,
    fun m => ⟨insert_unpooled rfl m, not_drained rfl m⟩⟩
  · show applyDispute ctx _ = _
    rw [applyDispute, if_neg hne, if_neg (by simp [hseen])]
    rfl
  · obtain ⟨ctx₁, ctx₂, h₁, h₂, hstakes⟩ := commits_stakes hc
    obtain rfl : ctx₁ = ctx := by
      rw [h₁] at htxs
      cases htxs
      rfl
    have hagainst : ∃ stx ∈ b.txs, AgainstNode k.nodeId stx := ⟨_, hin, _, rfl, hne, hnode.symm⟩
    have hreduced := (dispatch_reduces hw.keyed (applyTxs_state h₁) h₂ k).2 hagainst hrole (.inl hsame)
    have hstored : stakeAmount s' k = stakeAmount ctx₂.commit k := by
      rw [stakeAmount, hstakes]
      rfl
    rw [hstored, hreduced]
    rfl

end

/-! ## A node that is disputed -/

def verifierKey : SigningKey := ⟨3, fun _ => 0⟩

/-- The dispute of the free receipt by a verifier that got output 4. -/
def builtDispute : SignedTransaction :=
  let tx := Transaction.dispute ⟨5, 1, 0, 4, 9, 8, [], .hashChain []⟩
  ⟨tx, verifierKey.toPubkey, sign verifierKey (tx.hash toyPrimitives).toList⟩

theorem builtDispute_built : buildAndSignDispute toyPrimitives freeReceipt 4 (.hashChain []) 9 8
    ⟨⟨.ed25519, []⟩⟩ verifierKey = .ok builtDispute := rfl

set_option maxRecDepth 2000 in
theorem builtBody_replays : (replayBlock toyPrimitives delegatedState
    (bodyAt 1 [freeBatch, builtDispute])).toOption.isSome = true := by decide

set_option maxRecDepth 2000 in
theorem builtTxs_apply : (applyTxs toyPrimitives delegatedState.beginBlock
    [freeBatch, builtDispute]).toOption.isSome = true := by decide

set_option maxRecDepth 2000 in
/-- Anchored and disputed in one block, the position of a thousand atoms goes to 950. -/
theorem dispute_pipeline_anchored : ∃ b r s', Commits toyPrimitives delegatedState b r s' ∧
    builtDispute ∈ b.txs ∧ r.outcomes.all TxOutcome.isApplied = true ∧
    stakeAmount delegatedState delegatedPosition.key = 1000 ∧
    stakeAmount s' delegatedPosition.key = 950 := by
  have step := sealBlock_commits (eq_ok_returned builtBody_replays)
  have hin : builtDispute ∈ (sealBlock toyPrimitives delegatedState
      (bodyAt 1 [freeBatch, builtDispute])).txs := by
    rw [sealBlock_txs]
    simp [bodyAt]
  obtain ⟨stx, hbuilt, -, hcommit, -⟩ := dispute_pipeline toyPrimitives freeReceipt 4 (.hashChain []) 9 8
    ⟨⟨.ed25519, []⟩⟩ verifierKey (by decide)
  obtain rfl : builtDispute = stx := Except.ok.inj (builtDispute_built.symm.trans hbuilt)
  have htxs : applyTxs toyPrimitives delegatedState.beginBlock (sealBlock toyPrimitives delegatedState
      (bodyAt 1 [freeBatch, builtDispute])).txs =
        .ok ((returned _ builtTxs_apply).1, (returned _ builtTxs_apply).2) := by
    rw [sealBlock_txs]
    exact eq_ok_returned_pair builtTxs_apply
  have hamount := hcommit _ _ _ _ delegatedState_wellFormed step hin _ _ htxs
    delegatedPosition.key rfl rfl (by decide)
  exact ⟨_, _, _, step, hin, by decide, by decide, hamount.trans (by decide)⟩

/-- The pool refuses it, whatever it holds. -/
theorem dispute_refused : ∃ stx, buildAndSignDispute toyPrimitives freeReceipt 4 (.hashChain []) 9 8
      ⟨⟨.ed25519, []⟩⟩ verifierKey = .ok stx ∧ stx.encodedLen toyPrimitives ≤ MAX_SIGNED_TX_BYTES ∧
    ∀ m : Mempool, m.insert toyPrimitives stx =
      .ok (m, .error (.unsupported "Dispute (Week 12 mempool lane)")) :=
  ⟨builtDispute, builtDispute_built, by decide, fun m => insert_unpooled rfl m⟩

end Arknet.Laws
