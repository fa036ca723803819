import Arknet.Laws.Admission
import Arknet.Laws.PendingRewards
import Arknet.Laws.Replay

/-!
Anchoring receipts. A batch is checked and marked receipt by receipt, so that a rejected one can leave
marks behind; no other rejected transaction leaves anything (`rejection_atomic`). The marks stay, and with
them every job is anchored at most once (`anchored_once`).
-/

namespace Arknet.Laws

open Machine Store Trace Arknet.Chain Arknet.Consensus

/-! ## Rejected transactions -/

section

variable (K : Primitives) (ctx : BlockCtx)

/-- A batch that is well formed and whose first receipt is new, while a later one is marked or repeats
a job of the batch. -/
def MarksThenRejects (stx : SignedTransaction) : Prop :=
  ∃ batch r rs, stx.tx = .receiptBatch batch ∧ batch.receipts = r :: rs ∧
    receiptMerkleRoot K batch.receipts = batch.merkleRoot ∧ ctx.isReceiptSeen r.jobId = false ∧
    ¬ (((r :: rs).map InferenceReceipt.jobId).Nodup ∧ ∀ x ∈ rs, ctx.isReceiptSeen x.jobId = false)

end

section

variable {K : Primitives} {ctx ctx' : BlockCtx} {stx : SignedTransaction} {o : TxOutcome}

/-- A batch is rejected with marks left when it meets the condition, and otherwise without. -/
theorem receiptBatch_rejected {batch : ReceiptBatch} {height : Height}
    (htx : stx.tx = .receiptBatch batch) (h : applyReceiptBatch K ctx batch height = .ok (ctx', o)) :
    (MarksThenRejects K ctx stx ∧ o.isApplied = false ∧ ctx'.commit ≠ ctx.commit) ∨
      (¬ MarksThenRejects K ctx stx ∧ (o.isApplied = false → ctx' = ctx)) := by
  have hcond : ∀ {b : ReceiptBatch}, stx.tx = .receiptBatch b → b = batch := fun hb =>
    Transaction.receiptBatch.inj (hb.symm.trans htx)
  unfold applyReceiptBatch at h
  split at h
  · rename_i hnil
    refine .inr ⟨?_, fun _ => (of_reject h).1⟩
    rintro ⟨b, r, rs, hb, hcons, -⟩
    obtain rfl := hcond hb
    rw [hnil] at hcons
    cases hcons
  rename_i hne
  split at h
  · rename_i hroot
    refine .inr ⟨?_, fun _ => (of_reject h).1⟩
    rintro ⟨b, r, rs, hb, -, hroot', -⟩
    obtain rfl := hcond hb
    exact hroot hroot'
  rename_i hroot
  obtain ⟨r, rs, hcons⟩ := List.exists_cons_of_ne_nil hne
  have haccepts := @markReceipts_accepts ctx height batch.receipts
  split at h <;> rename_i hm
  · rename_i ctx₁ job
    obtain ⟨rfl, ho⟩ := of_reject h
    rw [hm, hcons, List.forall_mem_cons] at haccepts
    rw [hcons] at hm
    by_cases hseen : ctx.isReceiptSeen r.jobId = true
    · refine .inr ⟨?_, fun _ => ?_⟩
      · rintro ⟨b, r', rs', hb, hcons', -, hnew, -⟩
        obtain rfl := hcond hb
        obtain ⟨rfl, -⟩ := List.cons.inj (hcons.symm.trans hcons')
        rw [hseen] at hnew
        cases hnew
      · simp only [markReceipts, hseen, ↓reduceIte, Prod.mk.injEq] at hm
        exact hm.1.symm
    · rw [Bool.not_eq_true] at hseen
      refine .inl ⟨⟨batch, r, rs, htx, hcons, not_not.mp hroot, hseen, fun hall => ?_⟩, ho, fun heq => ?_⟩
      · cases haccepts.mpr ⟨hall.1, hseen, hall.2⟩
      · -- the first receipt is marked now
        simp only [markReceipts, hseen, Bool.false_eq_true, ↓reduceIte] at hm
        have hself : ((ctx.markReceiptSeen r.jobId height).commit.receiptsSeen.get r.jobId).isSome = true := by
          rw [BlockCtx.markReceiptSeen_commit]
          simp
        have hmarked := markReceipts_seen _ height rs r.jobId hself
        rw [hm, heq, ← BlockCtx.isReceiptSeen_eq, hseen] at hmarked
        cases hmarked
  · obtain ⟨-, rfl⟩ := of_applied h
    refine .inr ⟨?_, fun ho => by cases ho⟩
    rintro ⟨b, r', rs', hb, hcons', -, -, hnot⟩
    obtain rfl := hcond hb
    rw [hm, hcons'] at haccepts
    obtain ⟨hnodup, hfresh⟩ := haccepts.mp rfl
    exact hnot ⟨hnodup, (List.forall_mem_cons.mp hfresh).2⟩

/-- Whatever a block has written before: a rejected transaction leaves its context as it was, unless it is a
receipt batch with a new first receipt and a later one that is not; that one leaves marks. -/
theorem rejection_atomic (h : applyTx K ctx stx = .ok (ctx', o)) :
    ((o.isApplied = false → ctx' = ctx) ↔ ¬ MarksThenRejects K ctx stx) ∧
      (MarksThenRejects K ctx stx → o.isApplied = false ∧ ctx'.commit ≠ ctx.commit) := by
  by_cases hbatch : ∃ batch, stx.tx = .receiptBatch batch
  · obtain ⟨batch, htx⟩ := hbatch
    simp only [applyTx, htx] at h
    obtain ⟨hmarks, ho, hne⟩ | ⟨hnot, hkept⟩ := receiptBatch_rejected htx h
    · exact ⟨iff_of_false (fun hkept => hne (by rw [hkept ho])) (not_not.mpr hmarks), fun _ => ⟨ho, hne⟩⟩
    · exact ⟨iff_of_true hkept hnot, fun hmarks => absurd hmarks hnot⟩
  · have hnot : ¬ MarksThenRejects K ctx stx := by
      rintro ⟨batch, -, -, htx, -⟩
      exact hbatch ⟨batch, htx⟩
    exact ⟨iff_of_true (fun ho => (applyTx_rejected h ho).resolve_right hbatch) hnot,
      fun hmarks => absurd hmarks hnot⟩

end

/-- A batch of one receipt, twice. -/
def doubledBatch : SignedTransaction :=
  unsigned [] (.receiptBatch ⟨9, [freeReceipt, freeReceipt],
    receiptMerkleRoot toyPrimitives [freeReceipt, freeReceipt], 2, ⟨.ed25519, []⟩⟩)

set_option maxRecDepth 2000 in
theorem doubledBatch_returns :
    (applyTx toyPrimitives State.empty.beginBlock doubledBatch).toOption.isSome = true := by decide

theorem rejection_atomic_empty : ∃ ctx' o,
    applyTx toyPrimitives State.empty.beginBlock (unsigned [] (.receiptBatch ⟨9, [], 0, 2, ⟨.ed25519, []⟩⟩)) =
      .ok (ctx', o) ∧ o.isApplied = false ∧ ctx' = State.empty.beginBlock := by
  have h : applyTx toyPrimitives State.empty.beginBlock
      (unsigned [] (.receiptBatch ⟨9, [], 0, 2, ⟨.ed25519, []⟩⟩)) =
      .ok (State.empty.beginBlock, .rejected .emptyReceiptBatch) := rfl
  refine ⟨_, _, h, rfl, (rejection_atomic h).1.mpr ?_ rfl⟩
  rintro ⟨batch, r, rs, htx, hcons, -⟩
  cases htx
  cases hcons

set_option maxRecDepth 2000 in
/-- The second copy of a receipt has its batch rejected, the first one stays marked. -/
theorem rejection_leaves_mark : ∃ out,
    applyTx toyPrimitives State.empty.beginBlock doubledBatch = .ok out ∧ out.2.isApplied = false ∧
      State.empty.beginBlock.isReceiptSeen 5 = false ∧ out.1.isReceiptSeen 5 = true :=
  ⟨_, eq_ok_returned doubledBatch_returns, by decide, by decide, by decide⟩

/-! ## Each job once -/

/-- The jobs of a receipt batch. -/
def jobsOf (stx : SignedTransaction) : List JobId :=
  match stx.tx with
  | .receiptBatch batch => batch.receipts.map InferenceReceipt.jobId
  | _ => []

/-- The jobs of the batches that were applied, one entry for each receipt. -/
def jobsAnchored (txs : List SignedTransaction) (os : List TxOutcome) : List JobId :=
  (appliedTxs txs os).flatMap jobsOf

/-- The jobs that a step of the engine anchors with the block it commits. -/
def anchoredIn (K : Primitives) (p : Step) : List JobId :=
  (commitsIn p).flatMap (fun c =>
    match replayBlock K p.pre.chainState c.1 with
    | .ok r => jobsAnchored c.1.txs r.outcomes
    | .error _ => [])

def Seen (s : State) (j : JobId) : Prop := (s.receiptsSeen.get j).isSome = true

section

variable {K : Primitives} {ctx ctx' : BlockCtx} {stx : SignedTransaction} {o : TxOutcome}

/-- An applied batch marks its jobs, which are distinct and were not marked before. -/
theorem applyTx_anchors (h : applyTx K ctx stx = .ok (ctx', o)) :
    Marks (fun c => Seen (BlockCtx.commit c)) ctx (if o.isApplied then jobsOf stx else []) ctx' ∧
      (if o.isApplied then jobsOf stx else []).Nodup := by
  by_cases hbatch : ∃ batch, stx.tx = .receiptBatch batch
  · obtain ⟨batch, htx⟩ := hbatch
    simp only [applyTx, htx] at h
    have hkept : ∀ j, Seen ctx.commit j → Seen ctx'.commit j := fun j hj => receiptBatch_seen h j hj
    by_cases ho : o.isApplied = true
    · obtain ⟨-, hall, -⟩ := receiptBatch_applied h ho
      obtain ⟨-, -, hnone⟩ := (receiptBatch_rewards h).1.mp ho
      obtain ⟨hnodup, hfresh⟩ := markReceipts_accepts.mp hnone
      simp only [ho, ↓reduceIte, jobsOf, htx]
      refine ⟨⟨fun j hj hseen => ?_, fun j hj => ?_, hkept⟩, hnodup⟩
      · obtain ⟨r, hr, rfl⟩ := List.mem_map.mp hj
        have hf := hfresh r hr
        rw [BlockCtx.isReceiptSeen_eq] at hf
        rw [Seen, hf] at hseen
        cases hseen
      · obtain ⟨r, hr, rfl⟩ := List.mem_map.mp hj
        exact hall r hr
    · rw [if_neg ho]
      exact ⟨.silent hkept, List.nodup_nil⟩
  · have hnone : ∀ batch, stx.tx ≠ .receiptBatch batch := fun batch htx => hbatch ⟨batch, htx⟩
    have hjobs : jobsOf stx = [] := by
      unfold jobsOf
      split
      · rename_i batch htx
        exact absurd htx (hnone batch)
      · rfl
    have hsame : ctx'.commit.receiptsSeen = ctx.commit.receiptsSeen :=
      (applyTx_writesOnly h).receiptsSeen hnone
    rw [hjobs, ite_self]
    refine ⟨.silent fun j hj => ?_, List.nodup_nil⟩
    rw [Seen, hsame]
    exact hj

theorem applyTxs_anchors {txs : List SignedTransaction} {os : List TxOutcome}
    (h : applyTxs K ctx txs = .ok (ctx', os)) :
    Marks (fun c => Seen (BlockCtx.commit c)) ctx (jobsAnchored txs os) ctx' ∧
      (jobsAnchored txs os).Nodup := by
  induction txs generalizing ctx os with
  | nil =>
    obtain ⟨rfl, rfl⟩ := applyTxs_nil_ok.mp h
    exact ⟨.silent fun _ hj => hj, List.nodup_nil⟩
  | cons stx rest ih =>
    obtain ⟨mid, o, os', h₁, h₂, rfl⟩ := applyTxs_cons_ok.mp h
    obtain ⟨hmarks, hnodup⟩ := applyTx_anchors h₁
    obtain ⟨hmarks', hnodup'⟩ := ih h₂
    have hjobs : jobsAnchored (stx :: rest) (o :: os') =
        (if o.isApplied then jobsOf stx else []) ++ jobsAnchored rest os' := by
      rw [jobsAnchored, appliedTxs_cons]
      split
      · exact List.flatMap_cons
      · rfl
    rw [hjobs]
    exact ⟨hmarks.append hmarks', hmarks.nodup_append hmarks' hnodup hnodup'⟩

theorem commits_anchors {s s' : State} {b : Block} {r : Replay} (h : Commits K s b r s') :
    Marks Seen s (jobsAnchored b.txs r.outcomes) s' ∧ (jobsAnchored b.txs r.outcomes).Nodup := by
  obtain ⟨ctx, htxs, hkept, -⟩ := commits_marksKept h
  obtain ⟨hmarks, hnodup⟩ := applyTxs_anchors htxs
  exact ⟨⟨hmarks.fresh, fun j hj => hkept.seen j (hmarks.left j hj),
    fun j hj => hkept.seen j (hmarks.kept j hj)⟩, hnodup⟩

end

section

variable {K : Primitives} {cfg : EngineConfig} {genesis : GenesisConfig}

theorem step_anchors {e e' : Engine} {p : Step} (h : Steps K cfg genesis e p e') :
    Marks (fun e => Seen (Engine.chainState e)) e (anchoredIn K p) e' ∧ (anchoredIn K p).Nodup := by
  obtain ⟨hnone, -, hstate, -⟩ | ⟨hnone, -, rfl⟩ | ⟨height, valueId, block, c, -, -, hc, hone, rfl⟩ :=
    steps_cases h
  · rw [anchoredIn, hnone]
    refine ⟨.silent fun j hj => ?_, List.nodup_nil⟩
    rw [hstate]
    exact hj
  · rw [anchoredIn, hnone]
    refine ⟨.silent fun j hj => ?_, List.nodup_nil⟩
    obtain ⟨models, hm⟩ := openState_columns genesis e.chainState
    rw [Engine.start, hm]
    exact hj
  · obtain ⟨r, hcommits⟩ := commits_iff.mpr ⟨c, hc, rfl⟩
    have hanchored : anchoredIn K p = jobsAnchored block.txs r.outcomes := by
      rw [anchoredIn, hone, List.flatMap_singleton, h.1, hcommits.replay]
    rw [hanchored]
    obtain ⟨hmarks, hnodup⟩ := commits_anchors hcommits
    refine ⟨⟨hmarks.fresh, fun j hj => ?_, fun j hj => ?_⟩, hnodup⟩
    · rw [Engine.dropDrain_chainState]
      exact hmarks.left j hj
    · rw [Engine.dropDrain_chainState]
      exact hmarks.kept j hj

/-- Over every run of a node, with its restarts: a job belongs to at most one receipt of at most one
applied batch. -/
theorem anchored_once {s : State} {hist : List Step} {e : Engine} (run : NodeRun K cfg genesis s hist e) :
    (hist.flatMap (anchoredIn K)).Nodup :=
  (Marks.steps (fun _ _ _ h => step_anchors h) run).2

end

/-- The events of a node that anchors job 5, restarts and is proposed the same block. -/
def anchorEvents : List Event :=
  [.proposal 1 freeBlock, .decide 1 (freeBlock.hash toyPrimitives), .restart, .proposal 1 freeBlock,
    .decide 1 (freeBlock.hash toyPrimitives)]

set_option maxRecDepth 2000 in
theorem anchorEvents_run :
    (nodeEvents toyPrimitives toyConfig toyGenesis anchorEvents).toOption.isSome = true := by decide

set_option maxRecDepth 2000 in
/-- The block is committed twice, its batch is applied the first time. -/
theorem anchored_once_restart : ∃ hist e, NodeRun toyPrimitives toyConfig toyGenesis State.empty hist e ∧
    (commitsOf hist).length = 2 ∧ hist.flatMap (anchoredIn toyPrimitives) = [5] ∧
    (hist.flatMap (anchoredIn toyPrimitives)).Nodup :=
  ⟨_, _, nodeEvents_run anchorEvents_run, by decide, by decide,
    anchored_once (nodeEvents_run anchorEvents_run)⟩

end Arknet.Laws
