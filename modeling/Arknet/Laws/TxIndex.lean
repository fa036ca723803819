import Arknet.Consensus.Run
import Arknet.Lib.Catalog

/-!
The transaction index beside the block log. A transaction that is in two blocks has one entry, which the
pruning of the older block deletes, and a block stored over another leaves the other's entries behind; the
index is right throughout a run exactly when neither happens (`tx_index`).
-/

namespace Arknet.Laws

open Machine Store Runs Arknet.Chain Arknet.Consensus

variable (K : Primitives)

def txHashes (b : Block) : List TxHash := b.txs.map (SignedTransaction.hash K)

/-- A retained block contains the transaction. -/
def RetainedTx (s : State) (h : TxHash) : Prop := ∃ k b, s.getBlock k = some b ∧ h ∈ txHashes K b

/-- A transaction has a height exactly when a retained block contains it, and the block of that height
does. -/
def TxIndexed (s : State) : Prop :=
  ∀ h, ((∃ k, s.getTxHeight h = some k) ↔ RetainedTx K s h) ∧
    ∀ k, s.getTxHeight h = some k → ∃ b, s.getBlock k = some b ∧ h ∈ txHashes K b

/-- Where the blocks from before are pruned when the block is committed. -/
def keepFrom (b : Block) : Height := satSub b.header.height BLOCK_RETENTION

/-- The block is pruned. -/
def PrunedTx (s : State) (b : Block) (h : TxHash) : Prop :=
  ∃ k b', k < keepFrom b ∧ s.getBlock k = some b' ∧ h ∈ txHashes K b'

/-- No transaction of a block that is pruned is in one that stays, and a block stored over another one
has the transactions that are indexed there, unless they are pruned. -/
structure LogsApart (s : State) (b : Block) : Prop where
  pruned : ∀ h, PrunedTx K s b h → h ∉ txHashes K b ∧
    ∀ k b', keepFrom b ≤ k → k ≠ b.header.height → s.getBlock k = some b' → h ∉ txHashes K b'
  restored : ∀ h, s.getTxHeight h = some b.header.height → h ∈ txHashes K b ∨ PrunedTx K s b h

/-! ## The block log as a catalog -/

def blockCatalog (s : State) : Catalog Height Block TxHash := ⟨s.blocks, s.txIndex⟩

section

variable {K} {s s' : State} {b : Block} {r : Replay}

theorem txIndexed_iff : TxIndexed K s ↔ (blockCatalog s).Right (txHashes K) := by
  constructor
  · intro h
    exact ⟨fun t k => (h t).2 k, fun t k b hget ht => (h t).1.mpr ⟨k, b, hget, ht⟩⟩
  · intro h t
    refine ⟨⟨fun ⟨k, hk⟩ => ⟨k, h.points t k hk⟩, fun ⟨k, b, hget, ht⟩ => h.finds t k b hget ht⟩, ?_⟩
    exact h.points t

theorem logsApart_iff :
    LogsApart K s b ↔ (blockCatalog s).Fits (txHashes K) b.header.height b (keepFrom b) :=
  ⟨fun h => ⟨h.restored, h.pruned⟩, fun h => ⟨h.apart, h.restored⟩⟩

theorem storeBlock_catalog (s : State) (height : Height) (b : Block) :
    blockCatalog (s.storeBlock (SignedTransaction.hash K) height b) =
      (blockCatalog s).store (txHashes K) height b := by
  simp only [blockCatalog, State.storeBlock, Catalog.store, txHashes, List.foldl_map]

theorem pruneBlocksBefore_catalog (s : State) (height : Height) :
    blockCatalog (s.pruneBlocksBefore (SignedTransaction.hash K) height) =
      (blockCatalog s).prune (txHashes K) height := by
  unfold State.pruneBlocksBefore Catalog.prune
  rw [show (blockCatalog s).docs = s.blocks from rfl]
  generalize (s.blocks.entries.takeWhile fun e => e.1 < height) = es
  induction es generalizing s with
  | nil => rfl
  | cons e es ih =>
    rw [List.foldl_cons, List.foldl_cons, ih]
    simp only [blockCatalog, Catalog.drop, txHashes, List.foldl_map]

/-- Below the retention nothing is pruned, as nothing lies below height zero. -/
theorem persist_catalog (ctx : BlockCtx) (b : Block) :
    blockCatalog (persist K ctx b) =
      ((blockCatalog ctx.state).store (txHashes K) b.header.height b).prune (txHashes K) (keepFrom b) := by
  unfold persist
  split_ifs with hret
  · have hfrom : b.header.height - BLOCK_RETENTION = keepFrom b :=
      Fin.ext (Fin.sub_val_of_le (Fin.le_of_lt hret))
    rw [pruneBlocksBefore_catalog, storeBlock_catalog, hfrom]
    rfl
  · have hzero : (keepFrom b).val = 0 := Nat.sub_eq_zero_of_le (not_lt.mp hret)
    have hnone : ∀ c : Catalog Height Block TxHash,
        (c.docs.entries.takeWhile fun e => e.1 < keepFrom b) = [] := fun c => by
      rw [Column.takeWhile_lt_eq_filter, List.filter_eq_nil_iff]
      intro e _ hlt
      have hbelow := Fin.lt_def.mp (of_decide_eq_true hlt)
      omega
    rw [storeBlock_catalog, Catalog.prune, hnone]
    rfl

theorem commits_catalog (h : Commits K s b r s') : blockCatalog s' =
    ((blockCatalog s).store (txHashes K) b.header.height b).prune (txHashes K) (keepFrom b) := by
  rw [h.stored, persist_catalog, (commits_txs h).1]

/-- A commit keeps the index right exactly when its block's transactions lie apart. -/
theorem commits_txIndexed (hs : TxIndexed K s) (h : Commits K s b r s') :
    TxIndexed K s' ↔ LogsApart K s b := by
  rw [txIndexed_iff, logsApart_iff, commits_catalog h]
  exact Catalog.right_iff (txIndexed_iff.mp hs) (Fin.le_def.mpr (Nat.sub_le _ _))

end

/-! ## The law -/

/-- The block and its replay decide where a commit leads. -/
theorem commits_deterministic : Deterministic fun u (p : Block × Replay) u' => Commits K u p.1 p.2 u' :=
  fun _ _ _ _ h₁ h₂ => h₁.stored.trans h₂.stored.symm

/-- From an index that is right, the index is right after every commit of a run exactly when every block
lies apart from the log it is stored in. -/
theorem tx_index {s t : State} {hist : List (Block × Replay)} (run : Run K s hist t)
    (hs : TxIndexed K s) :
    Consensus.Throughout K s (fun _ u => TxIndexed K u) hist ↔
      Along (fun u p u' => Commits K u p.1 p.2 u') s (fun u p => LogsApart K u p.1) hist := by
  have hthroughout : Consensus.Throughout K s (fun _ u => TxIndexed K u) hist ↔
      Runs.Throughout (fun u p u' => Commits K u p.1 p.2 u') s (fun _ u => TxIndexed K u) hist :=
    forall₄_congr fun _ _ _ _ => imp_congr run_iff_steps Iff.rfl
  rw [hthroughout]
  refine throughout_iff_along (commits_deterministic K) hs ?_ (run_iff_steps.mp run)
  intro past u p u' _ hu hstep
  exact commits_txIndexed hu hstep

/-! ## A transaction in two blocks -/

theorem nothing_indexed : TxIndexed K soleHolder := by
  rw [txIndexed_iff]
  constructor
  · intro t k h
    cases h
  · intro t k b h
    cases h

/-- A block at a height that has none fits while nothing is pruned. -/
theorem logsApart_of_new {K : Primitives} {s : State} {b : Block} (hs : TxIndexed K s)
    (hwithin : (keepFrom b).val = 0) (hnew : s.getBlock b.header.height = none) : LogsApart K s b := by
  refine ⟨fun h ⟨k, b', hk, _⟩ => ?_, fun h hat => ?_⟩
  · have hbelow := Fin.lt_def.mp hk
    omega
  · obtain ⟨b', hget, -⟩ := (hs h).2 _ hat
    rw [hnew] at hget
    cases hget

/-- Nobody signed it: it is rejected wherever it stands. -/
def strayTx : SignedTransaction := unsigned [] (.transfer 1 8 5 0 0)

def strayBody (height : Height) : Block := bodyAt height [strayTx]

theorem firstStray_replays :
    (replayBlock toyPrimitives soleHolder (strayBody 1)).toOption.isSome = true := by
  decide

def strayState : State :=
  persist toyPrimitives (returned _ firstStray_replays).ctx (sealBlock toyPrimitives soleHolder (strayBody 1))

theorem firstStray_commits : Commits toyPrimitives soleHolder
    (sealBlock toyPrimitives soleHolder (strayBody 1)) (returned _ firstStray_replays) strayState :=
  sealBlock_commits (eq_ok_returned firstStray_replays)

theorem firstStray_apart :
    LogsApart toyPrimitives soleHolder (sealBlock toyPrimitives soleHolder (strayBody 1)) :=
  logsApart_of_new (nothing_indexed _) (by decide) rfl

theorem strayState_indexed : TxIndexed toyPrimitives strayState :=
  (commits_txIndexed (nothing_indexed _) firstStray_commits).mpr firstStray_apart

theorem secondStray_replays :
    (replayBlock toyPrimitives strayState (strayBody 2)).toOption.isSome = true := by
  decide

/-- The index follows a transaction to the later of two blocks. -/
theorem tx_index_moves : ∃ hist t, hist.length = 2 ∧ Run toyPrimitives soleHolder hist t ∧
    Consensus.Throughout toyPrimitives soleHolder (fun _ u => TxIndexed toyPrimitives u) hist := by
  have hsecond := sealBlock_commits (eq_ok_returned secondStray_replays)
  have run := (Run.nil.snoc firstStray_commits).snoc hsecond
  refine ⟨_, _, rfl, run, (tx_index toyPrimitives run (nothing_indexed _)).mpr ?_⟩
  have hapart : LogsApart toyPrimitives strayState (sealBlock toyPrimitives strayState (strayBody 2)) :=
    logsApart_of_new strayState_indexed (by decide) rfl
  have hdet := commits_deterministic toyPrimitives
  refine (along_snoc hdet (run_iff_steps.mp (Run.nil.snoc firstStray_commits))).mpr ⟨?_, hapart⟩
  exact (along_snoc hdet .nil).mpr ⟨along_nil, firstStray_apart⟩

theorem lateStray_replays :
    (replayBlock toyPrimitives strayState (strayBody 10002)).toOption.isSome = true := by
  decide

/-- Pruning the first of two blocks with a transaction loses it, though the second stays. -/
theorem pruned_with_older_block : ∃ hist t, Run toyPrimitives soleHolder hist t ∧
    ¬ TxIndexed toyPrimitives t := by
  have hlate := sealBlock_commits (eq_ok_returned lateStray_replays)
  refine ⟨_, _, (Run.nil.snoc firstStray_commits).snoc hlate, fun hindexed => ?_⟩
  have hapart := (commits_txIndexed strayState_indexed hlate).mp hindexed
  have hpruned : PrunedTx toyPrimitives strayState (sealBlock toyPrimitives strayState (strayBody 10002))
      (strayTx.hash toyPrimitives) := by
    refine ⟨1, _, by decide, commits_block firstStray_commits, ?_⟩
    rw [txHashes, sealBlock_txs]
    exact List.mem_cons_self
  apply (hapart.pruned _ hpruned).1
  rw [txHashes, sealBlock_txs]
  exact List.mem_cons_self

end Arknet.Laws
