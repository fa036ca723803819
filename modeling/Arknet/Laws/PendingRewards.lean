import Arknet.Laws.Supply
import Arknet.Lib.Trace

/-!
The life of a pending reward. A job's reward waits from the block that queues it to the boundary that
ends its epoch, where one mint considers it and deletes it. The store follows `rewardStep` along a run
on consecutive heights as long as no boundary block queues a reward, no job is queued while its reward
waits, and no reward of the ending epoch mints nothing (`RewardsOrderly`).
-/

namespace Arknet.Laws

open Machine Store Arknet.Chain Arknet.Staking Arknet.Payments Arknet.Governance Arknet.Consensus

/-! ## A reward that waits -/

/-- What happens to a job's reward: it is queued for an epoch, a mint considers it and deletes it or
not, an epoch ends. -/
inductive RewardEvent where
  | queued (tokens : U32) (epoch : U64)
  | considered (tokens : U32) (removed : Bool)
  | epochEnded (epoch : U64)
  deriving DecidableEq, Repr

/-- Of the tokens and the epoch a reward waits with: a mint takes it with its own tokens, and it does
not outlive its epoch. -/
def rewardStep : Option (U32 × U64) → RewardEvent → Option (Option (U32 × U64))
  | none, .queued tokens epoch => some (some (tokens, epoch))
  | some w, .considered tokens removed => if tokens = w.1 ∧ removed = true then some none else none
  | none, .epochEnded _ => some none
  | some w, .epochEnded epoch => if epoch < w.2 then some (some w) else none
  | _, _ => none

def waiting (s : State) (j : JobId) : Option (U32 × U64) :=
  (s.pendingRewards.get j).map (fun pr => (pr.outputTokens, pr.epoch))

/-! ## What a run does to it -/

/-- The epoch a block's rewards are queued for: that of the height committed before it. -/
def epochTag (s : State) : U64 := epochOf (s.metaHeight.getD 0)

/-- The epoch a boundary ends. -/
def endingEpoch (b : Block) : U64 := satSub (epochForHeight b.header.height) 1

section

variable (K : Primitives)

/-- The rewards a transaction queues when it is applied. -/
def queuedBy (s : State) (stx : SignedTransaction) : List PendingReward :=
  match stx.tx with
  | .receiptBatch batch =>
    if inBootstrapEpoch (s.metaHeight.getD 0) s.validatorCount then
      batch.receipts.map (bootstrapReward K (s.metaHeight.getD 0))
    else []
  | .escrowSettle jobId _ computeAddr verifierAddr routerAddr treasuryAddr =>
    ((s.escrows.get jobId).map (fun e => settlementReward jobId e.amount computeAddr verifierAddr
      routerAddr treasuryAddr (s.metaHeight.getD 0))).toList
  | _ => []

def queuedIn (s : State) (txs : List SignedTransaction) : List PendingReward := txs.flatMap (queuedBy K s)

/-- The context in which the epoch mint of a block starts, when it runs. -/
def mintStart (s : State) (b : Block) : Exec (Option BlockCtx) := do
  let (ctx, _) ← applyTxs K s.beginBlock b.txs
  let ctx ← b.txs.foldlM (dispatchSlash K) ctx
  if isEpochBoundary b.header.height then do
    let (ctx, _) ← recomputeValidatorSet ctx b.header.height
    pure (some ctx)
  else pure none

end

/-- The rate and the budget an epoch mint starts with. -/
def mintRate (s : State) (ending : U64) (height : Height) : Exec (Amount × EpochEmissionState) := do
  let totalTokens ← sum ((s.iterPendingRewardsForEpoch ending).map
    (fun pr => widen width32_le_64 pr.outputTokens))
  let budget ← epochBudget (yearForHeight height)
  let perToken ← perTokenRate ⟨epochForHeight height, budget, 0, 0⟩ totalTokens
  pure (perToken, ⟨epochForHeight height, budget, 0, 0⟩)

def considerEvent (j : JobId) (_ : MintAcc) (pr : PendingReward) (acc' : MintAcc) : List RewardEvent :=
  if pr.jobId = j then
    [.considered pr.outputTokens (decide (acc'.ctx.commit.pendingRewards.get j = none))]
  else []

/-- What the mint loop does to the reward of job `j`. -/
def mintEvents (j : JobId) (ctx : BlockCtx) (ending : U64) (height : Height) : List RewardEvent :=
  match mintRate ctx.state ending height with
  | .ok (perToken, emission) => Trace.ofLoop (mintOne perToken) (considerEvent j) ⟨ctx, emission, 0⟩
      (ctx.state.iterPendingRewardsForEpoch ending)
  | .error _ => []

section

variable (K : Primitives)

/-- What a boundary does: its mint, and the end of the epoch. -/
def boundaryRewards (j : JobId) (s : State) (b : Block) : List RewardEvent :=
  match mintStart K s b with
  | .ok (some ctx) => mintEvents j ctx (endingEpoch b) b.header.height ++ [.epochEnded (endingEpoch b)]
  | _ => []

/-- The rewards a block queues for job `j`. -/
def queuedFor (j : JobId) (p : Block × Replay) : List PendingReward :=
  (queuedIn K p.2.ctx.state (appliedTxs p.1.txs p.2.outcomes)).filter (fun pr => pr.jobId = j)

/-- What a committed block does to the reward of job `j`. -/
def blockRewards (j : JobId) (p : Block × Replay) : List RewardEvent :=
  (queuedFor K j p).map (fun pr => .queued pr.outputTokens pr.epoch) ++
    boundaryRewards K j p.2.ctx.state p.1

def runRewards (j : JobId) (hist : List (Block × Replay)) : List RewardEvent :=
  hist.flatMap (blockRewards K j)

/-- Every job's reward has followed `rewardStep`, and what waits is what the store has. -/
def RewardsProcessed (s : State) (past : List (Block × Replay)) (u : State) : Prop :=
  ∀ j, Trace.follow rewardStep (waiting s j) (runRewards K j past) = some (waiting u j)

/-! ## The condition -/

/-- The guards of a batch and of a settlement. -/
def RewardLetIn (ctx : BlockCtx) (stx : SignedTransaction) : Prop :=
  match stx.tx with
  | .receiptBatch batch => batch.receipts ≠ [] ∧ receiptMerkleRoot K batch.receipts = batch.merkleRoot ∧
      (markReceipts ctx (ctx.currentHeight.getD 0) batch.receipts).2 = none
  | .escrowSettle jobId _ _ _ _ _ => ∃ e, ctx.getEscrow jobId = some e ∧ e.state = .locked
  | _ => False

/-- A reward is queued off the boundary only, and only for a job that has none waiting. -/
def QueuesOnce (height : Height) (ctx : BlockCtx) (stx : SignedTransaction) : Prop :=
  RewardLetIn K ctx stx → ∀ pr ∈ queuedBy K ctx.state stx,
    isEpochBoundary height = false ∧ ctx.commit.pendingRewards.get pr.jobId = none

end

/-- Every reward on the list mints something, on top of what those before it have minted. -/
def mintsEach (perToken : Amount) : EpochEmissionState → List PendingReward → Bool
  | _, [] => true
  | emission, pr :: rest =>
    match pendingBlockReward perToken pr with
    | .ok reward => (emission.tryMint reward).1 ≠ 0 && mintsEach perToken (emission.tryMint reward).2 rest
    | .error _ => true

structure RewardsOrderly (K : Primitives) (s : State) (b : Block) : Prop where
  queues : EachTx K (QueuesOnce K b.header.height) s.beginBlock b.txs
  mints : isEpochBoundary b.header.height = true → ∀ perToken emission,
    mintRate s (endingEpoch b) b.header.height = .ok (perToken, emission) →
    mintsEach perToken emission (s.iterPendingRewardsForEpoch (endingEpoch b)) = true

/-- The rewards that wait are those of the current epoch, each under its job. -/
def RewardsCurrent (s : State) : Prop :=
  ∀ j pr, s.pendingRewards.get j = some pr → pr.jobId = j ∧ pr.epoch = epochTag s

/-- Every block stands one above the height committed before it. -/
def Consecutive (hist : List (Block × Replay)) : Prop :=
  ∀ p ∈ hist, p.1.header.height.val = (p.2.ctx.state.metaHeight.getD 0).val + 1

/-! ## Queueing -/

section

variable {K : Primitives} {ctx ctx' : BlockCtx} {stx : SignedTransaction} {o : TxOutcome}

theorem queuedBy_epoch {s : State} {pr : PendingReward} (h : pr ∈ queuedBy K s stx) :
    pr.epoch = epochTag s := by
  unfold queuedBy at h
  split at h
  · split at h
    · obtain ⟨r, -, rfl⟩ := List.mem_map.mp h
      rfl
    · cases h
  · rw [Option.mem_toList, Option.map_eq_some_iff] at h
    obtain ⟨e, -, rfl⟩ := h
    rfl
  · cases h

theorem queuedIn_cons (s : State) (stx : SignedTransaction) (txs : List SignedTransaction) :
    queuedIn K s (stx :: txs) = queuedBy K s stx ++ queuedIn K s txs := List.flatMap_cons

theorem queuedIn_applied (s : State) (stx : SignedTransaction) (o : TxOutcome)
    (txs : List SignedTransaction) (os : List TxOutcome) :
    queuedIn K s (appliedTxs (stx :: txs) (o :: os)) =
      (if o.isApplied then queuedBy K s stx else []) ++ queuedIn K s (appliedTxs txs os) := by
  rw [appliedTxs_cons]
  split
  · exact queuedIn_cons s stx _
  · rfl

/-- The rewards of a batch are written in order, the last for a job staying. -/
theorem queueRewards_get (height : Height) (rs : List InferenceReceipt) (ctx : BlockCtx) (j : JobId) :
    (rs.foldl (fun ctx r => ctx.setPendingReward r.jobId (bootstrapReward K height r))
        ctx).commit.pendingRewards.get j =
      ((((rs.map (bootstrapReward K height)).filter (fun pr => pr.jobId = j)).getLast?).or
        (ctx.commit.pendingRewards.get j)) := by
  induction rs generalizing ctx with
  | nil => rfl
  | cons r rs ih =>
    rw [List.foldl_cons, ih, List.map_cons, List.filter_cons]
    have hjob : (bootstrapReward K height r).jobId = r.jobId := rfl
    rw [hjob, BlockCtx.setPendingReward_commit]
    simp only [Column.get_write]
    by_cases hj : r.jobId = j
    · simp only [hj, decide_true, ↓reduceIte, List.getLast?_cons]
      cases ((rs.map (bootstrapReward K height)).filter (fun pr => pr.jobId = j)).getLast? <;> rfl
    · simp [hj]

theorem isReceiptSeen_mark (ctx : BlockCtx) (j : JobId) (height : Height) (x : JobId) :
    (ctx.markReceiptSeen j height).isReceiptSeen x = (decide (j = x) || ctx.isReceiptSeen x) := by
  rw [BlockCtx.isReceiptSeen_eq, BlockCtx.isReceiptSeen_eq, BlockCtx.markReceiptSeen_commit]
  simp only [Column.get_write]
  by_cases hx : j = x
  · simp [hx]
  · simp [hx]

/-- Marking goes through when the jobs are distinct and none is marked. -/
theorem markReceipts_accepts {ctx : BlockCtx} {height : Height} {rs : List InferenceReceipt} :
    (markReceipts ctx height rs).2 = none ↔ (rs.map InferenceReceipt.jobId).Nodup ∧
      ∀ r ∈ rs, ctx.isReceiptSeen r.jobId = false := by
  induction rs generalizing ctx with
  | nil => exact iff_of_true rfl ⟨List.nodup_nil, fun _ hr => absurd hr List.not_mem_nil⟩
  | cons r rs ih =>
    simp only [markReceipts]
    split
    · rename_i hseen
      refine iff_of_false (by simp) fun h => ?_
      rw [h.2 r (by simp)] at hseen
      cases hseen
    · rename_i hseen
      rw [ih]
      simp only [isReceiptSeen_mark, Bool.or_eq_false_iff, decide_eq_false_iff_not, List.map_cons,
        List.nodup_cons, List.mem_map, not_exists, not_and, List.forall_mem_cons]
      constructor
      · rintro ⟨hnodup, hfresh⟩
        exact ⟨⟨fun x hx heq => (hfresh x hx).1 heq.symm, hnodup⟩, by simpa using hseen,
          fun x hx => (hfresh x hx).2⟩
      · rintro ⟨⟨hnew, hnodup⟩, -, hfresh⟩
        exact ⟨hnodup, fun x hx => ⟨fun heq => hnew x hx heq.symm, hfresh x hx⟩⟩

theorem markReceipts_jobs (height : Height) {rs : List InferenceReceipt} {ctx ctx' : BlockCtx}
    (h : markReceipts ctx height rs = (ctx', none)) : (rs.map InferenceReceipt.jobId).Nodup ∧
      ∀ r ∈ rs, ctx.isReceiptSeen r.jobId = false := markReceipts_accepts.mp (by rw [h])

theorem settle_applied {jobId : JobId} {computeAddr verifierAddr routerAddr treasuryAddr : Address}
    {height : Height} {e : EscrowEntry} (hget : ctx.getEscrow jobId = some e) (hlocked : e.state = .locked)
    (h : applyEscrowSettle ctx jobId computeAddr verifierAddr routerAddr treasuryAddr height =
      .ok (ctx', o)) : o.isApplied = true := by
  simp only [applyEscrowSettle, hget, hlocked, ne_eq, not_true_eq_false, ↓reduceIte, bind_eq_ok] at h
  obtain ⟨_, -, h⟩ := h
  rw [(of_applied h).2]
  rfl

/-- A batch queues its receipts' rewards when its guards let it in, for distinct jobs, and none
otherwise. -/
theorem receiptBatch_rewards {batch : ReceiptBatch} {height : Height}
    (h : applyReceiptBatch K ctx batch height = .ok (ctx', o)) :
    (o.isApplied = true ↔ batch.receipts ≠ [] ∧ receiptMerkleRoot K batch.receipts = batch.merkleRoot ∧
      (markReceipts ctx height batch.receipts).2 = none) ∧
    (o.isApplied = true → (batch.receipts.map InferenceReceipt.jobId).Nodup) ∧
    ∀ j, ctx'.commit.pendingRewards.get j =
      ((((if o.isApplied = true ∧ inBootstrapEpoch height ctx.state.validatorCount = true then
        batch.receipts.map (bootstrapReward K height) else []).filter (fun pr => pr.jobId = j)).getLast?).or
          (ctx.commit.pendingRewards.get j)) := by
  unfold applyReceiptBatch at h
  split at h
  · rename_i hnil
    obtain ⟨rfl, ho⟩ := of_reject h
    simp [ho, hnil]
  rename_i hne
  split at h
  · rename_i hroot
    obtain ⟨rfl, ho⟩ := of_reject h
    simp [ho, hroot]
  rename_i hroot
  obtain ⟨-, seen, hseen⟩ := markReceipts_commit ctx height batch.receipts
  split at h <;> rename_i hm <;> rw [hm] at hseen
  · obtain ⟨rfl, ho⟩ := of_reject h
    refine ⟨by simp [ho, hm], by simp [ho], fun j => ?_⟩
    rw [ho, hseen]
    rfl
  · rename_i ctx₁
    obtain ⟨rfl, rfl⟩ := of_applied h
    refine ⟨by simp [TxOutcome.isApplied, hne, not_not.mp hroot, hm], fun _ => (markReceipts_jobs height hm).1,
      fun j => ?_⟩
    have hstate : ctx₁.state = ctx.state := by
      have hs := (markReceipts_commit ctx height batch.receipts).1
      rwa [hm] at hs
    rw [hstate]
    by_cases hb : inBootstrapEpoch height ctx.state.validatorCount = true
    · rw [if_pos hb, if_pos ⟨rfl, hb⟩, queueRewards_get, hseen]
    · rw [if_neg hb, if_neg (fun hc => hb hc.2), hseen]
      rfl

/-- What a transaction queues: it is applied exactly when its guards let it in, and then its rewards
are written, for distinct jobs. -/
theorem applyTx_rewards (hh : ctx.currentHeight = ctx.state.metaHeight)
    (h : applyTx K ctx stx = .ok (ctx', o)) :
    (queuedBy K ctx.state stx ≠ [] → (o.isApplied = true ↔ RewardLetIn K ctx stx)) ∧
    (o.isApplied = true → ((queuedBy K ctx.state stx).map PendingReward.jobId).Nodup) ∧
    ∀ j, ctx'.commit.pendingRewards.get j =
      ((((if o.isApplied then queuedBy K ctx.state stx else []).filter
        (fun pr => pr.jobId = j)).getLast?).or (ctx.commit.pendingRewards.get j)) := by
  cases htx : stx.tx with
  | receiptBatch batch =>
    simp only [applyTx, htx] at h
    have hheight : ctx.currentHeight.getD 0 = ctx.state.metaHeight.getD 0 := by rw [hh]
    obtain ⟨hiff, hnodup, hget⟩ := receiptBatch_rewards h
    simp only [RewardLetIn, queuedBy, htx]
    rw [hheight] at hiff hget ⊢
    refine ⟨fun _ => hiff, fun ho => ?_, fun j => ?_⟩
    · split
      · rw [List.map_map]
        exact hnodup ho
      · exact List.nodup_nil
    · rw [hget j]
      by_cases ho : o.isApplied = true
      · simp [ho]
      · simp [ho]
  | escrowSettle jobId batchId computeAddr verifierAddr routerAddr treasuryAddr =>
    simp only [applyTx, htx] at h
    simp only [RewardLetIn, queuedBy, htx]
    rcases applyEscrowSettle_ok h with ⟨rfl, ho⟩ | ⟨rfl, entry, credited, hget, hlocked, hc, rfl⟩
    · refine ⟨fun _ => ⟨fun ha => ?_, ?_⟩, fun ha => ?_, fun j => (by simp [ho])⟩
      · rw [ho] at ha
        cases ha
      · rintro ⟨e, hget, hlocked⟩
        exact settle_applied hget hlocked h
      · rw [ho] at ha
        cases ha
    · have hheight : ctx.currentHeight.getD 0 = ctx.state.metaHeight.getD 0 := by rw [hh]
      rw [hget]
      refine ⟨fun _ => iff_of_true rfl ⟨entry, hget, hlocked⟩, fun _ => by simp, fun j => ?_⟩
      obtain ⟨accounts, hacc⟩ := creditRewardSplit_commit hc
      rw [BlockCtx.setEscrow_commit, BlockCtx.setPendingReward_commit, hacc, hheight]
      simp only [Column.get_write, TxOutcome.isApplied, ↓reduceIte, Option.map_some, Option.toList_some,
        List.filter_cons, List.filter_nil]
      have hjob : (settlementReward jobId entry.amount computeAddr verifierAddr routerAddr treasuryAddr
          (ctx.state.metaHeight.getD 0)).jobId = jobId := rfl
      rw [hjob]
      by_cases hj : jobId = j
      · simp [hj]
      · simp [hj]
  | _ =>
    have hnil : queuedBy K ctx.state stx = [] := by simp [queuedBy, htx]
    rw [hnil, (applyTx_writesOnly h).pendingRewards (by simp [htx]) (by simp [htx])]
    refine ⟨fun hne => absurd rfl hne, fun _ => by simp, fun j => by simp⟩

/-- The entry a list of rewards leaves for a job is missing when it was missing and none is the
job's. -/
theorem last_or_none {q : List PendingReward} {old : Option PendingReward} {j : JobId} :
    ((q.filter (fun pr => pr.jobId = j)).getLast?).or old = none ↔
      j ∉ q.map PendingReward.jobId ∧ old = none := by
  rw [Option.or_eq_none_iff, List.getLast?_eq_none_iff, List.filter_eq_nil_iff]
  simp

theorem queuesOnce_iff {height : Height} (hh : ctx.currentHeight = ctx.state.metaHeight)
    (h : applyTx K ctx stx = .ok (ctx', o)) :
    QueuesOnce K height ctx stx ↔ ∀ pr ∈ if o.isApplied then queuedBy K ctx.state stx else [],
      isEpochBoundary height = false ∧ ctx.commit.pendingRewards.get pr.jobId = none := by
  have hiff := (applyTx_rewards hh h).1
  unfold QueuesOnce
  by_cases hnil : queuedBy K ctx.state stx = []
  · simp [hnil]
  · rw [← hiff hnil]
    by_cases ho : o.isApplied = true
    · simp [ho]
    · simp [ho]

/-- What a list of transactions leaves waiting, and when it queues every reward once. -/
theorem applyTxs_rewards (height : Height) {txs : List SignedTransaction} {os : List TxOutcome}
    (hh : ctx.currentHeight = ctx.state.metaHeight) (h : applyTxs K ctx txs = .ok (ctx', os)) :
    (∀ j, ctx'.commit.pendingRewards.get j =
      (((queuedIn K ctx.state (appliedTxs txs os)).filter (fun pr => pr.jobId = j)).getLast?).or
        (ctx.commit.pendingRewards.get j)) ∧
    (EachTx K (QueuesOnce K height) ctx txs ↔
      (∀ pr ∈ queuedIn K ctx.state (appliedTxs txs os), isEpochBoundary height = false ∧
        ctx.commit.pendingRewards.get pr.jobId = none) ∧
      ((queuedIn K ctx.state (appliedTxs txs os)).map PendingReward.jobId).Nodup) := by
  induction txs generalizing ctx os with
  | nil =>
    obtain ⟨rfl, rfl⟩ := applyTxs_nil_ok.mp h
    exact ⟨fun _ => rfl, by simp [EachTx, queuedIn, appliedTxs]⟩
  | cons stx rest ih =>
    obtain ⟨mid, o, os', h₁, h₂, rfl⟩ := applyTxs_cons_ok.mp h
    have hstate := applyTx_state h₁
    have hheight : mid.currentHeight = mid.state.metaHeight := by
      rw [BlockCtx.currentHeight_eq, (applyTx_writesOnly h₁).metaHeight, ← BlockCtx.currentHeight_eq, hh,
        hstate]
    obtain ⟨-, hnodup, hget⟩ := applyTx_rewards hh h₁
    obtain ⟨hget₂, heach₂⟩ := ih hheight h₂
    rw [hstate] at hget₂ heach₂
    rw [queuedIn_applied]
    generalize hq : (if o.isApplied = true then queuedBy K ctx.state stx else []) = q at hget ⊢
    have hqn : (q.map PendingReward.jobId).Nodup := by
      rw [← hq]
      split
      · rename_i ho
        exact hnodup ho
      · exact List.nodup_nil
    refine ⟨fun j => ?_, ?_⟩
    · rw [hget₂ j, hget j, List.filter_append, List.getLast?_append, Option.or_assoc]
    · have hcons : EachTx K (QueuesOnce K height) ctx (stx :: rest) ↔
          QueuesOnce K height ctx stx ∧ EachTx K (QueuesOnce K height) mid rest := by
        refine and_congr_right fun _ => ⟨fun hall => hall mid o h₁, fun hm mid' o' h₁' => ?_⟩
        obtain ⟨rfl, rfl⟩ := Prod.mk.inj (Except.ok.inj (h₁.symm.trans h₁'))
        exact hm
      rw [hcons, queuesOnce_iff hh h₁, hq, heach₂, List.map_append, List.nodup_append']
      simp only [hget, last_or_none, List.mem_append]
      constructor
      · rintro ⟨hfirst, hrest, hn⟩
        refine ⟨fun pr hpr => hpr.elim (hfirst pr) (fun hp => ⟨(hrest pr hp).1, (hrest pr hp).2.2⟩),
          hqn, hn, fun j hj hj' => ?_⟩
        obtain ⟨pr, hpr, rfl⟩ := List.mem_map.mp hj'
        exact (hrest pr hpr).2.1 hj
      · rintro ⟨hall, -, hn, hdis⟩
        exact ⟨fun pr hpr => hall pr (.inl hpr), fun pr hpr => ⟨(hall pr (.inr hpr)).1,
          fun hj => hdis hj (List.mem_map_of_mem hpr), (hall pr (.inr hpr)).2⟩, hn⟩

/-! ## The mint -/

/-- The mint runs over the pending rewards at the rate of `mintRate`. -/
theorem epochBoundaryMint_eq (ctx : BlockCtx) (ending : U64) (height : Height) :
    epochBoundaryMint ctx ending height =
      (if ctx.state.iterPendingRewardsForEpoch ending = [] then pure (ctx, 0)
      else do
        let rate ← mintRate ctx.state ending height
        let acc ← (ctx.state.iterPendingRewardsForEpoch ending).foldlM (mintOne rate.1) ⟨ctx, rate.2, 0⟩
        pure (acc.ctx, acc.totalMinted)) := by
  simp only [epochBoundaryMint, mintRate, bind_assoc, pure_bind]

/-- What the emission state has become after a list of rewards. -/
def emissionAfter (perToken : Amount) (emission : EpochEmissionState) (rewards : List PendingReward) :
    EpochEmissionState :=
  rewards.foldl (fun emission pr =>
    match pendingBlockReward perToken pr with
    | .ok reward => (emission.tryMint reward).2
    | .error _ => emission) emission

theorem mintOne_emission {perToken : Amount} {acc acc' : MintAcc} {pr : PendingReward}
    (h : mintOne perToken acc pr = .ok acc') :
    acc'.emission = emissionAfter perToken acc.emission [pr] := by
  obtain ⟨reward, hr, he, -⟩ := mintOne_ok h
  simp [emissionAfter, hr, he]

theorem mintLoop_emission {perToken : Amount} {rewards : List PendingReward} {acc acc' : MintAcc}
    (h : rewards.foldlM (mintOne perToken) acc = .ok acc') :
    acc'.emission = emissionAfter perToken acc.emission rewards := by
  induction rewards generalizing acc with
  | nil =>
    simp only [List.foldlM_nil, pure_eq_ok] at h
    rw [h]
    rfl
  | cons pr rest ih =>
    rw [List.foldlM_cons, bind_eq_ok] at h
    obtain ⟨mid, hmid, hrest⟩ := h
    rw [ih hrest, mintOne_emission hmid]
    rfl

/-- Every reward mints something when each does after those before it. -/
theorem mintsEach_iff {perToken : Amount} {emission : EpochEmissionState} {rewards : List PendingReward}
    (hok : ∀ pr ∈ rewards, ∃ reward, pendingBlockReward perToken pr = .ok reward) :
    mintsEach perToken emission rewards = true ↔ ∀ before pr after, rewards = before ++ pr :: after →
      ∀ reward, pendingBlockReward perToken pr = .ok reward →
        ((emissionAfter perToken emission before).tryMint reward).1 ≠ 0 := by
  induction rewards generalizing emission with
  | nil => simp [mintsEach]
  | cons pr rest ih =>
    obtain ⟨reward, hr⟩ := hok pr (by simp)
    have hafter : emissionAfter perToken emission [pr] = (emission.tryMint reward).2 := by
      simp [emissionAfter, hr]
    have hrest := @ih (emission.tryMint reward).2 (fun x hx => hok x (by simp [hx]))
    simp only [mintsEach, hr, Bool.and_eq_true, decide_eq_true_eq, hrest]
    constructor
    · rintro ⟨hfirst, hlater⟩ before x after hsplit reward' hreward
      cases before with
      | nil =>
        obtain ⟨rfl, -⟩ := List.cons.inj hsplit
        rw [hr] at hreward
        obtain rfl := Except.ok.inj hreward
        exact hfirst
      | cons y before =>
        obtain ⟨rfl, htail⟩ := List.cons.inj hsplit
        have hl := hlater before x after htail reward' hreward
        rw [← hafter] at hl
        exact hl
    · intro hall
      refine ⟨hall [] pr rest rfl reward hr, fun before x after hsplit reward' hreward => ?_⟩
      have hl := hall (pr :: before) x after (by rw [hsplit]; rfl) reward' hreward
      rw [← hafter]
      exact hl

theorem payReward_rewards {ctx ctx' : BlockCtx} {pr : PendingReward} {minted : Amount}
    (h : payReward ctx pr minted = .ok ctx') :
    ctx'.commit.pendingRewards = ctx.commit.pendingRewards.write pr.jobId none := by
  obtain ⟨dist, paid, -, hd, rfl⟩ := payReward_ok h
  have hcredits : PaidOnly ctx paid :=
    ((PaidOnly.trans (BlockCtx.creditPositive_commit _ _ _)
      (BlockCtx.creditPositive_commit _ _ _)).trans (BlockCtx.creditPositive_commit _ _ _)).trans
      (distributeToDelegators_paidOnly hd)
  obtain ⟨accounts, ha⟩ := hcredits
  rw [BlockCtx.deletePendingReward_commit, ha]

/-- An iteration of the mint deletes its own entry when it mints, and touches no other. -/
theorem mintOne_rewards {perToken : Amount} {acc acc' : MintAcc} {pr : PendingReward}
    (h : mintOne perToken acc pr = .ok acc') :
    ∃ reward, pendingBlockReward perToken pr = .ok reward ∧
      (((acc.emission.tryMint reward).1 ≠ 0 ∧ acc'.ctx.commit.pendingRewards.get pr.jobId = none) ∨
        ((acc.emission.tryMint reward).1 = 0 ∧ acc'.ctx = acc.ctx)) ∧
      ∀ j, pr.jobId ≠ j →
        acc'.ctx.commit.pendingRewards.get j = acc.ctx.commit.pendingRewards.get j := by
  obtain ⟨reward, hr, -, ⟨hz, hc, -⟩ | ⟨hz, hp, -⟩⟩ := mintOne_ok h
  · exact ⟨reward, hr, .inr ⟨hz, hc⟩, fun j _ => by rw [hc]⟩
  · refine ⟨reward, hr, .inl ⟨hz, ?_⟩, fun j hj => ?_⟩
    · rw [payReward_rewards hp, Column.get_write_self]
    · rw [payReward_rewards hp, Column.get_write_ne _ hj]

theorem mintLoop_other {perToken : Amount} {rewards : List PendingReward} {acc acc' : MintAcc} {j : JobId}
    (hne : ∀ pr ∈ rewards, pr.jobId ≠ j) (h : rewards.foldlM (mintOne perToken) acc = .ok acc') :
    acc'.ctx.commit.pendingRewards.get j = acc.ctx.commit.pendingRewards.get j := by
  refine foldlM_invariant (fun a : MintAcc => a.ctx.commit.pendingRewards.get j =
    acc.ctx.commit.pendingRewards.get j) _ _ (fun a a' pr hmem ha hf => ?_) rfl h
  obtain ⟨-, -, -, hother⟩ := mintOne_rewards hf
  rw [hother j (hne pr hmem), ha]

/-- Every entry is stored under its own job. -/
def RewardsKeyed (s : State) : Prop := ∀ j pr, s.pendingRewards.get j = some pr → pr.jobId = j

theorem pending_nodup {s : State} (hk : RewardsKeyed s) (ending : U64) :
    ((s.iterPendingRewardsForEpoch ending).map PendingReward.jobId).Nodup := by
  have hvalues : s.pendingRewards.values.map PendingReward.jobId =
      s.pendingRewards.entries.map Prod.fst := by
    rw [Column.values, List.map_map]
    refine List.map_congr_left fun e he => ?_
    exact hk e.1 e.2 (Column.get_eq_some.mpr he)
  have hnodup : (s.pendingRewards.values.map PendingReward.jobId).Nodup := by
    rw [hvalues]
    exact s.pendingRewards.keys_nodup
  exact hnodup.sublist (List.filter_sublist.map _)

/-- A mint that meets no reward of job `j` leaves it alone. -/
theorem mint_absent {ending : U64} {height : Height} {minted : Amount} {j : JobId}
    (hne : ∀ pr ∈ ctx.state.iterPendingRewardsForEpoch ending, pr.jobId ≠ j)
    (h : epochBoundaryMint ctx ending height = .ok (ctx', minted)) :
    mintEvents j ctx ending height = [] ∧
      ctx'.commit.pendingRewards.get j = ctx.commit.pendingRewards.get j := by
  refine ⟨?_, ?_⟩
  · unfold mintEvents
    split
    · exact Trace.ofLoop_quiet (fun acc pr acc' hmem _ => if_neg (hne pr hmem)) _
    · rfl
  · rw [epochBoundaryMint_eq] at h
    split at h
    · simp only [pure_eq_ok, Prod.mk.injEq] at h
      rw [h.1]
    · simp only [bind_eq_ok, pure_eq_ok, Prod.mk.injEq] at h
      obtain ⟨rate, -, acc, hloop, rfl, -⟩ := h
      exact mintLoop_other hne hloop

/-- A mint considers the reward it meets for a job once, and deletes it when it mints anything. -/
theorem mint_met {ending : U64} {height : Height} {minted : Amount} {before after : List PendingReward}
    {pr : PendingReward} (hk : RewardsKeyed ctx.state)
    (hsplit : ctx.state.iterPendingRewardsForEpoch ending = before ++ pr :: after)
    (h : epochBoundaryMint ctx ending height = .ok (ctx', minted)) :
    ∃ perToken emission reward, mintRate ctx.state ending height = .ok (perToken, emission) ∧
      pendingBlockReward perToken pr = .ok reward ∧
      ((((emissionAfter perToken emission before).tryMint reward).1 ≠ 0 ∧
          mintEvents pr.jobId ctx ending height = [.considered pr.outputTokens true] ∧
          ctx'.commit.pendingRewards.get pr.jobId = none) ∨
        (((emissionAfter perToken emission before).tryMint reward).1 = 0 ∧
          mintEvents pr.jobId ctx ending height = [.considered pr.outputTokens
            (decide (ctx.commit.pendingRewards.get pr.jobId = none))])) := by
  rw [epochBoundaryMint_eq, if_neg (by rw [hsplit]; simp)] at h
  simp only [bind_eq_ok, pure_eq_ok, Prod.mk.injEq] at h
  obtain ⟨⟨perToken, emission⟩, hrate, acc, hloop, rfl, -⟩ := h
  have hquiet : ∀ a x a', x.jobId ≠ pr.jobId → mintOne perToken a x = .ok a' →
      considerEvent pr.jobId a x a' = [] := fun a x a' hx _ => if_neg hx
  obtain ⟨acc₁, acc₂, h₁, h₂, h₃, hne, hevents⟩ :=
    Trace.ofLoop_keyed PendingReward.jobId hquiet (pending_nodup hk ending) hsplit hloop
  have hmint : mintEvents pr.jobId ctx ending height = [.considered pr.outputTokens
      (decide (acc₂.ctx.commit.pendingRewards.get pr.jobId = none))] := by
    simp only [mintEvents, hrate]
    rw [hevents]
    exact if_pos rfl
  have hemission := mintLoop_emission h₁
  obtain ⟨reward, hreward, hcase, -⟩ := mintOne_rewards h₂
  rw [hemission] at hcase
  refine ⟨perToken, emission, reward, hrate, hreward, ?_⟩
  rcases hcase with ⟨hz, hgone⟩ | ⟨hz, hsame⟩
  · refine .inl ⟨hz, by rw [hmint, hgone]; rfl, ?_⟩
    rw [mintLoop_other (fun x hx => hne x (by simp [hx])) h₃, hgone]
  · refine .inr ⟨hz, ?_⟩
    rw [hmint, hsame, mintLoop_other (fun x hx => hne x (by simp [hx])) h₁]

/-! ## One block -/

/-- What a committed block does to the pending rewards: its transactions, then, on a boundary, the
mint. -/
theorem commits_rewards {s s' : State} {b : Block} {r : Replay} (h : Commits K s b r s') :
    ∃ ctx, applyTxs K s.beginBlock b.txs = .ok (ctx, r.outcomes) ∧
      ((isEpochBoundary b.header.height = false ∧ mintStart K s b = .ok none ∧
          s'.pendingRewards = ctx.commit.pendingRewards) ∨
        (isEpochBoundary b.header.height = true ∧ ∃ start paid minted,
          mintStart K s b = .ok (some start) ∧ start.state = s ∧
          start.commit.pendingRewards = ctx.commit.pendingRewards ∧
          epochBoundaryMint start (endingEpoch b) b.header.height = .ok (paid, minted) ∧
          s'.pendingRewards = paid.commit.pendingRewards)) := by
  obtain ⟨ctx₁, ctx₂, ctx₃, fee, h₁, h₂, h₃, hr⟩ := replayBlock_ok h.replay
  obtain ⟨blocks, idx, hp⟩ := persist_columns (K := K) r.ctx b
  have hs₂ : ctx₂.state = s :=
    (HookFrame.foldlM (fun _ _ _ hf => dispatchSlash_frame hf) h₂).state.trans (applyTxs_state h₁)
  have hrewards : ctx₂.commit.pendingRewards = ctx₁.commit.pendingRewards := by
    refine foldlM_invariant (fun c : BlockCtx => c.commit.pendingRewards = ctx₁.commit.pendingRewards)
      _ _ (fun c c' t _ hc hf => ?_) rfl h₂
    rcases dispatchSlash_ok hf with rfl | ⟨d, report, -, -, hs⟩
    · exact hc
    · obtain ⟨accounts, stakes, unbondings, hcommit⟩ := applySlash_commit hs
      rw [hcommit]
      exact hc
  have hs' : s'.pendingRewards = ctx₃.commit.pendingRewards := by
    rw [h.stored, hp, hr]
    rfl
  refine ⟨ctx₁, h₁, ?_⟩
  obtain ⟨hb, rfl, -⟩ | ⟨hb, rotated, n, paid, g₁, g₂, g₃⟩ := epochHooks_ok h₃
  · refine .inl ⟨hb, ?_, hs'.trans hrewards⟩
    simp only [mintStart, h₁, h₂, ok_bind, hb]
    rfl
  · obtain ⟨v, hv⟩ := recomputeValidatorSet_commit g₁
    obtain ⟨x, y, hxy⟩ := processGovernanceProposals_commit g₃
    refine .inr ⟨hb, rotated, paid, r.minted, ?_, (recomputeValidatorSet_frame g₁).state.trans hs₂, ?_, g₂, ?_⟩
    · simp only [mintStart, h₁, h₂, ok_bind, hb, g₁]
      rfl
    · rw [hv]
      exact hrewards
    · rw [hs', hxy]

theorem RewardsCurrent.keyed {s : State} (h : RewardsCurrent s) : RewardsKeyed s := fun j pr hget =>
  (h j pr hget).1

/-- On a boundary of consecutive heights the epoch that ends is the one the rewards are tagged with. -/
theorem endingEpoch_eq {s : State} {b : Block} (hb : isEpochBoundary b.header.height = true)
    (hh : b.header.height.val = (s.metaHeight.getD 0).val + 1) : endingEpoch b = epochTag s := by
  simp only [isEpochBoundary, Bool.and_eq_true, decide_eq_true_eq] at hb
  have hmod : b.header.height.val % 3600 = 0 := by
    have h := congrArg Fin.val hb.2
    rwa [Fin.val_mod] at h
  apply Fin.ext
  have he : (endingEpoch b).val = b.header.height.val / 3600 - 1 := rfl
  have ht : (epochTag s).val = (s.metaHeight.getD 0).val / 3600 := rfl
  rw [he, ht]
  omega

/-- Off a boundary the epoch goes on. -/
theorem epochTag_stays {s s' : State} {b : Block} (hb : isEpochBoundary b.header.height = false)
    (hh : b.header.height.val = (s.metaHeight.getD 0).val + 1)
    (hs' : s'.metaHeight = some b.header.height) : epochTag s' = epochTag s := by
  simp only [isEpochBoundary, Bool.and_eq_false_iff, decide_eq_false_iff_not, not_not] at hb
  have hmod : b.header.height.val % 3600 ≠ 0 := by
    rcases hb with hz | hm
    · rw [hz] at hh
      have h0 : (0 : Height).val = 0 := rfl
      omega
    · intro h
      apply hm
      apply Fin.ext
      rw [Fin.val_mod]
      exact h
  apply Fin.ext
  have ht : (epochTag s).val = (s.metaHeight.getD 0).val / 3600 := rfl
  have ht' : (epochTag s').val = b.header.height.val / 3600 := by
    rw [epochTag, hs']
    rfl
  rw [ht, ht']
  omega

/-- The condition for one job. -/
structure RewardOrderly (K : Primitives) (s : State) (p : Block × Replay) (j : JobId) : Prop where
  once : (queuedFor K j p).length ≤ 1
  vacant : queuedFor K j p ≠ [] →
    isEpochBoundary p.1.header.height = false ∧ s.pendingRewards.get j = none
  mints : isEpochBoundary p.1.header.height = true → ∀ perToken emission,
    mintRate s (endingEpoch p.1) p.1.header.height = .ok (perToken, emission) →
    ∀ before pr after, s.iterPendingRewardsForEpoch (endingEpoch p.1) = before ++ pr :: after →
      pr.jobId = j → ∀ reward, pendingBlockReward perToken pr = .ok reward →
        ((emissionAfter perToken emission before).tryMint reward).1 ≠ 0

theorem rewardsOrderly_iff {s s' : State} {b : Block} {r : Replay} (h : Commits K s b r s') :
    RewardsOrderly K s b ↔ ∀ j, RewardOrderly K s (b, r) j := by
  obtain ⟨ctx, htxs, hcases⟩ := commits_rewards h
  have hqueue := (applyTxs_rewards b.header.height rfl htxs).2
  rw [State.beginBlock_state, State.beginBlock_commit] at hqueue
  have hfor : ∀ j, queuedFor K j (b, r) =
      (queuedIn K s (appliedTxs b.txs r.outcomes)).filter (fun pr => pr.jobId = j) := by
    intro j
    simp only [queuedFor, (commits_txs h).1]
  have hcount : ∀ j, (queuedFor K j (b, r)).length =
      ((queuedIn K s (appliedTxs b.txs r.outcomes)).map PendingReward.jobId).count j := by
    intro j
    rw [hfor, List.count, List.countP_map, List.countP_eq_length_filter]
    rfl
  have hmintOk : isEpochBoundary b.header.height = true → ∀ perToken emission,
      mintRate s (endingEpoch b) b.header.height = .ok (perToken, emission) →
      ∀ pr ∈ s.iterPendingRewardsForEpoch (endingEpoch b),
        ∃ reward, pendingBlockReward perToken pr = .ok reward := by
    intro hb perToken emission hrate pr hpr
    obtain ⟨hoff, -⟩ | ⟨-, start, paid, minted, -, hstart, -, hmint, -⟩ := hcases
    · rw [hb] at hoff
      cases hoff
    · rw [epochBoundaryMint_eq, hstart, if_neg (List.ne_nil_of_mem hpr)] at hmint
      simp only [hrate, ok_bind, bind_eq_ok] at hmint
      obtain ⟨acc, hloop, -⟩ := hmint
      obtain ⟨t, t', hone⟩ := foldlM_mem hloop hpr
      obtain ⟨reward, hr, -⟩ := mintOne_ok hone
      exact ⟨reward, hr⟩
  constructor
  · intro ho j
    obtain ⟨hvacant, hnodup⟩ := hqueue.mp ho.queues
    refine ⟨by rw [hcount]; exact List.nodup_iff_count_le_one.mp hnodup j, fun hne => ?_,
      fun hb perToken emission hrate before pr after hsplit _ => ?_⟩
    · obtain ⟨pr, hpr⟩ := List.exists_mem_of_ne_nil _ hne
      rw [hfor, List.mem_filter, decide_eq_true_eq] at hpr
      rw [← hpr.2]
      exact hvacant pr hpr.1
    · exact (mintsEach_iff (hmintOk hb perToken emission hrate)).mp
        (ho.mints hb perToken emission hrate) before pr after hsplit
  · intro hall
    refine ⟨hqueue.mpr ⟨fun pr hpr => ?_, List.nodup_iff_count_le_one.mpr fun j => ?_⟩,
      fun hb perToken emission hrate => ?_⟩
    · refine (hall pr.jobId).vacant (List.ne_nil_of_mem (a := pr) ?_)
      rw [hfor, List.mem_filter, decide_eq_true_eq]
      exact ⟨hpr, rfl⟩
    · rw [← hcount]
      exact (hall j).once
    · exact (mintsEach_iff (hmintOk hb perToken emission hrate)).mpr
        (fun before pr after hsplit => (hall pr.jobId).mints hb perToken emission hrate before pr after
          hsplit rfl)

theorem mem_pending {s : State} {ending : U64} {pr : PendingReward} (hk : RewardsKeyed s) :
    pr ∈ s.iterPendingRewardsForEpoch ending ↔
      s.pendingRewards.get pr.jobId = some pr ∧ pr.epoch = ending := by
  rw [State.iterPendingRewardsForEpoch, List.mem_filter, Column.mem_values, decide_eq_true_eq]
  constructor
  · rintro ⟨⟨j, hget⟩, he⟩
    rw [hk j pr hget]
    exact ⟨hget, he⟩
  · rintro ⟨hget, he⟩
    exact ⟨⟨_, hget⟩, he⟩

/-- What a block leaves for a job before its hooks: the last reward it queues, or what waited. -/
theorem queued_get {s : State} {b : Block} {r : Replay} {ctx : BlockCtx} (hs : r.ctx.state = s)
    (htxs : applyTxs K s.beginBlock b.txs = .ok (ctx, r.outcomes)) (j : JobId) :
    ctx.commit.pendingRewards.get j =
      ((queuedFor K j (b, r)).getLast?).or (s.pendingRewards.get j) := by
  have hget := (applyTxs_rewards b.header.height rfl htxs).1 j
  rw [State.beginBlock_state, State.beginBlock_commit] at hget
  rw [hget]
  simp only [queuedFor, hs]

theorem queuedFor_mem {s : State} {b : Block} {r : Replay} {j : JobId} {pr : PendingReward}
    (hs : r.ctx.state = s) (h : pr ∈ queuedFor K j (b, r)) : pr.jobId = j ∧ pr.epoch = epochTag s := by
  simp only [queuedFor, hs, List.mem_filter, decide_eq_true_eq] at h
  obtain ⟨stx, -, hpr⟩ := List.mem_flatMap.mp h.1
  exact ⟨h.2, queuedBy_epoch hpr⟩

theorem follow_waiting (w : U32 × U64) (pr : PendingReward) (events : List RewardEvent) :
    Trace.follow rewardStep (some w) (.queued pr.outputTokens pr.epoch :: events) = none := rfl

/-- Off a boundary. -/
theorem blockRewards_off_iff {s s' : State} {b : Block} {r : Replay}
    (h : Commits K s b r s') (hb : isEpochBoundary b.header.height = false) (j : JobId) :
    Trace.follow rewardStep (waiting s j) (blockRewards K j (b, r)) = some (waiting s' j) ↔
      RewardOrderly K s (b, r) j := by
  have hs := (commits_txs h).1
  obtain ⟨ctx, htxs, ⟨-, hstart, hafter⟩ | ⟨hon, -⟩⟩ := commits_rewards h
  · have hget := queued_get hs htxs j
    have hmints : ∀ {P : Prop}, isEpochBoundary b.header.height = true → P := by
      intro P hon
      rw [hb] at hon
      cases hon
    have hevents : blockRewards K j (b, r) =
        (queuedFor K j (b, r)).map (fun pr => .queued pr.outputTokens pr.epoch) := by
      simp only [blockRewards, boundaryRewards, hs, hstart, List.append_nil]
    have hafter' : waiting s' j = ((queuedFor K j (b, r)).getLast?.or (s.pendingRewards.get j)).map
        (fun pr => (pr.outputTokens, pr.epoch)) := by
      rw [waiting, hafter, hget]
    rw [hevents, hafter']
    cases hold : s.pendingRewards.get j with
    | some old =>
      cases hl : queuedFor K j (b, r) with
      | nil => exact iff_of_true (by simp [waiting, hold]) ⟨by simp [hl], fun hne => absurd hl hne, hmints⟩
      | cons pr rest =>
        refine iff_of_false (fun hf => ?_) (fun ho => ?_)
        · rw [waiting, hold, Option.map_some, List.map_cons, follow_waiting] at hf
          cases hf
        · rw [(ho.vacant (by simp [hl])).2] at hold
          cases hold
    | none =>
      cases hl : queuedFor K j (b, r) with
      | nil => exact iff_of_true (by simp [waiting, hold]) ⟨by simp [hl], fun hne => absurd hl hne, hmints⟩
      | cons pr rest =>
        cases rest with
        | nil =>
          have hf : Trace.follow rewardStep (waiting s j)
              ([pr].map (fun pr => .queued pr.outputTokens pr.epoch)) =
              some (some (pr.outputTokens, pr.epoch)) := by
            rw [waiting, hold]
            rfl
          exact iff_of_true hf ⟨by simp [hl], fun _ => ⟨hb, hold⟩, hmints⟩
        | cons pr' rest =>
          refine iff_of_false (fun hf => ?_) (fun ho => ?_)
          · simp [waiting, hold, rewardStep] at hf
          · have hlen := ho.once
            simp [hl] at hlen
  · rw [hb] at hon
    cases hon

/-- On a boundary nothing may be queued, and what waits must be deleted. -/
theorem blockRewards_boundary_iff {s s' : State} {b : Block} {r : Replay} (hc : RewardsCurrent s)
    (hh : b.header.height.val = (s.metaHeight.getD 0).val + 1) (h : Commits K s b r s')
    (hb : isEpochBoundary b.header.height = true) (j : JobId) :
    (Trace.follow rewardStep (waiting s j) (blockRewards K j (b, r)) = some (waiting s' j) ↔
      RewardOrderly K s (b, r) j) ∧
    (RewardOrderly K s (b, r) j → s'.pendingRewards.get j = none) := by
  have hs := (commits_txs h).1
  have htag := endingEpoch_eq hb hh
  obtain ⟨ctx, htxs, ⟨hoff, -⟩ | ⟨-, start, paid, minted, hstart, hss, hsame, hmint, hafter⟩⟩ :=
    commits_rewards h
  · rw [hb] at hoff
    cases hoff
  have hget := queued_get hs htxs j
  have hevents : blockRewards K j (b, r) =
      (queuedFor K j (b, r)).map (fun pr => .queued pr.outputTokens pr.epoch) ++
        (mintEvents j start (endingEpoch b) b.header.height ++ [.epochEnded (endingEpoch b)]) := by
    simp only [blockRewards, boundaryRewards, hs, hstart]
  have hk : RewardsKeyed start.state := by
    rw [hss]
    exact hc.keyed
  have hafter' : s'.pendingRewards.get j = paid.commit.pendingRewards.get j := by rw [hafter]
  have hqueued : queuedFor K j (b, r) ≠ [] → ¬ RewardOrderly K s (b, r) j := by
    intro hne ho
    have hoff := (ho.vacant hne).1
    rw [hb] at hoff
    cases hoff
  rw [hevents]
  cases hold : s.pendingRewards.get j with
  | none =>
    have habsent : ∀ pr ∈ start.state.iterPendingRewardsForEpoch (endingEpoch b), pr.jobId ≠ j := by
      rintro pr hpr rfl
      rw [mem_pending hk, hss, hold] at hpr
      cases hpr.1
    obtain ⟨hnil, hkeep⟩ := mint_absent habsent hmint
    rw [hnil, List.nil_append]
    cases hl : queuedFor K j (b, r) with
    | nil =>
      have hgone : s'.pendingRewards.get j = none := by
        rw [hafter', hkeep, hsame, hget, hl, hold]
        rfl
      have hf : Trace.follow rewardStep (waiting s j) [.epochEnded (endingEpoch b)] =
          some (waiting s' j) := by
        rw [waiting, waiting, hold, hgone]
        rfl
      refine ⟨iff_of_true hf ⟨by simp [hl], fun hne => absurd hl hne,
        fun _ perToken emission _ before pr after hsplit hj => ?_⟩, fun _ => hgone⟩
      rw [hss] at habsent
      exact absurd hj (habsent pr (by rw [hsplit]; simp))
    | cons pr rest =>
      have hbad := hqueued (by simp [hl])
      refine ⟨iff_of_false (fun hf => ?_) hbad, fun ho => absurd ho hbad⟩
      have hpr : pr ∈ queuedFor K j (b, r) := by
        rw [hl]
        exact List.mem_cons_self
      have hepoch := (queuedFor_mem hs hpr).2
      cases rest with
      | nil => simp [waiting, hold, rewardStep, hepoch, htag] at hf
      | cons pr' rest => simp [waiting, hold, rewardStep] at hf
  | some old =>
    obtain ⟨hjob, hepoch⟩ := hc j old hold
    have hmem : old ∈ start.state.iterPendingRewardsForEpoch (endingEpoch b) := by
      rw [mem_pending hk, hss, hjob]
      exact ⟨hold, hepoch.trans htag.symm⟩
    obtain ⟨before, after, hsplit⟩ := List.append_of_mem hmem
    obtain ⟨perToken, emission, reward, hrate, hreward, hcase⟩ := mint_met hk hsplit hmint
    rw [hjob] at hcase
    rw [hss] at hsplit hrate
    cases hl : queuedFor K j (b, r) with
    | cons pr rest =>
      have hbad := hqueued (by simp [hl])
      refine ⟨iff_of_false (fun hf => ?_) hbad, fun ho => absurd ho hbad⟩
      rw [waiting, hold, Option.map_some, List.map_cons, List.cons_append, follow_waiting] at hf
      cases hf
    | nil =>
      have hhere : start.commit.pendingRewards.get j = some old := by
        rw [hsame, hget, hl, hold]
        rfl
      rcases hcase with ⟨hz, hmints, hgone⟩ | ⟨hz, hmints⟩
      · rw [← hafter'] at hgone
        rw [hmints]
        refine ⟨iff_of_true (by simp [waiting, hold, hgone, rewardStep]) ⟨by simp [hl],
          fun hne => absurd hl hne, fun _ perToken' emission' hrate' before' pr after' hsplit' hj
          reward' hreward' => ?_⟩, fun _ => hgone⟩
        rw [hrate] at hrate'
        obtain ⟨rfl, rfl⟩ := Prod.mk.inj (Except.ok.inj hrate')
        obtain ⟨rfl, rfl, -⟩ := Trace.split_unique PendingReward.jobId (pending_nodup hc.keyed _) hsplit
          hsplit' (hjob.trans hj.symm)
        rw [hreward] at hreward'
        obtain rfl := Except.ok.inj hreward'
        exact hz
      · have hbad : ¬ RewardOrderly K s (b, r) j := fun ho =>
          ho.mints hb perToken emission hrate before old after hsplit hjob reward hreward hz
        rw [hmints, hhere]
        refine ⟨iff_of_false (fun hf => ?_) hbad, fun ho => absurd ho hbad⟩
        simp [waiting, hold, rewardStep] at hf

theorem blockRewards_follow_iff {s s' : State} {b : Block} {r : Replay} (hc : RewardsCurrent s)
    (hh : b.header.height.val = (s.metaHeight.getD 0).val + 1) (h : Commits K s b r s') (j : JobId) :
    Trace.follow rewardStep (waiting s j) (blockRewards K j (b, r)) = some (waiting s' j) ↔
      RewardOrderly K s (b, r) j := by
  cases hb : isEpochBoundary b.header.height with
  | false => exact blockRewards_off_iff h hb j
  | true => exact (blockRewards_boundary_iff hc hh h hb j).1

/-- An orderly block leaves the rewards of the epoch it leads into. -/
theorem rewardsCurrent_step {s s' : State} {b : Block} {r : Replay} (hc : RewardsCurrent s)
    (hh : b.header.height.val = (s.metaHeight.getD 0).val + 1) (h : Commits K s b r s')
    (ho : RewardsOrderly K s b) : RewardsCurrent s' := by
  intro j pr hget
  have hj := (rewardsOrderly_iff h).mp ho j
  cases hb : isEpochBoundary b.header.height with
  | true =>
    rw [(blockRewards_boundary_iff hc hh h hb j).2 hj] at hget
    cases hget
  | false =>
    rw [epochTag_stays hb hh (commits_height h)]
    have hs := (commits_txs h).1
    obtain ⟨ctx, htxs, ⟨-, -, hafter⟩ | ⟨hon, -⟩⟩ := commits_rewards h
    · rw [hafter, queued_get hs htxs j, Option.or_eq_some_iff] at hget
      rcases hget with hlast | ⟨-, hold⟩
      · exact queuedFor_mem hs (List.mem_of_getLast? hlast)
      · exact hc j pr hold
    · rw [hb] at hon
      cases hon

/-! ## Runs -/

theorem runRewards_snoc (j : JobId) (past : List (Block × Replay)) (p : Block × Replay) :
    runRewards K j (past ++ [p]) = runRewards K j past ++ blockRewards K j p := by
  simp [runRewards]

/-- Orderly blocks on consecutive heights keep the rewards current. -/
theorem run_rewardsCurrent {s u : State} {past : List (Block × Replay)} (hc : RewardsCurrent s)
    (run : Run K s past u) (hh : Consecutive past)
    (ho : ∀ p ∈ past, RewardsOrderly K p.2.ctx.state p.1) : RewardsCurrent u := by
  induction run with
  | nil => exact hc
  | snoc run step ih =>
    rename_i past t t' b r
    have hlast := hh (b, r) (by simp)
    have horderly := ho (b, r) (by simp)
    simp only [(commits_txs step).1] at hlast horderly
    exact rewardsCurrent_step (ih (fun p hp => hh p (by simp [hp])) (fun p hp => ho p (by simp [hp])))
      hlast step horderly

end

/-- Along a run on consecutive heights every queued reward is considered and deleted by one mint, with
its own tokens and before its epoch is over, exactly when every block is orderly. -/
theorem rewards_processed_once {K : Primitives} {s t : State} {hist : List (Block × Replay)}
    (hc : RewardsCurrent s) (hh : Consecutive hist) (run : Run K s hist t) :
    Throughout K s (RewardsProcessed K s) hist ↔ ∀ p ∈ hist, RewardsOrderly K p.2.ctx.state p.1 := by
  rw [throughout_iff (C := fun _ p => RewardsOrderly K p.2.ctx.state p.1) (fun _ => rfl) ?_ run]
  · constructor
    · intro h p hp
      obtain ⟨past, rest, heq⟩ := List.append_of_mem hp
      exact h past p rest heq
    · intro h past p rest heq
      exact h p (by simp [heq])
  · intro past u b r u' rest heq hu hbefore hpast hstep
    have hpastOrderly : ∀ p ∈ past, RewardsOrderly K p.2.ctx.state p.1 := by
      intro p hp
      obtain ⟨before, after, heq⟩ := List.append_of_mem hp
      exact hbefore before p after heq
    have hheight := hh (b, r) (by simp [heq])
    simp only [(commits_txs hstep).1] at hheight ⊢
    have hcu : RewardsCurrent u :=
      run_rewardsCurrent hc hu (fun p hp => hh p (by simp [heq, hp])) hpastOrderly
    rw [rewardsOrderly_iff hstep]
    refine forall_congr' fun j => ?_
    rw [runRewards_snoc, Trace.follow_append, hpast j, Option.bind_some,
      blockRewards_follow_iff hcu hheight hstep j]

/-! ## A reward that is paid, two that are left -/

/-- Two blocks before the first boundary, with the thousand atoms of address 7 locked for job 6. -/
def lateState : State := { State.empty with
  metaHeight := some 3598
  escrows := Column.empty.insert 6 ⟨6, 7, 1000, 1, .locked⟩ }

theorem lateState_current : RewardsCurrent lateState := fun _ _ h => by
  rw [show lateState.pendingRewards = Column.empty from rfl, Column.get_empty] at h
  cases h

set_option maxRecDepth 2000 in
theorem queuedReward_replays :
    (replayBlock toyPrimitives lateState (bodyAt 3599 [freeBatch])).toOption.isSome = true := by
  decide

def queuedRewardState : State := persist toyPrimitives (returned _ queuedReward_replays).ctx
  (sealBlock toyPrimitives lateState (bodyAt 3599 [freeBatch]))

set_option maxRecDepth 2000 in
theorem paidReward_replays :
    (replayBlock toyPrimitives queuedRewardState (bodyAt 3600 [])).toOption.isSome = true := by
  decide

set_option maxRecDepth 2000 in
theorem boundaryReward_run : (runBodies toyPrimitives lateState
    [bodyAt 3599 [], bodyAt 3600 [freeBatch]]).isSome = true := by decide

theorem settledReward_run : (runBodies toyPrimitives lateState
    [bodyAt 3599 [unsigned [] (.escrowSettle 6 0 1 2 3 4)], bodyAt 3600 []]).isSome = true := by
  decide

set_option maxRecDepth 2000 in
/-- A receipt of the last block of an epoch is paid by the boundary that follows. -/
theorem rewards_processed_once_paid : ∃ hist t, Run toyPrimitives lateState hist t ∧
    runRewards toyPrimitives 5 hist = [.queued 10 0, .considered 10 true, .epochEnded 0] ∧
    Throughout toyPrimitives lateState (RewardsProcessed toyPrimitives lateState) hist := by
  have step₁ : Commits toyPrimitives lateState _ _ queuedRewardState :=
    sealBlock_commits (eq_ok_returned queuedReward_replays)
  have step₂ := sealBlock_commits (eq_ok_returned paidReward_replays)
  have run := (Run.nil.snoc step₁).snoc step₂
  refine ⟨_, _, run, by decide, (rewards_processed_once lateState_current ?_ run).mpr ?_⟩ <;>
    intro p hp <;>
    simp only [List.nil_append, List.cons_append, List.mem_cons, List.not_mem_nil, or_false] at hp <;>
    rcases hp with rfl | rfl
  · simp only [(commits_txs step₁).1, sealBlock_height]
    decide
  · simp only [(commits_txs step₂).1, sealBlock_height]
    decide
  · simp only [(commits_txs step₁).1]
    refine ⟨?_, fun hb => ?_⟩
    · simp only [sealBlock_txs, sealBlock_height]
      refine ⟨fun _ => ?_, fun _ _ _ => trivial⟩
      show ∀ pr ∈ queuedBy toyPrimitives lateState freeBatch, isEpochBoundary 3599 = false ∧
        lateState.pendingRewards.get pr.jobId = none
      decide
    · rw [sealBlock_height] at hb
      exact absurd hb (by decide)
  · simp only [(commits_txs step₂).1]
    refine ⟨?_, fun _ perToken emission hrate => ?_⟩
    · simp only [sealBlock_txs]
      exact trivial
    · have hmints : (mintRate queuedRewardState 0 3600).toOption.map (fun rate => mintsEach rate.1 rate.2
          (queuedRewardState.iterPendingRewardsForEpoch 0)) = some true := by decide
      have hending : endingEpoch (sealBlock toyPrimitives queuedRewardState (bodyAt 3600 [])) = 0 := by
        rw [endingEpoch, sealBlock_height]
        decide
      rw [hending] at hrate ⊢
      rw [sealBlock_height] at hrate
      rw [show (bodyAt 3600 []).header.height = 3600 from rfl] at hrate
      rw [hrate] at hmints
      exact Option.some.inj hmints

set_option maxRecDepth 2000 in
/-- A receipt of the boundary block is queued for the epoch that ends there, and the mint does not see
it; a settlement's reward has no tokens, and the mint does not delete it. -/
theorem rewards_left :
    (∃ hist t, Run toyPrimitives lateState hist t ∧ Consecutive hist ∧
      runRewards toyPrimitives 5 hist = [.queued 10 0, .epochEnded 0] ∧
      ¬ RewardsProcessed toyPrimitives lateState hist t) ∧
    ∃ hist t, Run toyPrimitives lateState hist t ∧ Consecutive hist ∧
      runRewards toyPrimitives 6 hist = [.queued 0 0, .considered 0 false, .epochEnded 0] ∧
      ¬ RewardsProcessed toyPrimitives lateState hist t := by
  refine ⟨⟨_, _, runBodies_get boundaryReward_run, by unfold Consecutive; decide,
    by decide, fun h => ?_⟩, ⟨_, _, runBodies_get settledReward_run,
    by unfold Consecutive; decide, by decide, fun h => ?_⟩⟩
  · have hnone : Trace.follow rewardStep (waiting lateState 5) (runRewards toyPrimitives 5
        ((runBodies toyPrimitives lateState [bodyAt 3599 [], bodyAt 3600 [freeBatch]]).get
          boundaryReward_run).1) = none := by decide
    have hfollow := h 5
    rw [hnone] at hfollow
    cases hfollow
  · have hnone : Trace.follow rewardStep (waiting lateState 6) (runRewards toyPrimitives 6
        ((runBodies toyPrimitives lateState [bodyAt 3599 [unsigned [] (.escrowSettle 6 0 1 2 3 4)],
          bodyAt 3600 []]).get settledReward_run).1) = none := by decide
    have hfollow := h 6
    rw [hnone] at hfollow
    cases hfollow

end Arknet.Laws
