import Arknet.Laws.Supply

/-!
Slashes and the disputes behind them. The commit path slashes for every dispute of the block whose
two output hashes differ, whatever became of the transaction. `slashes_disputes` says for which
disputes it takes something; `slashing_justified` says when all of them were accepted, matched the
anchored receipt and were acted on once.
-/

namespace Arknet.Laws

open Machine Store Arknet.Chain Arknet.Staking Arknet.Payments Arknet.Governance Arknet.Consensus

/-! ## The slashes of a block -/

/-- A slash that took something, with the dispute behind it and what became of that transaction. -/
structure Slash where
  dispute : Dispute
  outcome : TxOutcome
  report : SlashReport

section

variable (K : Primitives)

/-- The slashes the dispatch carries out for a block's transactions. -/
def dispatched : BlockCtx → List (SignedTransaction × TxOutcome) → List Slash
  | _, [] => []
  | ctx, (stx, o) :: rest =>
    match stx.tx with
    | .dispute d =>
      if d.claimedOutputHash = d.reexecOutputHash then dispatched ctx rest
      else
        match applySlash ctx d.computeNode .compute .failedDeterministicVerification d.reporter
            (bootstrapTreasuryAddress K) with
        | .ok (ctx', report) =>
          if report.totalSlashed = 0 then dispatched ctx' rest
          else ⟨d, o, report⟩ :: dispatched ctx' rest
        | .error _ => []
    | _ => dispatched ctx rest

def slashesOf (p : Block × Replay) : List Slash :=
  match applyTxs K p.2.ctx.state.beginBlock p.1.txs with
  | .ok (ctx, os) => dispatched K ctx (p.1.txs.zip os)
  | .error _ => []

/-- Between the end of the transactions and the end of the block, an entry of `node` got smaller. -/
def StakeLowered (p : Block × Replay) (node : NodeId) : Prop :=
  ∃ ctx os, applyTxs K p.2.ctx.state.beginBlock p.1.txs = .ok (ctx, os) ∧
    ((∃ k, k.nodeId = node ∧ stakeAmount p.2.ctx.commit k < stakeAmount ctx.commit k) ∨
      ∃ k, k.nodeId = node ∧ unbondingAmount p.2.ctx.commit k < unbondingAmount ctx.commit k)

/-- The receipts anchored by a history, after those anchored before it. -/
def anchoredBy (past : List InferenceReceipt) (hist : List (Block × Replay)) : List InferenceReceipt :=
  past ++ (appliedOf hist).flatMap (fun stx =>
    match stx.tx with
    | .receiptBatch batch => batch.receipts
    | _ => [])

/-- The dispute is about this receipt: its job, its compute node, its output. -/
def Concerns (d : Dispute) (r : InferenceReceipt) : Prop :=
  r.jobId = d.jobId ∧ r.computeNode = d.computeNode ∧ r.outputHash = d.claimedOutputHash

/-- Slashes over a run: for accepted disputes only, of the node and output that the job's receipt
names, once for each job. -/
structure SlashesJustified (past : List InferenceReceipt) (hist : List (Block × Replay)) : Prop where
  accepted : ∀ p ∈ hist, ∀ e ∈ slashesOf K p, e.outcome.isApplied = true
  lowered : ∀ p ∈ hist, ∀ node, StakeLowered K p node →
    ∃ stx ∈ appliedTxs p.1.txs p.2.outcomes, ∃ d, stx.tx = .dispute d ∧ d.computeNode = node
  once : ((hist.flatMap (slashesOf K)).map (fun e => e.dispute.jobId)).Nodup
  receipt : ∀ before p after, hist = before ++ p :: after → ∀ e ∈ slashesOf K p,
    ∃ r ∈ anchoredBy past (before ++ [p]), Concerns e.dispute r

/-! ## The condition -/

/-- The dispute names two different outputs and a node with stake to lose. -/
def Slashable (s : State) (d : Dispute) : Prop :=
  d.claimedOutputHash ≠ d.reexecOutputHash ∧
    slashTotal s d.computeNode .compute .failedDeterministicVerification ≠ 0

instance (s : State) (d : Dispute) : Decidable (Slashable s d) := inferInstanceAs (Decidable (_ ∧ _))

def slashableDispute (s : State) (stx : SignedTransaction) : Option Dispute :=
  match stx.tx with
  | .dispute d => if Slashable s d then some d else none
  | _ => none

def slashableDisputes (p : Block × Replay) : List Dispute :=
  p.1.txs.filterMap (slashableDispute p.2.ctx.state)

/-- The job of a dispute with something to take has been anchored. -/
def JobAnchored (s : State) (ctx : BlockCtx) (stx : SignedTransaction) : Prop :=
  ∀ d, slashableDispute s stx = some d → ctx.isReceiptSeen d.jobId = true

/-- What the dispatch does not look at: whether the job of a dispute is anchored when the dispute is
applied, whether its receipt names that node and that output, whether the job was disputed before. -/
structure DisputesChecked (past : List InferenceReceipt) (hist : List (Block × Replay)) : Prop where
  anchored : ∀ p ∈ hist, EachTx K (JobAnchored p.2.ctx.state) p.2.ctx.state.beginBlock p.1.txs
  once : ((hist.flatMap slashableDisputes).map Dispute.jobId).Nodup
  receipt : ∀ before p after, hist = before ++ p :: after → ∀ d ∈ slashableDisputes p,
    ∃ r ∈ anchoredBy past (before ++ [p]), Concerns d r

end

/-! ## Which disputes slash -/

section

variable {K : Primitives}

/-- A slash takes something exactly when the committed store has something to take. -/
theorem applySlash_total {ctx ctx' : BlockCtx} {node : NodeId} {role : StakeRole} {o : Offense}
    {reporter treasury : Address} {report : SlashReport}
    (h : applySlash ctx node role o reporter treasury = .ok (ctx', report)) :
    report.totalSlashed = 0 ↔ slashTotal ctx.state node role o = 0 := by
  obtain ⟨-, htotal, -⟩ := (applySlash_eq_ok ctx node role o reporter treasury _ _).mp h
  rw [← htotal, Fin.ext_iff]
  exact Iff.rfl

/-- What the dispatch slashes for is what the block's transactions and the committed store say. -/
theorem dispatched_disputes {s : State} {txs : List SignedTransaction} {os : List TxOutcome}
    {ctx ctx' : BlockCtx} (hs : ctx.state = s) (hlen : os.length = txs.length)
    (h : txs.foldlM (dispatchSlash K) ctx = .ok ctx') :
    (dispatched K ctx (txs.zip os)).map (fun e => (e.dispute, e.outcome)) =
      (txs.zip os).filterMap (fun p => (slashableDispute s p.1).map (fun d => (d, p.2))) := by
  induction txs generalizing ctx os with
  | nil => rfl
  | cons stx rest ih =>
    obtain ⟨o, os, rfl⟩ : ∃ o os', os = o :: os' := by
      cases os with
      | nil => cases hlen
      | cons o os' => exact ⟨o, os', rfl⟩
    rw [List.foldlM_cons, bind_eq_ok] at h
    obtain ⟨mid, hmid, hrest⟩ := h
    have hnext := ih ((dispatchSlash_frame hmid).state.trans hs) (by simpa using hlen) hrest
    rw [List.zip_cons_cons, List.filterMap_cons]
    unfold dispatchSlash at hmid
    cases htx : stx.tx with
    | dispute d =>
      simp only [htx] at hmid
      split at hmid
      · rename_i hne
        rw [map_eq_ok] at hmid
        obtain ⟨⟨c, report⟩, hslash, rfl⟩ := hmid
        have htotal := applySlash_total hslash
        rw [hs] at htotal
        simp only [dispatched, htx, if_neg hne, hslash, slashableDispute]
        by_cases hz : report.totalSlashed = 0
        · have hnot : ¬ Slashable s d := fun hp => hp.2 (htotal.mp hz)
          rw [if_pos hz, if_neg hnot]
          exact hnext
        · have hpos : Slashable s d := ⟨hne, fun ht => hz (htotal.mpr ht)⟩
          rw [if_neg hz, if_pos hpos, List.map_cons, hnext]
          rfl
      · rename_i heq
        simp only [pure_eq_ok] at hmid
        obtain rfl := hmid
        have heq' : d.claimedOutputHash = d.reexecOutputHash := by simpa using heq
        have hnot : ¬ Slashable s d := fun hp => hp.1 heq'
        simp only [dispatched, htx, if_pos heq', slashableDispute, if_neg hnot]
        exact hnext
    | _ =>
      simp only [htx, pure_eq_ok] at hmid
      obtain rfl := hmid
      simp only [dispatched, htx, slashableDispute]
      exact hnext

theorem slashableDispute_eq_some {s : State} {stx : SignedTransaction} {d : Dispute}
    (h : slashableDispute s stx = some d) : stx.tx = .dispute d ∧ Slashable s d := by
  unfold slashableDispute at h
  split at h
  · rename_i d' htx
    rw [Option.ite_none_right_eq_some] at h
    obtain ⟨hp, hd⟩ := h
    obtain rfl := Option.some.inj hd
    exact ⟨htx, hp⟩
  · cases h

/-- A dispute with something to take is applied exactly when its job has been anchored. -/
theorem dispute_applied_iff {s : State} {ctx ctx' : BlockCtx} {stx : SignedTransaction} {o : TxOutcome}
    (h : applyTx K ctx stx = .ok (ctx', o)) :
    JobAnchored s ctx stx ↔ ∀ d, slashableDispute s stx = some d → o.isApplied = true := by
  refine forall_congr' (fun d => imp_congr_right (fun hd => ?_))
  obtain ⟨htx, hne, -⟩ := slashableDispute_eq_some hd
  simp only [applyTx, htx, applyDispute, if_neg hne] at h
  constructor
  · intro hseen
    simp only [hseen, Bool.not_true, Bool.false_eq_true, ↓reduceIte] at h
    rw [(of_applied h).2]
    rfl
  · intro ho
    by_contra hseen
    simp only [Bool.not_eq_true] at hseen
    simp only [hseen, Bool.not_false, ↓reduceIte] at h
    rw [(of_reject h).2] at ho
    cases ho

theorem eachAnchored_iff {s : State} {txs : List SignedTransaction} {os : List TxOutcome}
    {ctx ctx' : BlockCtx} (h : applyTxs K ctx txs = .ok (ctx', os)) :
    EachTx K (JobAnchored s) ctx txs ↔
      ∀ q ∈ txs.zip os, ∀ d, slashableDispute s q.1 = some d → q.2.isApplied = true := by
  induction txs generalizing ctx os with
  | nil => simp [EachTx]
  | cons stx rest ih =>
    obtain ⟨mid, o, os', h₁, h₂, rfl⟩ := applyTxs_cons_ok.mp h
    rw [List.zip_cons_cons, List.forall_mem_cons, ← ih h₂, ← dispute_applied_iff h₁]
    constructor
    · exact fun hp => ⟨hp.1, hp.2 mid o h₁⟩
    · rintro ⟨hhead, hrest⟩
      refine ⟨hhead, fun mid' o' h₁' => ?_⟩
      obtain ⟨rfl, -⟩ := Prod.mk.inj (Except.ok.inj (h₁.symm.trans h₁'))
      exact hrest

/-! ## Blocks -/

section

variable {s s' : State} {b : Block} {r : Replay}

theorem filterMap_zip_fst {α β γ : Type} (f : α → Option γ) {xs : List α} {ys : List β}
    (h : ys.length = xs.length) :
    ((xs.zip ys).filterMap (fun p => (f p.1).map (fun c => (c, p.2)))).map Prod.fst = xs.filterMap f := by
  have hfst : (xs.zip ys).map Prod.fst = xs := List.map_fst_zip (by omega)
  conv_rhs => rw [← hfst]
  rw [List.filterMap_map, List.map_filterMap]
  congr 1
  funext p
  cases hf : f p.1 <;> simp [hf]

/-- The slashes of a committed block are for its disputes with something to take. -/
theorem slashes_disputes (h : Commits K s b r s') :
    (slashesOf K (b, r)).map Slash.dispute = slashableDisputes (b, r) ∧
      ((∀ e ∈ slashesOf K (b, r), e.outcome.isApplied = true) ↔
        EachTx K (JobAnchored s) s.beginBlock b.txs) := by
  obtain ⟨ctx₁, ctx₂, ctx₃, fee, h₁, h₂, -, -⟩ := replayBlock_ok h.replay
  have hs := (commits_txs h).1
  have hlen := length_outcomes h₁
  have hevents := dispatched_disputes (applyTxs_state h₁) hlen h₂
  have hslashes : slashesOf K (b, r) = dispatched K ctx₁ (b.txs.zip r.outcomes) := by
    simp only [slashesOf, hs, h₁]
  rw [State.beginBlock_state] at hevents
  rw [hslashes]
  constructor
  · have hfst := congrArg (List.map Prod.fst) hevents
    rw [List.map_map, filterMap_zip_fst _ hlen] at hfst
    rw [slashableDisputes, hs]
    exact hfst
  · rw [eachAnchored_iff h₁]
    constructor
    · intro hall q hq d hd
      have hmem : (d, q.2) ∈ (dispatched K ctx₁ (b.txs.zip r.outcomes)).map (fun e => (e.dispute, e.outcome)) := by
        rw [hevents]
        exact List.mem_filterMap.mpr ⟨q, hq, by rw [hd]; rfl⟩
      obtain ⟨e, he, heq⟩ := List.mem_map.mp hmem
      obtain ⟨-, ho⟩ := Prod.mk.inj heq
      rw [← ho]
      exact hall e he
    · intro hall e he
      have hmem : (e.dispute, e.outcome) ∈ (b.txs.zip r.outcomes).filterMap
          (fun p => (slashableDispute s p.1).map (fun d => (d, p.2))) := by
        rw [← hevents]
        exact List.mem_map.mpr ⟨e, he, rfl⟩
      obtain ⟨q, hq, hd⟩ := List.mem_filterMap.mp hmem
      obtain ⟨d, hd, heq⟩ := Option.map_eq_some_iff.mp hd
      obtain ⟨-, ho⟩ := Prod.mk.inj heq
      rw [← ho]
      exact hall q hq d hd

theorem slash_transaction (h : Commits K s b r s') {e : Slash} (he : e ∈ slashesOf K (b, r)) :
    ∃ stx, (stx, e.outcome) ∈ b.txs.zip r.outcomes ∧ stx.tx = .dispute e.dispute := by
  obtain ⟨ctx₁, ctx₂, ctx₃, fee, h₁, h₂, -, -⟩ := replayBlock_ok h.replay
  have hevents := dispatched_disputes (applyTxs_state h₁) (length_outcomes h₁) h₂
  have hs := (commits_txs h).1
  have hmem : (e.dispute, e.outcome) ∈ (b.txs.zip r.outcomes).filterMap
      (fun p => (slashableDispute s p.1).map (fun d => (d, p.2))) := by
    rw [State.beginBlock_state] at hevents
    rw [← hevents]
    simp only [slashesOf, hs, h₁] at he
    exact List.mem_map.mpr ⟨e, he, rfl⟩
  obtain ⟨q, hq, hd⟩ := List.mem_filterMap.mp hmem
  obtain ⟨d, hd, heq⟩ := Option.map_eq_some_iff.mp hd
  obtain ⟨rfl, ho⟩ := Prod.mk.inj heq
  exact ⟨q.1, by rw [← ho]; exact hq, (slashableDispute_eq_some hd).1⟩

/-! ## Lowered stake -/

/-- A slash lowers entries of its node only, and none when it takes nothing. -/
theorem applySlash_lowers {ctx ctx' : BlockCtx} {node : NodeId} {role : StakeRole} {o : Offense}
    {reporter treasury : Address} {report : SlashReport} (hk : Keyed ctx.state)
    (h : applySlash ctx node role o reporter treasury = .ok (ctx', report)) :
    (∀ k, stakeAmount ctx'.commit k < stakeAmount ctx.commit k →
      k.nodeId = node ∧ report.totalSlashed ≠ 0) ∧
    (∀ k, unbondingAmount ctx'.commit k < unbondingAmount ctx.commit k →
      k.nodeId = node ∧ report.totalSlashed ≠ 0) := by
  have htotal : slashedStakes ctx.state node role o ≠ [] ∨ slashedUnbondings ctx.state node role o ≠ [] →
      report.totalSlashed ≠ 0 := by
    intro hne hz
    have hzero := (applySlash_total h).mp hz
    simp only [slashTotal, Nat.add_eq_zero_iff, List.sum_eq_zero_iff, List.mem_map,
      forall_exists_index, and_imp, forall_apply_eq_imp_iff₂] at hzero
    rcases hne with hne | hne
    · obtain ⟨e, es, hcons⟩ := List.exists_cons_of_ne_nil hne
      have he : e ∈ slashedStakes ctx.state node role o := by simp [hcons]
      have hpos : slashOf o e.amount ≠ 0 := by simpa using (List.mem_filter.mp he).2
      exact hpos (Fin.ext (hzero.1 e he))
    · obtain ⟨u, us, hcons⟩ := List.exists_cons_of_ne_nil hne
      have hu : u ∈ slashedUnbondings ctx.state node role o := by simp [hcons]
      have hpos : slashOf o u.amount ≠ 0 := by simpa using (List.mem_filter.mp hu).2
      exact hpos (Fin.ext (hzero.2 u hu))
  constructor
  · intro k hlt
    rcases stakes_applySlash hk h k with ⟨e, he, rfl, -⟩ | ⟨-, hsame⟩
    · exact ⟨(mem_slashedStakes hk he).2.1, htotal (.inl (List.ne_nil_of_mem he))⟩
    · rw [stakeAmount, stakeAmount, hsame] at hlt
      exact absurd hlt (Nat.lt_irrefl _)
  · intro k hlt
    rcases unbondings_applySlash hk h k with ⟨u, hu, rfl, -⟩ | ⟨-, hsame⟩
    · exact ⟨rfl, htotal (.inr (List.ne_nil_of_mem hu))⟩
    · rw [unbondingAmount, unbondingAmount, hsame] at hlt
      exact absurd hlt (Nat.lt_irrefl _)

/-- An entry the dispatch has lowered belongs to a node it has slashed. -/
theorem dispatched_lowers {A : State → Nat} {node : NodeId} {txs : List SignedTransaction}
    {os : List TxOutcome} {ctx ctx' : BlockCtx} (hk : Keyed ctx.state) (hlen : os.length = txs.length)
    (hA : ∀ {c c' : BlockCtx} {n : NodeId} {reporter treasury : Address} {report : SlashReport},
      Keyed c.state → applySlash c n .compute .failedDeterministicVerification reporter treasury =
        .ok (c', report) → A c'.commit < A c.commit → node = n ∧ report.totalSlashed ≠ 0)
    (h : txs.foldlM (dispatchSlash K) ctx = .ok ctx') (hlt : A ctx'.commit < A ctx.commit) :
    ∃ e ∈ dispatched K ctx (txs.zip os), e.dispute.computeNode = node := by
  induction txs generalizing ctx os with
  | nil =>
    rw [List.foldlM_nil, pure_eq_ok] at h
    obtain rfl := h
    exact absurd hlt (Nat.lt_irrefl _)
  | cons stx rest ih =>
    obtain ⟨o, os, rfl⟩ : ∃ o os', os = o :: os' := by
      cases os with
      | nil => cases hlen
      | cons o os' => exact ⟨o, os', rfl⟩
    rw [List.foldlM_cons, bind_eq_ok] at h
    obtain ⟨mid, hmid, hrest⟩ := h
    have hstate : mid.state = ctx.state := (dispatchSlash_frame hmid).state
    have hnext := fun hlow => ih (hstate.symm ▸ hk) (by simpa using hlen) hrest hlow
    rw [List.zip_cons_cons]
    unfold dispatchSlash at hmid
    cases htx : stx.tx with
    | dispute d =>
      simp only [htx] at hmid
      split at hmid
      · rename_i hne
        rw [map_eq_ok] at hmid
        obtain ⟨⟨c, report⟩, hslash, rfl⟩ := hmid
        simp only [dispatched, htx, if_neg hne, hslash]
        -- Either this slash has lowered the entry or a later one has.
        by_cases hlow : A c.commit < A ctx.commit
        · obtain ⟨rfl, hpos⟩ := hA hk hslash hlow
          rw [if_neg hpos]
          exact ⟨_, List.mem_cons_self, rfl⟩
        · obtain ⟨e, he, hnode⟩ := hnext (by simp only at hlow ⊢; omega)
          split
          · exact ⟨e, he, hnode⟩
          · exact ⟨e, List.mem_cons_of_mem _ he, hnode⟩
      · rename_i heq
        simp only [pure_eq_ok] at hmid
        obtain rfl := hmid
        have heq' : d.claimedOutputHash = d.reexecOutputHash := by simpa using heq
        simp only [dispatched, htx, if_pos heq']
        exact hnext hlt
    | _ =>
      simp only [htx, pure_eq_ok] at hmid
      obtain rfl := hmid
      simp only [dispatched, htx]
      exact hnext hlt

/-- A node whose stake a committed block lowers after its transactions has been slashed by it. -/
theorem lowered_slashed (hw : WellFormed s) (h : Commits K s b r s') {node : NodeId}
    (hlow : StakeLowered K (b, r) node) : ∃ e ∈ slashesOf K (b, r), e.dispute.computeNode = node := by
  obtain ⟨ctx₁, ctx₂, ctx₃, fee, h₁, h₂, h₃, hr⟩ := replayBlock_ok h.replay
  have hs := (commits_txs h).1
  have hkeyed : Keyed ctx₁.state := by
    rw [applyTxs_state h₁]
    exact hw.keyed
  have hslashes : slashesOf K (b, r) = dispatched K ctx₁ (b.txs.zip r.outcomes) := by
    simp only [slashesOf, hs, h₁]
  obtain ⟨_, _, _, _, hc₃⟩ := epochHooks_commit h₃
  have hstakes : r.ctx.commit.stakes = ctx₂.commit.stakes := by
    rw [hr]
    show ctx₃.commit.stakes = ctx₂.commit.stakes
    rw [hc₃]
  have hunbondings : r.ctx.commit.unbondings = ctx₂.commit.unbondings := by
    rw [hr]
    show ctx₃.commit.unbondings = ctx₂.commit.unbondings
    rw [hc₃]
  obtain ⟨ctx, os, htxs, hk⟩ := hlow
  simp only [hs] at htxs
  obtain ⟨rfl, rfl⟩ := Prod.mk.inj (Except.ok.inj (h₁.symm.trans htxs))
  rw [hslashes]
  rcases hk with ⟨k, rfl, hlt⟩ | ⟨k, rfl, hlt⟩
  · refine dispatched_lowers (A := fun s => stakeAmount s k) hkeyed (length_outcomes h₁)
      (fun hc hslash hlow => (applySlash_lowers hc hslash).1 k hlow) h₂ ?_
    simp only [stakeAmount, ← hstakes]
    exact hlt
  · refine dispatched_lowers (A := fun s => unbondingAmount s k) hkeyed (length_outcomes h₁)
      (fun hc hslash hlow => (applySlash_lowers hc hslash).2 k hlow) h₂ ?_
    simp only [unbondingAmount, ← hunbondings]
    exact hlt

end

/-! ## Runs -/

/-- Every slash of a run is justified exactly when the disputes it rests on pass the checks that the
dispatch leaves out. -/
theorem slashing_justified {s t : State} {hist : List (Block × Replay)} {past : List InferenceReceipt}
    (hw : WellFormed s) (run : Run K s hist t) :
    SlashesJustified K past hist ↔ DisputesChecked K past hist := by
  have hdisputes : ∀ p ∈ hist, (slashesOf K p).map Slash.dispute = slashableDisputes p := by
    intro p hp
    obtain ⟨u, u', -, step⟩ := run_step_wellFormed hw run hp
    exact (slashes_disputes step).1
  have haccepted : (∀ p ∈ hist, ∀ e ∈ slashesOf K p, e.outcome.isApplied = true) ↔
      ∀ p ∈ hist, EachTx K (JobAnchored p.2.ctx.state) p.2.ctx.state.beginBlock p.1.txs := by
    refine forall₂_congr (fun p hp => ?_)
    obtain ⟨u, u', -, step⟩ := run_step_wellFormed hw run hp
    rw [(slashes_disputes step).2, (commits_txs step).1]
  have honce : (hist.flatMap (slashesOf K)).map (fun e => e.dispute.jobId) =
      (hist.flatMap slashableDisputes).map Dispute.jobId := by
    rw [List.map_flatMap, List.map_flatMap]
    refine List.flatMap_congr (fun p hp => ?_)
    rw [← hdisputes p hp, List.map_map]
    rfl
  have hreceipt : (∀ before p after, hist = before ++ p :: after → ∀ e ∈ slashesOf K p,
        ∃ r ∈ anchoredBy past (before ++ [p]), Concerns e.dispute r) ↔
      ∀ before p after, hist = before ++ p :: after → ∀ d ∈ slashableDisputes p,
        ∃ r ∈ anchoredBy past (before ++ [p]), Concerns d r := by
    refine forall₄_congr (fun before p after hsplit => ?_)
    rw [← hdisputes p (by rw [hsplit]; simp), List.forall_mem_map]
  constructor
  · intro h
    exact ⟨haccepted.mp h.accepted, honce ▸ h.once, hreceipt.mp h.receipt⟩
  · intro h
    have hacc := haccepted.mpr h.anchored
    refine ⟨hacc, fun p hp node hlow => ?_, honce ▸ h.once, hreceipt.mpr h.receipt⟩
    obtain ⟨u, u', hu, step⟩ := run_step_wellFormed hw run hp
    obtain ⟨e, he, hnode⟩ := lowered_slashed hu step hlow
    obtain ⟨stx, hmem, htx⟩ := slash_transaction step he
    exact ⟨stx, mem_appliedTxs.mpr ⟨e.outcome, hmem, hacc p hp e he⟩, e.dispute, htx, hnode⟩

end

/-! ## A dispute that is accepted and one that is not -/

/-- Job 5 ran on node 1, and its output does not verify. -/
def wrongOutput : Dispute := ⟨5, 1, 0, 1, 2, 8, [], .hashChain []⟩

def disputeTx : SignedTransaction := unsigned [] (.dispute wrongOutput)

set_option maxRecDepth 2000 in
theorem disputedBody_replays : (replayBlock toyPrimitives delegatedState
    (bodyAt 1 [freeBatch, disputeTx])).toOption.isSome = true := by decide

theorem strangeBody_replays : (replayBlock toyPrimitives delegatedState
    (bodyAt 1 [disputeTx])).toOption.isSome = true := by decide

theorem delegatedState_wellFormed : WellFormed delegatedState where
  keyed := delegatedState_keyed
  unbondIds := fun _ _ h => by cases h
  proposals := fun _ _ h => by cases h

set_option maxRecDepth 2000 in
/-- The receipt is anchored, then disputed: node 1 loses a twentieth of its stake, justly. -/
theorem slashing_justified_anchored : ∃ p t, Run toyPrimitives delegatedState [p] t ∧
    (slashesOf toyPrimitives p).map (fun e => e.report.totalSlashed) = [50] ∧
    SlashesJustified toyPrimitives [] [p] := by
  have step := sealBlock_commits (eq_ok_returned disputedBody_replays)
  have run := Run.nil.snoc step
  refine ⟨_, _, run, by decide, (slashing_justified delegatedState_wellFormed run).mpr
    ⟨fun p hp => ?_, by decide, fun before p after hsplit d hd => ?_⟩⟩
  · rw [List.nil_append, List.mem_singleton] at hp
    subst hp
    have hstate := (commits_txs step).1
    simp only [hstate, sealBlock_txs]
    refine ⟨fun d hd => (by cases hd), fun mid o h₁ => ⟨fun d hd => ?_, fun _ _ _ => trivial⟩⟩
    obtain ⟨htx, -⟩ := slashableDispute_eq_some hd
    obtain rfl : wrongOutput = d := by injection htx
    have hseen : ((applyTx toyPrimitives delegatedState.beginBlock freeBatch).toOption.map
        (fun q => q.1.isReceiptSeen wrongOutput.jobId)) = some true := by decide
    rw [h₁] at hseen
    exact Option.some.inj hseen
  · cases before with
    | cons q qs => simp at hsplit
    | nil =>
      obtain ⟨rfl, -⟩ := List.cons.inj hsplit
      obtain ⟨stx, hstx, hd⟩ := List.mem_filterMap.mp hd
      obtain ⟨htx, -⟩ := slashableDispute_eq_some hd
      refine ⟨freeReceipt, by decide, ?_⟩
      rw [sealBlock_txs] at hstx
      simp only [bodyAt, List.mem_cons, List.not_mem_nil, or_false] at hstx
      rcases hstx with rfl | rfl
      · cases htx
      · obtain rfl : wrongOutput = d := by injection htx
        exact ⟨rfl, rfl, rfl⟩

/-- Nobody has anchored job 5: the dispute is rejected, and node 1 is slashed for it. -/
theorem rejected_dispute_slashes : ∃ p t, Run toyPrimitives delegatedState [p] t ∧
    p.2.outcomes = [.rejected .disputeReceiptNotFound] ∧
    stakeAmount t delegatedPosition.key < stakeAmount delegatedState delegatedPosition.key ∧
    ¬ SlashesJustified toyPrimitives [] [p] := by
  have step := sealBlock_commits (eq_ok_returned strangeBody_replays)
  refine ⟨_, _, Run.nil.snoc step, by decide, by decide, fun hj => ?_⟩
  have hlow : StakeLowered toyPrimitives (sealBlock toyPrimitives delegatedState (bodyAt 1 [disputeTx]),
      returned _ strangeBody_replays) 1 :=
    ⟨delegatedState.beginBlock, [.rejected .disputeReceiptNotFound], by
      rw [(commits_txs step).1, sealBlock_txs]
      rfl, .inl ⟨delegatedPosition.key, rfl, by decide⟩⟩
  obtain ⟨stx, hstx, -⟩ := hj.lowered _ (List.mem_singleton.mpr rfl) 1 hlow
  have hnone : appliedTxs (sealBlock toyPrimitives delegatedState (bodyAt 1 [disputeTx])).txs
      (returned _ strangeBody_replays).outcomes = [] := by decide
  rw [hnone] at hstx
  cases hstx

end Arknet.Laws
