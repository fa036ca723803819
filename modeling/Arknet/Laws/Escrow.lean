import Arknet.Laws.Authorization
import Arknet.Laws.Batching
import Arknet.Laws.BuildAgreement

/-!
The life of an escrow. `Hold` is what a job's hold should be: empty, held for a user, closed; locks,
settlements and refunds move it. The records of committed runs follow it as long as no block acts
twice on one record and no Locked record is left past its timeout (`BlockOrderly`).
-/

namespace Arknet.Laws

open Machine Store Arknet.Chain Arknet.Staking Arknet.Payments Arknet.Governance Arknet.Consensus

/-! ## The hold of a job -/

/-- What happens to the hold of a job. -/
inductive HoldEvent where
  | locked (user : Address) (amount : Amount)
  | settled (paid : Nat)
  | refunded (user : Address) (amount : Amount)
  deriving DecidableEq, Repr

inductive Hold where
  | empty
  | held (user : Address) (amount : Amount)
  | closed
  deriving DecidableEq, Repr

namespace Hold

/-- A lock fills an empty hold; what was locked leaves once, paid out in full or back to its user. -/
def step : Hold → HoldEvent → Option Hold
  | .empty, .locked user amount => some (.held user amount)
  | .held _ amount, .settled paid => if paid = amount.val then some .closed else none
  | .held user amount, .refunded user' amount' =>
    if user' = user ∧ amount' = amount then some .empty else none
  | _, _ => none

def follow (h : Hold) (events : List HoldEvent) : Option Hold := events.foldlM step h

theorem follow_append (h : Hold) (xs ys : List HoldEvent) :
    h.follow (xs ++ ys) = (h.follow xs).bind (fun m => m.follow ys) := List.foldlM_append

def amount : Hold → Nat
  | .held _ amount => amount.val
  | _ => 0

end Hold

def HoldEvent.taken : HoldEvent → Nat
  | .locked _ amount => amount.val
  | _ => 0

def HoldEvent.released : HoldEvent → Nat
  | .locked _ _ => 0
  | .settled paid => paid
  | .refunded _ amount => amount.val

theorem Hold.step_conserves {h h' : Hold} {e : HoldEvent} (hs : h.step e = some h') :
    h.amount + e.taken = h'.amount + e.released := by
  cases h <;> cases e <;>
    simp only [Hold.step, Option.some.injEq, reduceCtorEq, Option.ite_none_right_eq_some] at hs
  case empty.locked =>
    subst hs
    simp [Hold.amount, HoldEvent.taken, HoldEvent.released]
  case held.settled =>
    obtain ⟨rfl, rfl⟩ := hs
    simp [Hold.amount, HoldEvent.taken, HoldEvent.released]
  case held.refunded =>
    obtain ⟨⟨rfl, rfl⟩, rfl⟩ := hs
    simp [Hold.amount, HoldEvent.taken, HoldEvent.released]

/-- Whatever was locked is still held or has left, and nothing else has left. -/
theorem Hold.follow_conserves {h h' : Hold} {events : List HoldEvent} (hf : h.follow events = some h') :
    h.amount + (events.map HoldEvent.taken).sum = h'.amount + (events.map HoldEvent.released).sum := by
  induction events generalizing h with
  | nil =>
    obtain rfl := Option.some.inj hf
    rfl
  | cons e events ih =>
    obtain ⟨mid, hmid, hrest⟩ := Option.bind_eq_some_iff.mp hf
    have h₁ := Hold.step_conserves hmid
    have h₂ := ih hrest
    simp only [List.map_cons, List.sum_cons]
    omega

/-! ## What a run does to it -/

/-- The hold a record stands for. -/
def holdOf : Option EscrowEntry → Hold
  | none => .empty
  | some e => if e.state = .locked then .held e.user e.amount else .closed

/-- What the five shares of a payment come to. -/
def sharesPaid (total : Amount) : Nat :=
  match rewardSplit total with
  | .ok split => split.compute.val + split.verifier.val + split.burned.val + split.delegators.val +
      split.treasury.val
  | .error _ => 0

/-- What an applied transaction does to the hold of job `j`. -/
def holdEvents (j : JobId) (ctx : BlockCtx) (stx : SignedTransaction) (o : TxOutcome) : List HoldEvent :=
  if o.isApplied then
    match stx.tx with
    | .escrowLock src jobId amount _ _ => if jobId = j then [.locked src amount] else []
    | .escrowSettle jobId _ _ _ _ _ =>
      if jobId = j then ((ctx.getEscrow j).map (fun e => .settled (sharesPaid e.amount))).toList else []
    | _ => []
  else []

/-- A refund deletes the record of a hold: this is the trace it leaves in the committed store. -/
def refundEvents (j : JobId) (s s' : State) : List HoldEvent :=
  match s.escrows.get j, s'.escrows.get j with
  | some e, none => if e.state = .locked then [.refunded e.user e.amount] else []
  | _, _ => []

section

variable (K : Primitives)

def txsEvents (j : JobId) : BlockCtx → List SignedTransaction → List HoldEvent
  | _, [] => []
  | ctx, stx :: rest =>
    match applyTx K ctx stx with
    | .ok (ctx', o) => holdEvents j ctx stx o ++ txsEvents j ctx' rest
    | .error _ => []

/-- What a committed block does to the hold of job `j`: its transactions first, then what else has
become of the record. -/
def blockEvents (j : JobId) (p : Block × Replay) : List HoldEvent :=
  txsEvents K j p.2.ctx.state.beginBlock p.1.txs ++ refundEvents j p.2.ctx.state p.2.ctx.commit

def runEvents (j : JobId) (hist : List (Block × Replay)) : List HoldEvent :=
  hist.flatMap (blockEvents K j)

/-- A lock of a job that has a record, committed or written by the block, is rejected. -/
def LockExclusive (ctx : BlockCtx) (stx : SignedTransaction) : Prop :=
  ∀ src jobId amount nonce fee, stx.tx = .escrowLock src jobId amount nonce fee →
    ctx.commit.escrows.get jobId ≠ none →
      ∀ ctx' o, applyTx K ctx stx = .ok (ctx', o) → o.isApplied = false

/-- The lifecycle over a run: every hold follows `Hold.step`, only a timeout refunds, no second lock
is applied, and a hold at its timeout is refunded by the next block. -/
structure EscrowLifecycle (s : State) (hist : List (Block × Replay)) : Prop where
  once : ∀ j, ∃ h, (holdOf (s.escrows.get j)).follow (runEvents K j hist) = some h
  timely : ∀ p ∈ hist, ∀ j user amount, .refunded user amount ∈ blockEvents K j p →
    ∃ e, p.2.ctx.state.escrows.get j = some e ∧ isExpired p.1.header.height e = true
  exclusive : ∀ p ∈ hist, EachTx K (LockExclusive K) p.2.ctx.state.beginBlock p.1.txs
  refunded : ∀ p ∈ hist, ∀ j e, p.2.ctx.state.escrows.get j = some e →
    isExpired p.1.header.height e = true → .refunded e.user e.amount ∈ blockEvents K j p

/-! ## The condition -/

/-- The sender can pay for the lock: every guard but the one on the record. -/
def LockPays (ctx : BlockCtx) (src : Address) (amount : Amount) (nonce : Nonce) (fee : Gas) : Prop :=
  amount ≠ 0 ∧ (ctx.account src).nonce = nonce ∧ satAdd amount (asAmount fee) ≤ (ctx.account src).balance

/-- The transaction does not act on a record that an earlier transaction of the block has already
locked or settled. -/
def ActsOnce (ctx : BlockCtx) (stx : SignedTransaction) : Prop :=
  match stx.tx with
  | .escrowLock src jobId amount nonce fee => LockPays ctx src amount nonce fee →
      ctx.getEscrow jobId = none → ctx.commit.escrows.get jobId = none
  | .escrowSettle jobId _ _ _ _ _ => ∀ e, ctx.getEscrow jobId = some e → e.state = .locked →
      ctx.commit.escrows.get jobId = some e
  | _ => True

/-- No record acted on twice, no Locked record at or past its timeout. -/
def BlockOrderly (p : Block × Replay) : Prop :=
  EachTx K ActsOnce p.2.ctx.state.beginBlock p.1.txs ∧ NoRefundDue p.2.ctx.state p.1.header.height

end

/-! ## One transaction -/

section

variable {K : Primitives} {ctx ctx' : BlockCtx} {stx : SignedTransaction} {o : TxOutcome}

theorem lock_applied_iff {sender : Address} {jobId : JobId} {amount : Amount} {nonce : Nonce} {fee : Gas}
    {height : Height} (h : applyEscrowLock ctx sender jobId amount nonce fee height = .ok (ctx', o)) :
    o.isApplied = true ↔ LockPays ctx sender amount nonce fee ∧ ctx.getEscrow jobId = none := by
  rcases applyEscrowLock_ok h with ⟨-, ho⟩ | ⟨rfl, hz, hnone, hn, balance, next, hbal, -⟩
  · rw [ho]
    refine ⟨fun hf => (by cases hf), fun ⟨⟨hz, hn, hbal⟩, hnone⟩ => ?_⟩
    simp only [applyEscrowLock, if_neg hz, hnone, Option.isSome_none, Bool.false_eq_true, ↓reduceIte, hn,
      ne_eq, not_true_eq_false, if_neg (not_lt.mpr hbal), bind_eq_ok] at h
    obtain ⟨_, -, _, -, h⟩ := h
    obtain ⟨-, rfl⟩ := of_applied h
    cases ho
  · refine ⟨fun _ => ⟨⟨hz, hn, ?_⟩, hnone⟩, fun _ => rfl⟩
    rw [Fin.le_def]
    omega

theorem settle_applied_iff {jobId : JobId} {computeAddr verifierAddr routerAddr treasuryAddr : Address}
    {height : Height}
    (h : applyEscrowSettle ctx jobId computeAddr verifierAddr routerAddr treasuryAddr height =
      .ok (ctx', o)) : o.isApplied = true ↔ ∃ e, ctx.getEscrow jobId = some e ∧ e.state = .locked := by
  rw [settle_outcome h]
  cases ctx.getEscrow jobId with
  | none => simp [settleOutcome, TxOutcome.isApplied]
  | some e =>
    simp only [settleOutcome, Option.some.injEq, exists_eq_left']
    split <;> simp_all [TxOutcome.isApplied]

theorem sharesPaid_of_credit {c : BlockCtx} {total : Amount} {computeAddr verifierAddr treasuryAddr : Address}
    (h : creditRewardSplit ctx total computeAddr verifierAddr treasuryAddr = .ok c) :
    sharesPaid total = total.val := by
  simp only [creditRewardSplit, bind_eq_ok] at h
  obtain ⟨split, hsplit, -⟩ := h
  simp only [sharesPaid, hsplit]
  exact (rewardSplit_ok hsplit).1

theorem holdEvents_of_not_applied (j : JobId) (ho : o.isApplied = false) : holdEvents j ctx stx o = [] := by
  simp [holdEvents, ho]

/-- A transaction that acts on no record twice moves every hold as `Hold.step` allows. -/
theorem applyTx_follow (hf : ActsOnce ctx stx) (h : applyTx K ctx stx = .ok (ctx', o)) (j : JobId) :
    (holdOf (ctx.commit.escrows.get j)).follow (holdEvents j ctx stx o) =
      some (holdOf (ctx'.commit.escrows.get j)) := by
  cases htx : stx.tx with
  | escrowLock src jobId amount nonce fee =>
    simp only [ActsOnce, htx] at hf
    simp only [applyTx, htx] at h
    have happ := lock_applied_iff h
    rcases applyEscrowLock_ok h with ⟨rfl, ho⟩ | ⟨rfl, -, -, -, balance, next, -, -, rfl⟩
    · rw [holdEvents_of_not_applied j ho]
      rfl
    · obtain ⟨hpays, hnone⟩ := happ.mp rfl
      have hempty := hf hpays hnone
      simp only [holdEvents, TxOutcome.isApplied, ↓reduceIte, htx, BlockCtx.setEscrow_commit,
        BlockCtx.setAccount_commit, Column.get_write]
      split
      · rename_i hj
        subst hj
        rw [hempty]
        rfl
      · rfl
  | escrowSettle jobId batchId computeAddr verifierAddr routerAddr treasuryAddr =>
    simp only [ActsOnce, htx] at hf
    simp only [applyTx, htx] at h
    rcases applyEscrowSettle_ok h with ⟨rfl, ho⟩ | ⟨rfl, entry, credited, hget, hlocked, hc, rfl⟩
    · rw [holdEvents_of_not_applied j ho]
      rfl
    · obtain ⟨accounts, hacc⟩ := creditRewardSplit_commit hc
      have hheld := hf entry hget hlocked
      simp only [holdEvents, TxOutcome.isApplied, ↓reduceIte, htx, BlockCtx.setEscrow_commit,
        BlockCtx.setPendingReward_commit, hacc, Column.get_write]
      split
      · rename_i hj
        subst hj
        have hget' : ctx.getEscrow jobId = some entry := hget
        rw [hget', hheld]
        simp [Hold.follow, Hold.step, holdOf, hlocked, sharesPaid_of_credit hc]
      · rfl
  | _ =>
    have hnil : holdEvents j ctx stx o = [] := by simp [holdEvents, htx]
    rw [hnil, (applyTx_frame h).escrows (by simp [htx]) (by simp [htx])]
    rfl

/-- A transaction that acts twice breaks the lifecycle: as a second lock, or by a second payment of
a closed hold. -/
theorem actsTwice_breaks (hb : Buffered ctx) (hf : ¬ ActsOnce ctx stx)
    (h : applyTx K ctx stx = .ok (ctx', o)) :
    ¬ LockExclusive K ctx stx ∨
      ∃ j, (holdOf (ctx.commit.escrows.get j)).follow (holdEvents j ctx stx o) = none := by
  unfold ActsOnce at hf
  cases htx : stx.tx with
  | escrowLock src jobId amount nonce fee =>
    simp only [htx, Classical.not_imp] at hf
    obtain ⟨hpays, hnone, hrec⟩ := hf
    refine .inl (fun hexcl => ?_)
    have hrej := hexcl src jobId amount nonce fee htx hrec ctx' o h
    simp only [applyTx, htx] at h
    rw [(lock_applied_iff h).mpr ⟨hpays, hnone⟩] at hrej
    cases hrej
  | escrowSettle jobId batchId computeAddr verifierAddr routerAddr treasuryAddr =>
    simp only [htx] at hf
    push Not at hf
    obtain ⟨e, hget, hlocked, hne⟩ := hf
    refine .inr ⟨jobId, ?_⟩
    simp only [applyTx, htx] at h
    have ho := (settle_applied_iff h).mpr ⟨e, hget, hlocked⟩
    have hbase : ctx.state.escrows.get jobId = some e := hget
    have hstep := hb.escrows jobId
    rw [hbase] at hstep
    have hclosed : ctx.commit.escrows.get jobId = some { e with state := .settled } := by
      generalize ctx.commit.escrows.get jobId = after at hstep hne
      cases hstep with
      | same => exact absurd rfl hne
      | settled => rfl
    rw [hclosed]
    simp [holdEvents, ho, htx, hget, Hold.follow, Hold.step, holdOf]
  | _ => simp [htx] at hf

/-! ## One block -/

theorem txs_follow {txs : List SignedTransaction} {os : List TxOutcome} (hf : EachTx K ActsOnce ctx txs)
    (h : applyTxs K ctx txs = .ok (ctx', os)) (j : JobId) :
    (holdOf (ctx.commit.escrows.get j)).follow (txsEvents K j ctx txs) =
      some (holdOf (ctx'.commit.escrows.get j)) := by
  induction txs generalizing ctx os with
  | nil =>
    obtain ⟨rfl, -⟩ := applyTxs_nil_ok.mp h
    rfl
  | cons stx rest ih =>
    obtain ⟨mid, o, os', h₁, h₂, -⟩ := applyTxs_cons_ok.mp h
    simp only [txsEvents, h₁, Hold.follow_append, applyTx_follow hf.1 h₁, Option.bind_some]
    exact ih (hf.2 mid o h₁) h₂

theorem txs_exclusive {txs : List SignedTransaction} (hf : EachTx K ActsOnce ctx txs) :
    EachTx K (LockExclusive K) ctx txs := by
  induction txs generalizing ctx with
  | nil => trivial
  | cons stx rest ih =>
    refine ⟨?_, fun mid o h₁ => ih (hf.2 mid o h₁)⟩
    intro src jobId amount nonce fee htx hrec mid o h₁
    have hact := hf.1
    simp only [ActsOnce, htx] at hact
    simp only [applyTx, htx] at h₁
    by_contra ho
    obtain ⟨hpays, hnone⟩ := (lock_applied_iff h₁).mp (by simpa using ho)
    exact hrec (hact hpays hnone)

/-- Where every hold follows and locks are exclusive, no transaction acted twice. -/
theorem actsOnce_of_follow {txs : List SignedTransaction} {os : List TxOutcome} (hb : Buffered ctx)
    (h : applyTxs K ctx txs = .ok (ctx', os)) (hexcl : EachTx K (LockExclusive K) ctx txs)
    (hfollow : ∀ j, ∃ hold, (holdOf (ctx.commit.escrows.get j)).follow (txsEvents K j ctx txs) =
      some hold) : EachTx K ActsOnce ctx txs := by
  induction txs generalizing ctx os with
  | nil => trivial
  | cons stx rest ih =>
    obtain ⟨mid, o, os', h₁, h₂, -⟩ := applyTxs_cons_ok.mp h
    simp only [txsEvents, h₁, Hold.follow_append] at hfollow
    have hact : ActsOnce ctx stx := by
      by_contra hf
      rcases actsTwice_breaks hb hf h₁ with hn | ⟨j, hn⟩
      · exact hn hexcl.1
      · obtain ⟨hold, hj⟩ := hfollow j
        rw [hn] at hj
        cases hj
    refine ⟨hact, fun mid' o' h₁' => ?_⟩
    obtain ⟨rfl, rfl⟩ := Prod.mk.inj (Except.ok.inj (h₁.symm.trans h₁'))
    refine ih (applyTx_buffered hb h₁) h₂ (hexcl.2 mid o h₁) (fun j => ?_)
    obtain ⟨hold, hj⟩ := hfollow j
    rw [applyTx_follow hact h₁] at hj
    exact ⟨hold, hj⟩

/-- A block's transactions, and the records they leave to the next block. -/
theorem commits_escrows {s s' : State} {b : Block} {r : Replay} (h : Commits K s b r s') :
    r.ctx.state = s ∧ ∃ ctx, applyTxs K s.beginBlock b.txs = .ok (ctx, r.outcomes) ∧ Buffered ctx ∧
      ctx.state = s ∧ r.ctx.commit.escrows = ctx.commit.escrows ∧
      s'.escrows = ctx.commit.escrows := by
  obtain ⟨hs, ctx, htxs, hframe⟩ := commits_txs h
  obtain ⟨blocks, idx, hp⟩ := persist_columns (K := K) r.ctx b
  have hs' : s'.escrows = r.ctx.commit.escrows := by rw [h.stored, hp]
  refine ⟨hs, ctx, htxs, ?_, applyTxs_state htxs, hframe.escrows, hs'.trans hframe.escrows⟩
  exact (applyTxs_invariant (P := Buffered) (fun _ _ _ _ _ _ hc hstep => applyTx_buffered hc hstep) rfl
    (buffered_begin s) htxs).2

/-- No committed block deletes a record, so none refunds. -/
theorem no_refund {s s' : State} {b : Block} {r : Replay} (h : Commits K s b r s') (j : JobId) :
    refundEvents j r.ctx.state r.ctx.commit = [] := by
  obtain ⟨hs, ctx, -, hb, hcs, hesc, -⟩ := commits_escrows h
  have hstep := hb.escrows j
  rw [hcs] at hstep
  rw [hs]
  unfold refundEvents
  rw [hesc]
  generalize s.escrows.get j = x at hstep
  generalize ctx.commit.escrows.get j = y at hstep
  cases hstep with
  | same => cases x <;> rfl
  | locked => rfl
  | settled => rfl

theorem blockEvents_eq {s s' : State} {b : Block} {r : Replay} (h : Commits K s b r s') (j : JobId) :
    blockEvents K j (b, r) = txsEvents K j s.beginBlock b.txs := by
  simp only [blockEvents]
  rw [no_refund h j, List.append_nil, (commits_escrows h).1]

theorem not_refunded_mem {s s' : State} {b : Block} {r : Replay} (h : Commits K s b r s') {j : JobId}
    {user : Address} {amount : Amount} : .refunded user amount ∉ blockEvents K j (b, r) := by
  have htx : ∀ (txs : List SignedTransaction) (c : BlockCtx),
      .refunded user amount ∉ txsEvents K j c txs := by
    intro txs
    induction txs with
    | nil => simp [txsEvents]
    | cons stx rest ih =>
      intro c
      simp only [txsEvents]
      split
      · simp only [List.mem_append, not_or]
        refine ⟨?_, ih _⟩
        unfold holdEvents
        split
        · split
          · split <;> simp
          · split <;> simp
          · simp
        · simp
      · simp
  rw [blockEvents_eq h]
  exact htx _ _

/-! ## Runs -/

theorem expired_mem {s : State} {height : Height} (h : NoRefundDue s height) {j : JobId} {e : EscrowEntry}
    (hget : s.escrows.get j = some e) : isExpired height e = false := h (j, e) (Column.get_eq_some.mp hget)

/-- The holds of an orderly run stand where its records are. -/
theorem run_follow {s t : State} {hist : List (Block × Replay)} (run : Run K s hist t)
    (h : ∀ p ∈ hist, BlockOrderly K p) (j : JobId) :
    (holdOf (s.escrows.get j)).follow (runEvents K j hist) = some (holdOf (t.escrows.get j)) := by
  induction run with
  | nil => rfl
  | snoc run step ih =>
    rename_i hist t t' b r
    obtain ⟨hs, ctx, htxs, -, -, -, hesc⟩ := commits_escrows step
    have horderly := (h (b, r) (by simp)).1
    simp only [hs] at horderly
    simp only [runEvents, List.flatMap_append, List.flatMap_singleton, Hold.follow_append]
    rw [← runEvents, ih (fun p hp => h p (by simp [hp])), Option.bind_some, blockEvents_eq step, hesc]
    exact txs_follow horderly htxs j

end

/-- A committed run keeps the lifecycle of every escrow exactly when none of its blocks acts twice on
a record or is committed with a Locked record at its timeout. -/
theorem escrow_lifecycle {K : Primitives} {s t : State} {hist : List (Block × Replay)}
    (run : Run K s hist t) : EscrowLifecycle K s hist ↔ ∀ p ∈ hist, BlockOrderly K p := by
  constructor
  · intro h
    induction run with
    | nil => simp
    | snoc run step ih =>
      rename_i hist t t' b r
      have honce : ∀ j, ∃ mid hold, (holdOf (s.escrows.get j)).follow (runEvents K j hist) = some mid ∧
          mid.follow (blockEvents K j (b, r)) = some hold := by
        intro j
        obtain ⟨hold, hj⟩ := h.once j
        rw [runEvents, List.flatMap_append, List.flatMap_singleton, Hold.follow_append,
          Option.bind_eq_some_iff] at hj
        obtain ⟨mid, h₁, h₂⟩ := hj
        exact ⟨mid, hold, h₁, h₂⟩
      have hprefix := ih ⟨fun j => (honce j).imp fun _ hm => hm.choose_spec.1,
        fun p hp => h.timely p (by simp [hp]), fun p hp => h.exclusive p (by simp [hp]),
        fun p hp => h.refunded p (by simp [hp])⟩
      obtain ⟨hs, ctx, htxs, -, -, -, -⟩ := commits_escrows step
      have hexcl := h.exclusive (b, r) (by simp)
      have hrefund := h.refunded (b, r) (by simp)
      simp only [hs] at hexcl hrefund
      intro p hp
      rcases List.mem_append.mp hp with hp | hp
      · exact hprefix p hp
      · rw [List.mem_singleton.mp hp]
        refine ⟨?_, ?_⟩
        · simp only [hs]
          refine actsOnce_of_follow (buffered_begin t) htxs hexcl (fun j => ?_)
          obtain ⟨mid, hold, hmid, hblock⟩ := honce j
          rw [run_follow run hprefix j] at hmid
          obtain rfl := Option.some.inj hmid
          rw [blockEvents_eq step] at hblock
          exact ⟨hold, hblock⟩
        · simp only [hs]
          intro item hitem
          by_contra hexp
          exact not_refunded_mem step (hrefund item.1 item.2 (Column.get_eq_some.mpr hitem)
            (by simpa using hexp))
  · intro h
    refine ⟨fun j => ⟨_, run_follow run h j⟩, fun p hp j user amount hmem => ?_,
      fun p hp => txs_exclusive (h p hp).1, fun p hp j e hget hexp => ?_⟩
    · obtain ⟨u, u', step⟩ := run_step run hp
      exact absurd hmem (not_refunded_mem step)
    · rw [expired_mem (h p hp).2 hget] at hexp
      cases hexp

/-! ## A settled escrow, a second lock -/

def lockBody : Block := bodyAt 1 [unsigned [] (.escrowLock 7 5 1000 0 0)]

def settleBody : Block := bodyAt 2 [unsigned [] (.escrowSettle 5 0 1 2 3 4)]

theorem lockBody_replays : (replayBlock toyPrimitives soleHolder lockBody).toOption.isSome = true := by
  decide

def lockedState : State :=
  persist toyPrimitives (returned _ lockBody_replays).ctx (sealBlock toyPrimitives soleHolder lockBody)

theorem settleBody_replays : (replayBlock toyPrimitives lockedState settleBody).toOption.isSome = true := by
  decide

def settledState : State :=
  persist toyPrimitives (returned _ settleBody_replays).ctx (sealBlock toyPrimitives lockedState settleBody)

/-- Address 7 locks a thousand atoms for job 5, and the next block settles them. -/
def settledHist : List (Block × Replay) :=
  [(sealBlock toyPrimitives soleHolder lockBody, returned _ lockBody_replays),
    (sealBlock toyPrimitives lockedState settleBody, returned _ settleBody_replays)]

theorem lock_commits : Commits toyPrimitives soleHolder (sealBlock toyPrimitives soleHolder lockBody)
    (returned _ lockBody_replays) lockedState := sealBlock_commits (eq_ok_returned lockBody_replays)

theorem settle_commits : Commits toyPrimitives lockedState
    (sealBlock toyPrimitives lockedState settleBody) (returned _ settleBody_replays) settledState :=
  sealBlock_commits (eq_ok_returned settleBody_replays)

theorem settledHist_run : Run toyPrimitives soleHolder settledHist settledState :=
  (Run.nil.snoc lock_commits).snoc settle_commits

/-- Locked once, paid once. -/
theorem escrow_lifecycle_settled :
    runEvents toyPrimitives 5 settledHist = [.locked 7 1000, .settled 1000] ∧
    EscrowLifecycle toyPrimitives soleHolder settledHist := by
  refine ⟨by decide, (escrow_lifecycle settledHist_run).mpr ?_⟩
  intro p hp
  simp only [settledHist, List.mem_cons, List.not_mem_nil, or_false] at hp
  rcases hp with rfl | rfl
  · refine ⟨?_, by decide⟩
    simp only [(commits_txs lock_commits).1, sealBlock_txs]
    exact ⟨fun _ h => h, fun _ _ _ => trivial⟩
  · refine ⟨?_, by decide⟩
    simp only [(commits_txs settle_commits).1, sealBlock_txs]
    exact ⟨fun _ h _ => h, fun _ _ _ => trivial⟩

/-- Two locks of job 5 by address 7. -/
def lockPool : Mempool :=
  let lock (amount : Amount) (nonce : Nonce) := unsigned [7] (.escrowLock 7 5 amount nonce 0)
  ((Mempool.withLimits 10 10000).enroll ((lock 400 0).hash toyPrimitives)
    ⟨lock 400 0, 7, 0, 0, 0, 40, rfl⟩).enroll ((lock 600 1).hash toyPrimitives)
    ⟨lock 600 1, 7, 1, 0, 1, 40, rfl⟩

theorem lockPool_builds :
    (build toyPrimitives soleHolder lockPool 1 proposerParams 1).toOption.isSome = true := by
  decide

theorem lockPool_replays :
    (replayBlock toyPrimitives soleHolder (returned _ lockPool_builds).block).toOption.isSome = true := by
  decide

/-- The proposer builds a block with both, the block commits, and the first lock's amount is lost. -/
theorem second_lock_applied : ∃ built r s',
    build toyPrimitives soleHolder lockPool 1 proposerParams 1 = .ok built ∧
    Commits toyPrimitives soleHolder built.block r s' ∧
    runEvents toyPrimitives 5 [(built.block, r)] = [.locked 7 400, .locked 7 600] ∧
    s'.escrows.get 5 = some ⟨5, 7, 600, 0, .locked⟩ ∧ balanceOf s' 7 = 0 ∧
    ¬ EscrowLifecycle toyPrimitives soleHolder [(built.block, r)] := by
  have step : Commits toyPrimitives soleHolder (returned _ lockPool_builds).block
      (returned _ lockPool_replays) _ :=
    ⟨eq_ok_returned lockPool_replays, by decide, rfl⟩
  have hevents : runEvents toyPrimitives 5 [((returned _ lockPool_builds).block,
      returned _ lockPool_replays)] = [.locked 7 400, .locked 7 600] := by decide
  refine ⟨_, _, _, eq_ok_returned lockPool_builds, step, hevents, by decide, by decide,
    fun h => ?_⟩
  obtain ⟨hold, hj⟩ := h.once 5
  rw [hevents] at hj
  cases hj

end Arknet.Laws
