import Arknet.Laws.Authorization
import Arknet.Laws.Proposals

/-!
The deposit of a proposal. `Deposit` is what should become of it: paid by the signer under an id of
its own, held while the proposal is open, and given back to the payer in full unless the proposal is
vetoed. The store follows it along a run as long as no block stores two proposals and every refund
goes to an address that paid and has room for it (`DepositsOrderly`).
-/

namespace Arknet.Laws

open Machine Store Arknet.Chain Arknet.Staking Arknet.Payments Arknet.Governance Arknet.Consensus

/-! ## A deposit -/

/-- What happens under a proposal id: a proposal is stored there for `payer`, or its vote ends and
raises the balance of `account` by `credit`. -/
inductive DepositEvent where
  | paid (payer : Address) (proposal : Proposal)
  | resolved (phase : ProposalPhase) (account : Address) (credit : Nat)
  deriving DecidableEq, Repr

/-- The payer of a deposit that was there before the run is not known. -/
inductive Deposit where
  | vacant
  | held (payer : Option Address) (proposal : Proposal)
  | closed (proposal : Proposal)
  deriving DecidableEq, Repr

/-- The whole deposit goes back to its payer, or none of it after a veto. -/
def RefundRight (payer : Address) (proposal : Proposal) (phase : ProposalPhase) (account : Address)
    (credit : Nat) : Prop :=
  if phase = .rejectedWithVeto then credit = 0 else account = payer ∧ credit = proposal.deposit.val

instance (payer : Address) (proposal : Proposal) (phase : ProposalPhase) (account : Address)
    (credit : Nat) : Decidable (RefundRight payer proposal phase account credit) :=
  inferInstanceAs (Decidable (if phase = .rejectedWithVeto then credit = 0
    else account = payer ∧ credit = proposal.deposit.val))

def Deposit.step : Deposit → DepositEvent → Option Deposit
  | .vacant, .paid payer proposal => some (.held (some payer) proposal)
  | .held (some payer) proposal, .resolved phase account credit =>
    if RefundRight payer proposal phase account credit then some (.closed proposal) else none
  | .held none proposal, .resolved _ _ _ => some (.closed proposal)
  | _, _ => none

/-- The deposit a record stands for. -/
def depositOf (s : State) (id : U64) : Deposit :=
  match s.proposals.get id with
  | none => .vacant
  | some record => if Resolved record then .closed record.proposal else .held none record.proposal

/-- The record is the one the deposit was paid for. -/
def Deposit.Records : Deposit → Option ProposalRecord → Prop
  | .vacant, o => o = none
  | .held _ proposal, o => ∃ record, o = some record ∧ record.proposal = proposal ∧ ¬ Resolved record
  | .closed proposal, o => ∃ record, o = some record ∧ record.proposal = proposal ∧ Resolved record

/-! ## What a run does to it -/

def resolveEvent (now : Timestamp) (id : U64) (ctx : BlockCtx) (item : U64 × ProposalRecord)
    (ctx' : BlockCtx) : List DepositEvent :=
  if item.1 = id ∧ VoteEnds now item.2 then
    ((ctx'.commit.proposals.get id).map (fun record => .resolved record.phase item.2.proposal.proposer
      ((ctx'.account item.2.proposal.proposer).balance.val -
        (ctx.account item.2.proposal.proposer).balance.val))).toList
  else []

section

variable (K : Primitives)

/-- The proposals a block stores under an id: the ones it applies, all under the committed counter's
value. -/
def storedUnder (id : U64) (p : Block × Replay) : List (Address × Proposal) :=
  if id = p.2.ctx.state.nextProposalId then proposalsIn K (appliedTxs p.1.txs p.2.outcomes) else []

def blockDeposits (id : U64) (p : Block × Replay) : List DepositEvent :=
  (storedUnder K id p).map (fun q => .paid q.1 q.2) ++
    governanceEvents K (resolveEvent p.1.header.timestampMs id) p.2.ctx.state p.1

def runDeposits (id : U64) (hist : List (Block × Replay)) : List DepositEvent :=
  hist.flatMap (blockDeposits K id)

/-- Under every id the deposit has followed `Deposit.step`, and the record is the proposal it was
paid for. -/
def DepositsConserved (s : State) (past : List (Block × Replay)) (u : State) : Prop :=
  ∀ id, ∃ d, Trace.follow Deposit.step (depositOf s id) (runDeposits K id past) = some d ∧
    d.Records (u.proposals.get id)

/-! ## The condition -/

/-- The proposal is let in: its deposit is large enough and its signer can pay it. -/
def ProposalPays (ctx : BlockCtx) (payer : Address) (p : Proposal) : Prop :=
  PROPOSAL_DEPOSIT ≤ p.deposit ∧ p.deposit ≤ (ctx.account payer).balance

/-- A proposal that is let in is the block's first. -/
def ProposesOnce (ctx : BlockCtx) (stx : SignedTransaction) : Prop :=
  ∀ p, stx.tx = .govProposal p → ProposalPays ctx (deriveAddressFromSigner K stx.signer) p →
    ctx.commit.nextProposalId = ctx.state.nextProposalId

/-- Where a vote ends without a veto, whoever paid for the proposal is the proposer it names, and the
deposit fits on top of what that address holds. -/
def RefundsRight (past : List (Block × Replay)) (s : State) (b : Block) : Prop :=
  ∀ id record c outcome, EndsVote s b id record → Meets K s b id c →
    (tallyVotes c id).evaluate s.totalBondedStake = .ok outcome → outcome ≠ .rejectedWithVeto →
    ∀ payer p, .paid payer p ∈ runDeposits K id past →
      record.proposal.proposer = payer ∧
        (c.account payer).balance.val + record.proposal.deposit.val < 2 ^ 128

structure DepositsOrderly (past : List (Block × Replay)) (p : Block × Replay) : Prop where
  once : EachTx K (ProposesOnce K) p.2.ctx.state.beginBlock p.1.txs
  refunds : RefundsRight K past p.2.ctx.state p.1

end

/-! ## Proposals of a block -/

section

variable {K : Primitives} {ctx ctx' : BlockCtx}

/-- An applied proposal takes its deposit from the signer. -/
theorem govProposal_debits {stx : SignedTransaction} {o : TxOutcome} {p : Proposal}
    (htx : stx.tx = .govProposal p) (ho : o.isApplied = true)
    (h : applyTx K ctx stx = .ok (ctx', o)) :
    (ctx'.account (deriveAddressFromSigner K stx.signer)).balance.val + p.deposit.val =
      (ctx.account (deriveAddressFromSigner K stx.signer)).balance.val := by
  simp only [applyTx, htx] at h
  rcases applyGovProposal_ok h with ⟨-, hr⟩ | ⟨-, -, balance, next, hbal, -, rfl⟩
  · rw [ho] at hr
    cases hr
  · have hacct : (((ctx.setAccount (deriveAddressFromSigner K stx.signer)
        { ctx.account (deriveAddressFromSigner K stx.signer) with balance := balance }).setProposal
        ctx.state.nextProposalId ⟨p, .discussion, ctx.currentHeight.getD 0⟩).setNextProposalId
        next).account (deriveAddressFromSigner K stx.signer) =
        (ctx.setAccount (deriveAddressFromSigner K stx.signer)
          { ctx.account (deriveAddressFromSigner K stx.signer) with balance := balance }).account
          (deriveAddressFromSigner K stx.signer) := rfl
    rw [hacct, BlockCtx.account_setAccount, if_pos rfl]
    exact hbal

/-- A transaction brings at most one proposal, and then only by paying; the counter tells. -/
theorem applyTx_proposes {stx : SignedTransaction} {o : TxOutcome}
    (h : applyTx K ctx stx = .ok (ctx', o)) :
    (proposalsIn K (appliedTxs [stx] [o]) = [] ∧
      ctx'.commit.nextProposalId = ctx.commit.nextProposalId ∧
      ∀ p, stx.tx = .govProposal p → ¬ ProposalPays ctx (deriveAddressFromSigner K stx.signer) p) ∨
    ∃ p, stx.tx = .govProposal p ∧ ProposalPays ctx (deriveAddressFromSigner K stx.signer) p ∧
      proposalsIn K (appliedTxs [stx] [o]) = [(deriveAddressFromSigner K stx.signer, p)] ∧
      ctx'.commit.nextProposalId.val = ctx.state.nextProposalId.val + 1 := by
  cases htx : stx.tx with
  | govProposal p =>
    simp only [applyTx, htx] at h
    rcases applyGovProposal_ok h with ⟨rfl, ho⟩ | ⟨rfl, hmin, balance, next, hbal, hnext, rfl⟩
    · refine .inl ⟨by simp [appliedTxs, ho, proposalsIn], rfl, fun p' hp' hpays => ?_⟩
      obtain rfl : p = p' := by injection hp'
      simp only [applyGovProposal, if_neg (not_lt.mpr hpays.1), if_neg (not_lt.mpr hpays.2),
        bind_eq_ok] at h
      obtain ⟨_, -, _, -, h⟩ := h
      rw [(of_applied h).2] at ho
      cases ho
    · refine .inr ⟨p, rfl, ⟨hmin, ?_⟩, ?_, hnext⟩
      · rw [Fin.le_def]
        omega
      · simp [appliedTxs, TxOutcome.isApplied, proposalsIn, htx]
  | _ =>
    obtain ⟨-, hmeta⟩ := (applyTx_frame h).proposals (by simp [htx])
    refine .inl ⟨?_, by simp only [State.nextProposalId, hmeta], fun p hp => by cases hp⟩
    rw [appliedTxs_cons]
    split <;> simp [proposalsIn, appliedTxs, htx]

/-- Every proposal a list brings is its first exactly when it brings at most one, or none after the
block has stored one already. -/
theorem proposesOnce_iff {txs : List SignedTransaction} {os : List TxOutcome}
    (h : applyTxs K ctx txs = .ok (ctx', os)) :
    EachTx K (ProposesOnce K) ctx txs ↔
      (proposalsIn K (appliedTxs txs os)).length ≤
        (if ctx.commit.nextProposalId = ctx.state.nextProposalId then 1 else 0) := by
  induction txs generalizing ctx os with
  | nil =>
    obtain ⟨-, rfl⟩ := applyTxs_nil_ok.mp h
    simp [EachTx, proposalsIn, appliedTxs]
  | cons stx rest ih =>
    obtain ⟨mid, o, os', h₁, h₂, rfl⟩ := applyTxs_cons_ok.mp h
    have hrest := ih h₂
    rw [applyTx_state h₁] at hrest
    have heach : EachTx K (ProposesOnce K) ctx (stx :: rest) ↔
        ProposesOnce K ctx stx ∧ EachTx K (ProposesOnce K) mid rest := by
      refine and_congr_right fun _ => ⟨fun hall => hall mid o h₁, fun hm mid' o' h₁' => ?_⟩
      obtain ⟨rfl, rfl⟩ := Prod.mk.inj (Except.ok.inj (h₁.symm.trans h₁'))
      exact hm
    rw [heach, hrest, proposalsIn_applied, List.length_append]
    rcases applyTx_proposes h₁ with ⟨hnil, hcount, hnone⟩ | ⟨p, htx, hpays, hone, hcount⟩
    · have hfirst : ProposesOnce K ctx stx := fun p htx hpays => absurd hpays (hnone p htx)
      rw [hnil, hcount]
      simp [hfirst]
    · have hmoved : mid.commit.nextProposalId ≠ ctx.state.nextProposalId := by
        intro heq
        rw [heq] at hcount
        omega
      have hfirst : ProposesOnce K ctx stx ↔ ctx.commit.nextProposalId = ctx.state.nextProposalId := by
        refine ⟨fun hp => hp p htx hpays, fun heq _ _ _ => heq⟩
      rw [hone, if_neg hmoved, hfirst]
      by_cases heq : ctx.commit.nextProposalId = ctx.state.nextProposalId
      · simp [heq]
      · simp [heq]

end

/-! ## Who paid -/

theorem follow_closed {p : Proposal} {d : Deposit} {events : List DepositEvent}
    (h : Trace.follow Deposit.step (.closed p) events = some d) : events = [] := by
  cases events with
  | nil => rfl
  | cons e es => cases h

/-- A deposit that is still held has seen nothing since it was paid. -/
theorem follow_held {payer payer' : Option Address} {p p' : Proposal} {events : List DepositEvent}
    (h : Trace.follow Deposit.step (.held payer p) events = some (.held payer' p')) :
    events = [] ∧ payer' = payer := by
  cases events with
  | nil =>
    obtain ⟨rfl, rfl⟩ := Deposit.held.inj (Option.some.inj h)
    exact ⟨rfl, rfl⟩
  | cons e es =>
    exfalso
    rw [Trace.follow_cons, Option.bind_eq_some_iff] at h
    obtain ⟨d, hd, hes⟩ := h
    have hclosed : d = .closed p := by
      cases e with
      | paid a q => cases payer <;> cases hd
      | resolved phase account credit =>
        cases payer with
        | none => exact (Option.some.inj hd).symm
        | some a =>
          simp only [Deposit.step, Option.ite_none_right_eq_some, Option.some.injEq] at hd
          exact hd.2.symm
    rw [hclosed] at hes
    obtain rfl := follow_closed hes
    cases hes

/-- The payer of a held deposit is the one the events name. -/
theorem held_payer {s : State} {id : U64} {payer : Option Address} {p : Proposal}
    {events : List DepositEvent}
    (h : Trace.follow Deposit.step (depositOf s id) events = some (.held payer p)) (a : Address) :
    payer = some a ↔ ∃ q, .paid a q ∈ events := by
  unfold depositOf at h
  split at h
  · cases events with
    | nil => cases h
    | cons e es =>
      cases e with
      | paid a' q =>
        obtain ⟨rfl, rfl⟩ := follow_held h
        simp [eq_comm]
      | resolved phase account credit => cases h
  · split at h
    · obtain rfl := follow_closed h
      cases h
    · obtain ⟨rfl, rfl⟩ := follow_held h
      simp

/-! ## One block -/

section

variable {K : Primitives}

/-- What a refund adds to a balance is the deposit when there is room for it, and less otherwise. -/
theorem refund_credit (ctx : BlockCtx) (a : Address) (deposit : Amount) :
    ((returnDeposit ctx a deposit).account a).balance.val - (ctx.account a).balance.val = deposit.val ↔
      (ctx.account a).balance.val + deposit.val < 2 ^ 128 := by
  have hlt := (ctx.account a).balance.isLt
  unfold returnDeposit
  split
  · rename_i hz
    rw [hz]
    have h0 : (0 : Amount).val = 0 := rfl
    omega
  · rw [BlockCtx.account_creditAddress, if_pos rfl]
    simp only [satAdd_val]
    omega

/-- A refund raises no other balance. -/
theorem refund_other (ctx : BlockCtx) {a x : Address} (hne : a ≠ x) (deposit : Amount) :
    (returnDeposit ctx a deposit).account x = ctx.account x := by
  unfold returnDeposit
  split
  · rfl
  · rw [BlockCtx.account_creditAddress, if_neg hne]

/-- The condition on refunds for one id. -/
def RefundsRightAt (K : Primitives) (past : List (Block × Replay)) (s : State) (b : Block) (id : U64) :
    Prop :=
  ∀ record c outcome, EndsVote s b id record → Meets K s b id c →
    (tallyVotes c id).evaluate s.totalBondedStake = .ok outcome → outcome ≠ .rejectedWithVeto →
    ∀ payer p, .paid payer p ∈ runDeposits K id past →
      record.proposal.proposer = payer ∧
        (c.account payer).balance.val + record.proposal.deposit.val < 2 ^ 128

/-- The event of an iteration that ends a vote, and when it gives the deposit back rightly. -/
theorem resolveEvent_right {bonded : Amount} {now : Timestamp} {id : U64} {record : ProposalRecord}
    {c c' : BlockCtx} (hends : VoteEnds now record)
    (h : advanceProposal bonded now c (id, record) = .ok c') :
    ∃ outcome phase account credit, (tallyVotes c id).evaluate bonded = .ok outcome ∧
      c'.commit.proposals.get id = some { record with phase := phase } ∧
      Resolved { record with phase := phase } ∧
      resolveEvent now id c (id, record) c' = [.resolved phase account credit] ∧
      ∀ payer, RefundRight payer record.proposal phase account credit ↔
        (outcome ≠ .rejectedWithVeto → record.proposal.proposer = payer ∧
          (c.account payer).balance.val + record.proposal.deposit.val < 2 ^ 128) := by
  obtain ⟨outcome, heval, hc'⟩ := advanceProposal_ends hends h
  have hget : c'.commit.proposals.get id = some { record with phase := verdict outcome } := by
    rw [hc', BlockCtx.setProposal_commit]
    exact Column.get_write_self _ _ _
  have hacct : ∀ x, c'.account x = (if outcome = .rejectedWithVeto then c
      else returnDeposit c record.proposal.proposer record.proposal.deposit).account x := by
    intro x
    rw [hc']
    rfl
  refine ⟨outcome, verdict outcome, record.proposal.proposer,
    (c'.account record.proposal.proposer).balance.val - (c.account record.proposal.proposer).balance.val,
    heval, hget, ?_, ?_, fun payer => ?_⟩
  · cases outcome <;> simp [Resolved, verdict]
  · rw [resolveEvent, if_pos ⟨rfl, hends⟩, hget]
    rfl
  · simp only [hacct]
    by_cases hveto : outcome = .rejectedWithVeto
    · simp [RefundRight, hveto, verdict]
    · have hphase : verdict outcome ≠ .rejectedWithVeto := by
        cases outcome with
        | passed => decide
        | rejected => decide
        | rejectedWithVeto => exact absurd rfl hveto
      simp only [RefundRight, if_neg hphase, if_neg hveto, refund_credit]
      constructor
      · rintro ⟨rfl, hroom⟩ -
        exact ⟨rfl, hroom⟩
      · intro hright
        obtain ⟨rfl, hroom⟩ := hright hveto
        exact ⟨rfl, hroom⟩

/-- A block moves a deposit as `Deposit.step` allows exactly when it stores at most one proposal under
the id and refunds it rightly. -/
theorem blockDeposits_follow_iff {s s' : State} {b : Block} {r : Replay} (hw : WellFormed s)
    (h : Commits K s b r s') (id : U64) {past : List (Block × Replay)} {d : Deposit}
    (hd : d.Records (s.proposals.get id))
    (hpayer : ∀ payer p, d = .held payer p → ∀ a, payer = some a ↔
      ∃ q, .paid a q ∈ runDeposits K id past) :
    (∃ d', Trace.follow Deposit.step d (blockDeposits K id (b, r)) = some d' ∧
        d'.Records (s'.proposals.get id)) ↔
      (storedUnder K id (b, r)).length ≤ 1 ∧ RefundsRightAt K past s b id := by
  obtain ⟨ctx, htxs, -, -⟩ := commits_governance h
  have hrecord := applyTxs_record htxs id
  rw [State.beginBlock_state, State.beginBlock_commit] at hrecord
  have hstate := (commits_txs h).1
  have hstored : storedUnder K id (b, r) =
      if id = s.nextProposalId then proposalsIn K (appliedTxs b.txs r.outcomes) else [] := by
    simp only [storedUnder, hstate]
  have hold : ∀ record, s.proposals.get id = some record → storedUnder K id (b, r) = [] := by
    intro record hget
    rw [hstored, if_neg (fun he => by have := hw.proposals id record hget; rw [he] at this; omega)]
  have hevents : blockDeposits K id (b, r) = (storedUnder K id (b, r)).map (fun q => .paid q.1 q.2) ++
      governanceEvents K (resolveEvent b.header.timestampMs id) s b := by
    simp only [blockDeposits, hstate]
  rw [hevents]
  rcases governance_resolves id (resolveEvent b.header.timestampMs id) (fun c item c' hi => if_neg hi)
    hw h htxs with
    ⟨record, c, c', hends, hmeets, -, -, hadv, hafter, hgov⟩ | ⟨hnone, hgov, -, hsome, habsent⟩
  · -- the vote ends: the deposit was held, and its one event is the verdict
    obtain ⟨outcome, phase, account, credit, heval, hphase, hdone, hevent, hright⟩ :=
      resolveEvent_right hends.ended hadv
    have hcond : RefundsRightAt K past s b id ↔
        ∀ payer, (∃ q, .paid payer q ∈ runDeposits K id past) →
          RefundRight payer record.proposal phase account credit := by
      constructor
      · rintro hr payer ⟨q, hq⟩
        exact (hright payer).mpr (fun hv => hr record c outcome hends hmeets heval hv payer q hq)
      · intro hr record' c₂ outcome' hends' hmeets' heval' hv payer q hq
        obtain rfl := hmeets.unique hmeets'
        have hsame := hends'.stored
        rw [hends.stored] at hsame
        obtain rfl := Option.some.inj hsame
        rw [heval] at heval'
        obtain rfl := Except.ok.inj heval'
        exact (hright payer).mp (hr payer ⟨q, hq⟩) hv
    rw [hold record hends.stored, hgov, hevent, hcond, hafter, hphase]
    cases d with
    | vacant =>
      rw [hends.stored] at hd
      cases hd
    | closed p =>
      obtain ⟨record', hget', -, hres'⟩ := hd
      exact absurd ⟨record', hget', hres'⟩ hends.not_resolved
    | held payer p =>
      obtain ⟨record', hget', rfl, -⟩ := hd
      rw [hends.stored] at hget'
      obtain rfl := Option.some.inj hget'
      have hpaid := hpayer payer record.proposal rfl
      have hrec : (Deposit.closed record.proposal).Records (some { record with phase := phase }) :=
        ⟨_, rfl, rfl, hdone⟩
      cases payer with
      | none =>
        simp only [List.map_nil, List.nil_append, Trace.follow_cons, Deposit.step, Option.bind_some,
          Trace.follow_nil, Option.some.injEq, exists_eq_left', hrec, List.length_nil, Nat.zero_le,
          true_and, true_iff]
        intro a ha
        exact absurd ((hpaid a).mpr ha) (by simp)
      | some a =>
        simp only [List.map_nil, List.nil_append, Trace.follow_cons, Deposit.step, List.length_nil,
          Nat.zero_le, true_and]
        constructor
        · rintro ⟨d', hd', -⟩ payer hq
          obtain rfl := Option.some.inj ((hpaid payer).mpr hq)
          by_contra hwrong
          rw [if_neg hwrong] at hd'
          cases hd'
        · intro hall
          rw [if_pos (hall a ((hpaid a).mp rfl))]
          exact ⟨_, rfl, hrec⟩
  · -- no vote ends: at most a proposal is stored where none was
    have hcond : RefundsRightAt K past s b id := fun record c outcome he => absurd he (hnone record)
    rw [hgov, List.append_nil]
    cases hget : s.proposals.get id with
    | some record =>
      obtain ⟨after, hafter, hon⟩ := hsome record hget
      obtain ⟨hbody, hiff⟩ := hon.resolved_iff
      rw [hold record hget, hafter]
      refine iff_of_true ⟨d, rfl, ?_⟩ ⟨by simp, hcond⟩
      rw [hget] at hd
      cases d with
      | vacant => cases hd
      | held payer p =>
        obtain ⟨record', heq, rfl, hr⟩ := hd
        obtain rfl := Option.some.inj heq
        exact ⟨after, rfl, hbody, fun hr' => hr (hiff.mp hr')⟩
      | closed p =>
        obtain ⟨record', heq, rfl, hr⟩ := hd
        obtain rfl := Option.some.inj heq
        exact ⟨after, rfl, hbody, hiff.mpr hr⟩
    | none =>
      have hvacant : d = .vacant := by
        rw [hget] at hd
        cases d with
        | vacant => rfl
        | held payer p => obtain ⟨_, hr, -⟩ := hd; cases hr
        | closed p => obtain ⟨_, hr, -⟩ := hd; cases hr
      rw [hvacant, habsent hget]
      cases hl : storedUnder K id (b, r) with
      | nil =>
        refine iff_of_true ⟨.vacant, rfl, ?_⟩ ⟨by simp, hcond⟩
        show ctx.commit.proposals.get id = none
        by_cases hid : id = s.nextProposalId
        · rw [hstored, if_pos hid] at hl
          have hlast := hrecord.2 hid
          rw [hl] at hlast
          exact hlast.trans hget
        · exact (hrecord.1 hid).trans hget
      | cons q rest =>
        cases rest with
        | nil =>
          have hid : id = s.nextProposalId := by
            by_contra hne
            rw [hstored, if_neg hne] at hl
            cases hl
          rw [hstored, if_pos hid] at hl
          have hlast := hrecord.2 hid
          rw [hl] at hlast
          obtain ⟨record, hrec, hprop, hphase⟩ := hlast
          exact iff_of_true ⟨.held (some q.1) q.2, rfl, record, hrec, hprop, fun hr => hr.1 hphase⟩
            ⟨by simp, hcond⟩
        | cons q' rest => simp [Deposit.step]

/-! ## Runs -/

theorem runDeposits_snoc (id : U64) (past : List (Block × Replay)) (p : Block × Replay) :
    runDeposits K id (past ++ [p]) = runDeposits K id past ++ blockDeposits K id p := by
  simp [runDeposits]

theorem depositOf_records (s : State) (id : U64) : (depositOf s id).Records (s.proposals.get id) := by
  unfold depositOf
  split
  · rename_i hget
    exact hget
  · rename_i record hget
    split
    · rename_i hr
      exact ⟨record, hget, rfl, hr⟩
    · rename_i hr
      exact ⟨record, hget, rfl, hr⟩

/-- A block is orderly when it is for every id. -/
theorem depositsOrderly_iff {s s' : State} {b : Block} {r : Replay} {past : List (Block × Replay)}
    (h : Commits K s b r s') : DepositsOrderly K past (b, r) ↔
      ∀ id, (storedUnder K id (b, r)).length ≤ 1 ∧ RefundsRightAt K past s b id := by
  obtain ⟨ctx, htxs, -, -⟩ := commits_governance h
  have hstate := (commits_txs h).1
  have honce := proposesOnce_iff htxs
  rw [State.beginBlock_state, State.beginBlock_commit, if_pos rfl] at honce
  constructor
  · intro ho id
    refine ⟨?_, ?_⟩
    · simp only [storedUnder, hstate]
      split
      · have hfirst := ho.once
        simp only [hstate] at hfirst
        exact honce.mp hfirst
      · simp
    · have hright := ho.refunds
      simp only [hstate] at hright
      exact hright id
  · intro hall
    refine ⟨?_, ?_⟩
    · simp only [hstate]
      refine honce.mpr ?_
      have hlen := (hall s.nextProposalId).1
      simp only [storedUnder, hstate, if_true] at hlen
      exact hlen
    · simp only [hstate]
      exact fun id => (hall id).2

end

/-- Throughout a run every proposal has an id of its own and its deposit goes back once and in full to
whoever paid it, or to nobody after a veto, exactly when every block of it is orderly. -/
theorem deposits_conserved {K : Primitives} {s t : State} {hist : List (Block × Replay)}
    (hw : WellFormed s) (run : Run K s hist t) :
    Throughout K s (DepositsConserved K s) hist ↔
      ∀ past p rest, hist = past ++ p :: rest → DepositsOrderly K past p := by
  refine throughout_iff (fun id => ⟨_, rfl, depositOf_records s id⟩) ?_ run
  intro past u b r u' _ _ hu _ hpast hstep
  rw [depositsOrderly_iff hstep]
  refine forall_congr' fun id => ?_
  obtain ⟨d, hfollow, hrec⟩ := hpast id
  rw [runDeposits_snoc]
  simp only [Trace.follow_append, hfollow, Option.bind_some]
  exact blockDeposits_follow_iff (run_keeps_wellFormed hw hu) hstep id hrec
    (fun payer p hd a => held_payer (hfollow.trans (congrArg some hd)) a)

/-! ## A deposit that comes back, one that is lost, one that goes to a stranger -/

/-- The address of the key the proposals are signed with. -/
def proposerAddr : Address := deriveAddressFromSigner toyPrimitives ⟨.ed25519, [7]⟩

/-- The proposer holds three deposits. -/
def wealthyState : State := { State.empty with
  accounts := Column.empty.insert proposerAddr ⟨30000000000000, 0⟩ }

theorem wealthyState_wellFormed : WellFormed wealthyState where
  keyed := ⟨fun _ _ h => (by cases h), fun _ _ h => (by cases h)⟩
  unbondIds := fun _ _ h => by cases h
  proposals := fun _ _ h => by cases h

/-- A proposal of the proposer's key that names `proposer`. -/
def proposalTx (proposer : Address) (title : String) : SignedTransaction :=
  unsigned [7] (.govProposal ⟨0, proposer, 10000000000000, title, "", 0, 100, none⟩)

theorem proposed_replays : (replayBlock toyPrimitives wealthyState
    (bodyAt 1 [proposalTx proposerAddr "raise the fee"])).toOption.isSome = true := by decide

def proposedState : State := persist toyPrimitives (returned _ proposed_replays).ctx
  (sealBlock toyPrimitives wealthyState (bodyAt 1 [proposalTx proposerAddr "raise the fee"]))

theorem opened_replays :
    (replayBlock toyPrimitives proposedState (bodyAt 3600 [])).toOption.isSome = true := by decide

def openedState : State := persist toyPrimitives (returned _ opened_replays).ctx
  (sealBlock toyPrimitives proposedState (bodyAt 3600 []))

theorem rejected_replays :
    (replayBlock toyPrimitives openedState (bodyAt 7200 [])).toOption.isSome = true := by decide

/-- A proposal without votes: its deposit goes back with the second epoch boundary. -/
theorem deposits_conserved_rejected : ∃ hist t, Run toyPrimitives wealthyState hist t ∧
    runDeposits toyPrimitives 0 hist =
      [.paid proposerAddr ⟨0, proposerAddr, 10000000000000, "raise the fee", "", 0, 100, none⟩,
        .resolved .rejected proposerAddr 10000000000000] ∧
    Throughout toyPrimitives wealthyState (DepositsConserved toyPrimitives wealthyState) hist := by
  have step₁ : Commits toyPrimitives wealthyState _ _ proposedState :=
    sealBlock_commits (eq_ok_returned proposed_replays)
  have step₂ : Commits toyPrimitives proposedState _ _ openedState :=
    sealBlock_commits (eq_ok_returned opened_replays)
  have step₃ := sealBlock_commits (eq_ok_returned rejected_replays)
  have run := ((Run.nil.snoc step₁).snoc step₂).snoc step₃
  refine ⟨_, _, run, by decide, (deposits_conserved wealthyState_wellFormed run).mpr ?_⟩
  intro past p rest heq
  simp only [List.nil_append, List.cons_append] at heq
  rcases past with _ | ⟨p₁, _ | ⟨p₂, _ | ⟨p₃, past⟩⟩⟩
  · obtain ⟨rfl, -⟩ := List.cons.inj heq
    refine ⟨?_, fun id record c outcome hends => ?_⟩
    · simp only [(commits_txs step₁).1, sealBlock_txs]
      exact ⟨fun _ _ _ => rfl, fun _ _ _ => trivial⟩
    · have hb := hends.boundary
      rw [sealBlock_height] at hb
      exact absurd hb (by decide)
  · simp only [List.cons_append, List.nil_append, List.cons.injEq] at heq
    obtain ⟨rfl, rfl, -⟩ := heq
    refine ⟨?_, fun id record c outcome hends => ?_⟩
    · simp only [(commits_txs step₂).1, sealBlock_txs]
      exact trivial
    · have hstored := hends.stored
      simp only [(commits_txs step₂).1] at hstored
      have hall : ∀ e ∈ proposedState.proposals.entries, e.2.phase = .discussion := by decide
      have hphase := hall _ (Column.get_eq_some.mp hstored)
      rw [hends.ended.1] at hphase
      cases hphase
  · simp only [List.cons_append, List.nil_append, List.cons.injEq] at heq
    obtain ⟨rfl, rfl, rfl, -⟩ := heq
    refine ⟨?_, fun id record c outcome hends hmeets heval hv payer q hq => ?_⟩
    · simp only [(commits_txs step₃).1, sealBlock_txs]
      exact trivial
    · simp only [(commits_txs step₃).1] at hends hmeets
      obtain ⟨start, before, record', after, hstart, hsplit, hbefore⟩ := hmeets
      have hone : openedState.iterProposals.length = 1 := by decide
      have hnil : before = [] := by
        rw [hsplit, List.length_append, List.length_cons] at hone
        exact List.length_eq_zero_iff.mp (by omega)
      subst hnil
      simp only [List.foldlM_nil, pure_eq_ok] at hbefore
      subst hbefore
      have hid : ∀ e ∈ openedState.proposals.entries, e.1 = 0 ∧ e.2.proposal.proposer = proposerAddr ∧
          e.2.proposal.deposit.val = 10000000000000 := by decide
      obtain ⟨rfl, hproposer, hdeposit⟩ := hid _ (Column.get_eq_some.mp hends.stored)
      have hpayer : payer = proposerAddr := by
        have hpaid : ∀ e ∈ runDeposits toyPrimitives 0
            [(sealBlock toyPrimitives wealthyState (bodyAt 1 [proposalTx proposerAddr "raise the fee"]),
                returned _ proposed_replays),
              (sealBlock toyPrimitives proposedState (bodyAt 3600 []), returned _ opened_replays)],
            e = .paid proposerAddr
              ⟨0, proposerAddr, 10000000000000, "raise the fee", "", 0, 100, none⟩ := by
          decide
        exact (DepositEvent.paid.inj (hpaid _ hq)).1
      have hbalance : ((governanceStart toyPrimitives openedState (sealBlock toyPrimitives openedState
          (bodyAt 7200 []))).toOption.map (fun o => o.map
            (fun c => (c.account proposerAddr).balance.val))) = some (some 20000000000000) := by
        decide
      rw [hstart] at hbalance
      have hval : (start.account proposerAddr).balance.val = 20000000000000 :=
        Option.some.inj (Option.some.inj hbalance)
      rw [hpayer, hproposer, hval, hdeposit]
      exact ⟨rfl, by decide⟩
  · have hlen := congrArg List.length heq
    simp only [List.length_cons, List.length_append, List.length_nil] at hlen
    omega

theorem twoProposals_run : (runBodies toyPrimitives wealthyState [bodyAt 1
    [proposalTx proposerAddr "raise the fee", proposalTx proposerAddr "lower the fee"]]).isSome = true := by
  decide

theorem stranger_run : (runBodies toyPrimitives wealthyState
    [bodyAt 1 [proposalTx 9 "raise the fee"], bodyAt 3600 [], bodyAt 7200 []]).isSome = true := by
  decide

/-- Two proposals in one block share an id, and the first is overwritten with its deposit; a proposal
that names somebody else pays its deposit out to them. -/
theorem deposits_lost :
    (∃ hist t, Run toyPrimitives wealthyState hist t ∧
      (runDeposits toyPrimitives 0 hist).length = 2 ∧ t.proposals.entries.length = 1 ∧
      balanceOf t proposerAddr = 10000000000000 ∧
      ¬ DepositsConserved toyPrimitives wealthyState hist t) ∧
    ∃ hist t, Run toyPrimitives wealthyState hist t ∧ balanceOf t 9 = 10000000000000 ∧
      ¬ DepositsConserved toyPrimitives wealthyState hist t := by
  refine ⟨⟨_, _, runBodies_get twoProposals_run, by decide, by decide,
    by decide, fun h => ?_⟩, ⟨_, _, runBodies_get stranger_run, by decide, fun h => ?_⟩⟩
  · obtain ⟨d, hd, -⟩ := h 0
    have hnone : Trace.follow Deposit.step (depositOf wealthyState 0) (runDeposits toyPrimitives 0
        ((runBodies toyPrimitives wealthyState [bodyAt 1 [proposalTx proposerAddr "raise the fee",
          proposalTx proposerAddr "lower the fee"]]).get twoProposals_run).1) = none := by decide
    rw [hnone] at hd
    cases hd
  · obtain ⟨d, hd, -⟩ := h 0
    have hnone : Trace.follow Deposit.step (depositOf wealthyState 0) (runDeposits toyPrimitives 0
        ((runBodies toyPrimitives wealthyState [bodyAt 1 [proposalTx 9 "raise the fee"], bodyAt 3600 [],
          bodyAt 7200 []]).get stranger_run).1) = none := by decide
    rw [hnone] at hd
    cases hd

end Arknet.Laws
