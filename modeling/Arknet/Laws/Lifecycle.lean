import Arknet.Laws.Votes

/-!
The phases of a proposal. Two writers share the column: submissions write under the committed counter's
value, where nothing is stored, and the hook moves each committed record by one phase at most. So no
record that is past its vote is written again, whatever the headers' timestamps (`proposal_lifecycle`).
-/

namespace Arknet.Laws

open Machine Store Arknet.Chain Arknet.Staking Arknet.Payments Arknet.Governance Arknet.Consensus

/-! ## Phases -/

/-- The committed phase of a proposal. -/
def phaseOf (s : State) (id : U64) : Option ProposalPhase := (s.proposals.get id).map (·.phase)

/-- What one block may do to a committed phase. -/
inductive PhaseMove : Option ProposalPhase → Option ProposalPhase → Prop where
  | stays (phase : Option ProposalPhase) : PhaseMove phase phase
  | submitted : PhaseMove none (some .discussion)
  | opened : PhaseMove (some .discussion) (some .voting)
  | resolved (outcome : TallyOutcome) : PhaseMove (some .voting) (some (verdict outcome))

/-- What the hook does when it ends a vote. -/
inductive Settlement where
  | tallied
  | returned
  deriving DecidableEq, Repr

/-- A vote that ends is tallied, and unless it ends in a veto the deposit goes back. -/
def settledEvent (now : Timestamp) (id : U64) (_ : BlockCtx) (item : U64 × ProposalRecord)
    (ctx' : BlockCtx) : List Settlement :=
  if item.1 = id ∧ VoteEnds now item.2 then
    if (ctx'.commit.proposals.get id).any (fun record => record.phase = .rejectedWithVeto) then [.tallied]
    else [.tallied, .returned]
  else []

section

variable (K : Primitives)

def blockSettled (id : U64) (p : Block × Replay) : List Settlement :=
  governanceEvents K (settledEvent p.1.header.timestampMs id) p.2.ctx.state p.1

def runSettled (id : U64) (hist : List (Block × Replay)) : List Settlement := hist.flatMap (blockSettled K id)

/-- The life of a proposal over a run: wherever the run leads, the next block moves the phase one step at
most and applies votes only while the committed phase is voting; a record past its vote is final, with its
votes; and over the whole run it is tallied once when it gets there, and the deposit goes back at most
once. -/
structure Lifecycle (s : State) (hist : List (Block × Replay)) (t : State) (id : U64) : Prop where
  moves : ∀ b r t', Commits K t b r t' → PhaseMove (phaseOf t id) (phaseOf t' id)
  voting : ∀ b r t', Commits K t b r t' → ∀ v ∈ votesIn (appliedTxs b.txs r.outcomes),
    v.1.proposalId = id → phaseOf t id = some .voting
  final : ∀ later t', Run K t later t' → ∀ record, t.proposals.get id = some record → Resolved record →
    t'.proposals.get id = some record ∧ ∀ voter, t'.votes.get ⟨id, voter⟩ = t.votes.get ⟨id, voter⟩
  once : ResolvedAt t id → ¬ ResolvedAt s id → (runSettled K id hist).count .tallied = 1
  never : ResolvedAt s id ∨ ¬ ResolvedAt t id → (runSettled K id hist).count .tallied = 0
  refunds : (runSettled K id hist).count .returned ≤ 1

end

/-! ## One block -/

section

variable {K : Primitives} {s s' : State} {b : Block} {r : Replay} {id : U64}

theorem GoesOn.of_resolved {record after : ProposalRecord} (h : GoesOn record after)
    (hres : Resolved record) : after = record := by
  obtain rfl | ⟨hphase, -⟩ := h
  · rfl
  · exact absurd hphase hres.1

theorem commits_phase (hw : WellFormed s) (h : Commits K s b r s') (id : U64) :
    PhaseMove (phaseOf s id) (phaseOf s' id) := by
  obtain ⟨ctx, htxs, -⟩ := commits_governance h
  rcases governance_resolves id (fun _ _ _ => ([] : List Unit)) (fun _ _ _ _ => rfl) hw h htxs with
    ⟨record, c, c', hends, -, -, hmet, hadv, hafter, -⟩ | ⟨-, -, -, hsome, hnone⟩
  · obtain ⟨after, hget, hverdict, -⟩ := advanceProposal_record hmet hadv
    obtain ⟨outcome, rfl⟩ := hverdict hends.ended
    rw [phaseOf, phaseOf, hends.stored, hafter, hget, Option.map_some, Option.map_some, hends.ended.1]
    exact .resolved outcome
  · cases hget : s.proposals.get id with
    | some record =>
      obtain ⟨after, hafter, rfl | ⟨hphase, rfl⟩⟩ := hsome record hget
      · rw [phaseOf, phaseOf, hget, hafter]
        exact .stays _
      · rw [phaseOf, phaseOf, hget, hafter, Option.map_some, Option.map_some, hphase]
        exact .opened
    | none =>
      rw [phaseOf, phaseOf, hget, hnone hget]
      cases hctx : ctx.commit.proposals.get id with
      | none => exact .stays _
      | some record =>
        rw [Option.map_some, (applyTxs_stored hw htxs id).2 hget record hctx]
        exact .submitted

/-- A vote is applied only while the committed phase is voting. -/
theorem commits_voting (h : Commits K s b r s') {v : VoteKey × VoteChoice}
    (hv : v ∈ votesIn (appliedTxs b.txs r.outcomes)) : phaseOf s v.1.proposalId = some .voting := by
  obtain ⟨ctx, htxs, -⟩ := commits_governance h
  rw [(applyTxs_votes htxs).1, List.mem_filter] at hv
  obtain ⟨⟨record, hget, hphase⟩, -⟩ := voteOpen_iff.mp hv.2
  rw [State.beginBlock_state] at hget
  rw [phaseOf, hget, Option.map_some, hphase]

/-- A record past its vote is kept, with its votes. -/
theorem commits_final (hw : WellFormed s) (h : Commits K s b r s') {record : ProposalRecord}
    (hget : s.proposals.get id = some record) (hres : Resolved record) :
    s'.proposals.get id = some record ∧ ∀ voter, s'.votes.get ⟨id, voter⟩ = s.votes.get ⟨id, voter⟩ := by
  obtain ⟨ctx, htxs, hvotes, -⟩ := commits_governance h
  constructor
  · rcases governance_resolves id (fun _ _ _ => ([] : List Unit)) (fun _ _ _ _ => rfl) hw h htxs with
      ⟨record', c, c', hends, -⟩ | ⟨-, -, -, hsome, -⟩
    · exact absurd ⟨record, hget, hres⟩ hends.not_resolved
    · obtain ⟨after, hafter, hon⟩ := hsome record hget
      rw [hafter, hon.of_resolved hres]
  · intro voter
    have hclosed : voteOpen s ⟨id, voter⟩ = false := by
      by_contra hopen
      exact voteOpen_unresolved (by simpa using hopen) ⟨record, hget, hres⟩
    obtain ⟨hin, hrec⟩ := applyTxs_votes htxs
    have hnil := letIn_closed (b := b) hclosed
    rw [hvotes, hrec, hin]
    simp only [letIn] at hnil
    rw [State.beginBlock_state, hnil]
    rfl

/-- A block tallies a proposal when it takes it past its vote, and gives the deposit back at most then. -/
theorem commits_settled (hw : WellFormed s) (h : Commits K s b r s') (id : U64) :
    (¬ ResolvedAt s id ∧ ResolvedAt s' id ∧
      (blockSettled K id (b, r) = [.tallied] ∨ blockSettled K id (b, r) = [.tallied, .returned])) ∨
    ((ResolvedAt s' id ↔ ResolvedAt s id) ∧ blockSettled K id (b, r) = []) := by
  obtain ⟨ctx, htxs, -⟩ := commits_governance h
  have hevents : blockSettled K id (b, r) =
      governanceEvents K (settledEvent b.header.timestampMs id) s b := by
    rw [blockSettled, (commits_txs h).1]
  rw [hevents]
  rcases governance_resolves id (settledEvent b.header.timestampMs id) (fun c item c' hi => if_neg hi)
    hw h htxs with
    ⟨record, c, c', hends, -, -, hmet, hadv, hafter, hgov⟩ | ⟨-, hgov, hres, -, -⟩
  · obtain ⟨after, hget, hverdict, -⟩ := advanceProposal_record hmet hadv
    obtain ⟨outcome, rfl⟩ := hverdict hends.ended
    refine .inl ⟨hends.not_resolved, ⟨_, hafter.trans hget, resolved_verdict record outcome⟩, ?_⟩
    rw [hgov, settledEvent, if_pos ⟨rfl, hends.ended⟩]
    split
    · exact .inl rfl
    · exact .inr rfl
  · exact .inr ⟨hres, hgov⟩

end

/-! ## Runs -/

section

variable {K : Primitives} {s t : State} {hist : List (Block × Replay)} {id : U64}

theorem run_final (hw : WellFormed s) (run : Run K s hist t) {record : ProposalRecord}
    (hget : s.proposals.get id = some record) (hres : Resolved record) :
    t.proposals.get id = some record ∧ ∀ voter, t.votes.get ⟨id, voter⟩ = s.votes.get ⟨id, voter⟩ := by
  induction run with
  | nil => exact ⟨hget, fun _ => rfl⟩
  | snoc run step ih =>
    obtain ⟨hkept, hvotes⟩ := commits_final (run_keeps_wellFormed hw run) step ih.1 hres
    exact ⟨hkept, fun voter => (hvotes voter).trans (ih.2 voter)⟩

theorem runSettled_snoc (id : U64) (past : List (Block × Replay)) (p : Block × Replay) :
    runSettled K id (past ++ [p]) = runSettled K id past ++ blockSettled K id p := by
  simp [runSettled]

/-- The tallies and refunds of a run, by whether it took the proposal past its vote. -/
theorem run_settled (hw : WellFormed s) (run : Run K s hist t) (id : U64) :
    (ResolvedAt s id → ResolvedAt t id) ∧
    (runSettled K id hist).count .returned ≤ (runSettled K id hist).count .tallied ∧
    (ResolvedAt t id → ¬ ResolvedAt s id → (runSettled K id hist).count .tallied = 1) ∧
    (ResolvedAt s id ∨ ¬ ResolvedAt t id → (runSettled K id hist).count .tallied = 0) := by
  induction run with
  | nil => exact ⟨fun h => h, le_rfl, fun h hn => absurd h hn, fun _ => rfl⟩
  | snoc run step ih =>
    obtain ⟨hmono, hle, honce, hnever⟩ := ih
    rw [runSettled_snoc]
    simp only [List.count_append]
    rcases commits_settled (run_keeps_wellFormed hw run) step id with
      ⟨hbefore, hafter, hevents⟩ | ⟨hiff, hevents⟩
    · -- this block's tally is the first and the last
      have hzero := hnever (.inr hbefore)
      have hstart : ¬ ResolvedAt s id := fun hres => hbefore (hmono hres)
      refine ⟨fun _ => hafter, ?_, fun _ _ => ?_, fun hor => ?_⟩
      · rcases hevents with hevents | hevents <;> rw [hevents] <;> simp <;> omega
      · rcases hevents with hevents | hevents <;> rw [hevents, hzero] <;> rfl
      · exact absurd hor (by simp [hstart, hafter])
    · rw [hevents]
      simp only [List.count_nil, Nat.add_zero, hiff]
      exact ⟨hmono, hle, honce, hnever⟩

/-- Every proposal of every run lives its life. -/
theorem proposal_lifecycle (hw : WellFormed s) (run : Run K s hist t) (id : U64) :
    Lifecycle K s hist t id := by
  have hwt := run_keeps_wellFormed hw run
  obtain ⟨-, hle, honce, hnever⟩ := run_settled hw run id
  refine ⟨fun b r t' h => commits_phase hwt h id, ?_, fun later t' run' record => run_final hwt run', honce,
    hnever, ?_⟩
  · rintro b r t' h v hv rfl
    exact commits_voting h hv
  · apply Nat.le_trans hle
    by_cases hres : ResolvedAt t id ∧ ¬ ResolvedAt s id
    · exact le_of_eq (honce hres.1 hres.2)
    · rw [hnever (by tauto)]
      exact Nat.zero_le _

end

/-- Voted once at height 1, tallied at the boundary, the deposit returned. -/
theorem proposal_lifecycle_tallied : ∃ p q t, Run toyPrimitives ballotState [p, q] t ∧
    runSettled toyPrimitives 1 [p, q] = [.tallied, .returned] ∧
    Lifecycle toyPrimitives ballotState [p, q] t 1 := by
  have step₁ : Commits toyPrimitives ballotState _ _ votedState :=
    sealBlock_commits (eq_ok_returned oneVote_replays)
  have step₂ := sealBlock_commits (eq_ok_returned boundary_replays)
  have run := (Run.nil.snoc step₁).snoc step₂
  exact ⟨_, _, _, run, by decide, proposal_lifecycle ballotState_wellFormed run 1⟩

end Arknet.Laws
