import Arknet.Laws.Batching
import Arknet.Laws.Proposals

/-!
The life of a vote. `Ballot` is what a voter's ballot on a proposal should be: uncast, cast with one
choice, and closed by the tally, which counts the choice once with the voter's balance. The store
follows it along a run as long as no block takes two votes for one ballot or tallies a proposal it
takes votes on (`VotesOrderly`).
-/

namespace Arknet.Laws

open Machine Store Arknet.Chain Arknet.Staking Arknet.Payments Arknet.Governance Arknet.Consensus

/-! ## A ballot -/

/-- What happens to a ballot: a vote, or a tally with what it counted for the voter, who holds
`balance` at that moment. -/
inductive VoteEvent where
  | voted (choice : VoteChoice)
  | tallied (counted : List (VoteChoice × Amount)) (balance : Amount)
  deriving DecidableEq, Repr

inductive Ballot where
  | uncast
  | cast (choice : VoteChoice)
  | closed (choice : Option VoteChoice)
  deriving DecidableEq, Repr

/-- One vote fills a ballot; the tally counts what was cast, and nothing of an uncast ballot. -/
def Ballot.step : Ballot → VoteEvent → Option Ballot
  | .uncast, .voted choice => some (.cast choice)
  | .uncast, .tallied counted _ => if counted = [] then some (.closed none) else none
  | .cast choice, .tallied counted balance =>
    if counted = [(choice, balance)] then some (.closed (some choice)) else none
  | _, _ => none

/-- The votes of a list of transactions. -/
def votesIn (txs : List SignedTransaction) : List (VoteKey × VoteChoice) :=
  txs.filterMap (fun stx =>
    match stx.tx with
    | .govVote proposalId voter choice => some (⟨proposalId, voter⟩, choice)
    | _ => none)

/-- The votes for one ballot. -/
def votesFor (k : VoteKey) (votes : List (VoteKey × VoteChoice)) : List VoteChoice :=
  (votes.filter (fun v => v.1 = k)).map Prod.snd

/-- The votes a tally reads, each with its weight. -/
def countedVotes (ctx : BlockCtx) (id : U64) : List (Address × VoteChoice × Amount) :=
  (ctx.state.iterVotesForProposal id).map (fun v => (v.1, v.2, (ctx.account v.1).balance))

section

variable (K : Primitives)

end

/-! ## The condition -/

/-- A vote for this ballot is let in: its proposal is in the voting phase and no vote is recorded. -/
def voteOpen (s : State) (k : VoteKey) : Bool :=
  (s.proposals.get k.proposalId).any (fun record => record.phase = .voting) && (s.votes.get k).isNone

theorem tallyVotes_eq (ctx : BlockCtx) (id : U64) :
    tallyVotes ctx id = (countedVotes ctx id).foldl (fun t v => t.addVote v.2.1 v.2.2) .default := by
  rw [countedVotes, List.foldl_map]
  rfl

section

variable {K : Primitives} {ctx ctx' : BlockCtx}

theorem votesIn_append (xs ys : List SignedTransaction) : votesIn (xs ++ ys) = votesIn xs ++ votesIn ys :=
  List.filterMap_append

theorem votesIn_cons (stx : SignedTransaction) (txs : List SignedTransaction) :
    votesIn (stx :: txs) = votesIn [stx] ++ votesIn txs := votesIn_append [stx] txs

theorem votesIn_appliedTxs (stx : SignedTransaction) (o : TxOutcome) (txs : List SignedTransaction)
    (os : List TxOutcome) :
    votesIn (appliedTxs (stx :: txs) (o :: os)) =
      votesIn (appliedTxs [stx] [o]) ++ votesIn (appliedTxs txs os) := by
  simp only [appliedTxs_cons]
  split
  · exact votesIn_cons stx _
  · rfl

/-- One transaction applies the votes the committed store lets in, and records them. -/
theorem applyTx_votes {stx : SignedTransaction} {o : TxOutcome}
    (h : applyTx K ctx stx = .ok (ctx', o)) :
    votesIn (appliedTxs [stx] [o]) = (votesIn [stx]).filter (fun v => voteOpen ctx.state v.1) ∧
    ∀ k, ctx'.commit.votes.get k =
      ((votesFor k (votesIn (appliedTxs [stx] [o]))).getLast?).or (ctx.commit.votes.get k) := by
  cases htx : stx.tx with
  | govVote id voter choice =>
    simp only [applyTx, htx] at h
    have hone : votesIn [stx] = [(⟨id, voter⟩, choice)] := by simp [votesIn, htx]
    rcases applyGovVote_ok h with ⟨rfl, ho⟩ | ⟨rfl, ⟨record, hget, hphase⟩, hnone, rfl⟩
    · have hclosed : voteOpen ctx'.state ⟨id, voter⟩ = false := by
        by_contra hopen
        simp only [voteOpen, Bool.and_eq_true, Bool.not_eq_false, Option.any_eq_true,
          Option.isNone_iff_eq_none, decide_eq_true_eq] at hopen
        obtain ⟨⟨record, hget, hphase⟩, hnone⟩ := hopen
        have hget' : ctx'.getProposal id = some record := hget
        have hnone' : ctx'.getVote ⟨id, voter⟩ = none := hnone
        simp only [applyGovVote, hget', hphase, hnone', ne_eq, not_true_eq_false, ↓reduceIte,
          Option.isSome_none, Bool.false_eq_true] at h
        rw [(of_applied h).2] at ho
        cases ho
      rw [appliedTxs_cons, ho, hone, List.filter_cons_of_neg (by simp [hclosed])]
      exact ⟨rfl, fun k => rfl⟩
    · have hopen : voteOpen ctx.state ⟨id, voter⟩ = true := by
        simp [voteOpen, hget, hphase, hnone]
      have happ : votesIn (appliedTxs [stx] [.applied GOV_VOTE_GAS]) = [(⟨id, voter⟩, choice)] := by
        rw [appliedTxs_cons, ← hone]
        rfl
      simp only [happ, hone, List.filter_cons, hopen, ↓reduceIte, List.filter_nil]
      refine ⟨trivial, fun k => ?_⟩
      simp only [BlockCtx.setVote_commit, Column.get_write]
      split
      · rename_i hk
        simp [votesFor, hk]
      · rename_i hk
        simp [votesFor, hk]
  | _ =>
    have hnone : votesIn [stx] = [] := by simp [votesIn, htx]
    have happ : votesIn (appliedTxs [stx] [o]) = [] := by
      rw [appliedTxs_cons]
      split
      · exact hnone
      · rfl
    rw [happ, hnone, (applyTx_frame h).votes (by simp [htx])]
    exact ⟨rfl, fun k => rfl⟩

theorem applyTxs_votes {txs : List SignedTransaction} {os : List TxOutcome}
    (h : applyTxs K ctx txs = .ok (ctx', os)) :
    votesIn (appliedTxs txs os) = (votesIn txs).filter (fun v => voteOpen ctx.state v.1) ∧
    ∀ k, ctx'.commit.votes.get k =
      ((votesFor k (votesIn (appliedTxs txs os))).getLast?).or (ctx.commit.votes.get k) := by
  induction txs generalizing ctx os with
  | nil =>
    obtain ⟨rfl, rfl⟩ := applyTxs_nil_ok.mp h
    exact ⟨rfl, fun _ => rfl⟩
  | cons stx rest ih =>
    obtain ⟨mid, o, os', h₁, h₂, rfl⟩ := applyTxs_cons_ok.mp h
    obtain ⟨e₁, g₁⟩ := applyTx_votes h₁
    obtain ⟨e₂, g₂⟩ := ih h₂
    rw [applyTx_state h₁] at e₂
    rw [votesIn_appliedTxs]
    refine ⟨by rw [e₁, e₂, ← List.filter_append, ← votesIn_cons], fun k => ?_⟩
    rw [g₂ k, g₁ k]
    simp only [votesFor, List.filter_append, List.map_append, List.getLast?_append, Option.or_assoc]

end

/-! ## One block -/

theorem voteOpen_iff {s : State} {k : VoteKey} :
    voteOpen s k = true ↔ (∃ record, s.proposals.get k.proposalId = some record ∧ record.phase = .voting) ∧
      s.votes.get k = none := by
  simp [voteOpen, Option.any_eq_true]

theorem voteOpen_unresolved {s : State} {k : VoteKey} (h : voteOpen s k = true) :
    ¬ ResolvedAt s k.proposalId := by
  rintro ⟨record, hget, hres⟩
  obtain ⟨⟨record', hget', hphase⟩, -⟩ := voteOpen_iff.mp h
  rw [hget] at hget'
  obtain rfl := Option.some.inj hget'
  exact hres.2 hphase

/-- The votes a block lets in for a ballot. -/
def letIn (s : State) (b : Block) (k : VoteKey) : List VoteChoice :=
  votesFor k ((votesIn b.txs).filter (fun v => voteOpen s v.1))

theorem letIn_closed {s : State} {b : Block} {k : VoteKey} (h : voteOpen s k = false) :
    letIn s b k = [] := by
  rw [letIn, votesFor, List.filter_filter, List.map_eq_nil_iff, List.filter_eq_nil_iff]
  intro v _ hv
  simp only [Bool.and_eq_true, decide_eq_true_eq] at hv
  rw [hv.1, h] at hv
  cases hv.2

section

variable {K : Primitives}

end

/-- Proposal 1 is up for a vote, and address 7 holds a thousand atoms. -/
def ballotState : State := { soleHolder with
  proposals := Column.empty.insert 1 ⟨openProposal, .voting, 0⟩
  metaProposalId := some 2 }

theorem ballotState_wellFormed : WellFormed ballotState where
  keyed := ⟨fun _ _ h => (by cases h), fun _ _ h => (by cases h)⟩
  unbondIds := fun _ _ h => by cases h
  proposals := by
    intro id record h
    have hid : id = 1 := by
      by_contra hne
      have hnone : ballotState.proposals.get id = none := by
        rw [ballotState, Column.get_insert, if_neg (Ne.symm hne)]
        rfl
      rw [hnone] at h
      cases h
    rw [hid]
    decide

def voteTx (choice : VoteChoice) : SignedTransaction := unsigned [] (.govVote 1 7 choice)

theorem oneVote_replays :
    (replayBlock toyPrimitives ballotState (bodyAt 1 [voteTx .yes])).toOption.isSome = true := by
  decide

def votedState : State := persist toyPrimitives (returned _ oneVote_replays).ctx
  (sealBlock toyPrimitives ballotState (bodyAt 1 [voteTx .yes]))

theorem boundary_replays :
    (replayBlock toyPrimitives votedState (bodyAt 3600 [])).toOption.isSome = true := by decide

end Arknet.Laws
