import Arknet.Laws.Authorization

/-!
Who writes votes and registry records. A vote names its voter, a registration its operator, a removal
only its node; nothing compares them with the signer or with the operator on record. So at any point
of any run the records that exist are anybody's to change, and the rule that only owners change them
holds exactly where there is nothing to change.
-/

namespace Arknet.Laws

open Machine Store Arknet.Chain Arknet.Staking Arknet.Payments Arknet.Governance Arknet.Consensus

/-- The operator of the last registration of the node, after one more transaction. -/
def noteTee (node : NodeId) (operator : Option Address) (stx : SignedTransaction) : Option Address :=
  match stx.tx with
  | .registerTeeCapability n op _ => if n = node then some op else operator
  | _ => operator

/-- The operator that registered the node's TEE capability. The record does not name it: it is the
operator of the last registration, or the one the run started with. -/
def teeOperator (start : NodeId → Option Address) (past : List SignedTransaction) (node : NodeId) :
    Option Address := past.foldl (noteTee node) (start node)

section

variable (K : Primitives)

/-- A point of a run: what has been applied, and the context in which the next transaction would be. -/
inductive Point (s : State) : List SignedTransaction → BlockCtx → Prop where
  | mk {hist : List (Block × Replay)} {t : State} {txs : List SignedTransaction} {ctx : BlockCtx}
      {os : List TxOutcome} (run : Run K s hist t) (block : applyTxs K t.beginBlock txs = .ok (ctx, os)) :
      Point s (appliedOf hist ++ appliedTxs txs os) ctx

/-- Whatever the next transaction is: a vote it records, a gateway or TEE record it replaces or
removes, belongs to the key that signed it. -/
structure OwnersOnly (start : NodeId → Option Address) (past : List SignedTransaction)
    (ctx : BlockCtx) : Prop where
  votes : ∀ stx ctx' o, applyTx K ctx stx = .ok (ctx', o) → ∀ k choice,
    ctx'.commit.votes.get k = some choice → ctx.commit.votes.get k ≠ some choice → SignedBy K stx k.voter
  gateways : ∀ stx ctx' o, applyTx K ctx stx = .ok (ctx', o) → ∀ node g,
    ctx.commit.gateways.get node = some g → ctx'.commit.gateways.get node ≠ some g →
      SignedBy K stx g.operator
  tee : ∀ stx ctx' o, applyTx K ctx stx = .ok (ctx', o) → ∀ node capability operator,
    ctx.commit.tee.get node = some capability → teeOperator start past node = some operator →
      ctx'.commit.tee.get node ≠ some capability → SignedBy K stx operator

end

/-- No proposal in its voting phase lacks anybody's vote, and no record is registered. -/
structure NothingOwned (ctx : BlockCtx) : Prop where
  votes : ∀ id record, ctx.getProposal id = some record → record.phase = .voting →
    ∀ voter, ctx.getVote ⟨id, voter⟩ ≠ none
  gateways : ∀ node, ctx.commit.gateways.get node = none
  tee : ∀ node, ctx.commit.tee.get node = none

section

variable {K : Primitives} {ctx ctx' : BlockCtx} {stx : SignedTransaction} {o : TxOutcome}
  {start : NodeId → Option Address} {past : List SignedTransaction}

/-- Between two blocks. -/
theorem point_between {s t : State} {hist : List (Block × Replay)} (run : Run K s hist t) :
    Point K s (appliedOf hist) t.beginBlock := by
  have h := Point.mk run (show applyTxs K t.beginBlock [] = .ok (t.beginBlock, []) from rfl)
  simpa [appliedTxs] using h

/-! ## The operators of TEE records -/

/-- The operator of every TEE record is known. -/
def TeeTracked (start : NodeId → Option Address) (past : List SignedTransaction) (ctx : BlockCtx) : Prop :=
  ∀ node, ctx.commit.tee.get node ≠ none → teeOperator start past node ≠ none

theorem teeOperator_snoc (start : NodeId → Option Address) (past : List SignedTransaction)
    (stx : SignedTransaction) (node : NodeId) :
    teeOperator start (past ++ [stx]) node = noteTee node (teeOperator start past node) stx := by
  simp [teeOperator]

theorem noteTee_ne_none {node : NodeId} {operator : Option Address} (h : operator ≠ none) :
    noteTee node operator stx ≠ none := by
  unfold noteTee
  split
  · split
    · simp
    · exact h
  · exact h

theorem TeeTracked.snoc (ht : TeeTracked start past ctx) (h : applyTx K ctx stx = .ok (ctx', o)) :
    TeeTracked start (if o.isApplied then past ++ [stx] else past) ctx' := by
  by_cases hreg : ∃ node operator capability, stx.tx = .registerTeeCapability node operator capability
  · obtain ⟨n, operator, capability, htx⟩ := hreg
    simp only [applyTx, htx] at h
    rcases applyRegisterTee_ok h with ⟨rfl, ho⟩ | ⟨rfl, rfl⟩
    · rw [ho]
      exact ht
    · intro node hget
      simp only [BlockCtx.setTeeCapability_commit, Column.get_write] at hget
      simp only [TxOutcome.isApplied, ↓reduceIte, teeOperator_snoc, noteTee, htx]
      split
      · simp
      · rename_i hne
        rw [if_neg hne] at hget
        exact ht node hget
  · push Not at hreg
    have htee := (applyTx_frame h).tee hreg
    intro node hget
    rw [htee] at hget
    split
    · rw [teeOperator_snoc]
      exact noteTee_ne_none (ht node hget)
    · exact ht node hget

theorem TeeTracked.append {txs : List SignedTransaction} {os : List TxOutcome}
    (ht : TeeTracked start past ctx) (h : applyTxs K ctx txs = .ok (ctx', os)) :
    TeeTracked start (past ++ appliedTxs txs os) ctx' := by
  induction txs generalizing past ctx os with
  | nil =>
    obtain ⟨rfl, rfl⟩ := applyTxs_nil_ok.mp h
    simpa [appliedTxs] using ht
  | cons stx rest ih =>
    obtain ⟨mid, o, os', h₁, h₂, rfl⟩ := applyTxs_cons_ok.mp h
    have hnext := ih (ht.snoc h₁) h₂
    rw [appliedTxs_cons]
    split
    · rename_i ho
      rw [if_pos ho, List.append_assoc] at hnext
      exact hnext
    · rename_i ho
      rw [if_neg ho] at hnext
      exact hnext

/-- Only transactions write votes and registry records: a block leaves them as its transactions do. -/
theorem commits_records {s s' : State} {b : Block} {r : Replay} (h : Commits K s b r s') :
    ∃ ctx, applyTxs K s.beginBlock b.txs = .ok (ctx, r.outcomes) ∧ s'.votes = ctx.commit.votes ∧
      s'.gateways = ctx.commit.gateways ∧ s'.tee = ctx.commit.tee := by
  obtain ⟨-, ctx, htxs, hframe⟩ := commits_txs h
  obtain ⟨blocks, idx, hp⟩ := persist_columns (K := K) r.ctx b
  rw [h.stored, hp]
  exact ⟨ctx, htxs, hframe.votes, hframe.gateways, hframe.tee⟩

theorem run_teeTracked {s t : State} {hist : List (Block × Replay)}
    (h0 : TeeTracked start [] s.beginBlock) (run : Run K s hist t) :
    TeeTracked start (appliedOf hist) t.beginBlock := by
  induction run with
  | nil => exact h0
  | snoc run step ih =>
    obtain ⟨ctx, htxs, -, -, htee⟩ := commits_records step
    have hblock := ih.append htxs
    intro node hget
    rw [State.beginBlock_commit, htee] at hget
    simpa [appliedOf] using hblock node hget

theorem point_teeTracked {s : State} (h0 : TeeTracked start [] s.beginBlock) (h : Point K s past ctx) :
    TeeTracked start past ctx := by
  obtain ⟨run, block⟩ := h
  exact (run_teeTracked h0 run).append block

/-! ## What anybody can do -/

/-- A choice that is not the one on record. -/
def otherChoice (recorded : Option VoteChoice) : VoteChoice := if recorded = some .yes then .no else .yes

theorem otherChoice_ne (recorded : Option VoteChoice) : recorded ≠ some (otherChoice recorded) := by
  unfold otherChoice
  split
  · rename_i h
    rw [h]
    simp
  · rename_i h
    exact h

/-- A capability that passes the structural checks and is not the one on record. -/
def otherCapability (recorded : TeeCapability) : TeeCapability :=
  ⟨.armCca, List.replicate 128 (if recorded.quote.headD 0 = 0 then 1 else 0), ⟨.ed25519, []⟩⟩

theorem otherCapability_ne (recorded : TeeCapability) : otherCapability recorded ≠ recorded := by
  intro h
  have hhead : (otherCapability recorded).quote.headD 0 = recorded.quote.headD 0 := by rw [h]
  simp only [otherCapability, List.replicate_succ, List.headD_cons] at hhead
  split at hhead
  · rename_i hz
    rw [hz] at hhead
    cases hhead
  · rename_i hz
    exact hz hhead.symm

theorem otherCapability_applies (recorded : TeeCapability) (node : NodeId) (operator : Address) :
    applyTx K ctx (unsigned [] (.registerTeeCapability node operator (otherCapability recorded))) =
      .ok (ctx.setTeeCapability node (otherCapability recorded), .applied REGISTER_TEE_GAS) := rfl

theorem not_signedBy_unsigned {signer : List UInt8} {tx : Transaction} {a : Address} :
    ¬ SignedBy K (unsigned signer tx) a := by
  rintro ⟨h, -⟩
  rw [unsigned_verifies] at h
  cases h

/-- An open vote can be cast by anybody in anybody's name. -/
theorem vote_forged {id : U64} {record : ProposalRecord} {voter : Address}
    (hget : ctx.getProposal id = some record) (hphase : record.phase = .voting)
    (hnone : ctx.getVote ⟨id, voter⟩ = none) (choice : VoteChoice) :
    applyTx K ctx (unsigned [] (.govVote id voter choice)) =
      .ok (ctx.setVote ⟨id, voter⟩ choice, .applied GOV_VOTE_GAS) := by
  simp only [applyTx, unsigned, applyGovVote, hget, hphase, hnone, ne_eq, not_true_eq_false, ↓reduceIte,
    Option.isSome_none, Bool.false_eq_true]
  rfl

theorem nothingOwned_of_ownersOnly (ht : TeeTracked start past ctx) (h : OwnersOnly K start past ctx) :
    NothingOwned ctx where
  votes := by
    intro id record hget hphase voter hnone
    refine not_signedBy_unsigned (h.votes _ _ _ (vote_forged hget hphase hnone
      (otherChoice (ctx.commit.votes.get ⟨id, voter⟩))) ⟨id, voter⟩ _ ?_ (otherChoice_ne _))
    rw [BlockCtx.setVote_commit, Column.get_write, if_pos rfl]
  gateways := by
    intro node
    by_contra hne
    obtain ⟨g, hg⟩ := Option.ne_none_iff_exists'.mp hne
    refine not_signedBy_unsigned (h.gateways (unsigned [] (.unregisterGateway node 0)) _ _ rfl node g hg ?_)
    rw [BlockCtx.deleteGateway_commit, Column.get_write, if_pos rfl]
    simp
  tee := by
    intro node
    by_contra hne
    obtain ⟨capability, hc⟩ := Option.ne_none_iff_exists'.mp hne
    obtain ⟨operator, hop⟩ := Option.ne_none_iff_exists'.mp (ht node hne)
    refine not_signedBy_unsigned (h.tee _ _ _ (otherCapability_applies capability node operator) node
      capability operator hc hop ?_)
    rw [BlockCtx.setTeeCapability_commit, Column.get_write, if_pos rfl]
    simpa using otherCapability_ne capability

/-- Only an applied vote records a vote, and only its own. -/
theorem vote_recorded (h : applyTx K ctx stx = .ok (ctx', o)) {k : VoteKey} {choice : VoteChoice}
    (hnew : ctx'.commit.votes.get k = some choice) (hold : ctx.commit.votes.get k ≠ some choice) :
    stx.tx = .govVote k.proposalId k.voter choice ∧ ctx.getVote k = none ∧
      ∃ record, ctx.getProposal k.proposalId = some record ∧ record.phase = .voting := by
  by_cases hvote : ∃ id voter c, stx.tx = .govVote id voter c
  · obtain ⟨id, voter, c, htx⟩ := hvote
    simp only [applyTx, htx] at h
    rcases applyGovVote_ok h with ⟨rfl, -⟩ | ⟨-, hrec, hnone, rfl⟩
    · exact absurd hnew hold
    · rw [BlockCtx.setVote_commit, Column.get_write] at hnew
      split at hnew
      · rename_i hk
        subst hk
        rw [← Option.some.inj hnew]
        exact ⟨htx, hnone, hrec⟩
      · exact absurd hnew hold
  · push Not at hvote
    rw [(applyTx_frame h).votes hvote] at hnew
    exact absurd hnew hold

theorem ownersOnly_of_nothingOwned (h : NothingOwned ctx) : OwnersOnly K start past ctx where
  votes := by
    intro stx ctx' o hstep k choice hnew hold
    obtain ⟨-, hnone, record, hget, hphase⟩ := vote_recorded hstep hnew hold
    exact absurd hnone (h.votes k.proposalId record hget hphase k.voter)
  gateways := by
    intro stx ctx' o _ node g hg
    rw [h.gateways node] at hg
    cases hg
  tee := by
    intro stx ctx' o _ node capability operator hc
    rw [h.tee node] at hc
    cases hc

end

/-- At every point of every run, only owners can write votes and records exactly when there is no vote
to cast and no record to change. -/
theorem records_owned {K : Primitives} {s : State} {start : NodeId → Option Address}
    {past : List SignedTransaction} {ctx : BlockCtx}
    (h0 : ∀ node, s.tee.get node ≠ none → start node ≠ none) (h : Point K s past ctx) :
    OwnersOnly K start past ctx ↔ NothingOwned ctx :=
  ⟨nothingOwned_of_ownersOnly (point_teeTracked h0 h), ownersOnly_of_nothingOwned⟩

/-- After a committed transfer there is still nothing that anybody owns. -/
theorem records_owned_transfer : ∃ past ctx, Point toyPrimitives ownerState past ctx ∧
    past = [ownerTransfer] ∧ OwnersOnly toyPrimitives (fun _ => none) past ctx := by
  have step := sealBlock_commits (eq_ok_returned ownerTransfer_replays)
  have point := point_between (Run.nil.snoc step)
  refine ⟨_, _, point, by decide, (records_owned (fun _ h => absurd rfl h) point).mpr ?_⟩
  have hproposals : (persist toyPrimitives (returned _ ownerTransfer_replays).ctx
      (sealBlock toyPrimitives ownerState (bodyAt 1 [ownerTransfer]))).proposals.entries = [] := by
    decide
  refine ⟨fun id record hget => ?_, Column.get_of_entries_nil (by decide),
    Column.get_of_entries_nil (by decide)⟩
  rw [BlockCtx.getProposal, State.beginBlock_state, Column.get_of_entries_nil hproposals] at hget
  cases hget

def gatewayBody : Block :=
  bodyAt 1 [toySigned ownerKey (.registerGateway 1 owner "http://gateway" false)]

def hijackBody : Block := bodyAt 2 [unsigned [] (.registerGateway 1 9 "http://elsewhere" false)]

theorem gatewayBody_replays : (replayBlock toyPrimitives State.empty gatewayBody).toOption.isSome = true := by
  decide

def gatewayState : State :=
  persist toyPrimitives (returned _ gatewayBody_replays).ctx (sealBlock toyPrimitives State.empty gatewayBody)

theorem hijackBody_replays : (replayBlock toyPrimitives gatewayState hijackBody).toOption.isSome = true := by
  decide

/-- The owner registers its gateway; the next block replaces the record without any signature. -/
theorem gateway_hijacked : ∃ hist t, Run toyPrimitives State.empty hist t ∧
    appliedOf hist = gatewayBody.txs ++ hijackBody.txs ∧
    (∃ g, gatewayState.gateways.get 1 = some g ∧ g.operator = owner) ∧
    (∃ g, t.gateways.get 1 = some g ∧ g.operator = 9) ∧
    Point toyPrimitives State.empty gatewayBody.txs gatewayState.beginBlock ∧
    ¬ OwnersOnly toyPrimitives (fun _ => none) gatewayBody.txs gatewayState.beginBlock := by
  have step₁ : Commits toyPrimitives State.empty _ _ gatewayState :=
    sealBlock_commits (eq_ok_returned gatewayBody_replays)
  have step₂ := sealBlock_commits (eq_ok_returned hijackBody_replays)
  have hfirst : ∃ g, gatewayState.gateways.get 1 = some g ∧ g.operator = owner :=
    ⟨⟨1, owner, "http://gateway", false, 0⟩, by decide, rfl⟩
  have point : Point toyPrimitives State.empty gatewayBody.txs gatewayState.beginBlock := by
    have h := point_between (Run.nil.snoc step₁)
    have happ : appliedOf ([] ++ [(sealBlock toyPrimitives State.empty gatewayBody,
        returned _ gatewayBody_replays)]) = gatewayBody.txs := by decide
    rwa [happ] at h
  refine ⟨_, _, (Run.nil.snoc step₁).snoc step₂, by decide, hfirst,
    ⟨⟨1, 9, "http://elsewhere", false, 1⟩, by decide, rfl⟩, point, fun h => ?_⟩
  obtain ⟨g, hg, -⟩ := hfirst
  refine not_signedBy_unsigned (h.gateways (unsigned [] (.unregisterGateway 1 9)) _ _ rfl 1 g hg ?_)
  rw [BlockCtx.deleteGateway_commit, Column.get_write, if_pos rfl]
  simp

end Arknet.Laws
