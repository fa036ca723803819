import Arknet.Laws.Invariants

/-!
What a decided header pins down. The commit path compares one thing with the header, the root over
the accounts; the transaction root in the header is never compared with the body. A registration
writes no account, so a body with one more of them commits under the same header and leaves another
store (`twin_commits`).
-/

namespace Arknet.Laws

open Machine Store Arknet.Chain Arknet.Staking Arknet.Payments Arknet.Governance Arknet.Consensus

/-! ## Gateways are not read

Nothing that runs after the transactions looks at the gateways, so another gateway column goes through
unchanged. -/

/-- The context with another gateway buffer. -/
def withGateways (g : Overlay NodeId GatewayEntry) (ctx : BlockCtx) : BlockCtx :=
  { ctx with gateways := g }

section

variable (g : Overlay NodeId GatewayEntry)

theorem creditPositive_withGateways (ctx : BlockCtx) (a : Address) (amount : Amount) :
    (withGateways g ctx).creditPositive a amount = withGateways g (ctx.creditPositive a amount) := by
  unfold BlockCtx.creditPositive
  split <;> rfl

theorem slashStake_withGateways (percent : Amount) (acc : SlashAcc) (e : StakeEntry) :
    slashStake percent { acc with ctx := withGateways g acc.ctx } e =
      (fun acc => { acc with ctx := withGateways g acc.ctx }) <$> slashStake percent acc e := by
  simp only [slashStake, map_bind]
  congr
  funext product
  congr
  funext slash
  split
  · rfl
  · simp only [map_bind]
    rfl

theorem slashUnbonding_withGateways (node : NodeId) (percent : Amount) (acc : SlashAcc)
    (u : UnbondingEntry) :
    slashUnbonding node percent { acc with ctx := withGateways g acc.ctx } u =
      (fun acc => { acc with ctx := withGateways g acc.ctx }) <$> slashUnbonding node percent acc u := by
  simp only [slashUnbonding, map_bind]
  congr
  funext product
  congr
  funext slash
  split
  · rfl
  · simp only [map_bind]
    rfl

theorem applySlash_withGateways (ctx : BlockCtx) (node : NodeId) (role : StakeRole) (o : Offense)
    (reporter treasury : Address) :
    applySlash (withGateways g ctx) node role o reporter treasury =
      (fun out => (withGateways g out.1, out.2)) <$> applySlash ctx node role o reporter treasury := by
  have hstakes := foldlM_map_state (slashStake_withGateways g o.penaltyPercent)
    (slashableStakes ctx.state node role) ⟨ctx, 0, 0⟩
  have hunbond := foldlM_map_state (slashUnbonding_withGateways g node o.penaltyPercent)
    (slashableUnbondings ctx.state node role)
  have hs : slashableStakes (withGateways g ctx).state node role = slashableStakes ctx.state node role := rfl
  have hu : slashableUnbondings (withGateways g ctx).state node role =
      slashableUnbondings ctx.state node role := rfl
  simp only [applySlash, hs, hu, hstakes, map_bind, bind_map_left, hunbond]
  congr
  funext acc
  congr
  funext acc
  simp only [creditPositive_withGateways, map_pure]

theorem dispatchSlash_withGateways (K : Primitives) (ctx : BlockCtx) (stx : SignedTransaction) :
    dispatchSlash K (withGateways g ctx) stx = withGateways g <$> dispatchSlash K ctx stx := by
  unfold dispatchSlash
  split
  · split
    · rw [applySlash_withGateways, Functor.map_map, Functor.map_map]
    · rfl
  · rfl

theorem recomputeValidatorSet_withGateways (ctx : BlockCtx) (height : Height) :
    recomputeValidatorSet (withGateways g ctx) height =
      (fun out => (withGateways g out.1, out.2)) <$> recomputeValidatorSet ctx height := by
  have hstep : ∀ bootstrap (acc : BlockCtx × U32) (c : Candidate),
      rotate bootstrap (withGateways g acc.1, acc.2) c =
        (fun out => (withGateways g out.1, out.2)) <$> rotate bootstrap acc c := by
    intro bootstrap acc c
    unfold rotate
    split
    · simp only [map_bind]
      rfl
    · rfl
  exact foldlM_map_state (hstep _) _ (ctx, 0)

theorem creditShares_withGateways (delegatorTotal totalDelegated : Amount) (ctx : BlockCtx)
    (distributed : Amount) (shares : List (Address × Amount)) :
    creditShares delegatorTotal totalDelegated (withGateways g ctx) distributed shares =
      withGateways g <$> creditShares delegatorTotal totalDelegated ctx distributed shares := by
  fun_induction creditShares delegatorTotal totalDelegated ctx distributed shares with
  | case1 ctx distributed => rfl
  | case2 ctx distributed addr stake =>
    rw [creditShares, creditPositive_withGateways, map_pure]
  | case3 ctx distributed addr stake rest hrest ih =>
    rw [creditShares, map_bind]
    · congr
      funext share
      rw [creditPositive_withGateways]
      exact ih share
    · exact hrest

theorem distributeToDelegators_withGateways (ctx : BlockCtx) (computeAddr : Address)
    (delegatorTotal : Amount) :
    distributeToDelegators (withGateways g ctx) computeAddr delegatorTotal =
      withGateways g <$> distributeToDelegators ctx computeAddr delegatorTotal := by
  have hs : (withGateways g ctx).state.iterValidators = ctx.state.iterValidators := rfl
  have hd : ∀ node, delegatorStakes (withGateways g ctx).state node = delegatorStakes ctx.state node :=
    fun _ => rfl
  unfold distributeToDelegators
  rw [hs]
  split
  · rfl
  split
  · rfl
  simp only [hd]
  split
  · rfl
  simp only [map_bind]
  congr
  funext total
  split
  · rfl
  · exact creditShares_withGateways g _ _ _ _ _

theorem mintOne_withGateways (perToken : Amount) (acc : MintAcc) (pr : PendingReward) :
    mintOne perToken { acc with ctx := withGateways g acc.ctx } pr =
      (fun acc => { acc with ctx := withGateways g acc.ctx }) <$> mintOne perToken acc pr := by
  have hpay : ∀ minted, payReward (withGateways g acc.ctx) pr minted =
      withGateways g <$> payReward acc.ctx pr minted := by
    intro minted
    simp only [payReward, map_bind, creditPositive_withGateways, distributeToDelegators_withGateways,
      bind_map_left, map_pure]
    rfl
  simp only [mintOne, map_bind]
  congr
  funext reward
  split
  · rfl
  · rw [hpay]
    simp only [map_bind, bind_map_left, map_pure]

theorem epochBoundaryMint_withGateways (ctx : BlockCtx) (endingEpoch : U64) (height : Height) :
    epochBoundaryMint (withGateways g ctx) endingEpoch height =
      (fun out => (withGateways g out.1, out.2)) <$> epochBoundaryMint ctx endingEpoch height := by
  have hs : (withGateways g ctx).state.iterPendingRewardsForEpoch endingEpoch =
      ctx.state.iterPendingRewardsForEpoch endingEpoch := rfl
  have hloop : ∀ perToken emission,
      (ctx.state.iterPendingRewardsForEpoch endingEpoch).foldlM (mintOne perToken)
        ⟨withGateways g ctx, emission, 0⟩ =
      (fun acc => { acc with ctx := withGateways g acc.ctx }) <$>
        (ctx.state.iterPendingRewardsForEpoch endingEpoch).foldlM (mintOne perToken) ⟨ctx, emission, 0⟩ :=
    fun perToken emission => foldlM_map_state (mintOne_withGateways g perToken) _ ⟨ctx, emission, 0⟩
  simp only [epochBoundaryMint, hs]
  split
  · rfl
  · simp only [hloop, map_bind, bind_map_left, map_pure]

theorem advanceProposal_withGateways (bonded : Amount) (now : Timestamp) (ctx : BlockCtx)
    (item : U64 × ProposalRecord) :
    advanceProposal bonded now (withGateways g ctx) item =
      withGateways g <$> advanceProposal bonded now ctx item := by
  have htally : ∀ id, tallyVotes (withGateways g ctx) id = tallyVotes ctx id := fun _ => rfl
  have hback : ∀ a deposit, returnDeposit (withGateways g ctx) a deposit =
      withGateways g (returnDeposit ctx a deposit) := by
    intro a deposit
    unfold returnDeposit
    split <;> rfl
  obtain ⟨id, record⟩ := item
  simp only [advanceProposal, htally, hback]
  split
  · split <;> rfl
  · split
    · rfl
    · simp only [map_bind]
      congr
      funext outcome
      split <;> rfl
  · rfl

theorem epochHooks_withGateways (ctx : BlockCtx) (header : BlockHeader) :
    epochHooks (withGateways g ctx) header =
      (fun out => (withGateways g out.1, out.2)) <$> epochHooks ctx header := by
  have hgov : ∀ ctx now, processGovernanceProposals (withGateways g ctx) now =
      withGateways g <$> processGovernanceProposals ctx now :=
    fun ctx now => foldlM_map_state (advanceProposal_withGateways g _ now) _ ctx
  unfold epochHooks
  split
  · simp only [recomputeValidatorSet_withGateways, epochBoundaryMint_withGateways, hgov, map_bind,
      bind_map_left, map_pure]
  · rfl

end

/-! ## The twin of a block -/

/-- A registration whose record differs from the one in place. -/
def freshUrl (existing : Option GatewayEntry) : String :=
  if existing.map GatewayEntry.url = some "a" then "b" else "a"

def freshRegistration (existing : Option GatewayEntry) : SignedTransaction :=
  unsigned [] (.registerGateway 0 0 (freshUrl existing) false)

theorem freshRegistration_applies (K : Primitives) (ctx : BlockCtx) (existing : Option GatewayEntry) :
    applyTx K ctx (freshRegistration existing) =
      .ok (ctx.setGateway 0 ⟨0, 0, freshUrl existing, false, ctx.currentHeight.getD 0⟩,
        .applied REGISTER_GATEWAY_GAS) := by
  simp only [freshRegistration, unsigned, applyTx, freshUrl]
  split <;> rfl

/-- The block with one more registration in its body, under the same header. -/
def twin (b : Block) (existing : Option GatewayEntry) : Block :=
  { b with txs := b.txs ++ [freshRegistration existing] }

section

variable {K : Primitives} {s s' : State} {b : Block} {r : Replay}

/-- After the transactions, the twin's replay is the block's with another gateway. -/
theorem twin_replays (h : replayBlock K s b = .ok r) :
    ∃ ctx r₂, applyTxs K s.beginBlock b.txs = .ok (ctx, r.outcomes) ∧
      replayBlock K s (twin b (ctx.commit.gateways.get 0)) = .ok r₂ ∧
      r₂.ctx.commit.accounts = r.ctx.commit.accounts ∧
      r₂.ctx.commit.gateways.get 0 ≠ ctx.commit.gateways.get 0 := by
  obtain ⟨ctx₁, ctx₂, ctx₃, fee, h₁, h₂, h₃, hr⟩ := replayBlock_ok h
  let existing := ctx₁.commit.gateways.get 0
  let entry : GatewayEntry := ⟨0, 0, freshUrl existing, false, ctx₁.currentHeight.getD 0⟩
  let g := ctx₁.gateways.put 0 entry
  have htxs : applyTxs K s.beginBlock (twin b existing).txs =
      .ok (withGateways g ctx₁, r.outcomes ++ [.applied REGISTER_GATEWAY_GAS]) := by
    refine applyTxs_append_ok.mpr ⟨ctx₁, r.outcomes, _, h₁, ?_, rfl⟩
    exact applyTxs_cons_ok.mpr ⟨_, _, [], freshRegistration_applies K ctx₁ existing, rfl, rfl⟩
  have hslash : (twin b existing).txs.foldlM (dispatchSlash K) (withGateways g ctx₁) =
      .ok (withGateways g ctx₂) := by
    simp only [twin, List.foldlM_append, foldlM_map_state (dispatchSlash_withGateways g K), h₂]
    rfl
  have hhook : epochHooks (withGateways g ctx₂) (twin b existing).header =
      .ok (withGateways g ctx₃, r.minted) := by
    rw [epochHooks_withGateways]
    simp only [twin, h₃]
    rfl
  refine ⟨ctx₁, _, h₁, replayBlock_of htxs hslash hhook, ?_, ?_⟩
  · rw [hr]
    rfl
  · have hget : ((ctx₁.gateways.put 0 entry).view).get 0 = some entry := by
      rw [Overlay.view_put, Column.get_write_self]
    intro heq
    have hsome : existing = some entry := heq.symm.trans hget
    have hurl : existing.map GatewayEntry.url = some (freshUrl existing) :=
      congrArg (Option.map GatewayEntry.url) hsome
    simp only [freshUrl] at hurl
    split at hurl
    · rename_i ha
      rw [ha] at hurl
      simp at hurl
    · rename_i ha
      exact ha hurl

/-- Every committed block has a twin: the same header, another body, another store. -/
theorem twin_commits (h : Commits K s b r s') :
    ∃ b₂ r₂ s₂, b₂.header = b.header ∧ Commits K s b₂ r₂ s₂ ∧ s₂.gateways ≠ s'.gateways := by
  obtain ⟨ctx, r₂, htxs, hrep, hacc, hgate⟩ := twin_replays h.replay
  have hroot : previewStateRoot K r₂.ctx = b.header.stateRoot := by
    rw [previewStateRoot, hacc]
    exact h.root
  refine ⟨twin b (ctx.commit.gateways.get 0), r₂, _, rfl, ⟨hrep, hroot, rfl⟩, fun heq => hgate ?_⟩
  obtain ⟨ctx₁, h₁, hframe⟩ := replayBlock_frame h.replay
  obtain ⟨rfl, -⟩ := Prod.mk.inj (Except.ok.inj (h₁.symm.trans htxs))
  obtain ⟨_, _, hp⟩ := persist_columns (K := K) r.ctx b
  obtain ⟨_, _, hp₂⟩ := persist_columns (K := K) r₂.ctx (twin b (ctx₁.commit.gateways.get 0))
  rw [h.stored, hp, hp₂] at heq
  simp only [hframe.gateways] at heq
  rw [heq]

end

/-! ## The header hash -/

/-- Equal in every column a transaction writes. -/
structure SameColumns (s t : State) : Prop where
  accounts : s.accounts = t.accounts
  stakes : s.stakes = t.stakes
  unbondings : s.unbondings = t.unbondings
  escrows : s.escrows = t.escrows
  pendingRewards : s.pendingRewards = t.pendingRewards
  proposals : s.proposals = t.proposals
  votes : s.votes = t.votes
  receiptsSeen : s.receiptsSeen = t.receiptsSeen
  models : s.models = t.models
  gateways : s.gateways = t.gateways

/-- Every two blocks with this header hash that commit from `s` lead to the same columns. -/
def Identifies (K : Primitives) (s : State) (hash : BlockHash) : Prop :=
  ∀ b₁ b₂ r₁ r₂ s₁ s₂, b₁.hash K = hash → b₂.hash K = hash → Commits K s b₁ r₁ s₁ →
    Commits K s b₂ r₂ s₂ → SameColumns s₁ s₂

/-- From every store some block commits, and the header hash of no block that commits identifies the
transition. -/
theorem header_hash_identifies_nothing (K : Primitives) (s : State) :
    (∃ b r s', Commits K s b r s') ∧
      ∀ b r s', Commits K s b r s' → ¬ Identifies K s (b.hash K) := by
  constructor
  · exact ⟨_, _, _, sealBlock_commits (b := bodyAt 1 []) rfl⟩
  · intro b r s' h hid
    obtain ⟨b₂, r₂, s₂, hheader, h₂, hne⟩ := twin_commits h
    have hhash : b₂.hash K = b.hash K := by rw [Block.hash, hheader]; rfl
    exact hne (hid b₂ b r₂ r s₂ s' hhash rfl h₂ h).gateways

/-- Two bodies under one header from the empty store, with and without a registration. -/
theorem empty_header_two_stores : ∃ b₁ b₂ r₁ r₂ s₁ s₂, b₁.header = b₂.header ∧
    Commits toyPrimitives State.empty b₁ r₁ s₁ ∧ Commits toyPrimitives State.empty b₂ r₂ s₂ ∧
    s₁.gateways.get 1 = none ∧
    s₂.gateways.get 1 = some ⟨1, 7, "gw", false, 0⟩ := by
  have h₁ := sealBlock_commits (K := toyPrimitives) (s := State.empty) (b := bodyAt 1 []) rfl
  have h₂ := sealBlock_commits (K := toyPrimitives) (s := State.empty)
    (b := bodyAt 1 [unsigned [] (.registerGateway 1 7 "gw" false)]) rfl
  refine ⟨_, _, _, _, _, _, ?_, h₁, h₂, rfl, rfl⟩
  rfl

end Arknet.Laws
