import Arknet.Laws.BuiltChain
import Arknet.Laws.Restarts

/-!
A chain from its genesis file on, whose blocks all come from proposers. The file may give nobody a balance,
and what would earn one is in no pool. So nobody ever has a coin, whatever is submitted, and the only
transactions that are applied are those that cost nothing (`fair_launch_barren`).
-/

namespace Arknet.Laws

open Machine Store Runs Arknet.Chain Arknet.Staking Arknet.Payments Arknet.Governance Arknet.Consensus Arknet.Node

/-! ## Nothing to move -/

/-- The columns in which something is held, owed, decided or registered for a deposit. -/
def heldColumns (s : State) :=
  (s.stakes, s.unbondings, s.receiptsSeen, s.escrows, s.pendingRewards, s.proposals, s.votes, s.models)

/-- The store of a chain that has models and nothing else of worth. -/
structure Barren (ms : List OnChainModelManifest) (s : State) : Prop where
  supply : s.supply = 0
  columns : heldColumns s = heldColumns (seeded ms)

/-- A transaction that needs no coin. -/
def MovesNothing : Transaction → Prop
  | .transfer _ _ amount _ _ => amount = 0
  | .registerTeeCapability .. => True
  | .registerGateway .. => True
  | .unregisterGateway .. => True
  | _ => False

theorem seeded_barren (ms : List OnChainModelManifest) : Barren ms (seeded ms) := ⟨rfl, rfl⟩

section

variable {ms : List OnChainModelManifest} {s : State}

theorem Barren.pendingRewards (h : Barren ms s) : s.pendingRewards = .empty :=
  congrArg (fun p => p.2.2.2.2.1) h.columns

theorem Barren.proposals (h : Barren ms s) : s.proposals = .empty :=
  congrArg (fun p => p.2.2.2.2.2.1) h.columns

theorem Barren.balance (h : Barren ms s) (a : Address) : ((s.accounts.get a).getD .zero).balance.val = 0 := by
  have hpart := Column.part_le_total s.accounts (fun _ (x : Account) => x.balance.val) a
  have hsupply := h.supply
  simp only [State.supply, State.balances] at hsupply
  cases hget : s.accounts.get a with
  | none => rfl
  | some x =>
    rw [hget, Column.part_some] at hpart
    rw [Option.getD_some]
    omega

end

/-! ## A block -/

section

variable {K : Primitives} {ms : List OnChainModelManifest} {ctx ctx' : BlockCtx} {stx : SignedTransaction}
  {o : TxOutcome}

/-- Without a coin a pooled transaction is rejected, or moves nothing. -/
theorem applyTx_barren (hp : Pooled stx) (hs : Barren ms ctx.state) (hc : Barren ms ctx.commit)
    (h : applyTx K ctx stx = .ok (ctx', o)) :
    Barren ms ctx'.commit ∧ (o.isApplied = true → MovesNothing stx.tx) := by
  have hsupply : ctx'.commit.supply = 0 := by
    have hle := applyTx_supply h (hp.backed ctx)
    rw [hc.supply] at hle
    exact Nat.le_zero.mp hle
  have hbroke : ∀ a, (ctx.account a).balance.val = 0 := fun a => by
    rw [BlockCtx.account_eq]
    exact hc.balance a
  have hkept : Kept ctx ctx' o → Barren ms ctx'.commit ∧ (o.isApplied = true → MovesNothing stx.tx) := by
    rintro ⟨rfl, ho⟩
    exact ⟨hc, fun happlied => absurd (ho.symm.trans happlied) (by decide)⟩
  have hwrites := applyTx_writesOnly h
  obtain ⟨extracted, hextracted⟩ := hp
  cases htx : stx.tx with
  | transfer src dst amount nonce fee =>
    simp only [htx, WritesOnly] at hwrites
    obtain ⟨accounts, hwrites⟩ := hwrites
    refine ⟨⟨hsupply, (congrArg heldColumns hwrites).trans hc.columns⟩, fun happlied => ?_⟩
    simp only [applyTx, htx] at h
    rcases applyTransfer_ok h with ⟨-, ho⟩ | ⟨-, -, -, balance, next, hbalance, -, -⟩
    · exact absurd (ho.symm.trans happlied) (by decide)
    · have hsrc := hbroke src
      exact Fin.ext (by show amount.val = 0; omega)
  | registerTeeCapability node operator capability =>
    simp only [htx, WritesOnly] at hwrites
    obtain ⟨tee, hwrites⟩ := hwrites
    exact ⟨⟨hsupply, (congrArg heldColumns hwrites).trans hc.columns⟩, fun _ => trivial⟩
  | registerGateway node operator url https =>
    simp only [htx, WritesOnly] at hwrites
    obtain ⟨gateways, hwrites⟩ := hwrites
    exact ⟨⟨hsupply, (congrArg heldColumns hwrites).trans hc.columns⟩, fun _ => trivial⟩
  | unregisterGateway node operator =>
    simp only [htx, WritesOnly] at hwrites
    obtain ⟨gateways, hwrites⟩ := hwrites
    exact ⟨⟨hsupply, (congrArg heldColumns hwrites).trans hc.columns⟩, fun _ => trivial⟩
  | escrowLock src jobId amount nonce fee =>
    rw [← htx]
    simp only [applyTx, htx] at h
    rcases applyEscrowLock_ok h with hrejected | ⟨-, hamount, -, -, balance, next, hbalance, -, -⟩
    · exact hkept hrejected
    · have hsrc := hbroke src
      have hle := le_satAdd amount (asAmount fee)
      exact absurd (Fin.ext (by show amount.val = 0; omega)) hamount
  | registerModel manifest registrar deposit =>
    rw [← htx]
    simp only [applyTx, htx] at h
    rcases applyRegisterModel_ok h with hrejected | ⟨-, hmin, -, -, balance, hbalance, -⟩
    · exact hkept hrejected
    · have hsrc := hbroke registrar
      have hdeposit : MODEL_DEPOSIT.val ≤ deposit.val := hmin
      have hvalue : MODEL_DEPOSIT.val = 10000000000000 := by decide
      omega
  | govProposal p =>
    rw [← htx]
    simp only [applyTx, htx] at h
    rcases applyGovProposal_ok h with hrejected | ⟨-, hmin, balance, next, hbalance, -, -⟩
    · exact hkept hrejected
    · have hsrc := hbroke (deriveAddressFromSigner K stx.signer)
      have hdeposit : PROPOSAL_DEPOSIT.val ≤ p.deposit.val := hmin
      have hvalue : PROPOSAL_DEPOSIT.val = 10000000000000 := by decide
      omega
  | govVote proposalId voter choice =>
    rw [← htx]
    simp only [applyTx, htx] at h
    rcases applyGovVote_ok h with hrejected | ⟨-, ⟨record, hrecord, -⟩, -, -⟩
    · exact hkept hrejected
    · rw [hs.proposals] at hrecord
      cases hrecord
  | _ =>
    rw [htx] at hextracted
    cases hextracted

theorem applyTxs_barren {txs : List SignedTransaction} {os : List TxOutcome} (hp : ∀ stx ∈ txs, Pooled stx)
    (hs : Barren ms ctx.state) (hc : Barren ms ctx.commit) (h : applyTxs K ctx txs = .ok (ctx', os)) :
    Barren ms ctx'.commit ∧ ∀ stx ∈ appliedTxs txs os, MovesNothing stx.tx := by
  induction txs generalizing ctx os with
  | nil =>
    obtain ⟨rfl, rfl⟩ := applyTxs_nil_ok.mp h
    exact ⟨hc, fun _ hmem => nomatch hmem⟩
  | cons stx rest ih =>
    obtain ⟨mid, o, os', h₁, h₂, rfl⟩ := applyTxs_cons_ok.mp h
    obtain ⟨hfirst, hrest⟩ := List.forall_mem_cons.mp hp
    obtain ⟨hmid, hmoves⟩ := applyTx_barren hfirst hs hc h₁
    obtain ⟨hlast, hall⟩ := ih hrest (by rw [applyTx_state h₁]; exact hs) hmid h₂
    refine ⟨hlast, ?_⟩
    rw [appliedTxs_cons]
    split_ifs with happlied
    · exact List.forall_mem_cons.mpr ⟨hmoves happlied, hall⟩
    · exact hall

/-- With nothing queued and nothing proposed the hooks write validators at most. -/
theorem epochHooks_barren {header : BlockHeader} {minted : Amount} (hs : Barren ms ctx.state)
    (h : epochHooks ctx header = .ok (ctx', minted)) :
    ∃ validators, ctx'.commit = { ctx.commit with validators := validators } := by
  obtain ⟨-, rfl, -⟩ | ⟨-, rotated, n, paid, h₁, h₂, h₃⟩ := epochHooks_ok h
  · exact ⟨_, rfl⟩
  · have hstate : rotated.state = ctx.state := (recomputeValidatorSet_frame h₁).state
    rw [epochBoundaryMint_unpaid (by rw [hstate]; exact hs.pendingRewards)] at h₂
    obtain ⟨rfl, -⟩ := Prod.mk.inj (Except.ok.inj h₂)
    have hproposals : rotated.state.iterProposals = [] := by
      rw [hstate, State.iterProposals, hs.proposals]
      rfl
    rw [processGovernanceProposals, hproposals, List.foldlM_nil, pure_eq_ok] at h₃
    obtain rfl := h₃
    exact recomputeValidatorSet_commit h₁

theorem commits_barren {s s' : State} {b : Block} {r : Replay} (hp : ∀ stx ∈ b.txs, Pooled stx)
    (hs : Barren ms s) (h : Commits K s b r s') :
    Barren ms s' ∧ ∀ stx ∈ appliedTxs b.txs r.outcomes, MovesNothing stx.tx := by
  obtain ⟨ctx, ctx', fee, blocks, idx, htxs, hhooks, rfl⟩ := commits_pooled hp h
  have hbegin : Barren ms s.beginBlock.commit := by
    rw [State.beginBlock_commit]
    exact hs
  obtain ⟨hbarren, hmoves⟩ := applyTxs_barren hp hs hbegin htxs
  have hstate : ctx.state = s := applyTxs_state htxs
  obtain ⟨v, hv⟩ := epochHooks_barren (by rw [hstate]; exact hs) hhooks
  refine ⟨⟨?_, ?_⟩, hmoves⟩
  · rw [hv]
    exact hbarren.supply
  · rw [hv]
    exact hbarren.columns

theorem run_barren {t : State} {hist : List (Block × Replay)} (run : Run K (seeded ms) hist t)
    (built : ∀ p ∈ hist, Built K p.1) : Barren ms t ∧ ∀ stx ∈ appliedOf hist, MovesNothing stx.tx := by
  induction run with
  | nil => exact ⟨seeded_barren ms, fun _ hmem => nomatch hmem⟩
  | @snoc hist u u' b r run step ih =>
    obtain ⟨hbarren, hmoves⟩ := ih fun p hp => built p (List.mem_append_left _ hp)
    have hpooled := built_pooled (built (b, r) (List.mem_append_right _ List.mem_cons_self))
    obtain ⟨hbarren', hmoves'⟩ := commits_barren hpooled hbarren step
    refine ⟨hbarren', fun stx hmem => ?_⟩
    rw [appliedOf_snoc, List.mem_append] at hmem
    exact hmem.elim (hmoves stx) (hmoves' stx)

end

/-! ## The law -/

/-- From a new database, over any order of starts, stops and commits of blocks that proposers built: no
account has a balance, nothing is staked, unbonding, locked, queued, proposed or voted, no receipt is anchored
and no model registered beyond those of the genesis file; and every transaction that was ever applied
registers a gateway or an enclave, takes a gateway back, or transfers nothing. -/
theorem fair_launch_barren {K : Primitives} {PublicKey : Type} {fromBytes : List UInt8 → Exec PublicKey}
    {genesis : Option GenesisFile} {localKey : Bytes 32} {hist : List NodeEvent}
    {node : ValidatorNode PublicKey}
    (run : Steps (NodeStep K fromBytes genesis localKey) ⟨.empty, none⟩ hist node)
    (built : ∀ p ∈ commitsOf hist, Built K p.1) :
    ∃ ms, (ms = [] ∨ ∃ cfg, Configures K genesis cfg ∧ ms = cfg.models) ∧ Barren ms node.db ∧
      (∀ a, ((node.db.accounts.get a).getD .zero).balance = 0) ∧
      ∀ stx ∈ appliedOf (commitsOf hist), MovesNothing stx.tx := by
  obtain ⟨ms, hunseen⟩ := run_unseen run
  obtain ⟨hbarren, hmoves⟩ := run_barren hunseen.database built
  exact ⟨ms, hunseen.seeds, hbarren, fun a => Fin.ext (hbarren.balance a), hmoves⟩

def gatewayTx : SignedTransaction := unsigned [7] (.registerGateway 1 7 "http://gateway" false)

def gatewayPool : Mempool :=
  (Mempool.withLimits 10 10000).enroll (gatewayTx.hash toyPrimitives) ⟨gatewayTx, 7, 0, 100000, 0, 40, rfl⟩

theorem gatewayPool_builds :
    (build toyPrimitives (seeded soleConfig.models) gatewayPool 1 proposerParams 1).toOption.isSome = true := by
  decide

theorem gatewayPool_replays : (replayBlock toyPrimitives (seeded soleConfig.models)
    (returned _ gatewayPool_builds).block).toOption.isSome = true := by
  decide

/-- A node is started from its file, and commits a block with a gateway. -/
theorem fair_launch_barren_gateway : ∃ b r s, Run toyPrimitives (seeded soleConfig.models) [(b, r)] s ∧
    (∃ g, s.gateways.get 1 = some g) ∧ s.supply = 0 ∧ ∀ stx ∈ appliedTxs b.txs r.outcomes, MovesNothing stx.tx := by
  obtain ⟨e, he⟩ := sole_boots
  have step : Commits toyPrimitives (seeded soleConfig.models) (returned _ gatewayPool_builds).block
      (returned _ gatewayPool_replays) _ := ⟨eq_ok_returned gatewayPool_replays, by decide, rfl⟩
  have built : Built toyPrimitives (returned _ gatewayPool_builds).block :=
    ⟨_, _, _, _, _, _, eq_ok_returned gatewayPool_builds, rfl⟩
  have run := (Steps.nil.snoc (NodeStep.boot (he.start .empty))).snoc (.commit step)
  obtain ⟨ms, -, hbarren, -, hmoves⟩ := fair_launch_barren run fun p hp => by
    obtain rfl := List.mem_singleton.mp hp
    exact built
  refine ⟨_, _, _, Run.nil.snoc step, ⟨⟨1, 7, "http://gateway", false, 0⟩, by decide⟩, hbarren.supply,
    fun stx hmem => hmoves stx ?_⟩
  rw [appliedOf, List.mem_flatMap]
  exact ⟨_, List.mem_singleton_self _, hmem⟩

end Arknet.Laws
