import Arknet.Laws.BuildAgreement
import Arknet.Laws.Emission
import Arknet.Laws.Slash

/-!
Where a commit returns. Each of its parts is given the bounds under which none of its plain operations
overflows; the bounds of a block are those of its parts, each in the context in which it is met.
-/

namespace Arknet.Laws

open Machine Arknet.Chain Arknet.Staking Arknet.Payments Arknet.Governance Arknet.Consensus

theorem returns_reject (ctx : BlockCtx) (reason : RejectReason) : Returns (reject ctx reason) := ⟨_, rfl⟩

theorem returns_applied (ctx : BlockCtx) (gasUsed : Gas) : Returns (applied ctx gasUsed) := ⟨_, rfl⟩

/-! ## Transactions -/

/-- The next nonce or the next id is a word again. -/
def HasNext (n : U64) : Prop := n.val + 1 < 2 ^ 64

/-- What 80 percent of a payment are computed from. -/
def SplitFits (total : Amount) : Prop := total.val * 80 < 2 ^ 128

section

variable {ctx : BlockCtx}

theorem applyTransfer_returns {src dst : Address} {amount : Amount} {nonce : Nonce} {fee : Gas} :
    Returns (applyTransfer ctx src dst amount nonce fee) ↔
      (src ≠ dst → BASE_TRANSFER_GAS ≤ fee → (ctx.account src).nonce = nonce →
        amount.val + (satMul (asAmount fee) ctx.state.baseFee).val ≤ (ctx.account src).balance.val →
        HasNext (ctx.account src).nonce) := by
  unfold applyTransfer
  dsimp only
  split_ifs with hself hfee hnonce
  · exact iff_of_true (returns_reject _ _) (fun h => absurd hself h)
  · exact iff_of_true (returns_reject _ _) (fun _ h => absurd hfee (not_lt.mpr h))
  · exact iff_of_true (returns_reject _ _) (fun _ _ h => absurd h hnonce)
  · have hpaid := (ctx.account src).balance.isLt
    cases hadd : add amount (satMul (asAmount fee) ctx.state.baseFee) with
    | error p =>
      refine iff_of_true (returns_reject _ _) (fun _ _ _ hle => ?_)
      obtain ⟨total, htotal⟩ := add_isOk (hle.trans_lt hpaid)
      rw [hadd] at htotal
      cases htotal
    | ok total =>
      rw [← add_eq_ok.mp hadd]
      dsimp only
      split_ifs with hpoor
      · exact iff_of_true (returns_reject _ _) (fun _ _ _ hle => absurd hle (Nat.not_le.mpr hpoor))
      · have hle := not_lt.mp hpoor
        obtain ⟨balance, hbalance⟩ := sub_isOk hle
        rw [hbalance, ok_bind, returns_bind_of (fun _ => returns_applied _ _), returns_add]
        exact ⟨fun h _ _ _ _ => h, fun h => h hself (not_lt.mp hfee) (not_not.mp hnonce) hle⟩

theorem applyDeposit_returns (sender : Address) (nodeId : NodeId) (role : StakeRole) (poolId : Option PoolId)
    (amount : Amount) (delegator : Option Address) (height : Height) :
    Returns (applyDeposit ctx sender nodeId role poolId amount delegator height) := by
  unfold applyDeposit
  dsimp only
  split_ifs with hthird hmin hpoor
  · exact returns_reject _ _
  · exact returns_reject _ _
  · exact returns_reject _ _
  · obtain ⟨balance, hbalance⟩ := sub_isOk (not_lt.mp hpoor)
    rw [hbalance, ok_bind]
    exact returns_applied _ _

theorem applyWithdraw_returns {sender : Address} {nodeId : NodeId} {role : StakeRole} {poolId : Option PoolId}
    {amount : Amount} {height : Height} :
    Returns (applyWithdraw ctx sender nodeId role poolId amount height) ↔
      ∀ key entry, drawnEntry ctx nodeId role poolId sender = some (key, entry) → amount ≤ entry.amount →
        height.val + UNBONDING_PERIOD_BLOCKS.val < 2 ^ 64 ∧ HasNext ctx.nextUnbondId := by
  unfold applyWithdraw
  cases hdrawn : drawnEntry ctx nodeId role poolId sender with
  | none => exact iff_of_true (returns_reject _ _) (fun _ _ h => by cases h)
  | some drawn =>
    obtain ⟨key, entry⟩ := drawn
    dsimp only
    split_ifs with hpoor
    · refine iff_of_true (returns_reject _ _) (fun _ _ h hle => ?_)
      cases h
      exact absurd hpoor (not_lt.mpr hle)
    · have hle := not_lt.mp hpoor
      obtain ⟨rest, hrest⟩ := sub_isOk hle
      rw [hrest, ok_bind, returns_bind]
      constructor
      · rintro ⟨completesAt, hcompletes, h⟩ _ _ ⟨⟩ -
        rw [returns_bind_of (fun _ => returns_applied _ _)] at h
        exact ⟨returns_add.mp ⟨_, hcompletes⟩, returns_add.mp h⟩
      · intro h
        obtain ⟨hends, hnext⟩ := h key entry rfl hle
        obtain ⟨completesAt, hcompletes⟩ := add_isOk hends
        refine ⟨completesAt, hcompletes, ?_⟩
        rw [returns_bind_of (fun _ => returns_applied _ _)]
        exact returns_add.mpr hnext

theorem applyComplete_returns (sender : Address) (nodeId : NodeId) (unbondId : U64) (height : Height) :
    Returns (applyComplete ctx sender nodeId unbondId height) := by
  unfold applyComplete
  split
  · exact returns_reject _ _
  · split_ifs
    · exact returns_reject _ _
    · exact returns_reject _ _
    · exact returns_applied _ _

theorem applyRedelegate_returns (sender : Address) (src dst : NodeId) (role : StakeRole) (amount : Amount)
    (height : Height) : Returns (applyRedelegate ctx sender src dst role amount height) := by
  unfold applyRedelegate
  split
  · exact returns_reject _ _
  · split
    · exact returns_reject _ _
    · dsimp only
      split_ifs with hpoor hearly
      · exact returns_reject _ _
      · exact returns_reject _ _
      · obtain ⟨rest, hrest⟩ := sub_isOk (not_lt.mp hpoor)
        rw [hrest, ok_bind]
        exact returns_applied _ _

theorem applyReceiptBatch_returns (K : Primitives) (batch : ReceiptBatch) (height : Height) :
    Returns (applyReceiptBatch K ctx batch height) := by
  unfold applyReceiptBatch
  split_ifs
  · exact returns_reject _ _
  · exact returns_reject _ _
  · split
    · exact returns_reject _ _
    · exact returns_applied _ _

theorem rewardSplit_returns {total : Amount} : Returns (rewardSplit total) ↔ SplitFits total := by
  constructor
  · intro h
    have hcompute := h.of_bind
    rw [percentOf] at hcompute
    exact returns_mul.mp hcompute.of_bind
  · exact rewardSplit_isOk total

theorem creditRewardSplit_returns {total : Amount} {computeAddr verifierAddr treasuryAddr : Address} :
    Returns (creditRewardSplit ctx total computeAddr verifierAddr treasuryAddr) ↔ SplitFits total := by
  rw [← rewardSplit_returns]
  constructor
  · exact Returns.of_bind
  · intro h
    refine h.bind fun split hsplit => ?_
    have hparts := (rewardSplit_ok hsplit).1
    have htotal := total.isLt
    obtain ⟨computeTotal, hadd⟩ := add_isOk (a := split.compute) (b := split.delegators) (by omega)
    exact ⟨_, by rw [hadd, ok_bind]; rfl⟩

theorem applyDispute_returns (d : Dispute) : Returns (applyDispute ctx d) := by
  unfold applyDispute
  split_ifs
  · exact returns_reject _ _
  · exact returns_reject _ _
  · exact returns_applied _ _

theorem applyEscrowLock_returns {sender : Address} {jobId : JobId} {amount : Amount} {nonce : Nonce} {fee : Gas}
    {height : Height} : Returns (applyEscrowLock ctx sender jobId amount nonce fee height) ↔
      (amount ≠ 0 → ctx.getEscrow jobId = none → (ctx.account sender).nonce = nonce →
        satAdd amount (asAmount fee) ≤ (ctx.account sender).balance → HasNext (ctx.account sender).nonce) := by
  unfold applyEscrowLock
  dsimp only
  split_ifs with hzero hlocked hnonce hpoor
  · exact iff_of_true (returns_reject _ _) (fun h => absurd hzero h)
  · exact iff_of_true (returns_reject _ _) (fun _ h => by simp [h] at hlocked)
  · exact iff_of_true (returns_reject _ _) (fun _ _ h => absurd h hnonce)
  · exact iff_of_true (returns_reject _ _) (fun _ _ _ h => absurd hpoor (not_lt.mpr h))
  · have hle := not_lt.mp hpoor
    obtain ⟨balance, hbalance⟩ := sub_isOk hle
    rw [hbalance, ok_bind, returns_bind_of (fun _ => returns_applied _ _), returns_add]
    exact ⟨fun h _ _ _ _ => h, fun h => h hzero (by simpa using hlocked) (not_not.mp hnonce) hle⟩

theorem applyEscrowSettle_returns {jobId : JobId} {computeAddr verifierAddr routerAddr treasuryAddr : Address}
    {height : Height} :
    Returns (applyEscrowSettle ctx jobId computeAddr verifierAddr routerAddr treasuryAddr height) ↔
      ∀ entry, ctx.getEscrow jobId = some entry → entry.state = .locked → SplitFits entry.amount := by
  unfold applyEscrowSettle
  cases hentry : ctx.getEscrow jobId with
  | none => exact iff_of_true (returns_reject _ _) (fun _ h => by cases h)
  | some entry =>
    dsimp only
    split_ifs with hstate
    · refine iff_of_true (returns_reject _ _) (fun _ h hlocked => ?_)
      cases h
      exact absurd hlocked hstate
    · rw [returns_bind_of (fun _ => returns_applied _ _), creditRewardSplit_returns]
      constructor
      · rintro h _ ⟨⟩ -
        exact h
      · exact fun h => h entry rfl (not_not.mp hstate)

theorem applyRewardMint_returns {totalReward : Amount} {computeAddr verifierAddr treasuryAddr : Address} :
    Returns (applyRewardMint ctx totalReward computeAddr verifierAddr treasuryAddr) ↔ SplitFits totalReward := by
  unfold applyRewardMint
  split_ifs with hzero
  · refine iff_of_true (returns_applied _ _) ?_
    rw [hzero]
    show (0 : Amount).val * 80 < 2 ^ 128
    decide
  · have hgas : ∃ gasUsed, mul REWARD_MINT_GAS 6 = .ok gasUsed := ⟨_, rfl⟩
    obtain ⟨gasUsed, hgas⟩ := hgas
    rw [returns_bind_of (fun _ => ?_), creditRewardSplit_returns]
    rw [hgas, ok_bind]
    exact returns_applied _ _

theorem applyRegisterModel_returns (manifest : OnChainModelManifest) (registrar : Address) (deposit : Amount) :
    Returns (applyRegisterModel ctx manifest registrar deposit) := by
  unfold applyRegisterModel
  dsimp only
  split_ifs with hlow hempty hknown hpoor
  · exact returns_reject _ _
  · exact returns_reject _ _
  · exact returns_reject _ _
  · exact returns_reject _ _
  · obtain ⟨balance, hbalance⟩ := sub_isOk (not_lt.mp hpoor)
    rw [hbalance, ok_bind]
    exact returns_applied _ _

theorem applyRegisterTee_returns (nodeId : NodeId) (capability : TeeCapability) :
    Returns (applyRegisterTee ctx nodeId capability) := by
  unfold applyRegisterTee
  split
  · exact returns_reject _ _
  · split
    · exact returns_reject _ _
    · split_ifs
      · exact returns_reject _ _
      · exact returns_applied _ _

theorem applyRegisterGateway_returns (nodeId : NodeId) (operator : Address) (url : String) (https : Bool)
    (height : Height) : Returns (applyRegisterGateway ctx nodeId operator url https height) := by
  unfold applyRegisterGateway
  split_ifs
  · exact returns_reject _ _
  · exact returns_reject _ _
  · exact returns_reject _ _
  · exact returns_applied _ _

theorem applyGovProposal_returns {sender : Address} {proposal : Proposal} {height : Height} :
    Returns (applyGovProposal ctx sender proposal height) ↔
      (PROPOSAL_DEPOSIT ≤ proposal.deposit → proposal.deposit ≤ (ctx.account sender).balance →
        HasNext ctx.state.nextProposalId) := by
  unfold applyGovProposal
  dsimp only
  split_ifs with hlow hpoor
  · exact iff_of_true (returns_reject _ _) (fun h => absurd hlow (not_lt.mpr h))
  · exact iff_of_true (returns_reject _ _) (fun _ h => absurd hpoor (not_lt.mpr h))
  · have hle := not_lt.mp hpoor
    obtain ⟨balance, hbalance⟩ := sub_isOk hle
    rw [hbalance, ok_bind, returns_bind_of (fun _ => returns_applied _ _), returns_add]
    exact ⟨fun h _ _ => h, fun h => h (not_lt.mp hlow) hle⟩

theorem applyGovVote_returns (proposalId : U64) (voter : Address) (choice : VoteChoice) :
    Returns (applyGovVote ctx proposalId voter choice) := by
  unfold applyGovVote
  split
  · exact returns_reject _ _
  · split_ifs
    · exact returns_reject _ _
    · exact returns_reject _ _
    · exact returns_applied _ _

variable {K : Primitives}

/-- The bounds of a stake operation of this sender. -/
def StakeOpFits (ctx : BlockCtx) (sender : Address) (height : Height) : StakeOp → Prop
  | .withdraw nodeId role poolId amount =>
    ∀ key entry, drawnEntry ctx nodeId role poolId sender = some (key, entry) → amount ≤ entry.amount →
      height.val + UNBONDING_PERIOD_BLOCKS.val < 2 ^ 64 ∧ HasNext ctx.nextUnbondId
  | _ => True

/-- The bounds of a transaction that is met in this context. -/
def TxFits (K : Primitives) (ctx : BlockCtx) (stx : SignedTransaction) : Prop :=
  match stx.tx with
  | .transfer src dst amount nonce fee =>
    src ≠ dst → BASE_TRANSFER_GAS ≤ fee → (ctx.account src).nonce = nonce →
      amount.val + (satMul (asAmount fee) ctx.state.baseFee).val ≤ (ctx.account src).balance.val →
      HasNext (ctx.account src).nonce
  | .stakeOp op => StakeOpFits ctx (deriveAddressFromSigner K stx.signer) (ctx.currentHeight.getD 0) op
  | .escrowLock src jobId amount nonce fee =>
    amount ≠ 0 → ctx.getEscrow jobId = none → (ctx.account src).nonce = nonce →
      satAdd amount (asAmount fee) ≤ (ctx.account src).balance → HasNext (ctx.account src).nonce
  | .escrowSettle jobId _ _ _ _ _ =>
    ∀ entry, ctx.getEscrow jobId = some entry → entry.state = .locked → SplitFits entry.amount
  | .rewardMint _ totalReward _ _ _ _ _ => SplitFits totalReward
  | .govProposal p =>
    PROPOSAL_DEPOSIT ≤ p.deposit →
      p.deposit ≤ (ctx.account (deriveAddressFromSigner K stx.signer)).balance → HasNext ctx.state.nextProposalId
  | _ => True

theorem applyStakeOp_returns {op : StakeOp} {sender : Address} {height : Height} :
    Returns (applyStakeOp ctx op sender height) ↔ StakeOpFits ctx sender height op := by
  cases op with
  | deposit nodeId role poolId amount delegator => exact iff_of_true (applyDeposit_returns ..) trivial
  | withdraw nodeId role poolId amount => exact applyWithdraw_returns
  | complete nodeId role poolId unbondId => exact iff_of_true (applyComplete_returns ..) trivial
  | redelegate src dst role amount => exact iff_of_true (applyRedelegate_returns ..) trivial

theorem applyTx_returns {stx : SignedTransaction} : Returns (applyTx K ctx stx) ↔ TxFits K ctx stx := by
  unfold applyTx TxFits
  cases stx.tx with
  | transfer src dst amount nonce fee => exact applyTransfer_returns
  | stakeOp op => exact applyStakeOp_returns
  | receiptBatch batch => exact iff_of_true (applyReceiptBatch_returns ..) trivial
  | dispute d => exact iff_of_true (applyDispute_returns ..) trivial
  | escrowLock src jobId amount nonce fee => exact applyEscrowLock_returns
  | escrowSettle => exact applyEscrowSettle_returns
  | rewardMint => exact applyRewardMint_returns
  | registerModel manifest registrar deposit => exact iff_of_true (applyRegisterModel_returns ..) trivial
  | govProposal p => exact applyGovProposal_returns
  | govVote proposalId voter choice => exact iff_of_true (applyGovVote_returns ..) trivial
  | registerTeeCapability => exact iff_of_true (applyRegisterTee_returns ..) trivial
  | registerGateway => exact iff_of_true (applyRegisterGateway_returns ..) trivial
  | unregisterGateway => exact iff_of_true (returns_applied _ _) trivial

theorem applyTxs_returns {txs : List SignedTransaction} :
    Returns (applyTxs K ctx txs) ↔ EachTx K (TxFits K) ctx txs := by
  induction txs generalizing ctx with
  | nil => exact iff_of_true (returns_pure _) trivial
  | cons stx rest ih =>
    rw [applyTxs, returns_bind, EachTx, ← applyTx_returns]
    constructor
    · rintro ⟨⟨mid, o⟩, hstx, hrest⟩
      refine ⟨⟨_, hstx⟩, fun mid' o' h => ?_⟩
      obtain ⟨rfl, rfl⟩ := Prod.mk.inj (Except.ok.inj (hstx.symm.trans h))
      exact ih.mp hrest.of_bind
    · rintro ⟨⟨⟨mid, o⟩, hstx⟩, hrest⟩
      refine ⟨_, hstx, (ih.mpr (hrest mid o hstx)).bind fun _ _ => returns_pure _⟩

end

/-! ## Disputes -/

/-- The bounds of the slash that a transaction is dispatched to. -/
def DisputeFits (s : State) (stx : SignedTransaction) : Prop :=
  ∀ d, stx.tx = .dispute d → d.claimedOutputHash ≠ d.reexecOutputHash →
    SlashFits s d.computeNode .compute .failedDeterministicVerification

theorem applySlash_returns {ctx : BlockCtx} {node : NodeId} {role : StakeRole} {o : Offense}
    {reporter treasury : Address} :
    Returns (applySlash ctx node role o reporter treasury) ↔ SlashFits ctx.state node role o := by
  constructor
  · rintro ⟨⟨ctx', report⟩, h⟩
    exact ((applySlash_eq_ok ctx node role o reporter treasury _ _).mp h).1
  · intro hfits
    have htotal := hfits.total
    exact ⟨_, (applySlash_eq_ok ctx node role o reporter treasury _
      ⟨⟨slashTotal ctx.state node role o, by omega⟩, ⟨slashTotal ctx.state node role o * 90 / 100, by omega⟩,
        ⟨reporterShare (slashTotal ctx.state node role o), by unfold reporterShare; omega⟩,
        ⟨treasuryShare (slashTotal ctx.state node role o), by unfold treasuryShare; omega⟩,
        (slashLoops ctx node role o).affected⟩).mpr ⟨hfits, rfl, rfl, rfl, rfl, rfl, rfl⟩⟩

section

variable {K : Primitives} {ctx : BlockCtx}

theorem dispatchSlash_returns {stx : SignedTransaction} :
    Returns (dispatchSlash K ctx stx) ↔ DisputeFits ctx.state stx := by
  unfold dispatchSlash DisputeFits
  split
  · rename_i d htx
    split_ifs with hne
    · rw [returns_map, applySlash_returns]
      constructor
      · intro h d' hd' _
        obtain rfl := Transaction.dispute.inj (htx.symm.trans hd')
        exact h
      · exact fun h => h d htx hne
    · refine iff_of_true (returns_pure _) (fun d' hd' hne' => ?_)
      obtain rfl := Transaction.dispute.inj (htx.symm.trans hd')
      exact absurd hne' hne
  · rename_i hnot
    exact iff_of_true (returns_pure _) (fun d hd => absurd hd (hnot d))

theorem dispatchSlashes_returns {txs : List SignedTransaction} :
    Returns (txs.foldlM (dispatchSlash K) ctx) ↔ ∀ stx ∈ txs, DisputeFits ctx.state stx := by
  induction txs generalizing ctx with
  | nil => exact iff_of_true (returns_pure _) (by simp)
  | cons stx rest ih =>
    rw [List.foldlM_cons, returns_bind, List.forall_mem_cons, ← dispatchSlash_returns (K := K)]
    constructor
    · rintro ⟨mid, hmid, hrest⟩
      exact ⟨⟨mid, hmid⟩, (dispatchSlash_frame hmid).state ▸ ih.mp hrest⟩
    · rintro ⟨⟨mid, hmid⟩, hrest⟩
      exact ⟨mid, hmid, ih.mpr ((dispatchSlash_frame hmid).state.symm ▸ hrest)⟩

end

/-! ## Proposals -/

/-- The bounds of a tally against what is bonded. -/
def TallyFits (tally : Tally) (totalBonded : Amount) : Prop :=
  totalBonded ≠ 0 → tally.total.val * 10000 < 2 ^ 128

theorem bpsOf_returns {part whole : Amount} (h : whole ≠ 0) :
    Returns (bpsOf part whole) ↔ part.val * 10000 < 2 ^ 128 := by
  rw [bpsOf, returns_bind_of (fun scaled => div_isOk scaled fun hzero => h (Fin.ext hzero)), returns_mul]
  rfl

theorem evaluate_returns {tally : Tally} {totalBonded : Amount} :
    Returns (tally.evaluate totalBonded) ↔ TallyFits tally totalBonded := by
  have hyes : tally.yes.val ≤ tally.total.val :=
    (le_satAdd _ _).trans ((le_satAdd _ _).trans (le_satAdd _ _))
  have hveto : tally.noWithVeto.val ≤ tally.total.val := by
    have := tally.noWithVeto.isLt
    simp only [Tally.total, satAdd_val]
    omega
  unfold Tally.evaluate TallyFits
  split
  · rename_i hnone
    refine iff_of_true (returns_pure _) (fun hbonded => ?_)
    obtain hzero | hzero := hnone
    · exact absurd hzero hbonded
    · rw [hzero]
      decide
  · rename_i hsome
    obtain ⟨hbonded, htotal⟩ := not_or.mp hsome
    rw [← bpsOf_returns hbonded]
    constructor
    · exact fun h _ => h.of_bind
    · intro h
      have hfits := (bpsOf_returns hbonded).mp (h hbonded)
      refine (h hbonded).bind fun turnout _ => ?_
      split
      · exact returns_pure _
      have hpct := (bpsOf_returns htotal).mpr ((Nat.mul_le_mul_right _ hveto).trans_lt hfits)
      refine hpct.bind fun vetoPct _ => ?_
      split
      · exact returns_pure _
      split
      · exact returns_pure _
      · rename_i hcast
        have hpct := (bpsOf_returns hcast).mpr ((Nat.mul_le_mul_right _ hyes).trans_lt hfits)
        exact hpct.bind fun approvalPct _ => returns_pure _

/-- The bounds of a proposal that is met in this context. -/
def ProposalFits (totalBonded : Amount) (now : Timestamp) (ctx : BlockCtx) (item : U64 × ProposalRecord) :
    Prop :=
  item.2.phase = .voting → item.2.proposal.votingEnds ≤ now → TallyFits (tallyVotes ctx item.1) totalBonded

theorem advanceProposal_returns {totalBonded : Amount} {now : Timestamp} {ctx : BlockCtx}
    {item : U64 × ProposalRecord} :
    Returns (advanceProposal totalBonded now ctx item) ↔ ProposalFits totalBonded now ctx item := by
  obtain ⟨id, record⟩ := item
  unfold advanceProposal ProposalFits
  dsimp only
  cases hphase : record.phase with
  | voting =>
    dsimp only
    split
    · rename_i hearly
      exact iff_of_true (returns_pure _) (fun _ h => absurd hearly (not_lt.mpr h))
    · rename_i hends
      rw [returns_bind_of (fun outcome => ?_), evaluate_returns]
      · exact ⟨fun h _ _ => h, fun h => h rfl (not_lt.mp hends)⟩
      · cases outcome <;> exact returns_pure _
  | discussion =>
    refine iff_of_true ?_ (fun h => by cases h)
    dsimp only
    split <;> exact returns_pure _
  | _ => exact iff_of_true (returns_pure _) (fun h => by cases h)

/-! ## Blocks -/

section

variable {K : Primitives}

/-- The context that a block has come to when the proposals are advanced. -/
def Minted (K : Primitives) (s : State) (b : Block) (paid : BlockCtx) : Prop :=
  ∃ ctx outcomes slashed rotated active minted, applyTxs K s.beginBlock b.txs = .ok (ctx, outcomes) ∧
    b.txs.foldlM (dispatchSlash K) ctx = .ok slashed ∧
    recomputeValidatorSet slashed b.header.height = .ok (rotated, active) ∧
    epochBoundaryMint rotated (satSub (epochForHeight b.header.height) 1) b.header.height = .ok (paid, minted)

/-- The bounds of a block. -/
structure CommitFits (K : Primitives) (s : State) (b : Block) : Prop where
  txs : EachTx K (TxFits K) s.beginBlock b.txs
  disputes : ∀ stx ∈ b.txs, DisputeFits s stx
  mint : isEpochBoundary b.header.height = true → endingRewards s b.header.height ≠ [] →
    MintBounds s (satSub (epochForHeight b.header.height) 1) b.header.height
  proposals : isEpochBoundary b.header.height = true → ∀ paid, Minted K s b paid →
    Each (advanceProposal s.totalBondedStake b.header.timestampMs)
      (ProposalFits s.totalBondedStake b.header.timestampMs) paid s.iterProposals

theorem processGovernanceProposals_returns {ctx : BlockCtx} {now : Timestamp} :
    Returns (processGovernanceProposals ctx now) ↔ Each (advanceProposal ctx.state.totalBondedStake now)
      (ProposalFits ctx.state.totalBondedStake now) ctx ctx.state.iterProposals :=
  returns_foldlM (fun _ _ _ => advanceProposal_returns) ctx

theorem epochHooks_returns {ctx : BlockCtx} {header : BlockHeader} :
    Returns (epochHooks ctx header) ↔ (isEpochBoundary header.height = true →
      (endingRewards ctx.state header.height ≠ [] →
        MintBounds ctx.state (satSub (epochForHeight header.height) 1) header.height) ∧
      ∀ rotated active paid minted, recomputeValidatorSet ctx header.height = .ok (rotated, active) →
        epochBoundaryMint rotated (satSub (epochForHeight header.height) 1) header.height = .ok (paid, minted) →
        Each (advanceProposal ctx.state.totalBondedStake header.timestampMs)
          (ProposalFits ctx.state.totalBondedStake header.timestampMs) paid ctx.state.iterProposals) := by
  unfold epochHooks
  split
  · rename_i hboundary
    obtain ⟨rotated, active, hrotated⟩ := recomputeValidatorSet_isOk ctx header.height
    have hstate := (recomputeValidatorSet_frame hrotated).state
    have hmint : Returns (epochBoundaryMint rotated (satSub (epochForHeight header.height) 1)
        header.height) ↔ _ := epochBoundaryMint_returns
    rw [hstate] at hmint
    have hproposals : ∀ paid minted, epochBoundaryMint rotated (satSub (epochForHeight header.height) 1)
        header.height = .ok (paid, minted) →
        (Returns (processGovernanceProposals paid header.timestampMs) ↔
          Each (advanceProposal ctx.state.totalBondedStake header.timestampMs)
            (ProposalFits ctx.state.totalBondedStake header.timestampMs) paid ctx.state.iterProposals) := by
      intro paid minted h
      rw [processGovernanceProposals_returns, (epochBoundaryMint_frame h).state, hstate]
    rw [hrotated, ok_bind, returns_bind]
    constructor
    · rintro ⟨⟨paid, minted⟩, hpaid, h⟩ -
      refine ⟨hmint.mp ⟨_, hpaid⟩, fun rotated' active' paid' minted' h' hpaid' => ?_⟩
      obtain ⟨rfl, rfl⟩ := Prod.mk.inj (Except.ok.inj h')
      obtain ⟨rfl, rfl⟩ := Prod.mk.inj (Except.ok.inj (hpaid.symm.trans hpaid'))
      exact (hproposals _ _ hpaid).mp h.of_bind
    · intro h
      obtain ⟨hpays, hadvances⟩ := h hboundary
      obtain ⟨⟨paid, minted⟩, hpaid⟩ := hmint.mpr hpays
      have hend := (hproposals _ _ hpaid).mpr (hadvances _ _ _ _ rfl hpaid)
      exact ⟨_, hpaid, hend.bind fun _ _ => returns_pure _⟩
  · rename_i hoff
    exact iff_of_true (returns_pure _) (fun h => absurd h hoff)

theorem replayBlock_returns {s : State} {b : Block} : Returns (replayBlock K s b) ↔ CommitFits K s b := by
  rw [replayBlock, returns_bind]
  constructor
  · rintro ⟨⟨ctx, outcomes⟩, htxs, h⟩
    obtain ⟨slashed, hslashed, h⟩ := returns_bind.mp h
    have hctx : ctx.state = s := applyTxs_state htxs
    have hstate : slashed.state = s :=
      (HookFrame.foldlM (fun _ _ _ hf => dispatchSlash_frame hf) hslashed).state.trans hctx
    have hhooks := epochHooks_returns.mp h.of_bind
    rw [hstate] at hhooks
    refine ⟨applyTxs_returns.mp ⟨_, htxs⟩, ?_, fun hb => (hhooks hb).1, fun hb paid hminted => ?_⟩
    · exact hctx ▸ dispatchSlashes_returns.mp ⟨_, hslashed⟩
    · obtain ⟨ctx', outcomes', slashed', rotated, active, minted, htxs', hslashed', hrotated, hpaid⟩ := hminted
      obtain ⟨rfl, -⟩ := Prod.mk.inj (Except.ok.inj (htxs.symm.trans htxs'))
      obtain rfl := Except.ok.inj (hslashed.symm.trans hslashed')
      exact (hhooks hb).2 rotated active paid minted hrotated hpaid
  · intro h
    obtain ⟨⟨ctx, outcomes⟩, htxs⟩ := applyTxs_returns.mpr h.txs
    have hctx : ctx.state = s := applyTxs_state htxs
    obtain ⟨slashed, hslashed⟩ : Returns (b.txs.foldlM (dispatchSlash K) ctx) :=
      dispatchSlashes_returns.mpr (hctx.symm ▸ h.disputes)
    have hstate : slashed.state = s :=
      (HookFrame.foldlM (fun _ _ _ hf => dispatchSlash_frame hf) hslashed).state.trans hctx
    have hhooks : Returns (epochHooks slashed b.header) := by
      refine epochHooks_returns.mpr fun hb => ?_
      rw [hstate]
      exact ⟨h.mint hb, fun rotated active paid minted hrotated hpaid => h.proposals hb paid
        ⟨ctx, outcomes, slashed, rotated, active, minted, htxs, hslashed, hrotated, hpaid⟩⟩
    exact ⟨_, htxs, returns_bind.mpr ⟨slashed, hslashed, hhooks.bind fun _ _ => returns_pure _⟩⟩

theorem commitBlock_returns {s : State} {m : Mempool} {b : Block} :
    Returns (commitBlock K s m b) ↔ CommitFits K s b := by
  rw [commitBlock, returns_bind_of (fun r => ?_), replayBlock_returns]
  dsimp only
  split <;> exact returns_pure _

/-- The store and the pool after a decided block; a block that is refused changes neither. -/
def commitStep (K : Primitives) (c : State × Mempool) (b : Block) : Exec (State × Mempool) := do
  let result ← commitBlock K c.1 c.2 b
  match result with
  | .ok committed => pure (committed.state, committed.mempool)
  | .error _ => pure c

/-- Decided blocks, whatever they hold and from whatever store on, are committed or refused without a panic
exactly when each is within its bounds in the store that the ones before it have left. -/
theorem commits_return (K : Primitives) (s : State) (m : Mempool) (blocks : List Block) :
    (∃ out, blocks.foldlM (commitStep K) (s, m) = .ok out) ↔
      Each (commitStep K) (fun c b => CommitFits K c.1 b) (s, m) blocks := by
  refine returns_foldlM (fun c b _ => ?_) (s, m)
  rw [commitStep, returns_bind_of (fun result => ?_), commitBlock_returns]
  cases result <;> exact returns_pure _

end

/-! ## The largest mint -/

def mintBody : Block := bodyAt 1 [unsigned [] (.rewardMint 5 (Fin.last _) 1 2 3 4 0)]

/-- 80 percent of the largest amount there is. -/
theorem mint_overflows :
    commitBlock toyPrimitives soleHolder (.withLimits 10 10000) mintBody = .error .mulOverflow := rfl

end Arknet.Laws
