import Arknet.Laws.Linkage

/-!
The three copies of the base fee. A transfer is charged the fee in the database, the header carries
whatever its proposer had, and the engine's variable goes into the blocks built here. The database and
the variable are updated by the same rule with two gas targets, and nothing compares a peer's header
with either (`fee_continuity`).
-/

namespace Arknet.Laws

open Machine Store Arknet.Chain Arknet.Consensus

/-! ## The law -/

/-- The fee `apply_transfer` charges for a unit of gas. -/
def perGasFee (s : State) : Amount := s.baseFee

/-- An applied transfer costs its amount and its gas at that fee. -/
theorem transfer_charged {ctx ctx' : BlockCtx} {src dst : Address} {amount : Amount} {nonce : Nonce}
    {fee gas : Gas} (h : applyTransfer ctx src dst amount nonce fee = .ok (ctx', .applied gas)) :
    (ctx'.account src).balance.val + amount.val + (satMul (asAmount fee) (perGasFee ctx.state)).val =
      (ctx.account src).balance.val := by
  rcases applyTransfer_ok h with hk | ⟨-, hne, -, balance, next, hbal, -, rfl⟩
  · cases hk.2
  · rw [BlockCtx.account_setAccount, if_neg (Ne.symm hne), BlockCtx.account_setAccount, if_pos rfl]
    show balance.val + amount.val + _ = _
    rw [← hbal, perGasFee]
    omega

/-- The block commits on `s` and one of its transfers is applied. -/
def AppliesTransfer (K : Primitives) (s : State) (b : Block) : Prop :=
  ∃ r s', Commits K s b r s' ∧ ∃ stx ∈ appliedTxs b.txs r.outcomes,
    ∃ src dst amount nonce fee, stx.tx = .transfer src dst amount nonce fee

/-- The fee that is due after a block. -/
def dueFee (target : Gas) (last : Block × CommitReport) : Option Amount :=
  nextBaseFee last.1.header.baseFee last.2.gasUsed target

/-- Transfers are charged the fee of their header, and every header carries the fee that is due. -/
structure FeeLaw (K : Primitives) (cfg : EngineConfig) (hist : List Step) : Prop where
  charged : ∀ p ∈ hist, ∀ c ∈ commitsIn p, AppliesTransfer K p.pre.chainState c.1 →
    perGasFee p.pre.chainState = c.1.header.baseFee
  due : (commitsOf hist).IsChain (fun last c => dueFee cfg.gasTarget last = some c.1.header.baseFee)

/-! ## The condition -/

/-- The node has been restarted after its last commit. -/
def RestartedSince (hist : List Step) : Prop :=
  ∃ past p rest, hist = past ++ p :: rest ∧ p.event = .restart ∧ ∀ q ∈ rest, commitsIn q = []

/-- A block that is decided carries the engine's fee, or after a restart the fee that is due; its
transfers find the default fee in a new database, and afterwards two gas targets that agree. -/
structure FeesAgree (K : Primitives) (cfg : EngineConfig) (past : List Step) (p : Step) : Prop where
  carried : ∀ b, CommitsCached K p b → ∀ last, (commitsOf past).getLast? = some last →
    (¬ RestartedSince past → b.header.baseFee = p.pre.baseFee) ∧
      (RestartedSince past → dueFee cfg.gasTarget last = some b.header.baseFee)
  opening : ∀ b, CommitsCached K p b → AppliesTransfer K p.pre.chainState b → commitsOf past = [] →
    b.header.baseFee = 1
  targets : ∀ b, CommitsCached K p b → AppliesTransfer K p.pre.chainState b →
    ∀ last, (commitsOf past).getLast? = some last →
      dueFee TARGET_GAS_PER_BLOCK last = dueFee cfg.gasTarget last

section

variable {K : Primitives} {cfg : EngineConfig} {genesis : GenesisConfig}

/-! ## What the copies hold -/

structure FeeCopies (cfg : EngineConfig) (hist : List Step) (e : Engine) : Prop where
  opening : commitsOf hist = [] → e.chainState.baseFee = 1
  stored : ∀ last, (commitsOf hist).getLast? = some last →
    dueFee TARGET_GAS_PER_BLOCK last = some e.chainState.baseFee
  variable_due : ∀ last, (commitsOf hist).getLast? = some last → ¬ RestartedSince hist →
    dueFee cfg.gasTarget last = some e.baseFee

theorem configured_target {consensusPk : List UInt8}
    (h : engineConfig K genesis consensusPk = .ok (.ok cfg)) : cfg.gasTarget ≠ 0 := by
  unfold engineConfig at h
  split at h
  · simp at h
  rename_i hvalid
  split at h
  · simp at h
  split at h
  · simp at h
  simp only [bind_eq_ok, pure_eq_ok, Except.ok.injEq] at h
  obtain ⟨initialHeight, -, rfl⟩ := h
  exact (validateGenesis_ok hvalid).2.1

theorem dueFee_eq {target : Gas} (htarget : target ≠ 0) (last : Block × CommitReport) :
    dueFee target last = some ((dueFee target last).getD last.1.header.baseFee) := by
  have h : (nextBaseFee last.1.header.baseFee last.2.gasUsed target).isSome := nextBaseFee_isSome htarget
  rw [dueFee]
  cases hn : nextBaseFee last.1.header.baseFee last.2.gasUsed target with
  | none =>
    rw [hn] at h
    cases h
  | some fee => rfl

theorem restartedSince_snoc {hist : List Step} {p : Step} :
    RestartedSince (hist ++ [p]) ↔ p.event = .restart ∨ commitsIn p = [] ∧ RestartedSince hist := by
  constructor
  · rintro ⟨past, q, rest, heq, hq, hrest⟩
    rcases List.eq_nil_or_concat rest with rfl | ⟨init, last, rfl⟩
    · obtain ⟨-, rfl⟩ := List.append_singleton_inj.mp heq
      exact .inl hq
    · rw [List.concat_eq_append, ← List.cons_append, ← List.append_assoc] at heq
      obtain ⟨rfl, rfl⟩ := List.append_singleton_inj.mp heq
      exact .inr ⟨hrest p (by simp), past, q, init, rfl, hq, fun x hx => hrest x (by simp [hx])⟩
  · rintro (hp | ⟨hquiet, past, q, rest, rfl, hq, hrest⟩)
    · exact ⟨hist, p, [], rfl, hp, by simp⟩
    · refine ⟨past, q, rest ++ [p], by simp, hq, fun x hx => ?_⟩
      rcases List.mem_append.mp hx with hx | hx
      · exact hrest x hx
      · rw [List.mem_singleton.mp hx]
        exact hquiet

theorem feeCopies_step (htarget : cfg.gasTarget ≠ 0) {e e' : Engine} {hist : List Step} {p : Step}
    (hf : FeeCopies cfg hist e) (h : Steps K cfg genesis e p e') : FeeCopies cfg (hist ++ [p]) e' := by
  obtain ⟨hnone, hev, hs, hfee⟩ | ⟨hnone, hev, rfl⟩ | ⟨height, valueId, block, c, hev, -, hc, hone, rfl⟩ :=
    steps_cases h
  · constructor
    · rw [commitsOf_snoc, hnone, List.append_nil, hs]
      exact hf.opening
    · rw [commitsOf_snoc, hnone, List.append_nil, hs]
      exact hf.stored
    · rw [commitsOf_snoc, hnone, List.append_nil, hfee]
      exact fun last hlast hr => hf.variable_due last hlast
        (fun hr' => hr (restartedSince_snoc.mpr (.inr ⟨hnone, hr'⟩)))
  · obtain ⟨models, hm⟩ := openState_columns genesis e.chainState
    have hs : (Engine.start K cfg (openState genesis e.chainState)).chainState.baseFee =
        e.chainState.baseFee := by
      show (openState genesis e.chainState).baseFee = _
      rw [hm]
      rfl
    constructor
    · rw [commitsOf_snoc, hnone, List.append_nil, hs]
      exact hf.opening
    · rw [commitsOf_snoc, hnone, List.append_nil, hs]
      exact hf.stored
    · exact fun last _ hr => absurd (restartedSince_snoc.mpr (.inl hev)) hr
  · obtain ⟨r, hr, hroot, rfl⟩ := commitBlock_ok.mp hc
    have hcommits : Commits K e.chainState block r (persist K r.ctx block) := ⟨hr, hroot, rfl⟩
    have hlast : ∀ last, (commitsOf (hist ++ [p])).getLast? = some last ↔
        (block, (⟨previewStateRoot K r.ctx, totalGas r.outcomes,
          r.outcomes.countP TxOutcome.isApplied⟩ : CommitReport)) = last := by
      intro last
      rw [commitsOf_snoc, hone, List.getLast?_concat, Option.some.injEq]
    constructor
    · intro hnil
      rw [commitsOf_snoc, hone] at hnil
      simp at hnil
    · intro last hl
      obtain rfl := (hlast last).mp hl
      rw [dueFee_eq (by decide), Engine.dropDrain_chainState]
      exact congrArg some (commits_baseFee hcommits).symm
    · intro last hl _
      obtain rfl := (hlast last).mp hl
      rw [dueFee_eq htarget, Engine.dropDrain_baseFee]
      rfl

theorem run_feeCopies (htarget : cfg.gasTarget ≠ 0) {hist : List Step} {e : Engine}
    (run : NodeRun K cfg genesis State.empty hist e) : FeeCopies cfg hist e := by
  induction run with
  | nil =>
    obtain ⟨models, hm⟩ := openState_columns genesis State.empty
    refine ⟨fun _ => ?_, fun last hl => (by cases hl), fun last hl => (by cases hl)⟩
    show (openState genesis State.empty).baseFee = 1
    rw [hm]
    rfl
  | snoc run step ih => exact feeCopies_step htarget ih step

/-! ## One step -/

theorem feesAgree_quiet {e e' : Engine} {past : List Step} {p : Step} (h : Steps K cfg genesis e p e')
    (hnone : commitsIn p = []) : FeesAgree K cfg past p := by
  have hno : ∀ b, ¬ CommitsCached K p b := fun b => not_commitsCached h hnone
  exact ⟨fun b hb => absurd hb (hno b), fun b hb => absurd hb (hno b), fun b hb => absurd hb (hno b)⟩

theorem feeLaw_snoc {hist : List Step} {p : Step} (hlaw : FeeLaw K cfg hist) :
    FeeLaw K cfg (hist ++ [p]) ↔
      (∀ c ∈ commitsIn p, AppliesTransfer K p.pre.chainState c.1 →
        perGasFee p.pre.chainState = c.1.header.baseFee) ∧
      (commitsOf hist ++ commitsIn p).IsChain
        (fun last c => dueFee cfg.gasTarget last = some c.1.header.baseFee) := by
  constructor
  · intro h
    refine ⟨h.charged p (by simp), ?_⟩
    rw [← commitsOf_snoc]
    exact h.due
  · rintro ⟨hc, hd⟩
    refine ⟨fun q hq => ?_, by rw [commitsOf_snoc]; exact hd⟩
    rcases List.mem_append.mp hq with hq | hq
    · exact hlaw.charged q hq
    · rw [List.mem_singleton.mp hq]
      exact hc

theorem feeLaw_step_iff {e e' : Engine} {hist : List Step} {p : Step}
    (hf : FeeCopies cfg hist e) (hlaw : FeeLaw K cfg hist) (h : Steps K cfg genesis e p e') :
    FeeLaw K cfg (hist ++ [p]) ↔ FeesAgree K cfg hist p := by
  have hquiet : commitsIn p = [] → (FeeLaw K cfg (hist ++ [p]) ↔ FeesAgree K cfg hist p) := by
    intro hnone
    refine iff_of_true ((feeLaw_snoc hlaw).mpr ⟨?_, ?_⟩) (feesAgree_quiet h hnone)
    · rw [hnone]
      simp
    · rw [hnone, List.append_nil]
      exact hlaw.due
  obtain ⟨hnone, -⟩ | ⟨hnone, -⟩ | ⟨height, valueId, block, c, hev, hm, hc, hone, -⟩ := steps_cases h
  · exact hquiet hnone
  · exact hquiet hnone
  have hcached := fun b => commitsCached_iff h hone (b := b)
  rw [feeLaw_snoc hlaw, hone, isChain_concat_iff, and_iff_right hlaw.due, h.1]
  simp only [List.mem_singleton, forall_eq]
  constructor
  · rintro ⟨hcharged, hdue⟩
    constructor
    · intro b hb last hlast
      obtain rfl := (hcached b).mp hb
      refine ⟨fun hr => ?_, fun _ => hdue last hlast⟩
      rw [h.1]
      exact Option.some.inj ((hdue last hlast).symm.trans (hf.variable_due last hlast hr))
    · intro b hb htransfer hnil
      obtain rfl := (hcached b).mp hb
      rw [h.1] at htransfer
      rw [← hcharged htransfer]
      exact hf.opening hnil
    · intro b hb htransfer last hlast
      obtain rfl := (hcached b).mp hb
      rw [h.1] at htransfer
      rw [hf.stored last hlast, hdue last hlast]
      exact congrArg some (hcharged htransfer)
  · intro ha
    have hb := (hcached block).mpr rfl
    have hdue : ∀ last, (commitsOf hist).getLast? = some last →
        dueFee cfg.gasTarget last = some block.header.baseFee := by
      intro last hlast
      by_cases hr : RestartedSince hist
      · exact (ha.carried block hb last hlast).2 hr
      · have hfee := (ha.carried block hb last hlast).1 hr
        rw [h.1] at hfee
        rw [hf.variable_due last hlast hr, hfee]
    refine ⟨fun htransfer => ?_, hdue⟩
    have ht : AppliesTransfer K p.pre.chainState block := by rwa [h.1]
    cases hlast : (commitsOf hist).getLast? with
    | none =>
      rw [List.getLast?_eq_none_iff] at hlast
      rw [ha.opening block hb ht hlast]
      exact hf.opening hlast
    | some last =>
      have heq := ha.targets block hb ht last hlast
      rw [hf.stored last hlast, hdue last hlast] at heq
      exact Option.some.inj heq

/-- Over every run of a node from a new database, whatever its genesis file: transfers are charged the fee
of their header and headers carry the fee that is due exactly when at every decision the copies agree. -/
theorem fee_continuity {consensusPk : List UInt8} {hist : List Step} {e : Engine}
    (hcfg : engineConfig K genesis consensusPk = .ok (.ok cfg))
    (run : NodeRun K cfg genesis State.empty hist e) :
    Runs.Throughout (Steps K cfg genesis) (Engine.start K cfg (openState genesis State.empty))
      (fun past _ => FeeLaw K cfg past) hist ↔
    ∀ past p rest, hist = past ++ p :: rest → FeesAgree K cfg past p := by
  have htarget := configured_target hcfg
  have hstart : FeeLaw K cfg [] := ⟨by simp, List.IsChain.nil⟩
  refine Runs.throughout_iff hstart ?_ run
  intro past u p u' rest _ hu _ hlaw hstep
  exact feeLaw_step_iff (run_feeCopies htarget hu) hlaw hstep

end

theorem no_transfer {K : Primitives} {s : State} {b : Block} (h : b.txs = []) :
    ¬ AppliesTransfer K s b := by
  rintro ⟨r, s', -, stx, hstx, -⟩
  rw [h] at hstx
  cases hstx

/-! ## Two blocks at the floor, and two ways to break the law -/

/-- Two empty blocks that carry the lowest fee. -/
theorem fee_continuity_floor : ∃ hist e,
    NodeRun toyPrimitives toyConfig toyGenesis State.empty hist e ∧ (commitsOf hist).length = 2 ∧
    Runs.Throughout (Steps toyPrimitives toyConfig toyGenesis) freshNode
      (fun past _ => FeeLaw toyPrimitives toyConfig past) hist := by
  have run : NodeRun toyPrimitives toyConfig toyGenesis State.empty _ _ :=
    (((Runs.Steps.nil.snoc firstBlock_received).snoc firstBlock_committed).snoc
      childBlock_received).snoc childBlock_committed
  refine ⟨_, _, run, by decide, (fee_continuity toyConfig_configured run).mpr ?_⟩
  intro past p rest heq
  simp only [List.nil_append, List.cons_append] at heq
  rcases past with _ | ⟨p₁, _ | ⟨p₂, _ | ⟨p₃, _ | ⟨p₄, past⟩⟩⟩⟩ <;>
    simp only [List.cons_append, List.nil_append, List.cons.injEq] at heq
  · obtain ⟨rfl, -⟩ := heq
    exact feesAgree_quiet firstBlock_received rfl
  · obtain ⟨rfl, rfl, -⟩ := heq
    have hheld : ∀ b, CommitsCached toyPrimitives ⟨nodeHolding firstBlock,
        .decide 1 (firstBlock.hash toyPrimitives), (returned _ firstBlock_decided).2⟩ b → b.txs = [] := by
      rintro b ⟨⟨_, _, -, hm⟩, -⟩
      obtain rfl := Option.some.inj hm.1
      exact sealBlock_txs _ _ _
    exact ⟨fun _ _ _ hl => (by cases hl), fun b hb ht => absurd ht (no_transfer (hheld b hb)),
      fun b hb ht => absurd ht (no_transfer (hheld b hb))⟩
  · obtain ⟨rfl, rfl, rfl, -⟩ := heq
    exact feesAgree_quiet childBlock_received rfl
  · obtain ⟨rfl, rfl, rfl, rfl, -⟩ := heq
    have hheld : ∀ b, CommitsCached toyPrimitives ⟨childReceived,
        .decide 2 (childBlock.hash toyPrimitives), (returned _ childBlock_decided).2⟩ b →
        b = childBlock := by
      rintro b ⟨⟨_, _, -, hm⟩, -⟩
      have hcache : childReceived.decidedBlockCache = some childBlock := by decide
      exact Option.some.inj (hm.1.symm.trans hcache)
    have hno : ∀ b, CommitsCached toyPrimitives ⟨childReceived,
        .decide 2 (childBlock.hash toyPrimitives), (returned _ childBlock_decided).2⟩ b → b.txs = [] := by
      intro b hb
      rw [hheld b hb]
      exact sealBlock_txs _ _ _
    refine ⟨fun b hb last _ => ⟨fun _ => ?_, fun hr => ?_⟩, fun b hb ht => absurd ht (no_transfer (hno b hb)),
      fun b hb ht => absurd ht (no_transfer (hno b hb))⟩
    · rw [hheld b hb]
      decide
    · obtain ⟨before, q, after, hsplit, hev, -⟩ := hr
      have hq : q ∈ before ++ q :: after := by simp
      rw [← hsplit] at hq
      simp only [List.mem_cons, List.not_mem_nil, or_false] at hq
      rcases hq with rfl | rfl | rfl <;> cases hev
  · have hlen := congrArg List.length heq.2.2.2.2
    simp at hlen

/-- The first block with a child whose proposer has set the fee to five. -/
def dearBlock : Block :=
  { childBlock with header := { childBlock.header with baseFee := 5 } }

theorem dearBlock_run : (nodeEvents toyPrimitives toyConfig toyGenesis
    [.proposal 1 firstBlock, .decide 1 (firstBlock.hash toyPrimitives),
      .proposal 2 dearBlock, .decide 2 (dearBlock.hash toyPrimitives)]).toOption.isSome = true := by
  decide

/-- A first block with the fee of the genesis file: address 1 is minted a reward and transfers of it. -/
def paidBody : Block :=
  { bodyAt 1 [unsigned [] (.rewardMint 5 1000000 1 2 3 4 0), unsigned [] (.transfer 1 8 1 0 21000)] with
    header := { (bodyAt 1 []).header with baseFee := 1000000000 } }

theorem paidBody_replays : (replayBlock toyPrimitives State.empty paidBody).toOption.isSome = true := by
  decide

def paidBlock : Block := sealBlock toyPrimitives State.empty paidBody

theorem paidBlock_received : Steps toyPrimitives toyConfig toyGenesis freshNode
    ⟨freshNode, .proposal 1 paidBlock, [.proposal 1 paidBlock]⟩ (nodeHolding paidBlock) := ⟨rfl, rfl⟩

theorem paidBlock_decided : ((nodeHolding paidBlock).decide toyPrimitives toyConfig 1
    (paidBlock.hash toyPrimitives)).toOption.isSome = true := by decide

theorem paidBlock_committed : Steps toyPrimitives toyConfig toyGenesis (nodeHolding paidBlock)
    ⟨nodeHolding paidBlock, .decide 1 (paidBlock.hash toyPrimitives), (returned _ paidBlock_decided).2⟩
    (returned _ paidBlock_decided).1 := ⟨rfl, eq_ok_returned paidBlock_decided⟩

theorem paidBlock_transfers : AppliesTransfer toyPrimitives State.empty paidBlock := by
  refine ⟨_, _, sealBlock_commits (eq_ok_returned paidBody_replays), ?_⟩
  exact ⟨unsigned [] (.transfer 1 8 1 0 21000), by decide, 1, 8, 1, 0, 21000, rfl⟩

/-- A peer's header with any fee is committed; the transfer of a first block is charged one atom for a unit
of gas, not the fee of its header. -/
theorem fee_discontinued :
    (∃ hist e, NodeRun toyPrimitives toyConfig toyGenesis State.empty hist e ∧
      (blocksOf hist).map (fun b => b.header.baseFee) = [1, 5] ∧
      ¬ FeeLaw toyPrimitives toyConfig hist) ∧
    ∃ hist e, NodeRun toyPrimitives toyConfig toyGenesis State.empty hist e ∧
      (blocksOf hist).map (fun b => b.header.baseFee) = [1000000000] ∧
      (e.chainState.accounts.get 1).map Account.balance = some 828999 ∧
      ¬ FeeLaw toyPrimitives toyConfig hist := by
  have run : NodeRun toyPrimitives toyConfig toyGenesis State.empty _ _ :=
    (Runs.Steps.nil.snoc paidBlock_received).snoc paidBlock_committed
  refine ⟨⟨_, _, nodeEvents_run dearBlock_run, by decide, fun h => ?_⟩,
    ⟨_, _, run, by decide, by decide, fun h => ?_⟩⟩
  · have hcommits : (commitsOf (returned _ dearBlock_run).1).map
        (fun c => (c.1.header.baseFee, c.2.gasUsed)) = [(1, 0), (5, 0)] := by decide
    have hdue := h.due
    obtain ⟨c₁, cs, heq, hc₁, hcs⟩ := List.map_eq_cons_iff.mp hcommits
    obtain ⟨c₂, rest, rfl, hc₂, -⟩ := List.map_eq_cons_iff.mp hcs
    rw [heq, List.isChain_cons_cons] at hdue
    obtain ⟨hfee₁, hgas₁⟩ := Prod.mk.inj hc₁
    have hfive := hdue.1
    rw [dueFee, hfee₁, hgas₁, (Prod.mk.inj hc₂).1] at hfive
    revert hfive
    decide
  · have hone : (commitsIn ⟨nodeHolding paidBlock, .decide 1 (paidBlock.hash toyPrimitives),
        (returned _ paidBlock_decided).2⟩).map Prod.fst = [paidBlock] := by decide
    obtain ⟨c, cs, heq, hc, -⟩ := List.map_eq_cons_iff.mp hone
    have hcharged := h.charged ⟨nodeHolding paidBlock, .decide 1 (paidBlock.hash toyPrimitives),
      (returned _ paidBlock_decided).2⟩ (by simp) c (by rw [heq]; simp)
    rw [hc] at hcharged
    have hfee := hcharged paidBlock_transfers
    revert hfee
    decide

end Arknet.Laws
