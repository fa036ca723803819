import Arknet.Laws.DecidedBlock

/-!
What becomes of an admitted transaction. A build takes transactions out of the pool and stashes them; no
step puts them back, and the stash is overwritten by the next build and dropped by the decision of its
height. A transaction is lost exactly when it is in a stash that goes this way while nothing else accounts
for it (`none_lost`).
-/

namespace Arknet.Laws

open Machine Store Arknet.Chain Arknet.Consensus

/-! ## What accounts for a transaction -/

section

variable (K : Primitives) (cfg : EngineConfig)

/-- Held for readmission. -/
def Stashed (e : Engine) (x : TxHash) : Prop :=
  ∃ height txs, e.lastProposedDrain = some (height, txs) ∧ x ∈ txs.map (SignedTransaction.hash K)

/-- `Mempool::insert` has returned `Ok`. -/
def Admitted (p : Step) (x : TxHash) : Prop :=
  (∃ stx, p.event = .submitTx stx) ∧ p.outputs = [.reply (.ok x)]

/-- An insert has taken it out of the pool. -/
def Displaced (p : Step) (x : TxHash) : Prop :=
  ∃ stx mempool result, p.event = .submitTx stx ∧ p.pre.mempool.insert K stx = .ok (mempool, result) ∧
    p.pre.mempool.contains x = true ∧ mempool.contains x = false

/-- The transactions a build of this engine drains. -/
def drainedBy (e : Engine) : List SignedTransaction :=
  (e.mempool.drainForBlock cfg.gasLimit DEFAULT_BLOCK_BYTES_BUDGET).picked

/-- A build has drained it and `apply_tx` has rejected it. -/
def RejectedAtBuild (p : Step) (x : TxHash) : Prop :=
  ∃ height now ctx outcomes, p.event = .getValue height now ∧
    applyTxs K p.pre.chainState.beginBlock (drainedBy cfg p.pre) = .ok (ctx, outcomes) ∧
    ∃ stx o, (stx, o) ∈ (drainedBy cfg p.pre).zip outcomes ∧ o.isApplied = false ∧ stx.hash K = x

def IncludedIn (p : Step) (x : TxHash) : Prop :=
  ∃ c ∈ commitsIn p, x ∈ c.1.txs.map (SignedTransaction.hash K)

def Settles (p : Step) (x : TxHash) : Prop := Displaced K p x ∨ RejectedAtBuild K cfg p x

/-- Admitted, and since then neither displaced nor rejected, and in no committed block. -/
def Owed (hist : List Step) (x : TxHash) : Prop :=
  Runs.LastWrite (fun p => Settles K cfg p x) Admitted hist x ∧ ∀ p ∈ hist, ¬ IncludedIn K p x

/-- What is owed is in the pool or held for readmission. -/
def NoneLost (hist : List Step) (e : Engine) : Prop :=
  ∀ x, Owed K cfg hist x → e.mempool.contains x = true ∨ Stashed K e x

end

/-! ## The condition -/

/-- The step takes the stash away: a build overwrites it, the decision of its height drops it. -/
def DropsStash (p : Step) : Prop :=
  match p.event with
  | .getValue _ _ => True
  | .decide height _ => p.pre.lastProposedDrain.map Prod.fst = some height
  | _ => False

/-- What is owed of a stash that goes is back in the pool or in the block this step commits. -/
def DropsSettled (K : Primitives) (cfg : EngineConfig) (past : List Step) (p : Step) : Prop :=
  DropsStash p → ∀ x, Stashed K p.pre x → Owed K cfg past x →
    p.pre.mempool.contains x = true ∨
      ∃ b, CommitsCached K p b ∧ x ∈ b.txs.map (SignedTransaction.hash K)

section

variable {K : Primitives} {cfg : EngineConfig} {genesis : GenesisConfig}

/-! ## One step -/

/-- Every drained transaction is picked by the build. -/
theorem build_drained {s : State} {m : Mempool} {height : Height} {params : BuildParams} {now : Timestamp}
    {built : BuiltBlock} (h : build K s m height params now = .ok built) :
    built.drained = (m.drainForBlock params.gasLimit params.bytesBudget).picked ∧
      built.mempool = (m.drainForBlock params.gasLimit params.bytesBudget).mempool := by
  simp only [build, bind_eq_ok, pure_eq_ok, Prod.exists] at h
  obtain ⟨ctx, included, -, rfl⟩ := h
  exact ⟨rfl, rfl⟩

/-- What one step does to the pool and the stash. -/
structure PoolStep (K : Primitives) (cfg : EngineConfig) (e : Engine) (p : Step) (e' : Engine) : Prop where
  keyed : e'.mempool.HashKeyed K
  admitted : ∀ x, Admitted p x → e'.mempool.contains x = true
  pooled : ∀ x, e.mempool.contains x = true →
    e'.mempool.contains x = true ∨ Stashed K e' x ∨ Displaced K p x ∨ IncludedIn K p x
  stashed : ¬ DropsStash p → ∀ x, Stashed K e x → Stashed K e' x
  dropped : DropsStash p → ∀ x, e'.mempool.contains x = true ∨ Stashed K e' x →
    e.mempool.contains x = true
  unsettled : DropsStash p → ∀ x, Settles K cfg p x → e.mempool.contains x = true

/-- A step that leaves pool and stash alone. -/
theorem poolStep_same {e e' : Engine} {p : Step} (hk : e.mempool.HashKeyed K)
    (hm : e'.mempool = e.mempool) (hs : e'.lastProposedDrain = e.lastProposedDrain)
    (hsubmit : ∀ stx, p.event ≠ .submitTx stx) (hdrop : ¬ DropsStash p) : PoolStep K cfg e p e' where
  keyed := by
    rw [hm]
    exact hk
  admitted := fun x hx => absurd hx.1.choose_spec (hsubmit _)
  pooled := fun x hx => .inl (by rwa [hm])
  stashed := fun _ x hx => by
    unfold Stashed
    rw [hs]
    exact hx
  dropped := fun hd => absurd hd hdrop
  unsettled := fun hd => absurd hd hdrop

theorem poolStep_submitTx {e e' : Engine} {stx : SignedTransaction} {outs : List Output}
    (hk : e.mempool.HashKeyed K) (h : e.submitTx K stx = .ok (e', outs)) :
    PoolStep K cfg e ⟨e, .submitTx stx, outs⟩ e' := by
  obtain ⟨mempool, result, hins, rfl, rfl⟩ := Engine.submitTx_ok h
  obtain ⟨hk', hok⟩ := Mempool.insert_spec hk hins
  constructor
  · exact hk'
  · intro x hx
    exact (hok x (Output.reply.inj (List.singleton_inj.mp hx.2))).2
  · intro x hx
    by_cases hx' : mempool.contains x = true
    · exact .inl hx'
    · exact .inr (.inr (.inl ⟨stx, mempool, result, rfl, hins, hx, Bool.eq_false_iff.mpr hx'⟩))
  · exact fun _ x hx => hx
  · exact fun hd => hd.elim
  · exact fun hd => hd.elim

theorem poolStep_getValue {e e' : Engine} {height : Height} {now : Timestamp} {outs : List Output}
    (hk : e.mempool.HashKeyed K) (h : e.getValue K cfg height now = .ok (e', outs)) :
    PoolStep K cfg e ⟨e, .getValue height now, outs⟩ e' := by
  obtain ⟨built, hbuilt, rfl, rfl⟩ := Engine.getValue_ok h
  obtain ⟨hdrained, hmempool⟩ := build_drained hbuilt
  obtain ⟨hk', hall⟩ := Mempool.drainForBlock_accounts hk cfg.gasLimit DEFAULT_BLOCK_BYTES_BUDGET
  have hstash : ∀ x, Stashed K { e with
      mempool := built.mempool
      lastProposedDrain := some (height, built.drained)
      decidedBlockCache := some built.block } x ↔
      x ∈ (drainedBy cfg e).map (SignedTransaction.hash K) := by
    intro x
    simp [Stashed, hdrained, drainedBy, Engine.buildParams]
  constructor
  · rw [hmempool]
    exact hk'
  · rintro x ⟨⟨stx, hev⟩, -⟩
    cases hev
  · intro x hx
    rw [hstash, hmempool]
    exact ((hall x).mp hx).imp_right Or.inl
  · exact fun hd => absurd trivial hd
  · intro _ x hx
    rw [hstash, hmempool] at hx
    exact (hall x).mpr hx
  · rintro - x (⟨stx, _, _, hev, -⟩ | ⟨_, _, ctx, outcomes, -, -, stx, o, hmem, -, rfl⟩)
    · cases hev
    · exact (hall _).mpr (.inr (List.mem_map_of_mem (List.of_mem_zip hmem).1))

theorem poolStep_decide {e e' : Engine} {height : Height} {valueId : BlockHash} {outs : List Output}
    (hk : e.mempool.HashKeyed K) (h : e.decide K cfg height valueId = .ok (e', outs)) :
    PoolStep K cfg e ⟨e, .decide height valueId, outs⟩ e' := by
  -- the pool keeps everything but the committed block, the stash all or nothing
  have hmem : e'.mempool.HashKeyed K ∧ ∀ x, (e'.mempool.contains x = true → e.mempool.contains x = true) ∧
      (e.mempool.contains x = true → e'.mempool.contains x = true ∨
        IncludedIn K ⟨e, .decide height valueId, outs⟩ x) := by
    obtain ⟨-, -, rfl⟩ | ⟨block, -, ⟨err, -, -, rfl⟩ | ⟨c, hc, rfl, rfl⟩⟩ := Engine.decide_ok h
    · rw [Engine.dropDrain_mempool]
      exact ⟨hk, fun x => ⟨id, .inl⟩⟩
    · rw [Engine.dropDrain_mempool]
      exact ⟨hk, fun x => ⟨id, .inl⟩⟩
    · obtain ⟨r, -, -, rfl⟩ := commitBlock_ok.mp hc
      rw [Engine.dropDrain_mempool]
      refine ⟨hk.removeMany _, fun x => ⟨fun hx => ((Mempool.contains_removeMany _ _ _).mp hx).2,
        fun hx => ?_⟩⟩
      by_cases hin : x ∈ block.txs.map (SignedTransaction.hash K)
      · exact .inr ⟨_, List.mem_singleton_self _, hin⟩
      · exact .inl ((Mempool.contains_removeMany _ _ _).mpr ⟨hin, hx⟩)
  have hdrain : e'.lastProposedDrain =
      if e.lastProposedDrain.map Prod.fst = some height then none else e.lastProposedDrain := by
    obtain ⟨-, -, rfl⟩ | ⟨block, -, ⟨err, -, -, rfl⟩ | ⟨c, hc, -, rfl⟩⟩ := Engine.decide_ok h
    · rw [Engine.dropDrain_eq]
      rfl
    · rw [Engine.dropDrain_eq]
      rfl
    · rw [Engine.dropDrain_eq]
      rfl
  constructor
  · exact hmem.1
  · rintro x ⟨⟨stx, hev⟩, -⟩
    cases hev
  · intro x hx
    exact ((hmem.2 x).2 hx).imp_right (fun hin => .inr (.inr hin))
  · intro hd x hx
    have hd' : ¬ e.lastProposedDrain.map Prod.fst = some height := hd
    unfold Stashed
    rw [hdrain, if_neg hd']
    exact hx
  · rintro hd x (hx | ⟨_, _, hx, -⟩)
    · exact (hmem.2 x).1 hx
    · have hd' : e.lastProposedDrain.map Prod.fst = some height := hd
      rw [hdrain, if_pos hd'] at hx
      cases hx
  · rintro - x (⟨stx, _, _, hev, -⟩ | ⟨_, _, _, _, hev, -⟩)
    · cases hev
    · cases hev

theorem poolStep {e e' : Engine} {p : Step} (hk : e.mempool.HashKeyed K)
    (h : Steps K cfg genesis e p e') (hno : p.event ≠ .restart) : PoolStep K cfg e p e' := by
  obtain ⟨pre, event, outs⟩ := p
  obtain ⟨rfl, h⟩ := h
  cases event with
  | submitTx stx => exact poolStep_submitTx hk h
  | getValue height now => exact poolStep_getValue hk h
  | decide height valueId => exact poolStep_decide hk h
  | proposal height block =>
    obtain ⟨-, ⟨-, rfl⟩ | ⟨-, rfl⟩⟩ := Engine.inboundProposal_ok h
    · exact poolStep_same hk rfl rfl (by simp) id
    · exact poolStep_same hk rfl rfl (by simp) id
  | paced height =>
    obtain ⟨⟨waiting, rfl⟩, -⟩ := Engine.paced_ok h
    exact poolStep_same hk rfl rfl (by simp) id
  | idle heartbeat =>
    obtain ⟨⟨waiting, rfl⟩, -⟩ := Engine.idle_ok h
    exact poolStep_same hk rfl rfl (by simp) id
  | restart => exact absurd rfl hno

theorem run_hashKeyed {s : State} {hist : List Step} {e : Engine}
    (run : NodeRun K cfg genesis s hist e) (hno : ∀ p ∈ hist, p.event ≠ .restart) :
    e.mempool.HashKeyed K := by
  induction run with
  | nil => exact Mempool.withLimits_hashKeyed _ _
  | snoc run step ih =>
    exact (poolStep (ih fun p hp => hno p (by simp [hp])) step (hno _ (by simp))).keyed

theorem owed_snoc {hist : List Step} {p : Step} {x : TxHash} :
    Owed K cfg (hist ++ [p]) x ↔
      (Admitted p x ∨ ¬ Settles K cfg p x ∧ Runs.LastWrite (fun p => Settles K cfg p x) Admitted hist x) ∧
      (∀ q ∈ hist, ¬ IncludedIn K q x) ∧ ¬ IncludedIn K p x := by
  unfold Owed
  rw [Runs.lastWrite_snoc]
  simp only [List.mem_append, List.mem_singleton, or_imp, forall_and, forall_eq]

theorem includedIn_iff {e e' : Engine} {p : Step} {x : TxHash} (h : Steps K cfg genesis e p e') :
    IncludedIn K p x ↔ ∃ b, CommitsCached K p b ∧ x ∈ b.txs.map (SignedTransaction.hash K) := by
  constructor
  · rintro ⟨⟨b, report⟩, hc, hx⟩
    exact ⟨b, (commitsCached_iff_mem h).mpr ⟨report, hc⟩, hx⟩
  · rintro ⟨b, hb, hx⟩
    obtain ⟨report, hc⟩ := (commitsCached_iff_mem h).mp hb
    exact ⟨(b, report), hc, hx⟩

/-- A step loses nothing exactly when it settles the stash it takes away. -/
theorem noneLost_step_iff {e e' : Engine} {hist : List Step} {p : Step} (hk : e.mempool.HashKeyed K)
    (hlaw : NoneLost K cfg hist e) (h : Steps K cfg genesis e p e') (hno : p.event ≠ .restart) :
    NoneLost K cfg (hist ++ [p]) e' ↔ DropsSettled K cfg hist p := by
  have hstep := poolStep hk h hno
  have hpre := h.1
  constructor
  · intro hafter hd x hx howed
    rw [hpre] at hx ⊢
    rw [← includedIn_iff h]
    by_contra hnot
    rw [not_or] at hnot
    refine hnot.1 (hstep.dropped hd x (hafter x (owed_snoc.mpr ⟨.inr ⟨?_, howed.1⟩, howed.2, hnot.2⟩)))
    exact fun hs => hnot.1 (hstep.unsettled hd x hs)
  · intro hsettled x howed
    obtain ⟨hadm, hpast, hnow⟩ := owed_snoc.mp howed
    have hpool : ¬ Settles K cfg p x → e.mempool.contains x = true →
        e'.mempool.contains x = true ∨ Stashed K e' x := by
      intro hns hx
      rcases hstep.pooled x hx with hin | hin | hin | hin
      · exact .inl hin
      · exact .inr hin
      · exact absurd (.inl hin) hns
      · exact absurd hin hnow
    rcases hadm with hadm | ⟨hns, hlast⟩
    · exact .inl (hstep.admitted x hadm)
    rcases hlaw x ⟨hlast, hpast⟩ with hx | hx
    · exact hpool hns hx
    by_cases hd : DropsStash p
    · rcases hsettled hd x (by rwa [hpre]) ⟨hlast, hpast⟩ with hin | hin
      · rw [hpre] at hin
        exact hpool hns hin
      · exact absurd ((includedIn_iff h).mpr hin) hnow
    · exact .inr (hstep.stashed hd x hx)

/-- Over every run of a node between two starts: no admitted transaction is ever lost exactly when every
stash that a build overwrites or a decision drops is settled. -/
theorem none_lost {s : State} {hist : List Step} {e : Engine} (run : NodeRun K cfg genesis s hist e)
    (hno : ∀ p ∈ hist, p.event ≠ .restart) :
    Runs.Throughout (Steps K cfg genesis) (Engine.start K cfg (openState genesis s)) (NoneLost K cfg)
      hist ↔ ∀ past p rest, hist = past ++ p :: rest → DropsSettled K cfg past p := by
  have hstart : NoneLost K cfg [] (Engine.start K cfg (openState genesis s)) := by
    rintro x ⟨⟨past, p, rest, heq, -⟩, -⟩
    simp at heq
  refine Runs.throughout_iff hstart ?_ run
  intro past u p u' rest heq hu _ hlaw hstep
  refine noneLost_step_iff (run_hashKeyed hu fun q hq => hno q ?_) hlaw hstep (hno p ?_)
  · simp [heq, hq]
  · simp [heq]

end

/-! ## A transaction that is committed, one that is lost -/

/-- Anybody may announce a gateway; the pool takes it. -/
def announced : SignedTransaction := unsigned [] (.registerGateway 1 7 "http://gateway" false)

theorem announced_admitted :
    (freshNode.step toyPrimitives toyConfig toyGenesis (.submitTx announced)).toOption.isSome = true := by decide

theorem announced_hash : (returned _ announced_admitted).2 =
    [.reply (.ok (announced.hash toyPrimitives))] := rfl

/-- The node that has it in its pool. -/
def pooledNode : Engine := (returned _ announced_admitted).1

theorem announced_built :
    (pooledNode.step toyPrimitives toyConfig toyGenesis (.getValue 1 0)).toOption.isSome = true := by decide

/-- The node that has built a block of it. -/
def builtNode : Engine := (returned _ announced_built).1

/-- The hash of that block. -/
def announcedId : BlockHash := builtNode.decidedBlockCache.elim 0 (Block.hash toyPrimitives)

set_option maxRecDepth 2000 in
theorem announced_decided :
    (builtNode.step toyPrimitives toyConfig toyGenesis (.decide 1 announcedId)).toOption.isSome = true := by
  decide

theorem announced_rebuilt :
    (builtNode.step toyPrimitives toyConfig toyGenesis (.getValue 1 0)).toOption.isSome = true := by decide

def admitStep : Step := ⟨freshNode, .submitTx announced, (returned _ announced_admitted).2⟩

def buildStep : Step := ⟨pooledNode, .getValue 1 0, (returned _ announced_built).2⟩

def decideStep : Step := ⟨builtNode, .decide 1 announcedId, (returned _ announced_decided).2⟩

def rebuildStep : Step := ⟨builtNode, .getValue 1 0, (returned _ announced_rebuilt).2⟩

theorem built_run : NodeRun toyPrimitives toyConfig toyGenesis State.empty
    ([] ++ [admitStep] ++ [buildStep]) builtNode :=
  (Runs.Steps.nil.snoc (steps_returned announced_admitted)).snoc (steps_returned announced_built)

theorem stashed_of_map {e : Engine} {height : Height} {hashes : List TxHash}
    (h : e.lastProposedDrain.map (fun d => (d.1, d.2.map (SignedTransaction.hash toyPrimitives))) =
      some (height, hashes)) (x : TxHash) : Stashed toyPrimitives e x ↔ x ∈ hashes := by
  obtain ⟨⟨_, txs⟩, hsome, heq⟩ := Option.map_eq_some_iff.mp h
  obtain ⟨-, rfl⟩ := Prod.mk.inj heq
  constructor
  · rintro ⟨_, txs', hsome', hmem⟩
    obtain ⟨-, rfl⟩ := Prod.mk.inj (Option.some.inj (hsome.symm.trans hsome'))
    exact hmem
  · exact fun hmem => ⟨_, txs, hsome, hmem⟩

theorem builtNode_stash : builtNode.lastProposedDrain.map
    (fun d => (d.1, d.2.map (SignedTransaction.hash toyPrimitives))) =
    some (1, [announced.hash toyPrimitives]) := by decide

set_option maxRecDepth 2000 in
/-- Submitted, built and decided in the first round: the stash is dropped with its block committed. -/
theorem none_lost_decided : ∃ hist e, NodeRun toyPrimitives toyConfig toyGenesis State.empty hist e ∧
    (∃ p ∈ hist, IncludedIn toyPrimitives p (announced.hash toyPrimitives)) ∧
    Runs.Throughout (Steps toyPrimitives toyConfig toyGenesis)
      (Engine.start toyPrimitives toyConfig (openState toyGenesis State.empty))
      (NoneLost toyPrimitives toyConfig) hist := by
  have hstep : Steps toyPrimitives toyConfig toyGenesis builtNode decideStep
      (returned _ announced_decided).1 := steps_returned announced_decided
  have run : NodeRun toyPrimitives toyConfig toyGenesis State.empty
      ([] ++ [admitStep] ++ [buildStep] ++ [decideStep]) _ := built_run.snoc hstep
  have hin : IncludedIn toyPrimitives decideStep (announced.hash toyPrimitives) := by
    have hone : (commitsIn decideStep).map (fun c => c.1.txs) = [[announced]] := by decide
    obtain ⟨c, cs, heq, hc, -⟩ := List.map_eq_cons_iff.mp hone
    refine ⟨c, by rw [heq]; simp, ?_⟩
    rw [hc]
    simp
  refine ⟨_, _, run, ⟨decideStep, by simp, hin⟩, (none_lost run ?_).mpr ?_⟩
  · intro p hp
    simp only [List.nil_append, List.cons_append, List.mem_cons, List.not_mem_nil, or_false] at hp
    obtain rfl | rfl | rfl := hp
    · simp [admitStep]
    · simp [buildStep]
    · simp [decideStep]
  · intro past p rest heq hd x hx _
    have hp : p ∈ [admitStep, buildStep, decideStep] := by
      rw [show [admitStep, buildStep, decideStep] = past ++ p :: rest from heq]
      simp
    simp only [List.mem_cons, List.not_mem_nil, or_false] at hp
    obtain rfl | rfl | rfl := hp
    · exact hd.elim
    · obtain ⟨_, _, hnone, -⟩ := hx
      have hempty : pooledNode.lastProposedDrain = none := by decide
      rw [show buildStep.pre = pooledNode from rfl, hempty] at hnone
      cases hnone
    · obtain rfl : x = announced.hash toyPrimitives := by
        simpa using (stashed_of_map builtNode_stash x).mp hx
      exact .inr ((includedIn_iff hstep).mp hin)

theorem not_rejectedAtBuild {p : Step} {x : TxHash}
    (h : (applyTxs toyPrimitives p.pre.chainState.beginBlock
      (drainedBy toyConfig p.pre)).toOption.map (fun r => r.2.all TxOutcome.isApplied) = some true) :
    ¬ RejectedAtBuild toyPrimitives toyConfig p x := by
  rintro ⟨_, _, ctx, outcomes, -, happly, stx, o, hmem, ho, -⟩
  rw [happly] at h
  have hall : outcomes.all TxOutcome.isApplied = true := Option.some.inj h
  rw [List.all_eq_true.mp hall o (List.of_mem_zip hmem).2] at ho
  cases ho

/-- A second round at the same height overwrites the stash: the transaction was admitted, no block has it,
nobody displaced or rejected it, and neither the pool nor the stash does. -/
theorem transaction_lost_rebuild :
    ∃ hist e, NodeRun toyPrimitives toyConfig toyGenesis State.empty hist e ∧
      (∀ p ∈ hist, p.event ≠ .restart) ∧ (∃ p ∈ hist, Admitted p (announced.hash toyPrimitives)) ∧
      ¬ Runs.Throughout (Steps toyPrimitives toyConfig toyGenesis)
        (Engine.start toyPrimitives toyConfig (openState toyGenesis State.empty))
        (NoneLost toyPrimitives toyConfig) hist := by
  have hadmitted : Admitted admitStep (announced.hash toyPrimitives) :=
    ⟨⟨_, rfl⟩, announced_hash⟩
  have hstep : Steps toyPrimitives toyConfig toyGenesis builtNode rebuildStep
      (returned _ announced_rebuilt).1 := steps_returned announced_rebuilt
  have run : NodeRun toyPrimitives toyConfig toyGenesis State.empty
      ([] ++ [admitStep] ++ [buildStep] ++ [rebuildStep]) _ := built_run.snoc hstep
  refine ⟨_, _, run, ?_, ⟨admitStep, by simp, hadmitted⟩, fun h => ?_⟩
  · intro p hp
    simp only [List.nil_append, List.cons_append, List.mem_cons, List.not_mem_nil, or_false] at hp
    obtain rfl | rfl | rfl := hp
    · simp [admitStep]
    · simp [buildStep]
    · simp [rebuildStep]
  · have howed : Owed toyPrimitives toyConfig ([] ++ [admitStep] ++ [buildStep] ++ [rebuildStep])
        (announced.hash toyPrimitives) := by
      refine ⟨⟨[], admitStep, [buildStep, rebuildStep], rfl, hadmitted, fun p hp => ?_⟩, fun p hp hin => ?_⟩
      · simp only [List.mem_cons, List.not_mem_nil, or_false] at hp
        rintro (⟨_, _, _, hev, -⟩ | hrej)
        · obtain rfl | rfl := hp
          · cases hev
          · cases hev
        · obtain rfl | rfl := hp
          · exact not_rejectedAtBuild (by decide) hrej
          · exact not_rejectedAtBuild (by decide) hrej
      · obtain ⟨c, hc, -⟩ := hin
        simp only [List.nil_append, List.cons_append, List.mem_cons, List.not_mem_nil, or_false] at hp
        obtain rfl | rfl | rfl := hp
        · cases hc
        · cases hc
        · cases hc
    rcases h _ [] _ (List.append_nil _).symm run _ howed with hx | hx
    · revert hx
      decide
    · have hempty : (returned _ announced_rebuilt).1.lastProposedDrain.map
          (fun d => (d.1, d.2.map (SignedTransaction.hash toyPrimitives))) = some (1, []) := by
        decide
      simpa using (stashed_of_map hempty _).mp hx

end Arknet.Laws
