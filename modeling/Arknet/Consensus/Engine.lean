import Arknet.Chain.Genesis
import Arknet.Consensus.Run

/-!
The engine that drives a validator. The state machine decides which block is next; the engine builds
a block when asked for one, keeps the last block it has built or received, and commits it when the
state machine decides on its hash. Votes, timeouts and signatures pass through and touch nothing here.
-/

namespace Arknet.Consensus

open Machine Arknet.Chain

def DEFAULT_BLOCK_BYTES_BUDGET : Nat := 8 * 1024 * 1024

structure EngineConfig where
  chainId : String
  version : U32
  initialHeight : Height
  /-- `validator_set.count()`. -/
  validatorCount : Nat
  baseFee : Amount
  gasLimit : Gas
  gasTarget : Gas
  localNodeId : NodeId
  genesisMessage : String
  deriving DecidableEq

/-- The database and what `run` keeps in local variables. -/
structure Engine where
  chainState : State
  mempool : Mempool
  currentHeight : Height
  baseFee : Amount
  parentHash : BlockHash
  validatorSetHash : Hash256
  lastProposedDrain : Option (Height × List SignedTransaction)
  decidedBlockCache : Option Block
  waitingForTx : Bool

/-- What leaves the engine: a reply to a submitter, inputs for the state machine, calls of
`commit_block`. -/
inductive Output where
  | reply (result : Except MempoolError TxHash)
  | startHeight (height : Height)
  | propose (height : Height) (block : Block)
  | proposal (height : Height) (block : Block)
  | commit (block : Block) (result : Except CommitError CommitReport)

/-- What reaches it. A decision and the pause after it are two events, since the process may end in
between. -/
inductive Event where
  | submitTx (stx : SignedTransaction)
  | proposal (height : Height) (block : Block)
  | getValue (height : Height) (now : Timestamp)
  | decide (height : Height) (valueId : BlockHash)
  | paced (height : Height)
  | idle (heartbeat : Bool)
  | restart

section

variable (K : Primitives) (cfg : EngineConfig)

namespace Engine

/-- The local variables before the loop. -/
def start (s : State) : Engine where
  chainState := s
  mempool := .withLimits DEFAULT_MAX_COUNT DEFAULT_MAX_BYTES
  currentHeight := cfg.initialHeight
  baseFee := cfg.baseFee
  parentHash := 0
  validatorSetHash := K.blake3 (ascii "genesis-vset")
  lastProposedDrain := none
  decidedBlockCache := none
  waitingForTx := false

def submitTx (e : Engine) (stx : SignedTransaction) : Exec (Engine × List Output) := do
  let (mempool, result) ← e.mempool.insert K stx
  pure ({ e with mempool := mempool }, [.reply result])

/-- The active height and the one after it. -/
def isActive (e : Engine) (height : Height) : Exec Bool :=
  if height = e.currentHeight then pure true
  else do
    let next ← add e.currentHeight 1
    pure (height = next)

/-- A proposal is cached before anything about it is verified. -/
def inboundProposal (e : Engine) (height : Height) (block : Block) : Exec (Engine × List Output) := do
  let active ← e.isActive height
  pure (if active then { e with decidedBlockCache := some block } else e, [.proposal height block])

def buildParams (e : Engine) (height : Height) : BuildParams where
  chainId := cfg.chainId
  version := cfg.version
  parentHash := e.parentHash
  validatorSetHash := e.validatorSetHash
  proposer := cfg.localNodeId
  baseFee := e.baseFee
  gasLimit := cfg.gasLimit
  bytesBudget := DEFAULT_BLOCK_BYTES_BUDGET
  genesisMessage := if height = 1 then cfg.genesisMessage else ""

def getValue (e : Engine) (height : Height) (now : Timestamp) : Exec (Engine × List Output) := do
  let built ← build K e.chainState e.mempool height (e.buildParams cfg height) now
  pure ({ e with
    mempool := built.mempool
    lastProposedDrain := some (height, built.drained)
    decidedBlockCache := some built.block }, [.propose height built.block])

/-- The local variables after a commit. -/
def adopt (e : Engine) (block : Block) (c : Committed) : Engine :=
  { e with
    chainState := c.state
    mempool := c.mempool
    currentHeight := block.header.height
    baseFee := (nextBaseFee block.header.baseFee c.report.gasUsed cfg.gasTarget).getD block.header.baseFee
    parentHash := block.hash K }

def applyCommit (e : Engine) (block : Block) : Exec (Engine × Except CommitError CommitReport) := do
  match ← commitBlock K e.chainState e.mempool block with
  | .error err => pure (e, .error err)
  | .ok c => pure (e.adopt K cfg block c, .ok c.report)

def takeCache (e : Engine) : Engine := { e with decidedBlockCache := none }

/-- The stash of the decided height is dropped, whether its block was committed or not. -/
def dropDrain (e : Engine) (height : Height) : Engine :=
  match e.lastProposedDrain with
  | some (h, _) => if h = height then { e with lastProposedDrain := none } else e
  | none => e

/-- The cached block is taken out, and committed when it is the one the certificate names. -/
def decide (e : Engine) (height : Height) (valueId : BlockHash) : Exec (Engine × List Output) := do
  let taken := e.takeCache
  match e.decidedBlockCache with
  | none => pure (taken.dropDrain height, [])
  | some block =>
    if block.header.height = height ∧ block.hash K = valueId then do
      let (e, result) ← taken.applyCommit K cfg block
      pure (e.dropDrain height, [.commit block result])
    else pure (taken.dropDrain height, [])

/-- After the block interval: a lone validator without transactions waits for one. -/
def paced (e : Engine) (height : Height) : Exec (Engine × List Output) :=
  if e.mempool.len ≠ 0 ∨ 1 < cfg.validatorCount then do
    let next ← add height 1
    pure ({ e with waitingForTx := false }, [.startHeight next])
  else pure ({ e with waitingForTx := true }, [])

def idle (e : Engine) (heartbeat : Bool) : Exec (Engine × List Output) :=
  if e.waitingForTx = true ∧ (e.mempool.len ≠ 0 ∨ heartbeat = true) then do
    let next ← add e.currentHeight 1
    pure ({ e with waitingForTx := false }, [.startHeight next])
  else pure (e, [])

end Engine

/-! ## Starting a node -/

/-- The database as `start_validator` leaves it: the models are seeded when nothing was committed. -/
def openState (genesis : GenesisConfig) (s : State) : State :=
  if genesis.models ≠ [] ∧ s.metaHeight = none then
    (seedGenesisModels s.beginBlock genesis.models).commit
  else s

def activeValidators (infos : List ValidatorInfo) : List ValidatorInfo :=
  infos.filter (fun info => !info.jailed && 0 < info.votingPower)

/-- The configuration `start_validator` hands to the engine. -/
def engineConfig (genesis : GenesisConfig) (consensusPk : List UInt8) :
    Exec (Except String EngineConfig) :=
  match validateGenesis genesis with
  | .error reason => pure (.error reason)
  | .ok () =>
    if activeValidators genesis.validators = [] then
      pure (.error "validator set has no active validators (all jailed or zero power)")
    else if genesis.validators.all (fun info => info.consensusKey.bytes ≠ consensusPk) then
      pure (.error "this node's consensus key is not in genesis")
    else do
      let initialHeight ← add genesis.initialHeight 1
      pure (.ok {
        chainId := genesis.chainId
        version := 1
        initialHeight := initialHeight
        validatorCount := (activeValidators genesis.validators).length
        baseFee := genesis.params.baseFeeAmount
        gasLimit := genesis.params.gasLimit
        gasTarget := genesis.params.gasTarget
        localNodeId := K.blake3 consensusPk
        genesisMessage := genesis.genesisMessage })

/-! ## Runs of a node -/

variable (genesis : GenesisConfig)

/-- A restart opens the same data directory with the same genesis file. -/
def Engine.step (e : Engine) : Event → Exec (Engine × List Output)
  | .submitTx stx => e.submitTx K stx
  | .proposal height block => e.inboundProposal height block
  | .getValue height now => e.getValue K cfg height now
  | .decide height valueId => e.decide K cfg height valueId
  | .paced height => e.paced cfg height
  | .idle heartbeat => e.idle heartbeat
  | .restart => pure (Engine.start K cfg (openState genesis e.chainState),
      [.startHeight cfg.initialHeight])

/-- One step of a history: the engine before it, the event and what came out. -/
structure Step where
  pre : Engine
  event : Event
  outputs : List Output

/-- The engine takes the step to `e'`. -/
def Steps (e : Engine) (p : Step) (e' : Engine) : Prop :=
  p.pre = e ∧ e.step K cfg genesis p.event = .ok (e', p.outputs)

/-- What a node has been through since it was first started on the database `s`. -/
def NodeRun (s : State) : List Step → Engine → Prop :=
  Runs.Steps (Steps K cfg genesis) (Engine.start K cfg (openState genesis s))

end

/-! ## What a step does -/

namespace Engine

section

variable {K : Primitives} {cfg : EngineConfig} {e e' : Engine} {outs : List Output} {height : Height}

theorem isActive_ok {active : Bool} (h : e.isActive height = .ok active) :
    active = true ↔ height = e.currentHeight ∨ height.val = e.currentHeight.val + 1 := by
  unfold isActive at h
  split at h
  · rename_i heq
    simp only [pure_eq_ok] at h
    simp [← h, heq]
  · rename_i hne
    simp only [bind_eq_ok, add_eq_ok, pure_eq_ok] at h
    obtain ⟨next, hnext, rfl⟩ := h
    simp only [decide_eq_true_eq, hne, false_or, Fin.ext_iff, hnext]
    exact Iff.rfl

theorem submitTx_ok {stx : SignedTransaction} (h : e.submitTx K stx = .ok (e', outs)) :
    ∃ mempool result, e.mempool.insert K stx = .ok (mempool, result) ∧
      e' = { e with mempool := mempool } ∧ outs = [.reply result] := by
  simp only [submitTx, bind_eq_ok, Prod.exists, pure_eq_ok, Prod.mk.injEq] at h
  obtain ⟨mempool, result, hins, rfl, rfl⟩ := h
  exact ⟨mempool, result, hins, rfl, rfl⟩

theorem inboundProposal_ok {block : Block} (h : e.inboundProposal height block = .ok (e', outs)) :
    outs = [.proposal height block] ∧
      ((height = e.currentHeight ∨ height.val = e.currentHeight.val + 1) ∧
          e' = { e with decidedBlockCache := some block } ∨
        ¬ (height = e.currentHeight ∨ height.val = e.currentHeight.val + 1) ∧ e' = e) := by
  simp only [inboundProposal, bind_eq_ok, pure_eq_ok, Prod.mk.injEq] at h
  obtain ⟨active, hactive, rfl, rfl⟩ := h
  rw [← isActive_ok hactive]
  cases active <;> simp

theorem getValue_ok {now : Timestamp} (h : e.getValue K cfg height now = .ok (e', outs)) :
    ∃ built, build K e.chainState e.mempool height (e.buildParams cfg height) now = .ok built ∧
      e' = { e with
        mempool := built.mempool
        lastProposedDrain := some (height, built.drained)
        decidedBlockCache := some built.block } ∧
      outs = [.propose height built.block] := by
  simp only [getValue, bind_eq_ok, pure_eq_ok, Prod.mk.injEq] at h
  obtain ⟨built, hbuilt, rfl, rfl⟩ := h
  exact ⟨built, hbuilt, rfl, rfl⟩

/-- Dropping the stash touches nothing else. -/
theorem dropDrain_eq (e : Engine) (height : Height) :
    e.dropDrain height = { e with
      lastProposedDrain :=
        if e.lastProposedDrain.map Prod.fst = some height then none else e.lastProposedDrain } := by
  obtain ⟨s, m, current, fee, parent, vset, drain, cache, waiting⟩ := e
  cases drain with
  | none => rfl
  | some p =>
    by_cases hh : p.1 = height
    · simp [dropDrain, hh]
    · simp [dropDrain, hh]

@[simp] theorem dropDrain_chainState (e : Engine) (height : Height) :
    (e.dropDrain height).chainState = e.chainState := by rw [dropDrain_eq]

@[simp] theorem dropDrain_mempool (e : Engine) (height : Height) :
    (e.dropDrain height).mempool = e.mempool := by rw [dropDrain_eq]

@[simp] theorem dropDrain_baseFee (e : Engine) (height : Height) :
    (e.dropDrain height).baseFee = e.baseFee := by rw [dropDrain_eq]

@[simp] theorem dropDrain_cache (e : Engine) (height : Height) :
    (e.dropDrain height).decidedBlockCache = e.decidedBlockCache := by rw [dropDrain_eq]

/-- The cached block is the one a certificate names. -/
def Matches (K : Primitives) (e : Engine) (height : Height) (valueId : BlockHash) (block : Block) : Prop :=
  e.decidedBlockCache = some block ∧ block.header.height = height ∧ block.hash K = valueId

/-- A decision without a matching block, one whose block does not commit, one that commits. -/
theorem decide_ok {valueId : BlockHash} (h : e.decide K cfg height valueId = .ok (e', outs)) :
    ((∀ block, ¬ e.Matches K height valueId block) ∧ outs = [] ∧
        e' = e.takeCache.dropDrain height) ∨
      ∃ block, e.Matches K height valueId block ∧
        ((∃ err, commitBlock K e.chainState e.mempool block = .ok (.error err) ∧
            outs = [.commit block (.error err)] ∧ e' = e.takeCache.dropDrain height) ∨
          ∃ c, commitBlock K e.chainState e.mempool block = .ok (.ok c) ∧
            outs = [.commit block (.ok c.report)] ∧
            e' = (e.takeCache.adopt K cfg block c).dropDrain height) := by
  unfold decide at h
  cases hcache : e.decidedBlockCache with
  | none =>
    simp only [hcache, pure_eq_ok, Prod.mk.injEq] at h
    refine .inl ⟨fun block hm => ?_, h.2.symm, h.1.symm⟩
    rw [Matches, hcache] at hm
    cases hm.1
  | some block =>
    simp only [hcache] at h
    split at h
    · rename_i hmatch
      simp only [applyCommit, bind_eq_ok, Prod.exists, pure_eq_ok, Prod.mk.injEq] at h
      obtain ⟨e₁, result, ⟨out, hcommit, hout⟩, rfl, rfl⟩ := h
      refine .inr ⟨block, ⟨hcache, hmatch⟩, ?_⟩
      cases out with
      | error err =>
        simp only [pure_eq_ok, Prod.mk.injEq] at hout
        obtain ⟨rfl, rfl⟩ := hout
        exact .inl ⟨err, hcommit, rfl, rfl⟩
      | ok c =>
        simp only [pure_eq_ok, Prod.mk.injEq] at hout
        obtain ⟨rfl, rfl⟩ := hout
        exact .inr ⟨c, hcommit, rfl, rfl⟩
    · rename_i hmatch
      simp only [pure_eq_ok, Prod.mk.injEq] at h
      refine .inl ⟨fun block' hm => ?_, h.2.symm, h.1.symm⟩
      obtain rfl := Option.some.inj (hcache.symm.trans hm.1)
      exact hmatch hm.2

/-- Pacing and idling change one flag. -/
theorem paced_ok (h : e.paced cfg height = .ok (e', outs)) :
    (∃ waiting, e' = { e with waitingForTx := waiting }) ∧ ∀ block result, Output.commit block result ∉ outs := by
  unfold paced at h
  split at h
  · simp only [bind_eq_ok, pure_eq_ok, Prod.mk.injEq] at h
    obtain ⟨next, -, rfl, rfl⟩ := h
    exact ⟨⟨_, rfl⟩, by simp⟩
  · simp only [pure_eq_ok, Prod.mk.injEq] at h
    obtain ⟨rfl, rfl⟩ := h
    exact ⟨⟨_, rfl⟩, by simp⟩

theorem idle_ok {heartbeat : Bool} (h : e.idle heartbeat = .ok (e', outs)) :
    (∃ waiting, e' = { e with waitingForTx := waiting }) ∧ ∀ block result, Output.commit block result ∉ outs := by
  unfold idle at h
  split at h
  · simp only [bind_eq_ok, pure_eq_ok, Prod.mk.injEq] at h
    obtain ⟨next, -, rfl, rfl⟩ := h
    exact ⟨⟨_, rfl⟩, by simp⟩
  · simp only [pure_eq_ok, Prod.mk.injEq] at h
    obtain ⟨rfl, rfl⟩ := h
    exact ⟨⟨_, rfl⟩, by simp⟩

end

end Engine

/-! ## The commits of a run -/

/-- What a step has committed. -/
def commitsIn (p : Step) : List (Block × CommitReport) :=
  p.outputs.filterMap (fun out =>
    match out with
    | .commit block (.ok report) => some (block, report)
    | _ => none)

def commitsOf (hist : List Step) : List (Block × CommitReport) := hist.flatMap commitsIn

theorem commitsOf_snoc (hist : List Step) (p : Step) :
    commitsOf (hist ++ [p]) = commitsOf hist ++ commitsIn p := by simp [commitsOf]

theorem commitsIn_quiet {p : Step} (h : ∀ block result, Output.commit block result ∉ p.outputs) :
    commitsIn p = [] := by
  rw [commitsIn, List.filterMap_eq_nil_iff]
  intro out hout
  cases out with
  | commit block result => exact absurd hout (h block result)
  | _ => rfl

section

variable {K : Primitives} {cfg : EngineConfig} {genesis : GenesisConfig} {e e' : Engine} {p : Step}

/-- What a step does to the database and the fee variable: nothing, unless it is a restart or a
decision that commits. -/
theorem steps_cases (h : Steps K cfg genesis e p e') :
    (commitsIn p = [] ∧ p.event ≠ .restart ∧ e'.chainState = e.chainState ∧ e'.baseFee = e.baseFee) ∨
    (commitsIn p = [] ∧ p.event = .restart ∧
      e' = Engine.start K cfg (openState genesis e.chainState)) ∨
    ∃ height valueId block c, p.event = .decide height valueId ∧ e.Matches K height valueId block ∧
      commitBlock K e.chainState e.mempool block = .ok (.ok c) ∧ commitsIn p = [(block, c.report)] ∧
      e' = (e.takeCache.adopt K cfg block c).dropDrain height := by
  obtain ⟨pre, event, outputs⟩ := p
  obtain ⟨rfl, h⟩ := h
  cases event with
  | submitTx stx =>
    obtain ⟨mempool, result, -, rfl, rfl⟩ := Engine.submitTx_ok h
    exact .inl ⟨rfl, by simp, rfl, rfl⟩
  | proposal height block =>
    obtain ⟨rfl, ⟨-, rfl⟩ | ⟨-, rfl⟩⟩ := Engine.inboundProposal_ok h
    · exact .inl ⟨rfl, by simp, rfl, rfl⟩
    · exact .inl ⟨rfl, by simp, rfl, rfl⟩
  | getValue height now =>
    obtain ⟨built, -, rfl, rfl⟩ := Engine.getValue_ok h
    exact .inl ⟨rfl, by simp, rfl, rfl⟩
  | decide height valueId =>
    obtain ⟨-, rfl, rfl⟩ | ⟨block, hm, ⟨err, -, rfl, rfl⟩ | ⟨c, hc, rfl, rfl⟩⟩ := Engine.decide_ok h
    · exact .inl ⟨rfl, by simp, Engine.dropDrain_chainState _ _, Engine.dropDrain_baseFee _ _⟩
    · exact .inl ⟨rfl, by simp, Engine.dropDrain_chainState _ _, Engine.dropDrain_baseFee _ _⟩
    · exact .inr (.inr ⟨height, valueId, block, c, rfl, hm, hc, rfl, rfl⟩)
  | paced height =>
    obtain ⟨⟨waiting, rfl⟩, hquiet⟩ := Engine.paced_ok h
    exact .inl ⟨commitsIn_quiet hquiet, by simp, rfl, rfl⟩
  | idle heartbeat =>
    obtain ⟨⟨waiting, rfl⟩, hquiet⟩ := Engine.idle_ok h
    exact .inl ⟨commitsIn_quiet hquiet, by simp, rfl, rfl⟩
  | restart =>
    simp only [Engine.step, pure_eq_ok, Prod.mk.injEq] at h
    obtain ⟨rfl, rfl⟩ := h
    exact .inr (.inl ⟨rfl, rfl, rfl⟩)

/-- A decision that matches the cached block commits it when it commits at all. -/
theorem commitsIn_decide {height : Height} {valueId : BlockHash} {block : Block} {c : Committed}
    (h : Steps K cfg genesis e p e') (hev : p.event = .decide height valueId)
    (hm : e.Matches K height valueId block)
    (hc : commitBlock K e.chainState e.mempool block = .ok (.ok c)) :
    commitsIn p = [(block, c.report)] := by
  obtain ⟨pre, event, outputs⟩ := p
  obtain ⟨rfl, h⟩ := h
  simp only at hev
  subst hev
  obtain ⟨hnone, -, -⟩ | ⟨b, hb, hcase⟩ := Engine.decide_ok h
  · exact absurd hm (hnone block)
  · obtain rfl := Option.some.inj (hb.1.symm.trans hm.1)
    rw [hc] at hcase
    obtain ⟨err, herr, -⟩ | ⟨c', hc', rfl, -⟩ := hcase
    · cases herr
    · obtain rfl := Except.ok.inj (Except.ok.inj hc')
      rfl

/-- The step is a decision for the cached block `b`, and `b` commits. -/
def CommitsCached (K : Primitives) (p : Step) (b : Block) : Prop :=
  (∃ height valueId, p.event = .decide height valueId ∧ p.pre.Matches K height valueId b) ∧
    ∃ r s', Commits K p.pre.chainState b r s'

theorem not_commitsCached {b : Block} (h : Steps K cfg genesis e p e') (hnone : commitsIn p = []) :
    ¬ CommitsCached K p b := by
  rintro ⟨⟨height, valueId, hev, hm⟩, r, s', hcommits⟩
  rw [h.1] at hm hcommits
  obtain ⟨c, hc, -⟩ := (commits_iff (m := e.mempool)).mp ⟨r, hcommits⟩
  rw [commitsIn_decide h hev hm hc] at hnone
  cases hnone

theorem commitsCached_iff {b block : Block} {report : CommitReport} (h : Steps K cfg genesis e p e')
    (hone : commitsIn p = [(block, report)]) : CommitsCached K p b ↔ b = block := by
  obtain ⟨hnone, -⟩ | ⟨hnone, -⟩ | ⟨height, valueId, block', c, hev, hm, hc, hone', -⟩ := steps_cases h
  · rw [hnone] at hone
    cases hone
  · rw [hnone] at hone
    cases hone
  obtain ⟨rfl, -⟩ := Prod.mk.inj (List.singleton_inj.mp (hone.symm.trans hone'))
  obtain ⟨r, hcommits⟩ := commits_iff.mpr ⟨c, hc, rfl⟩
  constructor
  · rintro ⟨⟨height', valueId', -, hm'⟩, -⟩
    rw [h.1] at hm'
    exact Option.some.inj (hm'.1.symm.trans hm.1)
  · rintro rfl
    refine ⟨⟨height, valueId, hev, ?_⟩, r, c.state, ?_⟩
    · rw [h.1]
      exact hm
    · rw [h.1]
      exact hcommits

theorem commitsCached_iff_mem {b : Block} (h : Steps K cfg genesis e p e') :
    CommitsCached K p b ↔ ∃ report, (b, report) ∈ commitsIn p := by
  have hquiet : commitsIn p = [] → (CommitsCached K p b ↔ ∃ report, (b, report) ∈ commitsIn p) := by
    intro hnone
    refine iff_of_false (not_commitsCached h hnone) ?_
    rw [hnone]
    simp
  obtain ⟨hnone, -⟩ | ⟨hnone, -⟩ | ⟨-, -, block, c, -, -, -, hone, -⟩ := steps_cases h
  · exact hquiet hnone
  · exact hquiet hnone
  · rw [commitsCached_iff h hone, hone]
    simp

theorem seedGenesisModels_commit (ctx : BlockCtx) (models : List OnChainModelManifest) :
    ∃ seeded, (seedGenesisModels ctx models).commit = { ctx.commit with models := seeded } := by
  unfold seedGenesisModels
  induction models generalizing ctx with
  | nil => exact ⟨_, rfl⟩
  | cons gm models ih =>
    obtain ⟨seeded, hs⟩ := ih (ctx.setModel gm.modelId gm)
    exact ⟨seeded, by rw [List.foldl_cons, hs, BlockCtx.setModel_commit]⟩

/-- Opening a database writes models at most. -/
theorem openState_columns (genesis : GenesisConfig) (s : State) :
    ∃ models, openState genesis s = { s with models := models } := by
  unfold openState
  split
  · exact seedGenesisModels_commit _ _
  · exact ⟨_, rfl⟩

end

/-! ## Concrete runs -/

section

variable (K : Primitives) (cfg : EngineConfig) (genesis : GenesisConfig)

def runEvents : Engine → List Event → Exec (List Step × Engine)
  | e, [] => pure ([], e)
  | e, event :: events => do
    let (e', outs) ← e.step K cfg genesis event
    let (hist, last) ← runEvents e' events
    pure (⟨e, event, outs⟩ :: hist, last)

/-- A node on a new database, through a list of events. -/
def nodeEvents (events : List Event) : Exec (List Step × Engine) :=
  runEvents K cfg genesis (Engine.start K cfg (openState genesis State.empty)) events

variable {K cfg genesis}

theorem runEvents_steps {e e' : Engine} {events : List Event} {hist : List Step}
    (h : runEvents K cfg genesis e events = .ok (hist, e')) :
    Runs.Steps (Steps K cfg genesis) e hist e' := by
  induction events generalizing e hist with
  | nil =>
    simp only [runEvents, pure_eq_ok, Prod.mk.injEq] at h
    obtain ⟨rfl, rfl⟩ := h
    exact .nil
  | cons event events ih =>
    simp only [runEvents, bind_eq_ok, pure_eq_ok, Prod.exists, Prod.mk.injEq] at h
    obtain ⟨mid, outs, hstep, rest, last, hrest, rfl, rfl⟩ := h
    exact (ih hrest).cons ⟨rfl, hstep⟩

theorem steps_returned {e : Engine} {event : Event}
    (h : (e.step K cfg genesis event).toOption.isSome = true) :
    Steps K cfg genesis e ⟨e, event, (returned _ h).2⟩ (returned _ h).1 := ⟨rfl, eq_ok_returned h⟩

theorem nodeEvents_run {events : List Event}
    (h : (nodeEvents K cfg genesis events).toOption.isSome = true) :
    NodeRun K cfg genesis State.empty (returned _ h).1 (returned _ h).2 :=
  runEvents_steps (eq_ok_returned h)

end

/-- A genesis file with one validator and the default parameters. -/
def toyGenesis : GenesisConfig where
  chainId := "arknet-devnet-1"
  initialHeight := 0
  validators := [⟨0, ⟨.ed25519, [7]⟩, 7, 0, 1, true, false⟩]
  initialAccounts := []
  params := ⟨1000000000, 15000000, 30000000⟩
  genesisMessage := ""
  models := []

def toyConfig : EngineConfig where
  chainId := "arknet-devnet-1"
  version := 1
  initialHeight := 1
  validatorCount := 1
  baseFee := 1000000000
  gasLimit := 30000000
  gasTarget := 15000000
  localNodeId := toyPrimitives.blake3 [7]
  genesisMessage := ""

theorem toyConfig_configured : engineConfig toyPrimitives toyGenesis [7] = .ok (.ok toyConfig) := by
  decide

end Arknet.Consensus
