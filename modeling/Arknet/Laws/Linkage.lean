import Arknet.Laws.DecidedBlock

/-!
The chain a node commits, over its decisions and its restarts. `commit_block` compares neither the
height nor the parent hash with what is stored, so the blocks are linked exactly as far as the blocks
that are decided extend the stored one (`chain_linked`).
-/

namespace Arknet.Laws

open Machine Store Arknet.Chain Arknet.Consensus

/-- `b` is the child of `a`. -/
def Linked (K : Primitives) (a b : Block) : Prop :=
  b.header.height.val = a.header.height.val + 1 ∧ b.header.parentHash = a.hash K

def blocksOf (hist : List Step) : List Block := (commitsOf hist).map Prod.fst

def storedHeight (s : State) : Height := s.metaHeight.getD 0

/-- The heights the database has had, oldest first. -/
def storedHeights (hist : List Step) (e : Engine) : List Height :=
  hist.map (fun p => storedHeight p.pre.chainState) ++ [storedHeight e.chainState]

/-- The committed blocks are linked, and the stored height never falls. -/
structure ChainLinked (K : Primitives) (hist : List Step) (e : Engine) : Prop where
  linked : (blocksOf hist).IsChain (Linked K)
  heights : (storedHeights hist e).IsChain (· ≤ ·)

/-- The block extends the one stored at the stored height. -/
def Extends (K : Primitives) (s : State) (b : Block) : Prop :=
  ∀ h prev, s.metaHeight = some h → s.blocks.get h = some prev → Linked K prev b

/-- A decision that commits is for a block that extends the stored one. -/
def DecidesNext (K : Primitives) (p : Step) : Prop :=
  ∀ b, CommitsCached K p b → Extends K p.pre.chainState b

section

variable {K : Primitives} {cfg : EngineConfig} {genesis : GenesisConfig}

/-! ## The stored block is the one committed last -/

structure StoresLast (hist : List Step) (e : Engine) : Prop where
  height : e.chainState.metaHeight = (blocksOf hist).getLast?.map (fun b => b.header.height)
  block : ∀ b, (blocksOf hist).getLast? = some b → e.chainState.blocks.get b.header.height = some b

theorem blocksOf_snoc (hist : List Step) (p : Step) :
    blocksOf (hist ++ [p]) = blocksOf hist ++ (commitsIn p).map Prod.fst := by
  rw [blocksOf, commitsOf_snoc, List.map_append]
  rfl

theorem storesLast_step {e e' : Engine} {hist : List Step} {p : Step} (hl : StoresLast hist e)
    (h : Steps K cfg genesis e p e') : StoresLast (hist ++ [p]) e' := by
  obtain ⟨hnone, -, hs, -⟩ | ⟨hnone, -, rfl⟩ | ⟨height, valueId, block, c, -, -, hc, hone, rfl⟩ :=
    steps_cases h
  · constructor
    · rw [blocksOf_snoc, hnone, hs, List.map_nil, List.append_nil]
      exact hl.height
    · rw [blocksOf_snoc, hnone, hs, List.map_nil, List.append_nil]
      exact hl.block
  · obtain ⟨models, hm⟩ := openState_columns genesis e.chainState
    constructor
    · rw [blocksOf_snoc, hnone, List.map_nil, List.append_nil]
      show (openState genesis e.chainState).metaHeight = _
      rw [hm]
      exact hl.height
    · rw [blocksOf_snoc, hnone, List.map_nil, List.append_nil]
      show ∀ b, _ → (openState genesis e.chainState).blocks.get _ = _
      rw [hm]
      exact hl.block
  · obtain ⟨r, hcommits⟩ := commits_iff.mpr ⟨c, hc, rfl⟩
    have hlast : (blocksOf (hist ++ [p])).getLast? = some block := by
      rw [blocksOf_snoc, hone, List.map_singleton, List.getLast?_concat]
    constructor
    · rw [hlast, Engine.dropDrain_chainState]
      exact commits_height hcommits
    · intro b hb
      obtain rfl := Option.some.inj (hlast.symm.trans hb)
      rw [Engine.dropDrain_chainState]
      exact commits_block hcommits

theorem run_storesLast {hist : List Step} {e : Engine}
    (run : NodeRun K cfg genesis State.empty hist e) : StoresLast hist e := by
  induction run with
  | nil =>
    obtain ⟨models, hm⟩ := openState_columns genesis State.empty
    refine ⟨?_, fun b hb => (by cases hb)⟩
    show (openState genesis State.empty).metaHeight = _
    rw [hm]
    rfl
  | snoc run step ih => exact storesLast_step ih step

/-! ## One step -/

theorem isChain_concat_iff {α : Type} {R : α → α → Prop} {xs : List α} {x : α} :
    (xs ++ [x]).IsChain R ↔ xs.IsChain R ∧ ∀ y, xs.getLast? = some y → R y x := by
  rw [List.isChain_append]
  simp

theorem storedHeights_snoc {e e' : Engine} {hist : List Step} {p : Step} (hp : p.pre = e) :
    storedHeights (hist ++ [p]) e' = storedHeights hist e ++ [storedHeight e'.chainState] := by
  simp [storedHeights, hp]

/-- A step that commits nothing leaves the chain as it is. -/
theorem chainLinked_quiet {e e' : Engine} {hist : List Step} {p : Step} (hp : p.pre = e)
    (hlinked : ChainLinked K hist e) (hnone : commitsIn p = [])
    (hmeta : e'.chainState.metaHeight = e.chainState.metaHeight) : ChainLinked K (hist ++ [p]) e' := by
  constructor
  · rw [blocksOf_snoc, hnone, List.map_nil, List.append_nil]
    exact hlinked.linked
  · rw [storedHeights_snoc hp, isChain_concat_iff]
    refine ⟨hlinked.heights, fun y hy => ?_⟩
    rw [storedHeights, List.getLast?_concat] at hy
    rw [← Option.some.inj hy, storedHeight, storedHeight, hmeta]

/-- A commit keeps the chain linked exactly when its block extends the stored one. -/
theorem chainLinked_commit_iff {e e' : Engine} {hist : List Step} {p : Step} {block : Block}
    {report : CommitReport} (hp : p.pre = e) (hl : StoresLast hist e) (hlinked : ChainLinked K hist e)
    (hone : commitsIn p = [(block, report)])
    (hmeta : e'.chainState.metaHeight = some block.header.height) :
    ChainLinked K (hist ++ [p]) e' ↔ Extends K e.chainState block := by
  have hlast : ∀ b, (blocksOf hist).getLast? = some b ↔
      e.chainState.metaHeight = some b.header.height ∧ e.chainState.blocks.get b.header.height = some b := by
    intro b
    refine ⟨fun hb => ⟨by rw [hl.height, hb]; rfl, hl.block b hb⟩, fun ⟨hh, hget⟩ => ?_⟩
    rw [hl.height, Option.map_eq_some_iff] at hh
    obtain ⟨b', hb', hh'⟩ := hh
    have hget' := hl.block b' hb'
    rw [hh', hget] at hget'
    rw [hb', Option.some.inj hget']
  have hchild : Extends K e.chainState block ↔
      ∀ b, (blocksOf hist).getLast? = some b → Linked K b block := by
    constructor
    · intro hx b hb
      obtain ⟨hh, hget⟩ := (hlast b).mp hb
      exact hx _ b hh hget
    · intro hx h prev hh hget
      rw [hl.height, Option.map_eq_some_iff] at hh
      obtain ⟨b, hb, rfl⟩ := hh
      rw [hl.block b hb] at hget
      obtain rfl := Option.some.inj hget
      exact hx b hb
  have hblocks : (blocksOf (hist ++ [p])).IsChain (Linked K) ↔ Extends K e.chainState block := by
    rw [blocksOf_snoc, hone, List.map_singleton, isChain_concat_iff, hchild]
    exact and_iff_right hlinked.linked
  refine ⟨fun h => hblocks.mp h.linked, fun hx => ⟨hblocks.mpr hx, ?_⟩⟩
  rw [storedHeights_snoc hp, isChain_concat_iff]
  refine ⟨hlinked.heights, fun y hy => ?_⟩
  rw [storedHeights, List.getLast?_concat] at hy
  rw [← Option.some.inj hy, storedHeight, storedHeight, hmeta, hl.height]
  cases hb : (blocksOf hist).getLast? with
  | none => exact Fin.zero_le _
  | some b =>
    have hheight := (hchild.mp hx b hb).1
    show b.header.height ≤ block.header.height
    rw [Fin.le_def]
    omega

theorem chainLinked_step_iff {e e' : Engine} {hist : List Step} {p : Step} (hl : StoresLast hist e)
    (hlinked : ChainLinked K hist e) (h : Steps K cfg genesis e p e') :
    ChainLinked K (hist ++ [p]) e' ↔ DecidesNext K p := by
  obtain ⟨hnone, -, hs, -⟩ | ⟨hnone, -, rfl⟩ | ⟨height, valueId, block, c, hev, hm, hc, hone, rfl⟩ :=
    steps_cases h
  · exact iff_of_true (chainLinked_quiet h.1 hlinked hnone (by rw [hs]))
      (fun b hb => absurd hb (not_commitsCached h hnone))
  · refine iff_of_true (chainLinked_quiet h.1 hlinked hnone ?_)
      (fun b hb => absurd hb (not_commitsCached h hnone))
    obtain ⟨models, hmodels⟩ := openState_columns genesis e.chainState
    show (openState genesis e.chainState).metaHeight = _
    rw [hmodels]
  · obtain ⟨r, hcommits⟩ := commits_iff.mpr ⟨c, hc, rfl⟩
    have hmeta : ((e.takeCache.adopt K cfg block c).dropDrain height).chainState.metaHeight =
        some block.header.height := by
      rw [Engine.dropDrain_chainState]
      exact commits_height hcommits
    rw [chainLinked_commit_iff h.1 hl hlinked hone hmeta]
    have hcached := fun b => commitsCached_iff h hone (b := b)
    simp only [DecidesNext, hcached, forall_eq, h.1]

/-- Over every run of a node from a new database, restarts included, the committed blocks are linked and
the stored height never falls exactly when every decision that commits is for a block that extends the
stored one. -/
theorem chain_linked {hist : List Step} {e : Engine}
    (run : NodeRun K cfg genesis State.empty hist e) :
    Runs.Throughout (Steps K cfg genesis) (Engine.start K cfg (openState genesis State.empty))
      (ChainLinked K) hist ↔ ∀ p ∈ hist, DecidesNext K p := by
  have hstart : ChainLinked K [] (Engine.start K cfg (openState genesis State.empty)) :=
    ⟨List.IsChain.nil, List.IsChain.singleton _⟩
  rw [Runs.throughout_iff (C := fun _ p => DecidesNext K p) hstart ?_ run]
  · constructor
    · intro h p hp
      obtain ⟨past, rest, heq⟩ := List.append_of_mem hp
      exact h past p rest heq
    · intro h past p rest heq
      exact h p (by simp [heq])
  · intro past u p u' rest _ hu _ hlinked hstep
    exact chainLinked_step_iff (run_storesLast hu) hlinked hstep

end

/-! ## Two linked blocks, and a restart that starts the chain again -/

/-- The node after its first decision. -/
def firstCommitted : Engine := (returned _ firstBlock_decided).1

theorem firstBlock_committed : Steps toyPrimitives toyConfig toyGenesis (nodeHolding firstBlock)
    ⟨nodeHolding firstBlock, .decide 1 (firstBlock.hash toyPrimitives),
      (returned _ firstBlock_decided).2⟩ firstCommitted := ⟨rfl, eq_ok_returned firstBlock_decided⟩

/-- An empty child of the first block. -/
def childBlock : Block := sealBlock toyPrimitives firstCommitted.chainState
  { bodyAt 2 [] with header := { (bodyAt 2 []).header with parentHash := firstBlock.hash toyPrimitives } }

theorem childBlock_replies :
    (firstCommitted.inboundProposal 2 childBlock).toOption.isSome = true := by decide

def childReceived : Engine := (returned _ childBlock_replies).1

theorem childBlock_received : Steps toyPrimitives toyConfig toyGenesis firstCommitted
    ⟨firstCommitted, .proposal 2 childBlock, (returned _ childBlock_replies).2⟩ childReceived :=
  ⟨rfl, eq_ok_returned childBlock_replies⟩

theorem childBlock_decided : (childReceived.decide toyPrimitives toyConfig 2
    (childBlock.hash toyPrimitives)).toOption.isSome = true := by decide

theorem childBlock_committed : Steps toyPrimitives toyConfig toyGenesis childReceived
    ⟨childReceived, .decide 2 (childBlock.hash toyPrimitives), (returned _ childBlock_decided).2⟩
    (returned _ childBlock_decided).1 := ⟨rfl, eq_ok_returned childBlock_decided⟩

/-- Two decisions, the second block a child of the first. -/
theorem chain_linked_child : ∃ hist e, NodeRun toyPrimitives toyConfig toyGenesis State.empty hist e ∧
    (blocksOf hist).length = 2 ∧
    Runs.Throughout (Steps toyPrimitives toyConfig toyGenesis) freshNode (ChainLinked toyPrimitives)
      hist := by
  have run : NodeRun toyPrimitives toyConfig toyGenesis State.empty _ _ :=
    (((Runs.Steps.nil.snoc firstBlock_received).snoc firstBlock_committed).snoc
      childBlock_received).snoc childBlock_committed
  refine ⟨_, _, run, by decide, (chain_linked run).mpr fun p hp => ?_⟩
  simp only [List.nil_append, List.cons_append, List.mem_cons, List.not_mem_nil, or_false] at hp
  rcases hp with rfl | rfl | rfl | rfl
  · rintro b ⟨⟨height, valueId, hev, -⟩, -⟩
    cases hev
  · intro b _ h prev hh
    rw [show (nodeHolding firstBlock).chainState.metaHeight = none from rfl] at hh
    cases hh
  · rintro b ⟨⟨height, valueId, hev, -⟩, -⟩
    cases hev
  · rintro b ⟨⟨height, valueId, -, hm⟩, -⟩ h prev hh hprev
    have hmeta : childReceived.chainState.metaHeight = some 1 := by decide
    have hstored : childReceived.chainState.blocks.get 1 = some firstBlock := by decide
    have hheld : childReceived.decidedBlockCache = some childBlock := by decide
    obtain rfl := Option.some.inj (hmeta.symm.trans hh)
    obtain rfl := Option.some.inj (hstored.symm.trans hprev)
    obtain rfl := Option.some.inj (hheld.symm.trans hm.1)
    exact ⟨by decide, by decide⟩

theorem restarted_run : (nodeEvents toyPrimitives toyConfig toyGenesis
    [.proposal 1 firstBlock, .decide 1 (firstBlock.hash toyPrimitives), .restart,
      .proposal 1 rivalBlock, .decide 1 (rivalBlock.hash toyPrimitives)]).toOption.isSome = true := by
  decide

/-- After a restart the node is at height 1 again, and commits a second first block. -/
theorem chain_restarts : ∃ hist e, NodeRun toyPrimitives toyConfig toyGenesis State.empty hist e ∧
    (blocksOf hist).map (fun b => b.header.height) = [1, 1] ∧ ¬ ChainLinked toyPrimitives hist e := by
  refine ⟨_, _, nodeEvents_run restarted_run, by decide, fun h => ?_⟩
  have hblocks : blocksOf (returned _ restarted_run).1 = [firstBlock, rivalBlock] := by decide
  have hlinked := h.linked
  rw [hblocks, List.isChain_cons_cons] at hlinked
  exact absurd hlinked.1.1 (by decide)

end Arknet.Laws
