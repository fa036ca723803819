import Arknet.Consensus.Engine

/-!
From a decision to the block that is committed. Between the two stands one slot: every build and every
proposal for the active height or the next one writes it, and every decision empties it. A decided
block is committed when nobody has written the slot since it was (`decided_block_committed`).
-/

namespace Arknet.Laws

open Machine Store Arknet.Chain Arknet.Consensus

/-! ## The slot -/

/-- The heights whose proposals are cached. -/
def ActiveHeight (e : Engine) (height : Height) : Prop :=
  height = e.currentHeight ∨ height.val = e.currentHeight.val + 1

/-- The step leaves `block` in the slot. -/
def WritesCache (p : Step) (block : Block) : Prop :=
  match p.event with
  | .getValue height _ => p.outputs = [.propose height block]
  | .proposal height received => ActiveHeight p.pre height ∧ received = block
  | _ => False

/-- The step writes the slot or empties it. -/
def TouchesCache (p : Step) : Prop :=
  match p.event with
  | .getValue _ _ => True
  | .proposal height _ => ActiveHeight p.pre height
  | .decide _ _ => True
  | .restart => True
  | _ => False

/-- Built here, or received in a proposal for the height. -/
def Known (hist : List Step) (height : Height) (block : Block) : Prop :=
  ∃ p ∈ hist, .propose height block ∈ p.outputs ∨ .proposal height block ∈ p.outputs

/-- The law of a decision: the known block it names is handed to `commit_block`. -/
def DecidedCommitted (K : Primitives) (hist : List Step) (height : Height) (valueId : BlockHash)
    (outs : List Output) : Prop :=
  ∀ block, Known hist height block → block.hash K = valueId → ∃ result, outs = [.commit block result]

section

variable {K : Primitives} {cfg : EngineConfig} {genesis : GenesisConfig}

theorem cache_step {e e' : Engine} {p : Step} (block : Block) (h : Steps K cfg genesis e p e') :
    e'.decidedBlockCache = some block ↔
      WritesCache p block ∨ ¬ TouchesCache p ∧ e.decidedBlockCache = some block := by
  obtain ⟨pre, event, outputs⟩ := p
  obtain ⟨rfl, h⟩ := h
  cases event with
  | submitTx stx =>
    obtain ⟨mempool, result, -, rfl, -⟩ := Engine.submitTx_ok h
    simp [WritesCache, TouchesCache]
  | proposal height received =>
    obtain ⟨-, ⟨hactive, rfl⟩ | ⟨hactive, rfl⟩⟩ := Engine.inboundProposal_ok h
    · simp [WritesCache, TouchesCache, ActiveHeight, hactive]
    · simp [WritesCache, TouchesCache, ActiveHeight, hactive]
  | getValue height now =>
    obtain ⟨built, -, rfl, houts⟩ := Engine.getValue_ok h
    simp only at houts
    simp [WritesCache, TouchesCache, houts]
  | decide height valueId =>
    have hnone : e'.decidedBlockCache = none := by
      obtain ⟨-, -, rfl⟩ | ⟨b, -, ⟨err, -, -, rfl⟩ | ⟨c, -, -, rfl⟩⟩ := Engine.decide_ok h
      · rw [Engine.dropDrain_cache]
        rfl
      · rw [Engine.dropDrain_cache]
        rfl
      · rw [Engine.dropDrain_cache]
        rfl
    simp [WritesCache, TouchesCache, hnone]
  | paced height =>
    obtain ⟨⟨waiting, rfl⟩, -⟩ := Engine.paced_ok h
    simp [WritesCache, TouchesCache]
  | idle heartbeat =>
    obtain ⟨⟨waiting, rfl⟩, -⟩ := Engine.idle_ok h
    simp [WritesCache, TouchesCache]
  | restart =>
    simp only [Engine.step, pure_eq_ok, Prod.mk.injEq] at h
    rw [← h.1]
    simp [WritesCache, TouchesCache, Engine.start]

/-- The slot holds the block that was written last. -/
theorem cache_eq {s : State} {hist : List Step} {e : Engine} (run : NodeRun K cfg genesis s hist e)
    (block : Block) :
    e.decidedBlockCache = some block ↔ Runs.LastWrite TouchesCache WritesCache hist block := by
  have hstep : ∀ (u : Engine) (p : Step) (u' : Engine) (x : Block), Steps K cfg genesis u p u' →
      (u'.decidedBlockCache = some x ↔ WritesCache p x ∨ ¬ TouchesCache p ∧ u.decidedBlockCache = some x) :=
    fun u p u' x h => cache_step x h
  exact Runs.Steps.slot_eq rfl hstep run block

/-- At every decision of every run: the blocks it may name are committed exactly when each of them was
the last one written to the slot, and carries the decided height. -/
theorem decided_block_committed {s : State} {hist : List Step} {e e' : Engine} {height : Height}
    {valueId : BlockHash} {outs : List Output} (run : NodeRun K cfg genesis s hist e)
    (step : e.decide K cfg height valueId = .ok (e', outs)) :
    DecidedCommitted K hist height valueId outs ↔
      ∀ block, Known hist height block → block.hash K = valueId →
        Runs.LastWrite TouchesCache WritesCache hist block ∧ block.header.height = height := by
  refine forall_congr' fun block => imp_congr_right fun _ => imp_congr_right fun hv => ?_
  rw [← cache_eq run]
  have hmatch : e.Matches K height valueId block ↔
      e.decidedBlockCache = some block ∧ block.header.height = height := by
    simp [Engine.Matches, hv]
  rw [← hmatch]
  obtain ⟨hnone, rfl, -⟩ | ⟨b, hb, hcase⟩ := Engine.decide_ok step
  · exact iff_of_false (by simp) (hnone block)
  · have houts : ∃ result, outs = [.commit b result] := by
      obtain ⟨err, -, rfl, -⟩ | ⟨c, -, rfl, -⟩ := hcase
      · exact ⟨_, rfl⟩
      · exact ⟨_, rfl⟩
    obtain ⟨result, rfl⟩ := houts
    constructor
    · rintro ⟨result', heq⟩
      simp only [List.cons.injEq, Output.commit.injEq, and_true] at heq
      rw [← heq.1]
      exact hb
    · intro hm
      obtain rfl := Option.some.inj (hb.1.symm.trans hm.1)
      exact ⟨result, rfl⟩

end

/-! ## A block that is decided and committed, one that is decided and skipped -/

/-- An empty first block. -/
def firstBlock : Block := sealBlock toyPrimitives State.empty (bodyAt 1 [])

/-- Another one for the same height, of a later clock. -/
def rivalBlock : Block := { firstBlock with header := { firstBlock.header with timestampMs := 2 } }

/-- A new node, before its first event. -/
def freshNode : Engine := Engine.start toyPrimitives toyConfig (openState toyGenesis State.empty)

/-- With a block in its slot. -/
def nodeHolding (block : Block) : Engine := { freshNode with decidedBlockCache := some block }

theorem firstBlock_received : Steps toyPrimitives toyConfig toyGenesis freshNode
    ⟨freshNode, .proposal 1 firstBlock, [.proposal 1 firstBlock]⟩ (nodeHolding firstBlock) := ⟨rfl, rfl⟩

theorem rivalBlock_received : Steps toyPrimitives toyConfig toyGenesis (nodeHolding firstBlock)
    ⟨nodeHolding firstBlock, .proposal 1 rivalBlock, [.proposal 1 rivalBlock]⟩
    (nodeHolding rivalBlock) := ⟨rfl, rfl⟩

theorem firstBlock_decided : ((nodeHolding firstBlock).decide toyPrimitives toyConfig 1
    (firstBlock.hash toyPrimitives)).toOption.isSome = true := by decide

/-- The block a peer proposes is committed. -/
theorem decided_block_committed_proposal : ∃ hist e e' outs,
    NodeRun toyPrimitives toyConfig toyGenesis State.empty hist e ∧
      e.decide toyPrimitives toyConfig 1 (firstBlock.hash toyPrimitives) = .ok (e', outs) ∧
      Known hist 1 firstBlock ∧
      DecidedCommitted toyPrimitives hist 1 (firstBlock.hash toyPrimitives) outs := by
  have run : NodeRun toyPrimitives toyConfig toyGenesis State.empty _ _ :=
    Runs.Steps.nil.snoc firstBlock_received
  have step := eq_ok_returned firstBlock_decided
  refine ⟨_, _, _, _, run, step, ⟨_, List.mem_singleton_self _, .inr (by simp)⟩,
    (decided_block_committed run step).mpr fun block hk _ => ?_⟩
  obtain ⟨p, hp, hout⟩ := hk
  obtain rfl := List.mem_singleton.mp hp
  have hblock : block = firstBlock := by simpa using hout
  subst hblock
  exact ⟨⟨[], _, [], rfl, ⟨.inl rfl, rfl⟩, by simp⟩, sealBlock_height _ _ _⟩

/-- A second proposal, of any peer, stands in the slot when the first block is decided. -/
theorem decided_block_skipped : ∃ hist e e',
    NodeRun toyPrimitives toyConfig toyGenesis State.empty hist e ∧ Known hist 1 firstBlock ∧
      e.decide toyPrimitives toyConfig 1 (firstBlock.hash toyPrimitives) = .ok (e', []) ∧
      ¬ DecidedCommitted toyPrimitives hist 1 (firstBlock.hash toyPrimitives) [] := by
  have run : NodeRun toyPrimitives toyConfig toyGenesis State.empty _ _ :=
    (Runs.Steps.nil.snoc firstBlock_received).snoc rivalBlock_received
  have hne : rivalBlock.hash toyPrimitives ≠ firstBlock.hash toyPrimitives := by decide
  have hk : Known (([] ++ [⟨freshNode, .proposal 1 firstBlock, [.proposal 1 firstBlock]⟩]) ++
      [⟨nodeHolding firstBlock, .proposal 1 rivalBlock, [.proposal 1 rivalBlock]⟩]) 1 firstBlock :=
    ⟨⟨freshNode, .proposal 1 firstBlock, [.proposal 1 firstBlock]⟩, by simp, .inr (by simp)⟩
  refine ⟨_, _, freshNode, run, hk, ?_, fun h => ?_⟩
  · show (nodeHolding rivalBlock).decide toyPrimitives toyConfig 1 _ = _
    unfold Engine.decide
    simp only [nodeHolding, hne, and_false, ↓reduceIte]
    rfl
  · obtain ⟨result, hr⟩ := h firstBlock hk rfl
    cases hr

end Arknet.Laws
