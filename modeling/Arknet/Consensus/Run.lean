import Arknet.Consensus.BlockBuilder
import Arknet.Chain.Effects
import Arknet.Lib.Runs

/-!
Runs of committed blocks. `commitBlock_ok` and `replayBlock_ok` take a commit apart; `HookFrame` says
which columns the slash dispatch and the epoch hooks leave alone; `Run` is any sequence of commits.
-/

namespace Arknet.Consensus

open Machine Store Arknet.Chain Arknet.Staking Arknet.Payments Arknet.Governance

/-! ## Taking a commit apart -/

section

variable {K : Primitives}

theorem commitBlock_ok {s : State} {m : Mempool} {b : Block} {c : Committed} :
    commitBlock K s m b = .ok (.ok c) ↔ ∃ r, replayBlock K s b = .ok r ∧
      previewStateRoot K r.ctx = b.header.stateRoot ∧
      c = ⟨⟨previewStateRoot K r.ctx, totalGas r.outcomes, r.outcomes.countP TxOutcome.isApplied⟩,
        persist K r.ctx b, m.removeMany (b.txs.map (SignedTransaction.hash K))⟩ := by
  simp only [commitBlock, bind_eq_ok]
  constructor
  · rintro ⟨r, hr, h⟩
    split at h
    · simp at h
    · rename_i hroot
      simp only [pure_eq_ok, Except.ok.injEq] at h
      exact ⟨r, hr, by simpa using hroot, h.symm⟩
  · rintro ⟨r, hr, hroot, rfl⟩
    exact ⟨r, hr, by simp [hroot]⟩

theorem replayBlock_ok {s : State} {b : Block} {r : Replay} (h : replayBlock K s b = .ok r) :
    ∃ ctx₁ ctx₂ ctx₃ fee, applyTxs K s.beginBlock b.txs = .ok (ctx₁, r.outcomes) ∧
      b.txs.foldlM (dispatchSlash K) ctx₁ = .ok ctx₂ ∧
      epochHooks ctx₂ b.header = .ok (ctx₃, r.minted) ∧
      r.ctx = (ctx₃.setCurrentHeight b.header.height).setBaseFee fee := by
  simp only [replayBlock, bind_eq_ok, pure_eq_ok, Prod.exists] at h
  obtain ⟨ctx₁, os, h₁, ctx₂, h₂, ctx₃, m, h₃, rfl⟩ := h
  exact ⟨ctx₁, ctx₂, ctx₃, _, h₁, h₂, h₃, rfl⟩

theorem replayBlock_of {s : State} {b : Block} {ctx₁ ctx₂ ctx₃ : BlockCtx} {os : List TxOutcome}
    {minted : Amount} (h₁ : applyTxs K s.beginBlock b.txs = .ok (ctx₁, os))
    (h₂ : b.txs.foldlM (dispatchSlash K) ctx₁ = .ok ctx₂)
    (h₃ : epochHooks ctx₂ b.header = .ok (ctx₃, minted)) :
    replayBlock K s b = .ok ⟨(ctx₃.setCurrentHeight b.header.height).setBaseFee
      ((nextBaseFee b.header.baseFee (totalGas os) TARGET_GAS_PER_BLOCK).getD b.header.baseFee),
      os, minted⟩ := by
  simp only [replayBlock, h₁, h₂, h₃, ok_bind]
  rfl

theorem storeBlock_columns (s : State) (txHash : SignedTransaction → TxHash) (h : Height) (b : Block) :
    ∃ blocks idx, s.storeBlock txHash h b = { s with blocks := blocks, txIndex := idx } :=
  ⟨_, _, rfl⟩

theorem pruneBlocksBefore_columns (s : State) (txHash : SignedTransaction → TxHash) (h : Height) :
    ∃ blocks idx, s.pruneBlocksBefore txHash h = { s with blocks := blocks, txIndex := idx } := by
  unfold State.pruneBlocksBefore
  generalize s.blocks.entries.takeWhile (fun e => e.1 < h) = es
  induction es generalizing s with
  | nil => exact ⟨_, _, rfl⟩
  | cons e es ih =>
    obtain ⟨blocks, idx, hs⟩ := ih { s with
      blocks := s.blocks.erase e.1
      txIndex := e.2.txs.foldl (fun idx tx => idx.erase (txHash tx)) s.txIndex }
    exact ⟨blocks, idx, hs⟩

/-- Persisting a block writes the block log beside the batch and nothing else. -/
theorem persist_columns (ctx : BlockCtx) (b : Block) :
    ∃ blocks idx, persist K ctx b = { ctx.commit with blocks := blocks, txIndex := idx } := by
  unfold persist
  split
  · obtain ⟨bl, idx, h⟩ := pruneBlocksBefore_columns
      (ctx.commit.storeBlock (SignedTransaction.hash K) b.header.height b) (SignedTransaction.hash K)
      (b.header.height - BLOCK_RETENTION)
    exact ⟨bl, idx, by rw [h]; rfl⟩
  · exact storeBlock_columns _ _ _ _

end

/-! ## What the hooks leave alone -/

/-- Slashes and epoch hooks write accounts, stakes, unbondings, validators, pending rewards and
proposals; they keep every other column, and they lower no balance. -/
structure HookFrame (c c' : BlockCtx) : Prop where
  state : c'.state = c.state
  receiptsSeen : c'.commit.receiptsSeen = c.commit.receiptsSeen
  escrows : c'.commit.escrows = c.commit.escrows
  votes : c'.commit.votes = c.commit.votes
  models : c'.commit.models = c.commit.models
  tee : c'.commit.tee = c.commit.tee
  gateways : c'.commit.gateways = c.commit.gateways
  metaUnbondId : c'.commit.metaUnbondId = c.commit.metaUnbondId
  metaProposalId : c'.commit.metaProposalId = c.commit.metaProposalId
  credits : ∀ a, (c.account a).balance.val ≤ (c'.account a).balance.val

namespace HookFrame

theorem refl (c : BlockCtx) : HookFrame c c := ⟨rfl, rfl, rfl, rfl, rfl, rfl, rfl, rfl, rfl, fun _ => Nat.le_refl _⟩

theorem trans {a b c : BlockCtx} (h : HookFrame a b) (h' : HookFrame b c) : HookFrame a c where
  state := h'.state.trans h.state
  receiptsSeen := h'.receiptsSeen.trans h.receiptsSeen
  escrows := h'.escrows.trans h.escrows
  votes := h'.votes.trans h.votes
  models := h'.models.trans h.models
  tee := h'.tee.trans h.tee
  gateways := h'.gateways.trans h.gateways
  metaUnbondId := h'.metaUnbondId.trans h.metaUnbondId
  metaProposalId := h'.metaProposalId.trans h.metaProposalId
  credits := fun a => Nat.le_trans (h.credits a) (h'.credits a)

/-- A loop keeps the frame when every iteration does. -/
theorem foldlM {α : Type} {f : BlockCtx → α → Exec BlockCtx} {xs : List α} {c c' : BlockCtx}
    (step : ∀ c c' x, f c x = .ok c' → HookFrame c c') (h : xs.foldlM f c = .ok c') :
    HookFrame c c' :=
  foldlM_invariant (HookFrame c) f xs (fun a b x _ hac hf => hac.trans (step a b x hf)) (refl c) h

end HookFrame

theorem creditAddress_frame (c : BlockCtx) (a : Address) (amount : Amount) :
    HookFrame c (c.creditAddress a amount) :=
  ⟨rfl, rfl, rfl, rfl, rfl, rfl, rfl, rfl, rfl, c.balance_le_creditAddress a amount⟩

theorem creditPositive_frame (c : BlockCtx) (a : Address) (amount : Amount) :
    HookFrame c (c.creditPositive a amount) := by
  unfold BlockCtx.creditPositive
  split
  · exact creditAddress_frame c a amount
  · exact HookFrame.refl c

theorem slashStake_frame {percent : Amount} {acc acc' : SlashAcc} {e : StakeEntry}
    (h : slashStake percent acc e = .ok acc') : HookFrame acc.ctx acc'.ctx := by
  simp only [slashStake, bind_eq_ok] at h
  obtain ⟨p, -, sl, -, h⟩ := h
  split at h
  · simp only [pure_eq_ok] at h
    rw [h]
    exact HookFrame.refl _
  · simp only [bind_eq_ok, pure_eq_ok] at h
    obtain ⟨rest, -, rfl⟩ := h
    exact ⟨rfl, rfl, rfl, rfl, rfl, rfl, rfl, rfl, rfl, fun _ => Nat.le_refl _⟩

theorem slashUnbonding_frame {node : NodeId} {percent : Amount} {acc acc' : SlashAcc}
    {e : UnbondingEntry} (h : slashUnbonding node percent acc e = .ok acc') :
    HookFrame acc.ctx acc'.ctx := by
  simp only [slashUnbonding, bind_eq_ok] at h
  obtain ⟨p, -, sl, -, h⟩ := h
  split at h
  · simp only [pure_eq_ok] at h
    rw [h]
    exact HookFrame.refl _
  · simp only [bind_eq_ok, pure_eq_ok] at h
    obtain ⟨rest, -, rfl⟩ := h
    exact ⟨rfl, rfl, rfl, rfl, rfl, rfl, rfl, rfl, rfl, fun _ => Nat.le_refl _⟩

/-- The two loops of a slash, then its two credits. -/
theorem applySlash_ok {ctx ctx' : BlockCtx} {node : NodeId} {role : StakeRole} {offense : Offense}
    {reporter treasury : Address} {report : SlashReport}
    (h : applySlash ctx node role offense reporter treasury = .ok (ctx', report)) :
    ∃ acc₁ acc₂,
      (slashableStakes ctx.state node role).foldlM (slashStake offense.penaltyPercent) ⟨ctx, 0, 0⟩ =
        .ok acc₁ ∧
      (slashableUnbondings ctx.state node role).foldlM
        (slashUnbonding node offense.penaltyPercent) acc₁ = .ok acc₂ ∧
      report.totalSlashed = acc₂.total ∧
      report.burned.val = acc₂.total.val * 90 / 100 ∧
      report.toReporter.val = acc₂.total.val * 5 / 100 ∧
      report.toTreasury.val + report.toReporter.val + report.burned.val = acc₂.total.val ∧
      ctx' = (acc₂.ctx.creditPositive reporter report.toReporter).creditPositive treasury
        report.toTreasury := by
  simp only [applySlash, bind_eq_ok, pure_eq_ok, Prod.mk.injEq, mul_eq_ok, div_eq_ok, add_eq_ok] at h
  obtain ⟨acc₁, h₁, acc₂, h₂, p, hp, b, ⟨-, hb⟩, q, hq, r, ⟨-, hr⟩, out, hout, rfl, rfl⟩ := h
  have hb' : b.val = acc₂.total.val * 90 / 100 := by rw [hb, hp]; rfl
  have hr' : r.val = acc₂.total.val * 5 / 100 := by rw [hr, hq]; rfl
  refine ⟨acc₁, acc₂, h₁, h₂, rfl, hb', hr', ?_, rfl⟩
  simp only [satSub_val]
  omega

theorem applySlash_frame {ctx ctx' : BlockCtx} {node : NodeId} {role : StakeRole} {offense : Offense}
    {reporter treasury : Address} {report : SlashReport}
    (h : applySlash ctx node role offense reporter treasury = .ok (ctx', report)) :
    HookFrame ctx ctx' := by
  obtain ⟨acc₁, acc₂, h₁, h₂, -, -, -, -, rfl⟩ := applySlash_ok h
  have f₁ : HookFrame ctx acc₁.ctx :=
    foldlM_invariant (fun acc => HookFrame ctx acc.ctx) _ _
      (fun a b x _ ha hf => ha.trans (slashStake_frame hf)) (HookFrame.refl ctx) h₁
  have f₂ : HookFrame ctx acc₂.ctx :=
    foldlM_invariant (fun acc => HookFrame ctx acc.ctx) _ _
      (fun a b x _ ha hf => ha.trans (slashUnbonding_frame hf)) f₁ h₂
  exact (f₂.trans (creditPositive_frame _ _ _)).trans (creditPositive_frame _ _ _)

theorem dispatchSlash_frame {K : Primitives} {ctx ctx' : BlockCtx} {stx : SignedTransaction}
    (h : dispatchSlash K ctx stx = .ok ctx') : HookFrame ctx ctx' := by
  unfold dispatchSlash at h
  split at h
  · split at h
    · rw [map_eq_ok] at h
      obtain ⟨⟨c, report⟩, hs, rfl⟩ := h
      exact applySlash_frame hs
    · simp only [pure_eq_ok] at h
      exact h ▸ HookFrame.refl ctx
  · simp only [pure_eq_ok] at h
    exact h ▸ HookFrame.refl ctx

theorem rotate_frame {bootstrap : Bool} {acc acc' : BlockCtx × U32} {c : Candidate}
    (h : rotate bootstrap acc c = .ok acc') : HookFrame acc.1 acc'.1 := by
  unfold rotate at h
  split at h
  · simp only [bind_eq_ok, pure_eq_ok] at h
    obtain ⟨active, -, rfl⟩ := h
    exact ⟨rfl, rfl, rfl, rfl, rfl, rfl, rfl, rfl, rfl, fun _ => Nat.le_refl _⟩
  · simp only [pure_eq_ok] at h
    exact h ▸ ⟨rfl, rfl, rfl, rfl, rfl, rfl, rfl, rfl, rfl, fun _ => Nat.le_refl _⟩

theorem recomputeValidatorSet_frame {ctx ctx' : BlockCtx} {height : Height} {n : U32}
    (h : recomputeValidatorSet ctx height = .ok (ctx', n)) : HookFrame ctx ctx' :=
  foldlM_invariant (fun acc => HookFrame ctx acc.1) _ _
    (fun _ _ _ _ ha hf => ha.trans (rotate_frame hf)) (HookFrame.refl ctx) h

/-! ## Credits

A list of credits, in order; the delegators' loop makes one, and what it credits is its total. -/

def creditAll (ctx : BlockCtx) (credits : List (Address × Amount)) : BlockCtx :=
  credits.foldl (fun ctx c => ctx.creditPositive c.1 c.2) ctx

def creditSum (credits : List (Address × Amount)) : Nat := (credits.map (fun c => c.2.val)).sum

theorem creditAll_frame (ctx : BlockCtx) (credits : List (Address × Amount)) :
    HookFrame ctx (creditAll ctx credits) := by
  induction credits generalizing ctx with
  | nil => exact HookFrame.refl ctx
  | cons c credits ih => exact (creditPositive_frame ctx c.1 c.2).trans (ih _)

/-- What a list of credits does to one balance. -/
theorem balance_creditAll (ctx : BlockCtx) (credits : List (Address × Amount)) (a : Address) :
    ((creditAll ctx credits).account a).balance.val =
      min ((ctx.account a).balance.val + creditSum (credits.filter fun c => c.1 = a)) (2 ^ 128 - 1) := by
  induction credits generalizing ctx with
  | nil =>
    have hlt := (ctx.account a).balance.isLt
    simp only [creditAll, creditSum, List.foldl_nil, List.filter_nil, List.map_nil, List.sum_nil]
    omega
  | cons c credits ih =>
    have hfirst : ((ctx.creditPositive c.1 c.2).account a).balance.val =
        if c.1 = a then min ((ctx.account a).balance.val + c.2.val) (2 ^ 128 - 1)
        else (ctx.account a).balance.val := by
      have hlt := (ctx.account a).balance.isLt
      unfold BlockCtx.creditPositive
      by_cases hpos : 0 < c.2
      · rw [if_pos hpos, BlockCtx.account_creditAddress]
        split
        · rename_i hown
          rw [← hown]
          rfl
        · rfl
      · have hzero : ¬ 0 < c.2.val := hpos
        rw [if_neg hpos]
        split
        · omega
        · rfl
    change ((creditAll (ctx.creditPositive c.1 c.2) credits).account a).balance.val = _
    rw [ih, hfirst, List.filter_cons]
    by_cases hown : c.1 = a
    · simp only [hown, decide_true, ↓reduceIte, creditSum, List.map_cons, List.sum_cons]
      omega
    · simp only [hown, decide_false, Bool.false_eq_true, ↓reduceIte]

/-- The credits of a pro-rata split: everyone in order, all but the last with the product rounded down, the
last with no less. -/
structure FairCredits (delegatorTotal totalDelegated : Amount) (shares credits : List (Address × Amount)) :
    Prop where
  delegators : credits.map Prod.fst = shares.map Prod.fst
  floors : ∀ i p, shares[i]? = some p → i + 1 < shares.length →
    ∃ c, credits[i]? = some c ∧ c.2.val = (satMul delegatorTotal p.2).val / totalDelegated.val
  last : ∀ p, shares.getLast? = some p →
    ∃ c, credits.getLast? = some c ∧ delegatorTotal.val * p.2.val / totalDelegated.val ≤ c.2.val

/-- The shares before the last are rounded down, so that the last delegator is left a remainder: together
they are the delegators' total, whether a product saturates or not. -/
theorem creditShares_fair {delegatorTotal totalDelegated : Amount} {shares : List (Address × Amount)}
    {ctx : BlockCtx} {distributed : Amount} (hT : totalDelegated.val ≠ 0) (hne : shares ≠ [])
    (hinv : distributed.val * totalDelegated.val +
      delegatorTotal.val * (shares.map (fun p => p.2.val)).sum ≤ delegatorTotal.val * totalDelegated.val) :
    ∃ credits, creditShares delegatorTotal totalDelegated ctx distributed shares =
        .ok (creditAll ctx credits) ∧
      distributed.val + creditSum credits = delegatorTotal.val ∧
      FairCredits delegatorTotal totalDelegated shares credits := by
  have hpos := Nat.pos_of_ne_zero hT
  have hdist : ∀ d rest : Nat, d * totalDelegated.val + rest ≤ delegatorTotal.val * totalDelegated.val →
      d ≤ delegatorTotal.val := fun d rest hd =>
    Nat.le_of_mul_le_mul_right (Nat.le_trans (Nat.le_add_right _ _) hd) hpos
  fun_induction creditShares delegatorTotal totalDelegated ctx distributed shares with
  | case1 ctx distributed => exact absurd rfl hne
  | case2 ctx distributed addr stake =>
    have hle := hdist _ _ hinv
    refine ⟨[(addr, satSub delegatorTotal distributed)], rfl, ?_, rfl, ?_, ?_⟩
    · simp only [creditSum, List.map_cons, List.map_nil, List.sum_cons, List.sum_nil, satSub_val]
      omega
    · intro i p _ hi
      simp at hi
    · intro p hp
      obtain rfl : (addr, stake) = p := Option.some.inj hp
      refine ⟨(addr, satSub delegatorTotal distributed), rfl, ?_⟩
      simp only [List.map_cons, List.map_nil, List.sum_cons, List.sum_nil, Nat.add_zero] at hinv
      rw [satSub_val]
      apply Nat.div_le_of_le_mul
      rw [Nat.mul_comm totalDelegated.val, Nat.sub_mul]
      dsimp only
      omega
  | case3 ctx distributed addr stake rest hrest ih =>
    obtain ⟨share, hshare⟩ := div_isOk (satMul delegatorTotal stake) hT
    have hvalue := (div_eq_ok.mp hshare).2
    have hscaled : share.val * totalDelegated.val ≤ delegatorTotal.val * stake.val := by
      rw [hvalue]
      exact Nat.le_trans (Nat.div_mul_le_self _ _) (satMul_le delegatorTotal stake)
    simp only [List.map_cons, List.sum_cons, Nat.mul_add] at hinv
    have hsum : (distributed.val + share.val) * totalDelegated.val +
        delegatorTotal.val * (rest.map (fun p => p.2.val)).sum ≤
        delegatorTotal.val * totalDelegated.val := by
      rw [Nat.add_mul]
      omega
    have hfit := hdist _ _ hsum
    have hlt := delegatorTotal.isLt
    have hnext : (satAdd distributed share).val = distributed.val + share.val := by
      rw [satAdd_val]
      omega
    obtain ⟨credits, hok, htotal, hfair⟩ := ih share hrest (by rw [hnext]; exact hsum)
    refine ⟨(addr, share) :: credits, ?_, ?_, ?_, ?_, ?_⟩
    · rw [hshare, ok_bind]
      exact hok
    · simp only [creditSum, List.map_cons, List.sum_cons] at htotal ⊢
      omega
    · rw [List.map_cons, List.map_cons, hfair.delegators]
    · intro i p hp hi
      cases i with
      | zero =>
        obtain rfl := Option.some.inj hp
        exact ⟨_, rfl, hvalue⟩
      | succ i =>
        rw [List.length_cons] at hi
        exact hfair.floors i p hp (by omega)
    · intro p hp
      obtain ⟨d, rest', rfl⟩ := List.exists_cons_of_ne_nil hrest
      rw [List.getLast?_cons_cons] at hp
      obtain ⟨c, hc, hle⟩ := hfair.last p hp
      refine ⟨c, ?_, hle⟩
      cases credits with
      | nil => cases hc
      | cons c' credits => rw [List.getLast?_cons_cons, hc]

theorem creditAll_single {ctx : BlockCtx} {a : Address} {amount : Amount} (h : amount ≠ 0) :
    ctx.creditAddress a amount = creditAll ctx [(a, amount)] := by
  have hpos : 0 < amount := Nat.pos_of_ne_zero (fun hv => h (Fin.ext hv))
  exact (if_pos hpos).symm

theorem distributeToDelegators_credits {ctx ctx' : BlockCtx} {computeAddr : Address}
    {delegatorTotal : Amount} (h : distributeToDelegators ctx computeAddr delegatorTotal = .ok ctx') :
    ∃ credits, ctx' = creditAll ctx credits ∧ creditSum credits = delegatorTotal.val := by
  unfold distributeToDelegators at h
  split at h
  · rename_i hz
    simp only [pure_eq_ok] at h
    exact ⟨[], h.symm, by rw [hz]; rfl⟩
  rename_i hpos
  have hcompute : ∃ credits, ctx.creditAddress computeAddr delegatorTotal = creditAll ctx credits ∧
      creditSum credits = delegatorTotal.val :=
    ⟨_, creditAll_single hpos, Nat.add_zero _⟩
  split at h
  · simp only [pure_eq_ok] at h
    exact h ▸ hcompute
  rename_i v _
  simp only at h
  split at h
  · simp only [pure_eq_ok] at h
    exact h ▸ hcompute
  rename_i hne
  simp only [bind_eq_ok, sum_eq_ok] at h
  obtain ⟨total, htotal, h⟩ := h
  split at h
  · simp only [pure_eq_ok] at h
    exact h ▸ hcompute
  · rename_i hT
    have hsum : ((delegatorStakes ctx.state v.nodeId).map (fun p => p.2.val)).sum = total.val := by
      rw [htotal, List.map_map]
      rfl
    have hz : (0 : Amount).val = 0 := rfl
    have hinv : (0 : Amount).val * total.val + delegatorTotal.val *
        ((delegatorStakes ctx.state v.nodeId).map (fun p => p.2.val)).sum ≤
          delegatorTotal.val * total.val := by
      rw [hsum, hz]
      omega
    obtain ⟨credits, hok, hcredits, -⟩ :=
      @creditShares_fair delegatorTotal total _ ctx 0 (fun hv => hT (Fin.ext hv)) hne hinv
    rw [hok] at h
    exact ⟨credits, (Except.ok.inj h).symm, by omega⟩

theorem distributeToDelegators_frame {ctx ctx' : BlockCtx} {computeAddr : Address}
    {delegatorTotal : Amount} (h : distributeToDelegators ctx computeAddr delegatorTotal = .ok ctx') :
    HookFrame ctx ctx' := by
  obtain ⟨credits, rfl, -⟩ := distributeToDelegators_credits h
  exact creditAll_frame ctx credits

/-- The credits of one minted reward, with the split they follow. -/
theorem payReward_ok {ctx ctx' : BlockCtx} {pr : PendingReward} {minted : Amount}
    (h : payReward ctx pr minted = .ok ctx') :
    ∃ dist paid, rewardSplit minted = .ok dist ∧
      distributeToDelegators (((ctx.creditPositive pr.computeAddr dist.compute).creditPositive
        pr.verifierAddr dist.verifier).creditPositive pr.treasuryAddr dist.treasury) pr.computeAddr
        dist.delegators = .ok paid ∧
      ctx' = paid.deletePendingReward pr.jobId := by
  simp only [payReward, distributeReward, bind_eq_ok, pure_eq_ok] at h
  obtain ⟨dist, hd, paid, hp, rfl⟩ := h
  exact ⟨dist, paid, hd, hp, rfl⟩

theorem payReward_frame {ctx ctx' : BlockCtx} {pr : PendingReward} {minted : Amount}
    (h : payReward ctx pr minted = .ok ctx') : HookFrame ctx ctx' := by
  obtain ⟨dist, paid, -, hp, rfl⟩ := payReward_ok h
  refine (((creditPositive_frame _ _ _).trans (creditPositive_frame _ _ _)).trans
    (creditPositive_frame _ _ _)).trans ((distributeToDelegators_frame hp).trans ?_)
  exact ⟨rfl, rfl, rfl, rfl, rfl, rfl, rfl, rfl, rfl, fun _ => Nat.le_refl _⟩

theorem mintOne_ok {perToken : Amount} {acc acc' : MintAcc} {pr : PendingReward}
    (h : mintOne perToken acc pr = .ok acc') :
    ∃ reward, pendingBlockReward perToken pr = .ok reward ∧
      acc'.emission = (acc.emission.tryMint reward).2 ∧
      (((acc.emission.tryMint reward).1 = 0 ∧ acc'.ctx = acc.ctx ∧ acc'.totalMinted = acc.totalMinted) ∨
        ((acc.emission.tryMint reward).1 ≠ 0 ∧
          payReward acc.ctx pr (acc.emission.tryMint reward).1 = .ok acc'.ctx ∧
          acc'.totalMinted = satAdd acc.totalMinted (acc.emission.tryMint reward).1)) := by
  simp only [mintOne, bind_eq_ok] at h
  obtain ⟨reward, hr, h⟩ := h
  split at h
  · rename_i hz
    simp only [pure_eq_ok] at h
    subst h
    exact ⟨reward, hr, rfl, .inl ⟨hz, rfl, rfl⟩⟩
  · rename_i hz
    simp only [bind_eq_ok, pure_eq_ok] at h
    obtain ⟨ctx, hp, rfl⟩ := h
    exact ⟨reward, hr, rfl, .inr ⟨hz, hp, rfl⟩⟩

theorem mintOne_frame {perToken : Amount} {acc acc' : MintAcc} {pr : PendingReward}
    (h : mintOne perToken acc pr = .ok acc') : HookFrame acc.ctx acc'.ctx := by
  obtain ⟨_, -, -, ⟨-, hc, -⟩ | ⟨-, hp, -⟩⟩ := mintOne_ok h
  · rw [hc]
    exact HookFrame.refl _
  · exact payReward_frame hp

theorem epochBoundaryMint_ok {ctx ctx' : BlockCtx} {endingEpoch : U64} {height : Height}
    {minted : Amount} (h : epochBoundaryMint ctx endingEpoch height = .ok (ctx', minted)) :
    (ctx' = ctx ∧ minted = 0) ∨
      ∃ budget perToken acc, epochBudget (yearForHeight height) = .ok budget ∧
        (ctx.state.iterPendingRewardsForEpoch endingEpoch).foldlM (mintOne perToken)
          ⟨ctx, ⟨epochForHeight height, budget, 0, 0⟩, 0⟩ = .ok acc ∧
        ctx' = acc.ctx ∧ minted = acc.totalMinted := by
  simp only [epochBoundaryMint] at h
  split at h
  · simp only [pure_eq_ok, Prod.mk.injEq] at h
    exact .inl ⟨h.1.symm, h.2.symm⟩
  · simp only [bind_eq_ok, pure_eq_ok, Prod.mk.injEq] at h
    obtain ⟨tokens, -, budget, hb, perToken, -, acc, ha, rfl, rfl⟩ := h
    exact .inr ⟨budget, perToken, acc, hb, ha, rfl, rfl⟩

theorem epochBoundaryMint_frame {ctx ctx' : BlockCtx} {endingEpoch : U64} {height : Height}
    {minted : Amount} (h : epochBoundaryMint ctx endingEpoch height = .ok (ctx', minted)) :
    HookFrame ctx ctx' := by
  obtain ⟨rfl, -⟩ | ⟨_, _, acc, -, ha, rfl, -⟩ := epochBoundaryMint_ok h
  · exact HookFrame.refl _
  · exact foldlM_invariant (fun acc => HookFrame ctx acc.ctx) _ _
      (fun _ _ _ _ hx hf => hx.trans (mintOne_frame hf)) (HookFrame.refl ctx) ha

theorem returnDeposit_frame (ctx : BlockCtx) (a : Address) (deposit : Amount) :
    HookFrame ctx (returnDeposit ctx a deposit) := by
  unfold returnDeposit
  split
  · exact HookFrame.refl ctx
  · exact creditAddress_frame ctx a deposit

/-- A proposal stays, moves to its vote, or is resolved; a passed or rejected one is refunded. -/
theorem advanceProposal_ok {bonded : Amount} {now : Timestamp} {ctx ctx' : BlockCtx} {id : U64}
    {record : ProposalRecord} (h : advanceProposal bonded now ctx (id, record) = .ok ctx') :
    ctx' = ctx ∨
      (record.phase = .discussion ∧ record.proposal.discussionEnds ≤ now ∧
        ctx' = ctx.setProposal id { record with phase := .voting }) ∨
      (record.phase = .voting ∧ record.proposal.votingEnds ≤ now ∧
        ((∃ phase, (phase = .passed ∨ phase = .rejected) ∧
          ctx' = (returnDeposit ctx record.proposal.proposer record.proposal.deposit).setProposal id
            { record with phase := phase }) ∨
          ctx' = ctx.setProposal id { record with phase := .rejectedWithVeto })) := by
  simp only [advanceProposal] at h
  split at h
  · rename_i hphase
    split at h
    · rename_i hnow
      simp only [pure_eq_ok] at h
      exact .inr (.inl ⟨hphase, hnow, h.symm⟩)
    · simp only [pure_eq_ok] at h
      exact .inl h.symm
  · rename_i hphase
    split at h
    · simp only [pure_eq_ok] at h
      exact .inl h.symm
    · rename_i hnow
      simp only [bind_eq_ok] at h
      obtain ⟨outcome, -, h⟩ := h
      refine .inr (.inr ⟨hphase, not_lt.mp hnow, ?_⟩)
      split at h
      · simp only [pure_eq_ok] at h
        exact .inl ⟨.passed, .inl rfl, h.symm⟩
      · simp only [pure_eq_ok] at h
        exact .inl ⟨.rejected, .inr rfl, h.symm⟩
      · simp only [pure_eq_ok] at h
        exact .inr h.symm
  · simp only [pure_eq_ok] at h
    exact .inl h.symm

theorem advanceProposal_frame {bonded : Amount} {now : Timestamp} {ctx ctx' : BlockCtx}
    {item : U64 × ProposalRecord} (h : advanceProposal bonded now ctx item = .ok ctx') :
    HookFrame ctx ctx' := by
  obtain ⟨id, record⟩ := item
  obtain rfl | ⟨-, -, rfl⟩ | ⟨-, -, ⟨_, -, rfl⟩ | rfl⟩ := advanceProposal_ok h
  · exact HookFrame.refl _
  · exact ⟨rfl, rfl, rfl, rfl, rfl, rfl, rfl, rfl, rfl, fun _ => Nat.le_refl _⟩
  · exact (returnDeposit_frame _ _ _).trans ⟨rfl, rfl, rfl, rfl, rfl, rfl, rfl, rfl, rfl, fun _ => Nat.le_refl _⟩
  · exact ⟨rfl, rfl, rfl, rfl, rfl, rfl, rfl, rfl, rfl, fun _ => Nat.le_refl _⟩

/-- The epoch hooks off and on a boundary. -/
theorem epochHooks_ok {ctx ctx' : BlockCtx} {header : BlockHeader} {minted : Amount}
    (h : epochHooks ctx header = .ok (ctx', minted)) :
    (isEpochBoundary header.height = false ∧ ctx' = ctx ∧ minted = 0) ∨
      (isEpochBoundary header.height = true ∧ ∃ rotated n paid,
        recomputeValidatorSet ctx header.height = .ok (rotated, n) ∧
        epochBoundaryMint rotated (satSub (epochForHeight header.height) 1) header.height =
          .ok (paid, minted) ∧
        processGovernanceProposals paid header.timestampMs = .ok ctx') := by
  unfold epochHooks at h
  split at h
  · rename_i hb
    simp only [bind_eq_ok, pure_eq_ok, Prod.exists, Prod.mk.injEq] at h
    obtain ⟨rotated, n, h₁, paid, m, h₂, c, h₃, rfl, rfl⟩ := h
    exact .inr ⟨hb, rotated, n, paid, h₁, h₂, h₃⟩
  · rename_i hb
    simp only [pure_eq_ok, Prod.mk.injEq] at h
    exact .inl ⟨by simpa using hb, h.1.symm, h.2.symm⟩

theorem epochHooks_frame {ctx ctx' : BlockCtx} {header : BlockHeader} {minted : Amount}
    (h : epochHooks ctx header = .ok (ctx', minted)) : HookFrame ctx ctx' := by
  obtain ⟨-, rfl, -⟩ | ⟨-, rotated, n, paid, h₁, h₂, h₃⟩ := epochHooks_ok h
  · exact HookFrame.refl _
  · exact ((recomputeValidatorSet_frame h₁).trans (epochBoundaryMint_frame h₂)).trans
      (HookFrame.foldlM (fun _ _ _ hf => advanceProposal_frame hf) h₃)

/-! ## What each hook writes -/

theorem recomputeValidatorSet_commit {ctx ctx' : BlockCtx} {height : Height} {n : U32}
    (h : recomputeValidatorSet ctx height = .ok (ctx', n)) :
    ∃ validators, ctx'.commit = { ctx.commit with validators := validators } := by
  refine foldlM_invariant (fun acc : BlockCtx × U32 => ∃ validators,
    acc.1.commit = { ctx.commit with validators := validators }) _ _ ?_ ⟨_, rfl⟩ h
  rintro acc acc' c - ⟨v, hv⟩ hf
  unfold rotate at hf
  split at hf
  · simp only [bind_eq_ok, pure_eq_ok] at hf
    obtain ⟨active, -, rfl⟩ := hf
    exact ⟨_, by rw [BlockCtx.setValidator_commit, hv]⟩
  · simp only [pure_eq_ok] at hf
    subst hf
    exact ⟨_, by rw [BlockCtx.deleteValidator_commit, hv]⟩

/-- Only accounts have changed. -/
def PaidOnly (c c' : BlockCtx) : Prop := ∃ accounts, c'.commit = { c.commit with accounts := accounts }

theorem PaidOnly.trans {a b c : BlockCtx} (h : PaidOnly a b) (h' : PaidOnly b c) : PaidOnly a c := by
  obtain ⟨x, hx⟩ := h
  obtain ⟨y, hy⟩ := h'
  exact ⟨y, by rw [hy, hx]⟩

theorem creditAll_paidOnly (ctx : BlockCtx) (credits : List (Address × Amount)) :
    PaidOnly ctx (creditAll ctx credits) := by
  induction credits generalizing ctx with
  | nil => exact ⟨_, rfl⟩
  | cons c credits ih => exact PaidOnly.trans (BlockCtx.creditPositive_commit ctx c.1 c.2) (ih _)

theorem distributeToDelegators_paidOnly {ctx ctx' : BlockCtx} {computeAddr : Address}
    {delegatorTotal : Amount} (h : distributeToDelegators ctx computeAddr delegatorTotal = .ok ctx') :
    PaidOnly ctx ctx' := by
  obtain ⟨credits, rfl, -⟩ := distributeToDelegators_credits h
  exact creditAll_paidOnly ctx credits

theorem epochBoundaryMint_commit {ctx ctx' : BlockCtx} {endingEpoch : U64} {height : Height}
    {minted : Amount} (h : epochBoundaryMint ctx endingEpoch height = .ok (ctx', minted)) :
    ∃ accounts rewards, ctx'.commit = { ctx.commit with
      accounts := accounts, pendingRewards := rewards } := by
  obtain ⟨rfl, -⟩ | ⟨_, _, acc, -, ha, rfl, -⟩ := epochBoundaryMint_ok h
  · exact ⟨_, _, rfl⟩
  refine foldlM_invariant (fun acc : MintAcc => ∃ accounts rewards, acc.ctx.commit = { ctx.commit with
    accounts := accounts, pendingRewards := rewards }) _ _ ?_ ⟨_, _, rfl⟩ ha
  rintro a a' pr - ⟨x, y, hxy⟩ hf
  obtain ⟨_, -, -, ⟨-, hc, -⟩ | ⟨-, hp, -⟩⟩ := mintOne_ok hf
  · exact ⟨x, y, by rw [hc, hxy]⟩
  · obtain ⟨dist, paid, -, hd, hpaid⟩ := payReward_ok hp
    have hcredits : PaidOnly a.ctx paid :=
      ((PaidOnly.trans (BlockCtx.creditPositive_commit _ _ _)
        (BlockCtx.creditPositive_commit _ _ _)).trans (BlockCtx.creditPositive_commit _ _ _)).trans
        (distributeToDelegators_paidOnly hd)
    obtain ⟨z, hz⟩ := hcredits
    exact ⟨z, _, by rw [hpaid, BlockCtx.deletePendingReward_commit, hz, hxy]⟩

theorem returnDeposit_commit (ctx : BlockCtx) (a : Address) (deposit : Amount) :
    PaidOnly ctx (returnDeposit ctx a deposit) := by
  unfold returnDeposit
  split
  · exact ⟨_, rfl⟩
  · exact ⟨_, rfl⟩

/-- Advancing a proposal writes accounts and the record under its own id. -/
theorem advanceProposal_commit {bonded : Amount} {now : Timestamp} {ctx ctx' : BlockCtx} {id : U64}
    {record : ProposalRecord} (h : advanceProposal bonded now ctx (id, record) = .ok ctx') :
    ctx' = ctx ∨ ∃ accounts phase, ctx'.commit = { ctx.commit with
      accounts := accounts
      proposals := ctx.commit.proposals.write id (some { record with phase := phase }) } := by
  obtain h | ⟨-, -, rfl⟩ | ⟨-, -, ⟨phase, -, rfl⟩ | rfl⟩ := advanceProposal_ok h
  · exact .inl h
  · exact .inr ⟨_, _, rfl⟩
  · obtain ⟨accounts, ha⟩ := returnDeposit_commit ctx record.proposal.proposer record.proposal.deposit
    exact .inr ⟨accounts, phase, by rw [BlockCtx.setProposal_commit, ha]⟩
  · exact .inr ⟨_, _, rfl⟩

theorem processGovernanceProposals_commit {ctx ctx' : BlockCtx} {now : Timestamp}
    (h : processGovernanceProposals ctx now = .ok ctx') :
    ∃ accounts proposals, ctx'.commit = { ctx.commit with
      accounts := accounts, proposals := proposals } := by
  refine foldlM_invariant (fun c : BlockCtx => ∃ accounts proposals, c.commit = { ctx.commit with
    accounts := accounts, proposals := proposals }) _ _ ?_ ⟨_, _, rfl⟩ h
  rintro c c' ⟨id, record⟩ - ⟨x, y, hxy⟩ hf
  obtain rfl | ⟨a, phase, ha⟩ := advanceProposal_commit hf
  · exact ⟨x, y, hxy⟩
  · exact ⟨a, _, by rw [ha, hxy]⟩

/-- The epoch hooks write accounts, validators, pending rewards and proposals. -/
theorem epochHooks_commit {ctx ctx' : BlockCtx} {header : BlockHeader} {minted : Amount}
    (h : epochHooks ctx header = .ok (ctx', minted)) :
    ∃ accounts validators rewards proposals, ctx'.commit = { ctx.commit with
      accounts := accounts, validators := validators, pendingRewards := rewards,
      proposals := proposals } := by
  obtain ⟨-, rfl, -⟩ | ⟨-, rotated, n, paid, h₁, h₂, h₃⟩ := epochHooks_ok h
  · exact ⟨_, _, _, _, rfl⟩
  · obtain ⟨v, hv⟩ := recomputeValidatorSet_commit h₁
    obtain ⟨a, r, har⟩ := epochBoundaryMint_commit h₂
    obtain ⟨x, p, hp⟩ := processGovernanceProposals_commit h₃
    exact ⟨x, v, r, p, by rw [hp, har, hv]⟩

/-- Everything after the transactions keeps the frame. -/
theorem replayBlock_frame {K : Primitives} {s : State} {b : Block} {r : Replay}
    (h : replayBlock K s b = .ok r) :
    ∃ ctx, applyTxs K s.beginBlock b.txs = .ok (ctx, r.outcomes) ∧ HookFrame ctx r.ctx := by
  obtain ⟨ctx₁, ctx₂, ctx₃, fee, h₁, h₂, h₃, hr⟩ := replayBlock_ok h
  refine ⟨ctx₁, h₁, ((HookFrame.foldlM (fun _ _ _ hf => dispatchSlash_frame hf) h₂).trans
    (epochHooks_frame h₃)).trans ?_⟩
  rw [hr]
  exact ⟨rfl, rfl, rfl, rfl, rfl, rfl, rfl, rfl, rfl, fun _ => Nat.le_refl _⟩

/-! ## Runs -/

/-- One committed block: the block, its replay and the store it left. -/
structure Commits (K : Primitives) (s : State) (b : Block) (r : Replay) (s' : State) : Prop where
  replay : replayBlock K s b = .ok r
  root : previewStateRoot K r.ctx = b.header.stateRoot
  stored : s' = persist K r.ctx b

theorem commits_iff {K : Primitives} {s s' : State} {b : Block} {m : Mempool} :
    (∃ r, Commits K s b r s') ↔ ∃ c, commitBlock K s m b = .ok (.ok c) ∧ c.state = s' := by
  constructor
  · rintro ⟨r, hr, hroot, rfl⟩
    exact ⟨_, commitBlock_ok.mpr ⟨r, hr, hroot, rfl⟩, rfl⟩
  · rintro ⟨c, hc, rfl⟩
    obtain ⟨r, hr, hroot, rfl⟩ := commitBlock_ok.mp hc
    exact ⟨r, hr, hroot, rfl⟩

/-- The blocks committed from `s`, oldest first, and the store they lead to. -/
inductive Run (K : Primitives) (s : State) : List (Block × Replay) → State → Prop where
  | nil : Run K s [] s
  | snoc {hist : List (Block × Replay)} {t t' : State} {b : Block} {r : Replay}
      (run : Run K s hist t) (step : Commits K t b r t') : Run K s (hist ++ [(b, r)]) t'

/-- A block is committed on the store its replay's context lies over. -/
theorem commits_txs {K : Primitives} {s s' : State} {b : Block} {r : Replay} (h : Commits K s b r s') :
    r.ctx.state = s ∧ ∃ ctx, applyTxs K s.beginBlock b.txs = .ok (ctx, r.outcomes) ∧
      HookFrame ctx r.ctx := by
  obtain ⟨ctx, htxs, hframe⟩ := replayBlock_frame h.replay
  exact ⟨hframe.state.trans (applyTxs_state htxs), ctx, htxs, hframe⟩

theorem commits_height {K : Primitives} {s s' : State} {b : Block} {r : Replay} (h : Commits K s b r s') :
    s'.metaHeight = some b.header.height := by
  obtain ⟨ctx₁, ctx₂, ctx₃, fee, -, -, -, hr⟩ := replayBlock_ok h.replay
  obtain ⟨blocks, idx, hp⟩ := persist_columns (K := K) r.ctx b
  rw [h.stored, hp, hr]
  rfl

/-- A commit leaves its block's gas and base fee in the fee of the next one. -/
theorem commits_baseFee {K : Primitives} {s s' : State} {b : Block} {r : Replay}
    (h : Commits K s b r s') : s'.baseFee =
      (nextBaseFee b.header.baseFee (totalGas r.outcomes) TARGET_GAS_PER_BLOCK).getD b.header.baseFee := by
  obtain ⟨ctx₁, ctx₂, ctx₃, fee, h₁, h₂, h₃, hr⟩ := replayBlock_ok h.replay
  obtain ⟨blocks, idx, hp⟩ := persist_columns (K := K) r.ctx b
  have hfee := (replayBlock_of h₁ h₂ h₃).symm.trans h.replay
  rw [h.stored, hp, ← Except.ok.inj hfee]
  rfl

theorem pruneBlocksBefore_get (s : State) (txHash : SignedTransaction → TxHash) {keepFrom h : Height}
    (hkeep : ¬ h < keepFrom) : (s.pruneBlocksBefore txHash keepFrom).blocks.get h = s.blocks.get h := by
  have hlow : ∀ e ∈ s.blocks.entries.takeWhile (fun e => e.1 < keepFrom), e.1 ≠ h := by
    rintro e he rfl
    exact hkeep (by simpa using List.mem_takeWhile_imp he)
  unfold State.pruneBlocksBefore
  generalize s.blocks.entries.takeWhile (fun e => e.1 < keepFrom) = es at hlow
  induction es generalizing s with
  | nil => rfl
  | cons e es ih =>
    rw [List.foldl_cons, ih _ (fun e' he' => hlow e' (by simp [he']))]
    simp only [Column.get_erase, if_neg (hlow e (by simp))]

/-- The committed block is in the block log under its height. -/
theorem commits_block {K : Primitives} {s s' : State} {b : Block} {r : Replay} (h : Commits K s b r s') :
    s'.blocks.get b.header.height = some b := by
  rw [h.stored]
  have hstore : (r.ctx.commit.storeBlock (SignedTransaction.hash K) b.header.height b).blocks.get
      b.header.height = some b := by
    simp only [State.storeBlock, Column.get_insert, ↓reduceIte]
  unfold persist
  split
  · rename_i hret
    rw [pruneBlocksBefore_get, hstore]
    have hr : (10000 : Nat) < b.header.height.val := hret
    have hsub : (b.header.height - BLOCK_RETENTION).val = b.header.height.val - 10000 :=
      Fin.sub_val_of_le (Fin.le_of_lt hret)
    rw [Fin.lt_def, hsub]
    omega
  · exact hstore

/-- Every entry of a history is a commit. -/
theorem run_step {K : Primitives} {s t : State} {hist : List (Block × Replay)} (run : Run K s hist t)
    {p : Block × Replay} (hp : p ∈ hist) : ∃ u u', Commits K u p.1 p.2 u' := by
  induction run with
  | nil => simp at hp
  | snoc run step ih =>
    rcases List.mem_append.mp hp with hp | hp
    · exact ih hp
    · rw [List.mem_singleton.mp hp]
      exact ⟨_, _, step⟩

theorem run_iff_steps {K : Primitives} {s t : State} {hist : List (Block × Replay)} :
    Run K s hist t ↔ Runs.Steps (fun u p u' => Commits K u p.1 p.2 u') s hist t := by
  constructor
  · intro run
    induction run with
    | nil => exact .nil
    | snoc run step ih => exact ih.snoc step
  · intro run
    induction run with
    | nil => exact .nil
    | snoc run step ih => exact ih.snoc step

/-- `L` holds of what was committed and where it led to, after every block of the run. -/
def Throughout (K : Primitives) (s : State) (L : List (Block × Replay) → State → Prop)
    (hist : List (Block × Replay)) : Prop :=
  ∀ past rest u, hist = past ++ rest → Run K s past u → L past u

/-- `Runs.throughout_iff` for committed blocks. -/
theorem throughout_iff {K : Primitives} {s t : State} {L : List (Block × Replay) → State → Prop}
    {C : List (Block × Replay) → Block × Replay → Prop} {hist : List (Block × Replay)} (h0 : L [] s)
    (step : ∀ past u b r u' rest, hist = past ++ (b, r) :: rest → Run K s past u →
      (∀ before p after, past = before ++ p :: after → C before p) → L past u → Commits K u b r u' →
      (L (past ++ [(b, r)]) u' ↔ C past (b, r))) (run : Run K s hist t) :
    Throughout K s L hist ↔ ∀ past p rest, hist = past ++ p :: rest → C past p := by
  have hruns : Throughout K s L hist ↔
      Runs.Throughout (fun u p u' => Commits K u p.1 p.2 u') s L hist :=
    forall₄_congr fun _ _ _ _ => imp_congr run_iff_steps Iff.rfl
  rw [hruns]
  exact Runs.throughout_iff h0 (fun past u p u' rest heq hu => step past u p.1 p.2 u' rest heq
    (run_iff_steps.mpr hu)) (run_iff_steps.mp run)

/-- The transactions of a list that were applied. -/
def appliedTxs (txs : List SignedTransaction) (outcomes : List TxOutcome) : List SignedTransaction :=
  ((txs.zip outcomes).filter (fun p => p.2.isApplied)).map Prod.fst

/-- The transactions a run has applied, in order. -/
def appliedOf (hist : List (Block × Replay)) : List SignedTransaction :=
  hist.flatMap (fun p => appliedTxs p.1.txs p.2.outcomes)

@[simp] theorem appliedTxs_cons (stx : SignedTransaction) (o : TxOutcome) (txs : List SignedTransaction)
    (os : List TxOutcome) :
    appliedTxs (stx :: txs) (o :: os) =
      if o.isApplied then stx :: appliedTxs txs os else appliedTxs txs os := by
  simp only [appliedTxs, List.zip_cons_cons, List.filter_cons]
  split <;> rfl

theorem mem_appliedTxs {txs : List SignedTransaction} {os : List TxOutcome} {stx : SignedTransaction} :
    stx ∈ appliedTxs txs os ↔ ∃ o, (stx, o) ∈ txs.zip os ∧ o.isApplied = true := by
  simp only [appliedTxs, List.mem_map, List.mem_filter, Prod.exists, exists_and_right, exists_eq_right]

/-! ## Sealing a body

The replay does not look at the header's root, so every body that replays can be given the root that
makes it commit. -/

def withRoot (b : Block) (root : StateRoot) : Block :=
  { b with header := { b.header with stateRoot := root } }

/-- The block with the root its replay obtains. -/
def sealBlock (K : Primitives) (s : State) (b : Block) : Block :=
  match replayBlock K s b with
  | .ok r => withRoot b (previewStateRoot K r.ctx)
  | .error _ => b

theorem sealBlock_commits {K : Primitives} {s : State} {b : Block} {r : Replay}
    (h : replayBlock K s b = .ok r) :
    Commits K s (sealBlock K s b) r (persist K r.ctx (sealBlock K s b)) := by
  have hseal : sealBlock K s b = withRoot b (previewStateRoot K r.ctx) := by
    unfold sealBlock
    rw [h]
  rw [hseal]
  exact ⟨h, rfl, rfl⟩

@[simp] theorem sealBlock_txs (K : Primitives) (s : State) (b : Block) :
    (sealBlock K s b).txs = b.txs := by
  unfold sealBlock
  split <;> rfl

@[simp] theorem sealBlock_height (K : Primitives) (s : State) (b : Block) :
    (sealBlock K s b).header.height = b.header.height := by
  unfold sealBlock
  split <;> rfl

theorem Run.cons {K : Primitives} {s s' t : State} {b : Block} {r : Replay}
    {hist : List (Block × Replay)} (step : Commits K s b r s') (run : Run K s' hist t) :
    Run K s ((b, r) :: hist) t :=
  run_iff_steps.mpr ((run_iff_steps.mp run).cons step)

/-- Commit bodies one after the other, each with the root it obtains. -/
def runBodies (K : Primitives) : State → List Block → Option (List (Block × Replay) × State)
  | s, [] => some ([], s)
  | s, b :: bs =>
    match replayBlock K s b with
    | .ok r => (runBodies K (persist K r.ctx (sealBlock K s b)) bs).map
        (fun q => ((sealBlock K s b, r) :: q.1, q.2))
    | .error _ => none

theorem runBodies_run {K : Primitives} {s t : State} {bodies : List Block}
    {hist : List (Block × Replay)} (h : runBodies K s bodies = some (hist, t)) : Run K s hist t := by
  induction bodies generalizing s hist with
  | nil =>
    obtain ⟨rfl, rfl⟩ := Prod.mk.inj (Option.some.inj h)
    exact .nil
  | cons b bs ih =>
    simp only [runBodies] at h
    split at h
    · rename_i r hr
      obtain ⟨⟨hist', t'⟩, hrest, heq⟩ := Option.map_eq_some_iff.mp h
      obtain ⟨rfl, rfl⟩ := Prod.mk.inj heq
      exact (ih hrest).cons (sealBlock_commits hr)
    · cases h

theorem runBodies_get {K : Primitives} {s : State} {bodies : List Block}
    (h : (runBodies K s bodies).isSome = true) :
    Run K s ((runBodies K s bodies).get h).1 ((runBodies K s bodies).get h).2 :=
  runBodies_run (Option.some_get h).symm

/-- A body at a height, for concrete runs. -/
def bodyAt (height : Height) (txs : List SignedTransaction) : Block where
  header := {
    version := 1
    chainId := ""
    height := height
    timestampMs := height
    parentHash := 0
    stateRoot := 0
    txRoot := 0
    receiptRoot := 0
    proposer := 0
    validatorSetHash := 0
    baseFee := 1
    genesisMessage := "" }
  txs := txs
  receipts := []

/-- Address 7 holds a thousand atoms; nothing else is stored. -/
def soleHolder : State := { State.empty with accounts := Column.empty.insert 7 ⟨1000, 0⟩ }

/-- A transaction nobody has signed: the signature's scheme is not the key's. -/
def unsigned (signer : List UInt8) (tx : Transaction) : SignedTransaction :=
  ⟨tx, ⟨.ed25519, signer⟩, ⟨.falcon, []⟩⟩

/-- A transaction signed in the toy scheme, where the signature repeats the key. -/
def toySigned (key : List UInt8) (tx : Transaction) : SignedTransaction :=
  ⟨tx, ⟨.ed25519, key⟩, ⟨.ed25519, key ++ key⟩⟩

theorem unsigned_verifies (K : Primitives) (signer : List UInt8) (tx : Transaction) :
    (unsigned signer tx).verifies K = false := rfl

end Arknet.Consensus
