import Mathlib.Algebra.BigOperators.Group.Finset.Basic
import Mathlib.Algebra.Order.BigOperators.Group.Finset
import Arknet.Laws.PendingRewards

/-!
What epoch boundaries mint. Every minted amount is paid out in full, but for the share that is burned,
and a boundary stays within its epoch's budget. A boundary does not know what earlier ones have minted:
over distinct boundaries the cap holds because the schedule's budgets add up to less.
-/

namespace Arknet.Laws

open Machine Store Arknet.Chain Arknet.Payments Arknet.Consensus

/-! ## What one reward is paid -/

/-- One iteration of the mint loop: the reward, what is minted for it, and where that goes. -/
structure Payout where
  reward : PendingReward
  minted : Amount
  split : RewardSplit
  delegated : List (Address × Amount)

namespace Payout

def credits (p : Payout) : List (Address × Amount) :=
  [(p.reward.computeAddr, p.split.compute), (p.reward.verifierAddr, p.split.verifier),
    (p.reward.treasuryAddr, p.split.treasury)] ++ p.delegated

/-- The five shares are those of the minted amount, and every atom is credited or burned. -/
structure Exact (p : Payout) : Prop where
  shares : rewardSplit p.minted = .ok p.split
  delegators : creditSum p.delegated = p.split.delegators.val
  total : creditSum p.credits + p.split.burned.val = p.minted.val

/-- A reward that mints nothing stays. -/
def pay (ctx : BlockCtx) (p : Payout) : BlockCtx :=
  if p.minted = 0 then ctx else (creditAll ctx p.credits).deletePendingReward p.reward.jobId

end Payout

/-- A call of `epoch_boundary_mint` that returned. -/
structure MintCall where
  pre : BlockCtx
  endingEpoch : U64
  height : Height
  post : BlockCtx
  minted : Amount
  ran : epochBoundaryMint pre endingEpoch height = .ok (post, minted)

def MintCall.ofReturned {ctx : BlockCtx} {endingEpoch : U64} {height : Height}
    (h : (epochBoundaryMint ctx endingEpoch height).toOption.isSome = true) : MintCall where
  pre := ctx
  endingEpoch := endingEpoch
  height := height
  post := (returned _ h).1
  minted := (returned _ h).2
  ran := eq_ok_returned h

/-- An epoch boundary before the schedule's shift reaches the width of an amount. -/
def OnSchedule (height : Height) : Prop :=
  isEpochBoundary height = true ∧ (yearForHeight height).val < 524

/-- The sums that the mint forms fit their words. -/
structure MintFits (s : State) (endingEpoch : U64) : Prop where
  tokens : ((s.iterPendingRewardsForEpoch endingEpoch).map (fun pr => pr.outputTokens.val)).sum < 2 ^ 64
  stakes : ∀ v ∈ s.iterValidators, ((delegatorStakes s v.nodeId).map (fun d => d.2.val)).sum < 2 ^ 128

theorem creditSum_append (xs ys : List (Address × Amount)) :
    creditSum (xs ++ ys) = creditSum xs + creditSum ys := by simp [creditSum]

/-- What `payReward` does is one payout. -/
theorem payReward_payout {ctx ctx' : BlockCtx} {pr : PendingReward} {minted : Amount} (hm : minted ≠ 0)
    (h : payReward ctx pr minted = .ok ctx') :
    ∃ p : Payout, p.reward = pr ∧ p.minted = minted ∧ p.Exact ∧ ctx' = p.pay ctx := by
  obtain ⟨split, paid, hsplit, hd, rfl⟩ := payReward_ok h
  obtain ⟨delegated, rfl, hsum⟩ := distributeToDelegators_credits hd
  refine ⟨⟨pr, minted, split, delegated⟩, rfl, rfl, ⟨hsplit, hsum, ?_⟩, ?_⟩
  · have hshares := (rewardSplit_ok hsplit).1
    have hthree : creditSum [(pr.computeAddr, split.compute), (pr.verifierAddr, split.verifier),
        (pr.treasuryAddr, split.treasury)] = split.compute.val + (split.verifier.val +
          (split.treasury.val + 0)) := rfl
    rw [Payout.credits, creditSum_append, hthree, hsum]
    simp only
    omega
  · rw [Payout.pay, if_neg hm, Payout.credits]
    simp only [creditAll, List.foldl_append, List.foldl_cons, List.foldl_nil]

theorem rewardSplit_zero : rewardSplit 0 = .ok ⟨0, 0, 0, 0, 0⟩ := by decide

theorem mintOne_payout {perToken : Amount} {acc acc' : MintAcc} {pr : PendingReward}
    (h : mintOne perToken acc pr = .ok acc') :
    ∃ p : Payout, p.reward = pr ∧ p.Exact ∧ acc'.ctx = p.pay acc.ctx ∧
      (∃ reward, p.minted = (acc.emission.tryMint reward).1 ∧
        acc'.emission = (acc.emission.tryMint reward).2) ∧
      acc'.totalMinted = satAdd acc.totalMinted p.minted := by
  obtain ⟨reward, -, hem, ⟨hz, hctx, htot⟩ | ⟨hnz, hp, htot⟩⟩ := mintOne_ok h
  · refine ⟨⟨pr, 0, ⟨0, 0, 0, 0, 0⟩, []⟩, rfl, ⟨rewardSplit_zero, rfl, rfl⟩, ?_, ⟨reward, hz.symm, hem⟩, ?_⟩
    · rw [hctx]
      exact (if_pos rfl).symm
    · have hzero : (0 : Amount).val = 0 := rfl
      have hlt := acc.totalMinted.isLt
      apply Fin.ext
      rw [htot, satAdd_val]
      simp only [hzero]
      omega
  · obtain ⟨p, hr, hm, hex, hctx⟩ := payReward_payout hnz hp
    exact ⟨p, hr, hex, hctx, ⟨reward, hm, hem⟩, by rw [htot, hm]⟩

/-- The loop: one exact payout for each reward, counted in full and within the budget. -/
theorem mintLoop_payouts {perToken : Amount} {rewards : List PendingReward} {acc acc' : MintAcc}
    (hcount : acc.totalMinted.val = acc.emission.minted.val)
    (hwithin : acc.emission.minted.val ≤ acc.emission.budget.val)
    (h : rewards.foldlM (mintOne perToken) acc = .ok acc') :
    ∃ payouts : List Payout, payouts.map Payout.reward = rewards ∧ (∀ p ∈ payouts, p.Exact) ∧
      acc'.ctx = payouts.foldl (fun ctx p => p.pay ctx) acc.ctx ∧
      acc'.totalMinted.val = acc.totalMinted.val + (payouts.map (fun p => p.minted.val)).sum ∧
      acc'.totalMinted.val ≤ acc.emission.budget.val := by
  induction rewards generalizing acc with
  | nil =>
    simp only [List.foldlM_nil, pure_eq_ok] at h
    subst h
    exact ⟨[], rfl, by simp, rfl, rfl, by omega⟩
  | cons pr rest ih =>
    rw [List.foldlM_cons, bind_eq_ok] at h
    obtain ⟨mid, hmid, hrest⟩ := h
    obtain ⟨p, hr, hex, hctx, ⟨reward, hm, hem⟩, htot⟩ := mintOne_payout hmid
    obtain ⟨hminted, hle, hbudget⟩ := tryMint_within reward hwithin
    rw [← hem] at hminted hle hbudget
    rw [← hm] at hminted
    have hlt := acc.emission.budget.isLt
    have hadd : mid.totalMinted.val = acc.totalMinted.val + p.minted.val := by
      rw [hbudget] at hle
      rw [htot, satAdd_val]
      omega
    obtain ⟨payouts, hrs, hexs, hctxs, htots, hles⟩ := ih (by omega) hle hrest
    refine ⟨p :: payouts, by rw [List.map_cons, hr, hrs], ?_, ?_, ?_, by rw [← hbudget]; exact hles⟩
    · exact List.forall_mem_cons.mpr ⟨hex, hexs⟩
    · rw [hctxs, hctx]
      rfl
    · rw [htots, hadd, List.map_cons, List.sum_cons, Nat.add_assoc]

theorem epochBoundaryMint_payouts {ctx ctx' : BlockCtx} {endingEpoch : U64} {height : Height}
    {budget minted : Amount} (hb : epochBudget (yearForHeight height) = .ok budget)
    (h : epochBoundaryMint ctx endingEpoch height = .ok (ctx', minted)) :
    ∃ payouts : List Payout,
      payouts.map Payout.reward = ctx.state.iterPendingRewardsForEpoch endingEpoch ∧
      (∀ p ∈ payouts, p.Exact) ∧ ctx' = payouts.foldl (fun ctx p => p.pay ctx) ctx ∧
      (payouts.map (fun p => p.minted.val)).sum = minted.val ∧ minted.val ≤ budget.val := by
  have hzero : (0 : Amount).val = 0 := rfl
  rw [epochBoundaryMint_eq] at h
  split at h
  · rename_i hnone
    simp only [pure_eq_ok, Prod.mk.injEq] at h
    obtain ⟨rfl, rfl⟩ := h
    exact ⟨[], hnone.symm, by simp, rfl, rfl, Nat.zero_le _⟩
  · simp only [mintRate, bind_eq_ok, pure_eq_ok, Prod.mk.injEq] at h
    obtain ⟨rate, ⟨tokens, -, budget', hb', perToken, -, rfl⟩, acc, hloop, rfl, rfl⟩ := h
    obtain rfl := Except.ok.inj (hb.symm.trans hb')
    obtain ⟨payouts, hr, hex, hctx, hsum, hle⟩ := mintLoop_payouts rfl (Nat.zero_le _) hloop
    simp only [hzero, Nat.zero_add] at hsum
    exact ⟨payouts, hr, hex, hctx, hsum.symm, hle⟩

/-! ## The budgets of distinct boundaries -/

theorem annualEmissionArk_returns {year : U64} : Returns (annualEmissionArk year) ↔ year.val < 524 := by
  have hlen : ANNUAL_EMISSION_ARK.length = 16 := rfl
  unfold annualEmissionArk
  split
  · exact iff_of_true (returns_pure _) (by omega)
  · rw [returns_shr]
    omega

theorem epochBudget_returns {year : U64} : Returns (epochBudget year) ↔ year.val < 524 := by
  have hepochs : (asAmount EPOCHS_PER_YEAR).val ≠ 0 := by decide
  rw [epochBudget, returns_bind_of (fun annual => div_isOk annual hepochs), annualEmission,
    returns_bind_of (fun ark => returns_pure _), annualEmissionArk_returns]

theorem emitted_eq_sum (n : Nat) : emitted n = ∑ i ∈ Finset.range n, budgetAtoms ((i + 1) / 8760) := by
  induction n with
  | zero => rfl
  | succ n ih => rw [Finset.sum_range_succ, ← ih, emitted]

/-- The budgets of distinct boundaries are among those of all boundaries up to the last one. -/
theorem budgets_le_cap (epochs : List Nat) (hd : epochs.Nodup) (hpos : ∀ k ∈ epochs, 0 < k) :
    (epochs.map (fun k => budgetAtoms (k / 8760))).sum ≤ TOTAL_SUPPLY_CAP.val := by
  have hmono : ∀ n, emitted n ≤ TOTAL_SUPPLY_CAP.val := emitted_le_cap
  have hshift : (epochs.map (fun k => budgetAtoms (k / 8760))).sum =
      ∑ k ∈ epochs.toFinset, budgetAtoms (k / 8760) := (List.sum_toFinset _ hd).symm
  have himage : epochs.toFinset ⊆ (Finset.range (epochs.foldr max 0)).image (· + 1) := by
    intro k hk
    rw [List.mem_toFinset] at hk
    have hle : k ≤ epochs.foldr max 0 := List.le_max_of_le hk (Nat.le_refl k)
    have := hpos k hk
    exact Finset.mem_image.mpr ⟨k - 1, Finset.mem_range.mpr (by omega), by omega⟩
  calc (epochs.map (fun k => budgetAtoms (k / 8760))).sum
      = ∑ k ∈ epochs.toFinset, budgetAtoms (k / 8760) := hshift
    _ ≤ ∑ k ∈ (Finset.range (epochs.foldr max 0)).image (· + 1), budgetAtoms (k / 8760) :=
        Finset.sum_le_sum_of_subset himage
    _ = emitted (epochs.foldr max 0) := by
        rw [emitted_eq_sum, Finset.sum_image (by simp)]
    _ ≤ TOTAL_SUPPLY_CAP.val := hmono _

/-- A boundary height is a positive multiple of the epoch length. -/
theorem epochBoundary_height {height : Height} (h : isEpochBoundary height = true) :
    0 < height.val / 3600 ∧ height.val = height.val / 3600 * 3600 := by
  simp only [isEpochBoundary, Bool.and_eq_true, decide_eq_true_eq] at h
  have hmod : height.val % 3600 = 0 := congrArg Fin.val h.2
  have hpos : height.val ≠ 0 := fun hz => h.1 (Fin.ext hz)
  exact ⟨by omega, by omega⟩

/-! ## A boundary returns -/

/-- A fixed-point multiplier of one. -/
theorem scaled_by_one {r m : Amount} (hr : r.val * 10000 < 2 ^ 128) (hm : m.val = 10000) :
    (mul r m >>= fun x => div x 10000) = .ok r := by
  have hten : (10000 : Amount).val = 10000 := rfl
  rw [← hm] at hr
  have hmul : mul r m = .ok ⟨r.val * m.val, hr⟩ := mul_eq_ok.mpr rfl
  rw [hmul, ok_bind, div_eq_ok]
  refine ⟨by omega, ?_⟩
  simp only [hten, hm]
  omega

/-- Every multiplier of a pending reward is one, so the base reward is tokens at the rate. -/
theorem computeBlockReward_base {outputTokens : U32} {perToken : Amount}
    (h : outputTokens.val * perToken.val < 2 ^ 64) :
    ∃ reward, computeBlockReward outputTokens perToken .text 7 100 100 9500 = .ok reward ∧
      reward.val = outputTokens.val * perToken.val := by
  have hten : (10000 : Amount).val = 10000 := rfl
  have hlat : latencyMult 100 100 = .ok 10000 := rfl
  have hbase : (satMul (widen width32_le_128 outputTokens) perToken).val =
      outputTokens.val * perToken.val := by
    rw [satMul_val, widen_val]
    omega
  have hsize : (asAmount (sizeMult 7)).val = 10000 := rfl
  have hcat : (asAmount ModelCategory.text.mult).val = 10000 := rfl
  have hup : (asAmount (uptimeMult 9500)).val = 10000 := rfl
  have hlatency : (asAmount (10000 : U64)).val = 10000 := rfl
  have hscaled : (satMul (satMul (widen width32_le_128 outputTokens) perToken)
      (asAmount (sizeMult 7))).val = outputTokens.val * perToken.val * 10000 := by
    rw [satMul_val, hbase, hsize]
    omega
  have hfirst : div (satMul (satMul (widen width32_le_128 outputTokens) perToken)
      (asAmount (sizeMult 7))) 10000 = .ok (satMul (widen width32_le_128 outputTokens) perToken) := by
    rw [div_eq_ok, hscaled, hbase, hten]
    omega
  refine ⟨satMul (widen width32_le_128 outputTokens) perToken, ?_, hbase⟩
  have hfit : (satMul (widen width32_le_128 outputTokens) perToken).val * 10000 < 2 ^ 128 := by
    rw [hbase]
    omega
  unfold computeBlockReward
  simp only [hlat, ok_bind, hfirst]
  rw [← bind_assoc, scaled_by_one hfit hcat, ok_bind, ← bind_assoc, scaled_by_one hfit hlatency, ok_bind,
    scaled_by_one hfit hup]

theorem pendingBlockReward_isOk {perToken : Amount} {pr : PendingReward}
    (h : pr.outputTokens.val * perToken.val < 2 ^ 64) :
    ∃ reward, pendingBlockReward perToken pr = .ok reward := by
  have hten : (10000 : Amount).val = 10000 := rfl
  obtain ⟨base, hbase, hval⟩ := computeBlockReward_base h
  have hstacked : pr.teeMultiplierBps.val * pr.httpsMultiplierBps.val < 2 ^ 32 * 2 ^ 32 :=
    Nat.mul_lt_mul'' pr.teeMultiplierBps.isLt pr.httpsMultiplierBps.isLt
  have hwide : (widen width32_le_128 pr.teeMultiplierBps).val *
      (widen width32_le_128 pr.httpsMultiplierBps).val < 2 ^ 128 :=
    Nat.lt_of_lt_of_le hstacked (by decide)
  obtain ⟨mult, hmult⟩ := div_isOk (b := (10000 : Amount)) ⟨_, hwide⟩ (by decide)
  have hsmall : mult.val < 2 ^ 64 := by
    rw [(div_eq_ok.mp hmult).2]
    exact Nat.lt_of_le_of_lt (Nat.div_le_self _ _) hstacked
  have hscaled : base.val * mult.val < 2 ^ 64 * 2 ^ 64 := Nat.mul_lt_mul'' (hval ▸ h) hsmall
  obtain ⟨reward, hreward⟩ := div_isOk (b := (10000 : Amount)) ⟨base.val * mult.val, hscaled⟩ (by decide)
  refine ⟨reward, ?_⟩
  unfold pendingBlockReward
  rw [hbase, ok_bind, mul_eq_ok (c := ⟨_, hwide⟩) |>.mpr rfl, ok_bind, hmult, ok_bind,
    mul_eq_ok (c := ⟨base.val * mult.val, hscaled⟩) |>.mpr rfl, ok_bind, hreward]

theorem percentOf_isOk (total percent : Amount) (h : total.val * percent.val < 2 ^ 128) :
    ∃ share, percentOf total percent = .ok share ∧ share.val = total.val * percent.val / 100 := by
  have hhundred : (100 : Amount).val = 100 := rfl
  obtain ⟨share, hshare⟩ := div_isOk (b := (100 : Amount)) ⟨_, h⟩ (by decide)
  refine ⟨share, ?_, ?_⟩
  · rw [percentOf, mul_eq_ok (c := ⟨_, h⟩) |>.mpr rfl, ok_bind, hshare]
  · rw [(div_eq_ok.mp hshare).2, hhundred]

theorem rewardSplit_isOk (total : Amount) (h : total.val * 80 < 2 ^ 128) :
    ∃ split, rewardSplit total = .ok split := by
  have e80 : (80 : Amount).val = 80 := rfl
  have e7 : (7 : Amount).val = 7 := rfl
  have e3 : (3 : Amount).val = 3 := rfl
  have e5 : (5 : Amount).val = 5 := rfl
  obtain ⟨c, hc, vc⟩ := percentOf_isOk total 80 (by rw [e80]; omega)
  obtain ⟨v, hv, vv⟩ := percentOf_isOk total 7 (by rw [e7]; omega)
  obtain ⟨b, hb, vb⟩ := percentOf_isOk total 3 (by rw [e3]; omega)
  obtain ⟨d, hd, vd⟩ := percentOf_isOk total 5 (by rw [e5]; omega)
  rw [e80] at vc
  rw [e7] at vv
  rw [e3] at vb
  rw [e5] at vd
  have hlt := total.isLt
  have h₁ : sub total c = .ok ⟨total.val - c.val, by omega⟩ := sub_eq_ok.mpr (by simp only; omega)
  have h₂ : sub ⟨total.val - c.val, by omega⟩ v = .ok ⟨total.val - c.val - v.val, by omega⟩ :=
    sub_eq_ok.mpr (by simp only; omega)
  have h₃ : sub ⟨total.val - c.val - v.val, by omega⟩ b =
      .ok ⟨total.val - c.val - v.val - b.val, by omega⟩ := sub_eq_ok.mpr (by simp only; omega)
  have h₄ : sub ⟨total.val - c.val - v.val - b.val, by omega⟩ d =
      .ok ⟨total.val - c.val - v.val - b.val - d.val, by omega⟩ := sub_eq_ok.mpr (by simp only; omega)
  exact ⟨_, by rw [rewardSplit, hc, ok_bind, hv, ok_bind, hb, ok_bind, hd, ok_bind, h₁, ok_bind, h₂,
    ok_bind, h₃, ok_bind, h₄, ok_bind]; rfl⟩

theorem creditShares_isOk {delegatorTotal totalDelegated : Amount} (hT : totalDelegated.val ≠ 0)
    (ctx : BlockCtx) (distributed : Amount) (shares : List (Address × Amount)) :
    ∃ ctx', creditShares delegatorTotal totalDelegated ctx distributed shares = .ok ctx' := by
  fun_induction creditShares delegatorTotal totalDelegated ctx distributed shares with
  | case1 ctx distributed => exact ⟨_, rfl⟩
  | case2 ctx distributed addr stake => exact ⟨_, rfl⟩
  | case3 ctx distributed addr stake rest hrest ih =>
    obtain ⟨share, hshare⟩ := div_isOk (satMul delegatorTotal stake) hT
    obtain ⟨ctx', h⟩ := ih share
    exact ⟨ctx', by rw [hshare, ok_bind, h]⟩

/-- What the delegators of a node hold in all is a word, where a share of them is to be paid out. -/
def DelegatorsFit (s : State) (computeAddr : Address) (delegatorTotal : Nat) : Prop :=
  delegatorTotal ≠ 0 → ∀ v, s.iterValidators.find? (fun v => v.operator = computeAddr) = some v →
    ((delegatorStakes s v.nodeId).map (fun d => d.2.val)).sum < 2 ^ 128

theorem distributeToDelegators_returns {ctx : BlockCtx} {computeAddr : Address} {delegatorTotal : Amount} :
    Returns (distributeToDelegators ctx computeAddr delegatorTotal) ↔
      DelegatorsFit ctx.state computeAddr delegatorTotal.val := by
  unfold distributeToDelegators DelegatorsFit
  split
  · rename_i hzero
    exact iff_of_true (returns_pure _) (fun h => absurd (congrArg Fin.val hzero) h)
  rename_i hne
  have hsome : delegatorTotal.val ≠ 0 := fun h => hne (Fin.ext h)
  cases hfind : ctx.state.iterValidators.find? (fun v => v.operator = computeAddr) with
  | none => exact iff_of_true (returns_pure _) (fun _ _ h => by cases h)
  | some v =>
    dsimp only
    split
    · rename_i hnone
      refine iff_of_true (returns_pure _) (fun _ v' hv' => ?_)
      cases hv'
      rw [hnone]
      exact Nat.two_pow_pos 128
    · have hrest : ∀ totalDelegated, Returns (if totalDelegated = 0 then
          pure (ctx.creditAddress computeAddr delegatorTotal)
        else creditShares delegatorTotal totalDelegated ctx 0 (delegatorStakes ctx.state v.nodeId)) := by
        intro totalDelegated
        split
        · exact returns_pure _
        · rename_i hT
          exact creditShares_isOk (fun h => hT (Fin.ext h)) _ _ _
      rw [returns_bind_of hrest, returns_sum, List.map_map]
      constructor
      · rintro h - v' ⟨⟩
        exact h
      · exact fun h => h hsome v rfl

/-- One after the other, each reward that gives delegators a share finds their stakes to be a word in all. -/
def RewardsFit (s : State) (perToken : Amount) : EpochEmissionState → List PendingReward → Prop
  | _, [] => True
  | emission, pr :: rest => ∀ reward, pendingBlockReward perToken pr = .ok reward →
    DelegatorsFit s pr.computeAddr ((emission.tryMint reward).1.val * 5 / 100) ∧
      RewardsFit s perToken (emission.tryMint reward).2 rest

theorem payReward_returns {ctx : BlockCtx} {pr : PendingReward} {minted : Amount}
    (h : minted.val * 80 < 2 ^ 128) :
    Returns (payReward ctx pr minted) ↔ DelegatorsFit ctx.state pr.computeAddr (minted.val * 5 / 100) := by
  obtain ⟨split, hsplit⟩ := rewardSplit_isOk minted h
  rw [payReward, distributeReward, hsplit, ok_bind, returns_bind_of (fun _ => returns_pure _),
    distributeToDelegators_returns, (rewardSplit_ok hsplit).2.2.2.2]
  simp

/-- At a rate and a budget of the schedule, a reward is paid exactly when its delegators' stakes fit. -/
theorem mintOne_returns {perToken : Amount} {acc : MintAcc} {pr : PendingReward}
    (hrate : pr.outputTokens.val * perToken.val < 2 ^ 64) (hbudget : acc.emission.budget.val < 2 ^ 64) :
    Returns (mintOne perToken acc pr) ↔ ∀ reward, pendingBlockReward perToken pr = .ok reward →
      DelegatorsFit acc.ctx.state pr.computeAddr ((acc.emission.tryMint reward).1.val * 5 / 100) := by
  obtain ⟨reward, hreward⟩ := pendingBlockReward_isOk hrate
  have hminted : (acc.emission.tryMint reward).1.val ≤ acc.emission.budget.val := by
    have hle : (acc.emission.tryMint reward).1.val ≤ acc.emission.remaining.val :=
      Nat.le_trans (show _ ≤ _ from min_le_left (min reward acc.emission.remaining) _)
        (show _ ≤ _ from min_le_right reward acc.emission.remaining)
    exact Nat.le_trans hle (Nat.sub_le _ _)
  simp only [hreward, Except.ok.injEq, forall_eq']
  unfold mintOne
  rw [hreward, ok_bind]
  dsimp only
  split
  · rename_i hzero
    refine iff_of_true (returns_pure _) (fun h => absurd ?_ h)
    rw [hzero]
    rfl
  · rw [returns_bind_of (fun _ => returns_pure _)]
    exact payReward_returns (by omega)

/-- No reward asks for more than the budget, at the rate that the budget buys for all of them. -/
theorem tokens_at_rate {budget perToken : Amount} {tokens : U64} {epoch : U64} {outputTokens : U32}
    (h : perTokenRate ⟨epoch, budget, 0, 0⟩ tokens = .ok perToken) (hle : outputTokens.val ≤ tokens.val) :
    outputTokens.val * perToken.val ≤ budget.val := by
  have hzero : (0 : Amount).val = 0 := rfl
  unfold perTokenRate at h
  split at h
  · simp only [pure_eq_ok] at h
    rw [← h, hzero, Nat.mul_zero]
    exact Nat.zero_le _
  · obtain ⟨-, hv⟩ := div_eq_ok.mp h
    have hrem : (EpochEmissionState.remaining ⟨epoch, budget, 0, 0⟩).val = budget.val := rfl
    have hwide : (asAmount tokens).val = tokens.val := rfl
    rw [hv, hrem, hwide]
    exact Nat.le_trans (Nat.mul_le_mul_right _ hle) (Nat.mul_div_le _ _)

/-- A rate of the schedule: of a budget that is small, at most what that buys for each of these rewards. -/
structure OnRate (perToken : Amount) (emission : EpochEmissionState) (rewards : List PendingReward) : Prop where
  rate : ∀ pr ∈ rewards, pr.outputTokens.val * perToken.val < 2 ^ 64
  budget : emission.budget.val < 2 ^ 64

theorem mintLoop_returns {perToken : Amount} {rewards : List PendingReward} {acc : MintAcc}
    (h : OnRate perToken acc.emission rewards) :
    Returns (rewards.foldlM (mintOne perToken) acc) ↔
      RewardsFit acc.ctx.state perToken acc.emission rewards := by
  induction rewards generalizing acc with
  | nil => exact iff_of_true (returns_pure _) trivial
  | cons pr rest ih =>
    have hone : Returns (mintOne perToken acc pr) ↔ _ := mintOne_returns (h.rate pr List.mem_cons_self) h.budget
    have hrest : ∀ acc', mintOne perToken acc pr = .ok acc' → ∀ reward,
        pendingBlockReward perToken pr = .ok reward → (Returns (rest.foldlM (mintOne perToken) acc') ↔
          RewardsFit acc.ctx.state perToken (acc.emission.tryMint reward).2 rest) := by
      intro acc' hacc' reward hreward
      obtain ⟨reward', hreward', hemission, -⟩ := mintOne_ok hacc'
      obtain rfl := Except.ok.inj (hreward.symm.trans hreward')
      rw [← hemission, ← (mintOne_frame hacc').state]
      refine ih ⟨fun pr' hpr' => h.rate pr' (List.mem_cons_of_mem pr hpr'), ?_⟩
      rw [hemission]
      exact h.budget
    rw [List.foldlM_cons, returns_bind, RewardsFit]
    constructor
    · rintro ⟨acc', hacc', hloop⟩ reward hreward
      exact ⟨hone.mp ⟨acc', hacc'⟩ reward hreward, (hrest acc' hacc' reward hreward).mp hloop⟩
    · intro hfits
      obtain ⟨acc', hacc'⟩ := hone.mpr fun reward hreward => (hfits reward hreward).1
      obtain ⟨reward, hreward, -⟩ := mintOne_ok hacc'
      exact ⟨acc', hacc', (hrest acc' hacc' reward hreward).mpr (hfits reward hreward).2⟩

/-- The tokens of an epoch. -/
def epochTokens (s : State) (ending : U64) : Nat :=
  ((s.iterPendingRewardsForEpoch ending).map (fun pr => pr.outputTokens.val)).sum

theorem mintRate_returns {s : State} {ending : U64} {height : Height} :
    Returns (mintRate s ending height) ↔ epochTokens s ending < 2 ^ 64 ∧ (yearForHeight height).val < 524 := by
  have hrate : ∀ tokens budget, Returns (perTokenRate ⟨epochForHeight height, budget, 0, 0⟩ tokens) := by
    intro tokens budget
    unfold perTokenRate
    split
    · exact returns_pure _
    · rename_i hne
      exact div_isOk _ (fun h => hne (Fin.ext h))
  rw [mintRate, epochTokens, ← epochBudget_returns]
  constructor
  · intro h
    have hsum := returns_sum.mp h.of_bind
    rw [List.map_map] at hsum
    obtain ⟨tokens, -, hbudget⟩ := returns_bind.mp h
    exact ⟨hsum, hbudget.of_bind⟩
  · rintro ⟨htokens, hbudget⟩
    refine Returns.bind (returns_sum.mpr ?_) (fun tokens _ => hbudget.bind fun budget _ => ?_)
    · rw [List.map_map]
      exact htokens
    · exact (hrate tokens budget).bind fun _ _ => returns_pure _

theorem mintRate_onRate {s : State} {ending : U64} {height : Height} {rate : Amount × EpochEmissionState}
    (h : mintRate s ending height = .ok rate) :
    OnRate rate.1 rate.2 (s.iterPendingRewardsForEpoch ending) := by
  simp only [mintRate, bind_eq_ok, pure_eq_ok] at h
  obtain ⟨tokens, htokens, budget, hbudget, perToken, hperToken, rfl⟩ := h
  have hsmall : budget.val < 2 ^ 64 := by
    have hark := annualArk_le (yearForHeight height).val
    rw [epochBudget_val hbudget, budgetAtoms]
    omega
  refine ⟨fun pr hpr => lt_of_le_of_lt (tokens_at_rate hperToken ?_) hsmall, hsmall⟩
  rw [sum_eq_ok.mp htokens, List.map_map]
  exact List.single_le_sum (fun _ _ => Nat.zero_le _) _ (List.mem_map_of_mem hpr)

/-- The bounds of the mint at a height. -/
structure MintBounds (s : State) (ending : U64) (height : Height) : Prop where
  tokens : epochTokens s ending < 2 ^ 64
  year : (yearForHeight height).val < 524
  rewards : ∀ rate, mintRate s ending height = .ok rate →
    RewardsFit s rate.1 rate.2 (s.iterPendingRewardsForEpoch ending)

/-- A boundary that has rewards to pay returns exactly within its bounds. -/
theorem epochBoundaryMint_returns {ctx : BlockCtx} {ending : U64} {height : Height} :
    Returns (epochBoundaryMint ctx ending height) ↔
      (ctx.state.iterPendingRewardsForEpoch ending ≠ [] → MintBounds ctx.state ending height) := by
  rw [epochBoundaryMint_eq]
  split
  · rename_i hnone
    exact iff_of_true (returns_pure _) (fun h => absurd hnone h)
  · rename_i hsome
    have hloop : ∀ rate, mintRate ctx.state ending height = .ok rate →
        (Returns (do
          let acc ← (ctx.state.iterPendingRewardsForEpoch ending).foldlM (mintOne rate.1) ⟨ctx, rate.2, 0⟩
          pure (acc.ctx, acc.totalMinted)) ↔
        RewardsFit ctx.state rate.1 rate.2 (ctx.state.iterPendingRewardsForEpoch ending)) := fun rate hrate =>
      (returns_bind_of fun _ => returns_pure _).trans (mintLoop_returns (mintRate_onRate hrate))
    rw [returns_bind]
    constructor
    · rintro ⟨rate, hrate, h⟩ -
      obtain ⟨htokens, hyear⟩ := mintRate_returns.mp ⟨rate, hrate⟩
      refine ⟨htokens, hyear, fun rate' hrate' => ?_⟩
      obtain rfl := Except.ok.inj (hrate.symm.trans hrate')
      exact (hloop rate hrate).mp h
    · intro h
      have hbounds := h hsome
      obtain ⟨rate, hrate⟩ := mintRate_returns.mpr ⟨hbounds.tokens, hbounds.year⟩
      exact ⟨rate, hrate, (hloop rate hrate).mpr (hbounds.rewards rate hrate)⟩

theorem rewardsFit_of_stakes {s : State} {perToken : Amount} {rewards : List PendingReward}
    (h : ∀ v ∈ s.iterValidators, ((delegatorStakes s v.nodeId).map (fun d => d.2.val)).sum < 2 ^ 128)
    (emission : EpochEmissionState) : RewardsFit s perToken emission rewards := by
  induction rewards generalizing emission with
  | nil => trivial
  | cons pr rest ih => exact fun reward _ => ⟨fun _ v hv => h v (List.mem_of_find?_eq_some hv), ih _⟩

/-- On the schedule, a boundary returns when the sums it forms fit their words. -/
theorem epochBoundaryMint_isOk {ctx : BlockCtx} {endingEpoch : U64} {height : Height}
    (hyear : (yearForHeight height).val < 524) (hfits : MintFits ctx.state endingEpoch) :
    ∃ out, epochBoundaryMint ctx endingEpoch height = .ok out :=
  epochBoundaryMint_returns.mpr fun _ => ⟨hfits.tokens, hyear, fun _ _ => rewardsFit_of_stakes hfits.stakes _⟩

/-! ## The bound -/

/-- Every call of the mint at a boundary of the schedule pays each pending reward out exactly and
stays within the epoch's budget; calls at distinct boundaries stay within the supply cap together. -/
theorem emission_bound (calls : List MintCall) (hs : ∀ c ∈ calls, OnSchedule c.height)
    (hd : (calls.map MintCall.height).Nodup) :
    (∀ c ∈ calls, ∃ budget, epochBudget (yearForHeight c.height) = .ok budget ∧
      ∃ payouts : List Payout,
        payouts.map Payout.reward = c.pre.state.iterPendingRewardsForEpoch c.endingEpoch ∧
        (∀ p ∈ payouts, p.Exact) ∧ c.post = payouts.foldl (fun ctx p => p.pay ctx) c.pre ∧
        (payouts.map (fun p => p.minted.val)).sum = c.minted.val ∧ c.minted.val ≤ budget.val) ∧
    (calls.map (fun c => c.minted.val)).sum ≤ TOTAL_SUPPLY_CAP.val ∧
    ∀ ctx endingEpoch height, OnSchedule height → MintFits ctx.state endingEpoch →
      ∃ out, epochBoundaryMint ctx endingEpoch height = .ok out := by
  refine ⟨fun c hc => ?_, ?_, fun ctx ending height hon hfits => epochBoundaryMint_isOk hon.2 hfits⟩
  · obtain ⟨budget, hb⟩ := epochBudget_returns.mpr (hs c hc).2
    exact ⟨budget, hb, epochBoundaryMint_payouts hb c.ran⟩
  · have hle : ∀ c ∈ calls, c.minted.val ≤ budgetAtoms (c.height.val / 3600 / 8760) := by
      intro c hc
      obtain ⟨budget, hb⟩ := epochBudget_returns.mpr (hs c hc).2
      obtain ⟨-, -, -, -, -, hm⟩ := epochBoundaryMint_payouts hb c.ran
      rwa [epochBudget_val hb, yearForHeight_val] at hm
    have hepochs : (calls.map (fun c => c.height.val / 3600)).Nodup := by
      refine List.Nodup.of_map (fun k => k * 3600) ?_
      have heq : (calls.map (fun c => c.height.val / 3600)).map (fun k => k * 3600) =
          (calls.map MintCall.height).map Fin.val := by
        rw [List.map_map, List.map_map]
        exact List.map_congr_left fun c hc => (epochBoundary_height (hs c hc).1).2.symm
      rw [heq]
      exact hd.map Fin.val_injective
    calc (calls.map (fun c => c.minted.val)).sum
        ≤ (calls.map (fun c => budgetAtoms (c.height.val / 3600 / 8760))).sum := List.sum_le_sum hle
      _ = ((calls.map (fun c => c.height.val / 3600)).map (fun k => budgetAtoms (k / 8760))).sum := by
          rw [List.map_map]
          rfl
      _ ≤ TOTAL_SUPPLY_CAP.val := by
          refine budgets_le_cap _ hepochs fun k hk => ?_
          obtain ⟨c, hc, rfl⟩ := List.mem_map.mp hk
          exact (epochBoundary_height (hs c hc).1).1

set_option maxRecDepth 2000 in
theorem firstMint_returns :
    (epochBoundaryMint freeState.beginBlock 0 3600).toOption.isSome = true := by decide

/-- The mint of the first boundary, with the reward of one free-tier receipt waiting. -/
def firstMint : MintCall := .ofReturned firstMint_returns

set_option maxRecDepth 2000 in
theorem emission_bound_first : 0 < firstMint.minted.val ∧ ∃ budget, ∃ payouts : List Payout,
    epochBudget 0 = .ok budget ∧
    payouts.map Payout.reward = firstMint.pre.state.iterPendingRewardsForEpoch 0 ∧
    (∀ p ∈ payouts, p.Exact) ∧ firstMint.post = payouts.foldl (fun ctx p => p.pay ctx) firstMint.pre ∧
    (payouts.map (fun p => p.minted.val)).sum = firstMint.minted.val ∧
    firstMint.minted.val ≤ budget.val := by
  have hon : ∀ c ∈ [firstMint], OnSchedule c.height := by
    intro c hc
    rw [List.mem_singleton.mp hc]
    exact ⟨by decide, by decide⟩
  obtain ⟨budget, hb, payouts, hpaid⟩ :=
    (emission_bound [firstMint] hon (List.nodup_singleton _)).1 firstMint (List.mem_singleton_self _)
  exact ⟨by decide, budget, payouts, hb, hpaid⟩

end Arknet.Laws
