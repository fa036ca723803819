import Arknet.Consensus.Engine

/-!
One step of the base-fee rule. The fee falls by an eighth at most, and it grows with the gas used; upwards
the step is unbounded in the ratio of used to target gas, which the genesis checks do not limit to two
(`base_fee_step`).
-/

namespace Arknet.Laws

open Machine Arknet.Chain Arknet.Consensus

/-! ## The rule in natural numbers -/

section

variable (parent used target : Nat)

/-- The largest step the rule documents. -/
def maxChange : Nat := max (parent / 8) 1

/-- What a block above the target adds, before its minimum of one. -/
def rise : Nat := min (parent * (used - target)) (2 ^ 128 - 1) / target / 8

/-- What a block below the target takes off. -/
def fall : Nat := min (parent * (target - used)) (2 ^ 128 - 1) / target / 8

/-- The fee after the block. -/
def feeAfter : Nat :=
  if target < used then min (parent + max (rise parent used target) 1) (2 ^ 128 - 1)
  else max (parent - fall parent used target) 1

end

theorem nextBaseFee_val (parent : Amount) (used : Gas) {target : Gas} (ht : target ≠ 0) :
    ∃ fee, nextBaseFee parent used target = some fee ∧ fee.val = feeAfter parent used target := by
  have hparent := parent.isLt
  have hone : MIN_BASE_FEE.val = 1 := rfl
  have height : BASE_FEE_MAX_CHANGE_DENOM.val = 8 := rfl
  simp only [nextBaseFee, ht, ↓reduceIte, Fin.ext_iff, asAmount_val, Fin.lt_def]
  by_cases heq : used.val = target.val
  · rw [if_pos heq]
    refine ⟨_, rfl, ?_⟩
    rw [feeAfter, if_neg (by omega), fall, heq, Nat.sub_self, Nat.mul_zero, Nat.zero_min, Nat.zero_div,
      Nat.zero_div, Nat.sub_zero]
    rfl
  · rw [if_neg heq]
    by_cases hlt : target.val < used.val
    · rw [if_pos hlt]
      refine ⟨_, rfl, ?_⟩
      have hsub : (asAmount used - asAmount target).val = used.val - target.val :=
        Fin.sub_val_of_le (Nat.le_of_lt hlt)
      rw [feeAfter, if_pos hlt, Fin.coe_max, satAdd_val, Fin.coe_max, Fin.div_val, Fin.div_val, satMul_val,
        hsub, hone, height, asAmount_val, rise]
      show max (min (_ + max _ 1) _) 1 = _
      omega
    · rw [if_neg hlt]
      refine ⟨_, rfl, ?_⟩
      have hsub : (asAmount target - asAmount used).val = target.val - used.val :=
        Fin.sub_val_of_le (Nat.le_of_not_lt hlt)
      rw [feeAfter, if_neg hlt, Fin.coe_max, satSub_val, Fin.div_val, Fin.div_val, satMul_val, hsub, hone,
        height, asAmount_val, fall]

/-! ## Size and direction of a step -/

section

variable {parent used target : Nat}

theorem one_le_feeAfter (parent used target : Nat) : 1 ≤ feeAfter parent used target := by
  unfold feeAfter
  split <;> omega

theorem fall_le (parent used target : Nat) : fall parent used target ≤ parent / 8 := by
  unfold fall
  apply Nat.div_le_div_right
  calc min (parent * (target - used)) (2 ^ 128 - 1) / target
      ≤ parent * (target - used) / target := Nat.div_le_div_right (Nat.min_le_left _ _)
    _ ≤ parent * target / target := Nat.div_le_div_right (Nat.mul_le_mul_left _ (Nat.sub_le _ _))
    _ ≤ parent := Nat.div_le_of_le_mul (by rw [Nat.mul_comm])

/-- Downwards the step keeps its bound. -/
theorem feeAfter_below (hle : used ≤ target) : feeAfter parent used target ≤ max parent 1 ∧
    parent ≤ feeAfter parent used target + maxChange parent := by
  have hfall := fall_le parent used target
  rw [feeAfter, if_neg (not_lt.mpr hle), maxChange]
  omega

theorem rise_mono {more : Nat} (hle : used ≤ more) :
    rise parent used target ≤ rise parent more target := by
  unfold rise
  apply Nat.div_le_div_right
  apply Nat.div_le_div_right
  apply min_le_min_right
  exact Nat.mul_le_mul_left _ (by omega)

theorem fall_anti {more : Nat} (hle : used ≤ more) :
    fall parent more target ≤ fall parent used target := by
  unfold fall
  apply Nat.div_le_div_right
  apply Nat.div_le_div_right
  apply min_le_min_right
  exact Nat.mul_le_mul_left _ (by omega)

/-- More gas, no lower fee: the two branches meet at the target. -/
theorem feeAfter_mono {more : Nat} (hparent : parent < 2 ^ 128) (hle : used ≤ more) :
    feeAfter parent used target ≤ feeAfter parent more target := by
  have hrise : rise parent used target ≤ rise parent more target := rise_mono hle
  have hfall : fall parent more target ≤ fall parent used target := fall_anti hle
  unfold feeAfter
  by_cases hused : target < used
  · rw [if_pos hused, if_pos (by omega)]
    omega
  · by_cases hmore : target < more
    · rw [if_neg hused, if_pos hmore]
      omega
    · rw [if_neg hused, if_neg hmore]
      omega

/-- The excess over the target stays within another target, or rounding or the top of the type hides the
rest of it. -/
def Gentle (parent used target : Nat) : Prop :=
  used ≤ 2 * target ∨
    min (parent * (used - target)) (2 ^ 128 - 1) < (maxChange parent + 1) * (8 * target) ∨
    2 ^ 128 - 1 ≤ parent + maxChange parent

theorem rise_le_iff (ht : 0 < target) :
    rise parent used target ≤ maxChange parent ↔
      min (parent * (used - target)) (2 ^ 128 - 1) < (maxChange parent + 1) * (8 * target) := by
  rw [rise, Nat.div_div_eq_div_mul, ← Nat.lt_succ_iff, Nat.div_lt_iff_lt_mul (by omega),
    Nat.mul_comm target 8]

theorem rise_le_of_le (hle : used ≤ 2 * target) : rise parent used target ≤ parent / 8 := by
  unfold rise
  apply Nat.div_le_div_right
  calc min (parent * (used - target)) (2 ^ 128 - 1) / target
      ≤ parent * (used - target) / target := Nat.div_le_div_right (Nat.min_le_left _ _)
    _ ≤ parent * target / target := Nat.div_le_div_right (Nat.mul_le_mul_left _ (by omega))
    _ ≤ parent := Nat.div_le_of_le_mul (by rw [Nat.mul_comm])

/-- Upwards the step keeps its bound exactly when it is gentle. -/
theorem feeAfter_above_iff (ht : 0 < target) (hparent : parent < 2 ^ 128) (hlt : target < used) :
    feeAfter parent used target ≤ parent + maxChange parent ↔ Gentle parent used target := by
  have hone : 1 ≤ maxChange parent := Nat.le_max_right _ _
  rw [feeAfter, if_pos hlt, Gentle, ← rise_le_iff ht]
  constructor
  · intro h
    omega
  · rintro (hle | hle | hle)
    · have hrise : rise parent used target ≤ parent / 8 := rise_le_of_le hle
      have hmax : parent / 8 ≤ maxChange parent := Nat.le_max_left _ _
      omega
    · omega
    · omega

/-- Beyond twice the target some parent fee steps too far. -/
theorem exists_steep (hlt : 2 * target < used) (hused : used < 2 ^ 64) :
    ∃ parent, parent < 2 ^ 128 ∧ ¬ Gentle parent used target := by
  have hfloor := Nat.div_add_mod target 8
  have hmod := Nat.mod_lt target (show 0 < 8 by omega)
  obtain ⟨q, hq⟩ : ∃ q, q = target / 8 + 1 := ⟨_, rfl⟩
  have hchange : maxChange (8 * q + 7) = q := by
    unfold maxChange
    omega
  refine ⟨8 * q + 7, by omega, ?_⟩
  have hsmall : (q + 1) * (8 * target) ≤ 2 ^ 128 - 1 := by
    calc (q + 1) * (8 * target) ≤ 2 ^ 61 * (8 * 2 ^ 63) := by
          apply Nat.mul_le_mul <;> omega
      _ ≤ 2 ^ 128 - 1 := by norm_num
  have hbig : (q + 1) * (8 * target) ≤ (8 * q + 7) * (used - target) := by
    calc (q + 1) * (8 * target) = 8 * q * target + 8 * target := by ring
      _ ≤ 8 * q * target + 7 * target + (8 * q + 7) := by omega
      _ = (8 * q + 7) * (target + 1) := by ring
      _ ≤ (8 * q + 7) * (used - target) := Nat.mul_le_mul_left _ (by omega)
  rw [Gentle, hchange]
  rintro (hle | hle | hle)
  · omega
  · omega
  · omega

end

/-! ## The step of the code -/

/-- The fee is at least the minimum, no more gas gives a lower one, and it is close to the parent's. -/
structure LawfulStep (parent : Amount) (used target : Gas) (fee : Amount) : Prop where
  least : MIN_BASE_FEE ≤ fee
  monotone : ∀ more fee', used ≤ more → nextBaseFee parent more target = some fee' → fee ≤ fee'
  rises : fee.val ≤ parent.val + max (parent.val / BASE_FEE_MAX_CHANGE_DENOM.val) 1
  falls : parent.val ≤ fee.val + max (parent.val / BASE_FEE_MAX_CHANGE_DENOM.val) 1

theorem lawfulStep_iff (parent : Amount) (used : Gas) {target : Gas} (ht : target ≠ 0) :
    (∃ fee, nextBaseFee parent used target = some fee ∧ LawfulStep parent used target fee) ↔
      Gentle parent used target := by
  have hpos : 0 < target.val := Nat.pos_of_ne_zero (fun h => ht (Fin.ext h))
  obtain ⟨fee, hfee, hval⟩ := nextBaseFee_val parent used ht
  rw [hfee]
  have hmono : ∀ more fee', used ≤ more → nextBaseFee parent more target = some fee' → fee ≤ fee' := by
    intro more fee' hle hfee'
    obtain ⟨fee'', hfee'', hval''⟩ := nextBaseFee_val parent more ht
    rw [hfee'] at hfee''
    obtain rfl := Option.some.inj hfee''
    rw [Fin.le_def, hval, hval'']
    exact feeAfter_mono parent.isLt hle
  have hleast : MIN_BASE_FEE ≤ fee := by
    rw [Fin.le_def, hval]
    exact one_le_feeAfter _ _ _
  by_cases hlt : target < used
  · rw [← feeAfter_above_iff hpos parent.isLt hlt, ← hval]
    constructor
    · rintro ⟨fee', hsome, hlaw⟩
      obtain rfl := Option.some.inj hsome
      exact hlaw.rises
    · intro h
      refine ⟨fee, rfl, hleast, hmono, h, ?_⟩
      have hparent := parent.isLt
      have habove : parent.val ≤ fee.val := by
        rw [hval, feeAfter, if_pos (Fin.lt_def.mp hlt)]
        omega
      exact Nat.le_trans habove (Nat.le_add_right _ _)
  · have hle : used.val ≤ target.val := Nat.le_of_not_lt hlt
    have hbelow : feeAfter parent.val used.val target.val ≤ max parent.val 1 ∧
        parent.val ≤ feeAfter parent.val used.val target.val + maxChange parent.val := feeAfter_below hle
    obtain ⟨hrises, hfalls⟩ := hbelow
    rw [← hval] at hrises hfalls
    constructor
    · intro _
      exact .inl (by omega)
    · intro _
      refine ⟨fee, rfl, hleast, hmono, ?_, hfalls⟩
      omega

/-- A step keeps the rule's bounds exactly when it is gentle; under the gas limit of a genesis file every
step does exactly when the limit is at most twice the target. -/
theorem base_fee_step {target : Gas} (ht : target ≠ 0) :
    (∀ parent used,
      (∃ fee, nextBaseFee parent used target = some fee ∧ LawfulStep parent used target fee) ↔
        Gentle parent used target) ∧
    ∀ genesis, validateGenesis genesis = .ok () →
      ((∀ parent used, used ≤ genesis.params.gasLimit →
        ∃ fee, nextBaseFee parent used target = some fee ∧ LawfulStep parent used target fee) ↔
          genesis.params.gasLimit.val ≤ 2 * target.val) := by
  refine ⟨fun parent used => lawfulStep_iff parent used ht, fun genesis _ => ?_⟩
  simp only [lawfulStep_iff _ _ ht]
  constructor
  · intro hall
    by_contra hlt
    rw [not_le] at hlt
    obtain ⟨parent, hparent, hsteep⟩ := exists_steep hlt genesis.params.gasLimit.isLt
    exact hsteep (hall ⟨parent, hparent⟩ _ le_rfl)
  · intro hle parent used hused
    exact .inl (Nat.le_trans hused hle)

/-- With the default parameters a full block keeps the bounds. -/
theorem base_fee_step_default : ∃ fee, nextBaseFee 1000000000 30000000 15000000 = some fee ∧
    LawfulStep 1000000000 30000000 15000000 fee :=
  ((base_fee_step (by decide)).2 toyGenesis rfl).mpr (by decide) 1000000000 _ le_rfl

/-- A genesis file whose gas limit is three times its target. -/
def wideGenesis : GenesisConfig := { toyGenesis with params := ⟨1000000000, 15000000, 45000000⟩ }

/-- A full block of it raises the fee by a quarter. -/
theorem full_block_overshoots : validateGenesis wideGenesis = .ok () ∧
    nextBaseFee wideGenesis.params.baseFeeAmount wideGenesis.params.gasLimit wideGenesis.params.gasTarget =
      some 1250000000 ∧
    ¬ ∃ fee, nextBaseFee wideGenesis.params.baseFeeAmount wideGenesis.params.gasLimit
        wideGenesis.params.gasTarget = some fee ∧
      LawfulStep wideGenesis.params.baseFeeAmount wideGenesis.params.gasLimit
        wideGenesis.params.gasTarget fee := by
  have hstep : nextBaseFee wideGenesis.params.baseFeeAmount wideGenesis.params.gasLimit
      wideGenesis.params.gasTarget = some 1250000000 := by decide
  refine ⟨rfl, hstep, ?_⟩
  rintro ⟨fee, hfee, hlaw⟩
  rw [hstep] at hfee
  obtain rfl := Option.some.inj hfee
  exact absurd hlaw.rises (by decide)

end Arknet.Laws
