import Arknet.Chain.CircuitBreaker

/-!
The breaker over whole runs. A boundary in the documented order empties the counters before it judges
them, so that only missing validators can trip it; in the other order an override hides a clean
epoch, and a share has to exceed its threshold by a basis point, or is taken of what is left of the
supply in a narrower word.
-/

namespace Arknet.Laws

open Machine Arknet.Chain Arknet.Chain.CircuitBreakerState

/-! ## Triggers as documented -/

/-- More than the threshold of the epoch's receipts failed verification. -/
def FailureDue (s : CircuitBreakerState) : Prop :=
  s.vfThreshold.val * (s.epochVerified.val + s.epochFailed.val) < 10000 * s.epochFailed.val

/-- More than a fifth of the bonded supply was slashed in the epoch. -/
def SlashDue (s : CircuitBreakerState) : Prop :=
  0 < s.epochBondedSupply.val ∧ 2000 * s.epochBondedSupply.val < 10000 * s.epochSlashed.val

def TriggerDue (s : CircuitBreakerState) (missing : U64) : Prop :=
  FailureDue s ∨ 3 < missing.val ∨ SlashDue s

instance (s : CircuitBreakerState) : Decidable (FailureDue s) := by unfold FailureDue; infer_instance
instance (s : CircuitBreakerState) : Decidable (SlashDue s) := by unfold SlashDue; infer_instance
instance (s : CircuitBreakerState) (missing : U64) : Decidable (TriggerDue s missing) := by
  unfold TriggerDue; infer_instance

/-- A boundary returns and leaves the breaker paused, guardian apart, exactly when a trigger was due for
the epoch that ended. -/
def BoundaryLawful (s : CircuitBreakerState) : BreakerCall → Prop
  | .boundary order bondedSupply epoch missing =>
    ∃ s', BreakerCall.run s (.boundary order bondedSupply epoch missing) = .ok s' ∧
      ((s'.tripped = true ∧ s'.governanceOverride = false) ↔ TriggerDue s missing)
  | _ => True

/-! ## Triggers as computed -/

/-- The products fit, and the supply does not vanish in a 64-bit word. -/
def EvaluateFits (s : CircuitBreakerState) : Prop :=
  (0 < s.epochVerified.val + s.epochFailed.val → 10000 * s.epochFailed.val < 2 ^ 64) ∧
    (s.epochBondedSupply.val = 0 ∨
      (10000 * s.epochSlashed.val < 2 ^ 128 ∧ s.epochBondedSupply.val % 2 ^ 64 ≠ 0))

/-- The failures are at least a basis point above the threshold. -/
def FailureSeen (s : CircuitBreakerState) : Prop :=
  0 < s.epochVerified.val + s.epochFailed.val ∧
    (s.vfThreshold.val + 1) * (s.epochVerified.val + s.epochFailed.val) ≤ 10000 * s.epochFailed.val

/-- The slashed amount is at least 20.01% of the low word of the supply. -/
def SlashSeen (s : CircuitBreakerState) : Prop :=
  0 < s.epochBondedSupply.val ∧
    2001 * (s.epochBondedSupply.val % 2 ^ 64) ≤ 10000 * s.epochSlashed.val

theorem lt_div_iff {a b k : Nat} (hb : 0 < b) : k < a / b ↔ (k + 1) * b ≤ a := by
  rw [← Nat.succ_le_iff, Nat.le_div_iff_mul_le hb]

theorem vfThreshold_pos (s : CircuitBreakerState) : 2000 ≤ s.vfThreshold.val := by
  unfold vfThreshold
  split <;> decide

/-- A total that saturates is out of reach of a product that fits. -/
theorem saturated_total {k total n : Nat} (hk : 2 ≤ k) (htotal : total = min n (2 ^ 64 - 1))
    {scaled : Nat} (hfits : scaled < 2 ^ 64) : k * total ≤ scaled ↔ k * n ≤ scaled := by
  by_cases hn : n ≤ 2 ^ 64 - 1
  · rw [htotal, Nat.min_eq_left hn]
  · have hlow : 2 * total ≤ k * total := Nat.mul_le_mul_right total hk
    have hhigh : 2 * n ≤ k * n := Nat.mul_le_mul_right n hk
    constructor
    · intro h
      omega
    · intro h
      omega

theorem trigger1_eq_ok {s : CircuitBreakerState} {b : Bool} :
    s.trigger1 = .ok b ↔
      (0 < s.epochVerified.val + s.epochFailed.val → 10000 * s.epochFailed.val < 2 ^ 64) ∧
        (b = true ↔ FailureSeen s) := by
  have htotal := satAdd_val s.epochVerified s.epochFailed
  have hthr := vfThreshold_pos s
  have hten : (10000 : U64).val = 10000 := rfl
  unfold trigger1 FailureSeen
  by_cases hpos : satAdd s.epochVerified s.epochFailed > 0
  · have hval : 0 < (satAdd s.epochVerified s.epochFailed).val := hpos
    have hsum : 0 < s.epochVerified.val + s.epochFailed.val := by omega
    have hseen : ∀ rate : U64, 10000 * s.epochFailed.val < 2 ^ 64 →
        rate.val = 10000 * s.epochFailed.val / (satAdd s.epochVerified s.epochFailed).val →
        (rate > s.vfThreshold ↔ (s.vfThreshold.val + 1) *
          (s.epochVerified.val + s.epochFailed.val) ≤ 10000 * s.epochFailed.val) := by
      intro rate hfits hrate
      rw [gt_iff_lt, Fin.lt_def, hrate, lt_div_iff hval]
      exact saturated_total (by omega) htotal hfits
    simp only [if_pos hpos, bind_eq_ok, mul_eq_ok, div_eq_ok, pure_eq_ok, hten,
      Nat.mul_comm s.epochFailed.val, hsum, true_and, forall_const]
    constructor
    · rintro ⟨scaled, hscaled, rate, ⟨-, hrate⟩, rfl⟩
      have hfits : 10000 * s.epochFailed.val < 2 ^ 64 := hscaled ▸ scaled.isLt
      rw [hscaled] at hrate
      exact ⟨hfits, by rw [decide_eq_true_eq, hseen rate hfits hrate]⟩
    · rintro ⟨hfits, hb⟩
      obtain ⟨rate, hrate⟩ := div_isOk (w := 64) ⟨10000 * s.epochFailed.val, hfits⟩ hval.ne'
      have hvalue := (div_eq_ok.mp hrate).2
      refine ⟨⟨_, hfits⟩, rfl, rate, ⟨hval.ne', hvalue⟩, ?_⟩
      rw [Bool.eq_iff_iff, hb, decide_eq_true_eq, hseen rate hfits hvalue]
  · have hzero : s.epochVerified.val + s.epochFailed.val = 0 := by
      have hval : ¬ 0 < (satAdd s.epochVerified s.epochFailed).val := hpos
      omega
    simp only [if_neg hpos, pure_eq_ok, hzero, lt_irrefl, false_implies, false_and, iff_false,
      true_and]
    simp [eq_comm]

theorem trigger3_eq_ok {s : CircuitBreakerState} {b : Bool} :
    s.trigger3 = .ok b ↔
      (s.epochBondedSupply.val = 0 ∨
        (10000 * s.epochSlashed.val < 2 ^ 128 ∧ s.epochBondedSupply.val % 2 ^ 64 ≠ 0)) ∧
        (b = true ↔ SlashSeen s) := by
  have hten : (10000 : U128).val = 10000 := rfl
  have hlow : (asAmount (truncate 64 s.epochBondedSupply.val)).val =
      s.epochBondedSupply.val % 2 ^ 64 := rfl
  unfold trigger3 SlashSeen
  by_cases hpos : s.epochBondedSupply > 0
  · have hval : 0 < s.epochBondedSupply.val := hpos
    have hseen : ∀ share : U128, s.epochBondedSupply.val % 2 ^ 64 ≠ 0 →
        share.val = 10000 * s.epochSlashed.val / (s.epochBondedSupply.val % 2 ^ 64) →
        (share > asAmount SLASH_THRESHOLD_BPS ↔
          2001 * (s.epochBondedSupply.val % 2 ^ 64) ≤ 10000 * s.epochSlashed.val) := by
      intro share hword hshare
      rw [gt_iff_lt, Fin.lt_def, hshare, lt_div_iff (Nat.pos_of_ne_zero hword)]
      rfl
    simp only [if_pos hpos, bind_eq_ok, mul_eq_ok, div_eq_ok, pure_eq_ok, hten, hlow,
      Nat.mul_comm s.epochSlashed.val, hval, hval.ne', true_and, false_or]
    constructor
    · rintro ⟨scaled, hscaled, share, ⟨hword, hshare⟩, rfl⟩
      rw [hscaled] at hshare
      exact ⟨⟨hscaled ▸ scaled.isLt, hword⟩, by rw [decide_eq_true_eq, hseen share hword hshare]⟩
    · rintro ⟨⟨hfits, hword⟩, hb⟩
      obtain ⟨share, hshare⟩ := @div_isOk 128 ⟨10000 * s.epochSlashed.val, hfits⟩
        (asAmount (truncate 64 s.epochBondedSupply.val)) hword
      have hvalue := (div_eq_ok.mp hshare).2
      refine ⟨⟨_, hfits⟩, rfl, share, ⟨hword, hvalue⟩, ?_⟩
      rw [Bool.eq_iff_iff, hb, decide_eq_true_eq, hseen share hword hvalue]
  · have hzero : s.epochBondedSupply.val = 0 := by
      have hval : ¬ 0 < s.epochBondedSupply.val := hpos
      omega
    simp only [if_neg hpos, pure_eq_ok, hzero, lt_irrefl, false_and, iff_false, true_or, true_and]
    simp [eq_comm]

/-! ## Boundaries -/

def TriggerSeen (s : CircuitBreakerState) (missing : U64) : Prop :=
  FailureSeen s ∨ 3 < missing.val ∨ SlashSeen s

/-- An override keeps a tripped breaker from being reset. -/
theorem evaluate_tripped {s s' : CircuitBreakerState} {epoch missing : U64}
    (h : s.evaluate epoch missing = .ok s') :
    EvaluateFits s ∧ s'.governanceOverride = s.governanceOverride ∧
      (s'.tripped = true ↔
        TriggerSeen s missing ∨ (s.tripped = true ∧ s.governanceOverride = true)) := by
  obtain ⟨failure, hfailure, h⟩ := bind_eq_ok.mp h
  obtain ⟨slash, hslash, h⟩ := bind_eq_ok.mp h
  obtain ⟨hfits1, hseen1⟩ := trigger1_eq_ok.mp hfailure
  obtain ⟨hfits3, hseen3⟩ := trigger3_eq_ok.mp hslash
  have hany : (failure || decide (missing > MISSING_VALIDATORS_THRESHOLD) || slash) = true ↔
      TriggerSeen s missing := by
    simp only [TriggerSeen, Bool.or_eq_true, decide_eq_true_eq, hseen1, hseen3, or_assoc]
    rfl
  rw [← hany]
  refine ⟨⟨hfits1, hfits3⟩, ?_⟩
  split at h
  · rename_i hfired
    rw [pure_eq_ok] at h
    subst h
    exact ⟨rfl, by simp [hfired]⟩
  · rename_i hquiet
    split at h
    · rename_i hreset
      rw [pure_eq_ok] at h
      subst h
      simp only [Bool.and_eq_true, Bool.not_eq_true'] at hreset
      exact ⟨rfl, by simp [hquiet, hreset.2]⟩
    · rename_i hkeep
      rw [pure_eq_ok] at h
      subst h
      cases htripped : s.tripped <;> cases hoverride : s.governanceOverride <;> simp_all

theorem evaluate_isOk {s : CircuitBreakerState} (h : EvaluateFits s) (epoch missing : U64) :
    ∃ s', s.evaluate epoch missing = .ok s' := by
  classical
  have hfailure := trigger1_eq_ok.mpr ⟨h.1, (decide_eq_true_iff (p := FailureSeen s))⟩
  have hslash := trigger3_eq_ok.mpr ⟨h.2, (decide_eq_true_iff (p := SlashSeen s))⟩
  unfold evaluate
  rw [hfailure, hslash]
  simp only [ok_bind]
  split
  · exact ⟨_, rfl⟩
  · split <;> exact ⟨_, rfl⟩

/-- The condition under which a boundary does what is documented. -/
def BoundaryFits (s : CircuitBreakerState) : BreakerCall → Prop
  | .boundary .advanceFirst bondedSupply _ missing =>
    (bondedSupply.val = 0 ∨ bondedSupply.val % 2 ^ 64 ≠ 0) ∧
      (FailureDue s ∨ SlashDue s → 3 < missing.val)
  | .boundary .evaluateFirst _ _ missing =>
    EvaluateFits s ∧ (3 < missing.val ∨
      (FailureSeen s ∨ SlashSeen s ∨ (s.tripped = true ∧ s.governanceOverride = true) ↔
        FailureDue s ∨ SlashDue s))
  | _ => True

/-- After the advance there is nothing left to judge but the missing validators. -/
theorem advanceFirst_iff {s : CircuitBreakerState} {bondedSupply : U128} {epoch missing : U64} :
    BoundaryLawful s (.boundary .advanceFirst bondedSupply epoch missing) ↔
      BoundaryFits s (.boundary .advanceFirst bondedSupply epoch missing) := by
  have hfits : EvaluateFits (s.advanceEpoch bondedSupply) ↔
      (bondedSupply.val = 0 ∨ bondedSupply.val % 2 ^ 64 ≠ 0) := by
    simp [EvaluateFits, advanceEpoch]
  have hfailure : ¬ FailureSeen (s.advanceEpoch bondedSupply) := by
    simp [FailureSeen, advanceEpoch]
  have hslash : EvaluateFits (s.advanceEpoch bondedSupply) →
      ¬ SlashSeen (s.advanceEpoch bondedSupply) := by
    rintro hfits' ⟨hpos, hseen⟩
    have hsupply : (s.advanceEpoch bondedSupply).epochBondedSupply = bondedSupply := rfl
    have hslashed : (s.advanceEpoch bondedSupply).epochSlashed.val = 0 := rfl
    rw [hsupply] at hpos hseen
    have hword := hfits.mp hfits'
    omega
  simp only [BoundaryLawful, BoundaryFits, BreakerCall.run]
  rw [← hfits]
  constructor
  · rintro ⟨s', hrun, hlaw⟩
    obtain ⟨hok, hoverride, htripped⟩ := evaluate_tripped hrun
    refine ⟨hok, fun hdue => ?_⟩
    have hfired := hlaw.mpr (hdue.elim .inl (fun h => .inr (.inr h)))
    rcases htripped.mp hfired.1 with (h | h | h) | ⟨-, hoverridden⟩
    · exact absurd h hfailure
    · exact h
    · exact absurd h (hslash hok)
    · cases hoverridden
  · rintro ⟨hok, hmissing⟩
    obtain ⟨s', hrun⟩ := evaluate_isOk hok epoch missing
    obtain ⟨-, hoverride, htripped⟩ := evaluate_tripped hrun
    refine ⟨s', hrun, ?_⟩
    have hnone := hslash hok
    have hcleared : (s.advanceEpoch bondedSupply).governanceOverride = false := rfl
    rw [htripped, hoverride, hcleared]
    simp only [TriggerSeen, TriggerDue]
    simp only [Bool.false_eq_true, and_false, or_false, and_true]
    constructor
    · rintro (h | h | h)
      · exact absurd h hfailure
      · exact .inr (.inl h)
      · exact absurd h hnone
    · rintro (h | h | h)
      · exact .inr (.inl (hmissing (.inl h)))
      · exact .inr (.inl h)
      · exact .inr (.inl (hmissing (.inr h)))

theorem evaluateFirst_iff {s : CircuitBreakerState} {bondedSupply : U128} {epoch missing : U64} :
    BoundaryLawful s (.boundary .evaluateFirst bondedSupply epoch missing) ↔
      BoundaryFits s (.boundary .evaluateFirst bondedSupply epoch missing) := by
  simp only [BoundaryLawful, BoundaryFits, BreakerCall.run, bind_eq_ok, pure_eq_ok]
  constructor
  · rintro ⟨s', ⟨t, hrun, rfl⟩, hlaw⟩
    obtain ⟨hok, -, htripped⟩ := evaluate_tripped hrun
    refine ⟨hok, ?_⟩
    have hcleared : (t.advanceEpoch bondedSupply).governanceOverride = false := rfl
    have hkept : (t.advanceEpoch bondedSupply).tripped = t.tripped := rfl
    rw [hcleared, hkept, htripped] at hlaw
    simp only [TriggerSeen, TriggerDue, and_true] at hlaw
    by_cases hmissing : 3 < missing.val
    · exact .inl hmissing
    · right
      simp only [hmissing, false_or, or_assoc] at hlaw
      exact hlaw
  · rintro ⟨hok, hmatch⟩
    obtain ⟨t, hrun⟩ := evaluate_isOk hok epoch missing
    obtain ⟨-, -, htripped⟩ := evaluate_tripped hrun
    refine ⟨t.advanceEpoch bondedSupply, ⟨t, hrun, rfl⟩, ?_⟩
    have hcleared : (t.advanceEpoch bondedSupply).governanceOverride = false := rfl
    have hkept : (t.advanceEpoch bondedSupply).tripped = t.tripped := rfl
    rw [hcleared, hkept, htripped]
    simp only [TriggerSeen, TriggerDue, and_true]
    rcases hmatch with hmissing | hmatch
    · simp only [hmissing, true_or, or_true]
    · by_cases hmissing : 3 < missing.val
      · simp only [hmissing, true_or, or_true]
      · simp only [hmissing, false_or, or_assoc]
        exact hmatch

theorem boundary_iff (s : CircuitBreakerState) (call : BreakerCall) :
    BoundaryLawful s call ↔ BoundaryFits s call := by
  cases call with
  | boundary order bondedSupply epoch missing =>
    cases order with
    | advanceFirst => exact advanceFirst_iff
    | evaluateFirst => exact evaluateFirst_iff
  | _ => exact Iff.rfl

/-! ## Runs -/

/-- In a run every boundary is as documented exactly when each meets the condition in the state it
finds. -/
theorem breaker_lawful (s : CircuitBreakerState) (calls : List BreakerCall) :
    Each BreakerCall.run BoundaryLawful s calls ↔ Each BreakerCall.run BoundaryFits s calls := by
  induction calls generalizing s with
  | nil => exact Iff.rfl
  | cons call rest ih => simp only [Each, boundary_iff, ih]

/-- An epoch whose only receipt failed leaves the breaker open, in the documented order; a supply of
`2 ^ 64` stops the node; and in the other order an override outlives a clean epoch as a pause. -/
theorem failed_epoch_unnoticed :
    (∃ s s', BreakerCall.run .genesis .recordFailed = .ok s ∧ TriggerDue s 0 ∧
      BreakerCall.run s (.boundary .advanceFirst 0 1 0) = .ok s' ∧ s'.isPaused = false) ∧
    BreakerCall.run .genesis (.boundary .advanceFirst (2 ^ 64) 1 0) = .error .divByZero ∧
    ∃ s s', [BreakerCall.recordFailed, .boundary .evaluateFirst 0 1 0, .governanceForceResume].foldlM
        BreakerCall.run .genesis = .ok s ∧ ¬ TriggerDue s 0 ∧
      BreakerCall.run s (.boundary .evaluateFirst 0 2 0) = .ok s' ∧ s'.isPaused = true := by
  refine ⟨⟨_, _, rfl, ?_, rfl, ?_⟩, rfl, _, _, rfl, ?_, rfl, ?_⟩
  · decide
  · decide
  · decide
  · decide

end Arknet.Laws
