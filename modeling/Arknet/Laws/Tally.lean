import Arknet.Consensus.Commit

/-!
The tally against the exact rational rule. The basis-point floors lose nothing, since every threshold is
a whole number of basis points; the code differs from the rule of the three percentages only where every
vote abstains (`tally_exact`).
-/

namespace Arknet.Laws

open Machine Arknet.Chain Arknet.Payments Arknet.Governance Arknet.Consensus

/-! ## Votes and their weights -/

/-- The tally of a list of weighted votes. -/
def castVotes (votes : List (VoteChoice × Amount)) : Tally :=
  votes.foldl (fun tally v => tally.addVote v.1 v.2) .default

/-- The weight of the votes that `p` picks. -/
def weightOf (p : VoteChoice → Bool) (votes : List (VoteChoice × Amount)) : Nat :=
  ((votes.filter (fun v => p v.1)).map (fun v => v.2.val)).sum

def totalWeight (votes : List (VoteChoice × Amount)) : Nat := weightOf (fun _ => true) votes

/-- The tally of the commit path is of this kind. -/
theorem tallyVotes_eq_castVotes (ctx : BlockCtx) (id : U64) : tallyVotes ctx id =
    castVotes ((ctx.state.iterVotesForProposal id).map (fun v => (v.2, (ctx.account v.1).balance))) := by
  rw [castVotes, List.foldl_map]
  rfl

/-- Half of the bonded stake, a third of the votes for a veto, two thirds of the rest for a pass, each
percentage as it is written. -/
def exactOutcome (votes : List (VoteChoice × Amount)) (bonded : Amount) : TallyOutcome :=
  let total : ℚ := totalWeight votes
  let veto : ℚ := weightOf (· = .noWithVeto) votes
  let yes : ℚ := weightOf (· = .yes) votes
  let nonAbstain : ℚ := weightOf (· ≠ .abstain) votes
  if bonded.val = 0 ∨ total < 50 / 100 * (bonded.val : ℚ) then .rejected
  else if 33 / 100 * total ≤ veto then .rejectedWithVeto
  else if 66 / 100 * nonAbstain ≤ yes then .passed
  else .rejected

/-! ## The sums -/

section

variable {votes : List (VoteChoice × Amount)} {p q : VoteChoice → Bool}

theorem weightOf_cons (p : VoteChoice → Bool) (v : VoteChoice × Amount) (votes : List (VoteChoice × Amount)) :
    weightOf p (v :: votes) = (if p v.1 then v.2.val else 0) + weightOf p votes := by
  unfold weightOf
  rw [List.filter_cons]
  split
  · rw [List.map_cons, List.sum_cons]
  · rw [Nat.zero_add]

theorem weightOf_perm {votes' : List (VoteChoice × Amount)} (h : votes'.Perm votes) :
    weightOf p votes' = weightOf p votes :=
  ((h.filter _).map _).sum_eq

/-- Disjoint choices add up. -/
theorem weightOf_or (hd : ∀ c, ¬ (p c = true ∧ q c = true)) :
    weightOf (fun c => p c || q c) votes = weightOf p votes + weightOf q votes := by
  induction votes with
  | nil => rfl
  | cons v votes ih =>
    have hv := hd v.1
    simp only [weightOf_cons, ih]
    cases hp : p v.1 <;> cases hq : q v.1
    · simp
    · simp
      omega
    · simp
      omega
    · exact absurd ⟨hp, hq⟩ hv

theorem nonAbstain_eq (votes : List (VoteChoice × Amount)) : weightOf (· ≠ .abstain) votes =
    weightOf (· = .yes) votes + weightOf (· = .no) votes + weightOf (· = .noWithVeto) votes := by
  rw [← weightOf_or (by intro c; cases c <;> simp), ← weightOf_or (by intro c; cases c <;> simp)]
  congr 1
  funext c
  cases c <;> rfl

theorem totalWeight_eq (votes : List (VoteChoice × Amount)) :
    totalWeight votes = weightOf (· ≠ .abstain) votes + weightOf (· = .abstain) votes := by
  rw [← weightOf_or (by intro c; cases c <;> simp), totalWeight]
  congr 1
  funext c
  cases c <;> rfl

end

/-- The four buckets hold what was cast, as long as it fits. -/
structure Holds (tally : Tally) (votes : List (VoteChoice × Amount)) : Prop where
  yes : tally.yes.val = weightOf (· = .yes) votes
  no : tally.no.val = weightOf (· = .no) votes
  abstain : tally.abstain.val = weightOf (· = .abstain) votes
  noWithVeto : tally.noWithVeto.val = weightOf (· = .noWithVeto) votes

theorem weightOf_append (p : VoteChoice → Bool) (xs ys : List (VoteChoice × Amount)) :
    weightOf p (xs ++ ys) = weightOf p xs + weightOf p ys := by
  simp [weightOf]

theorem weightOf_snoc (p : VoteChoice → Bool) (votes : List (VoteChoice × Amount)) (choice : VoteChoice)
    (weight : Amount) : weightOf p (votes ++ [(choice, weight)]) =
      weightOf p votes + if p choice then weight.val else 0 := by
  rw [weightOf_append, weightOf_cons]
  rfl

/-- One more vote. -/
theorem Holds.addVote {tally : Tally} {votes : List (VoteChoice × Amount)} {v : VoteChoice × Amount}
    (h : Holds tally votes) (hfit : totalWeight (votes ++ [v]) < 2 ^ 128) :
    Holds (tally.addVote v.1 v.2) (votes ++ [v]) := by
  obtain ⟨choice, weight⟩ := v
  rw [totalWeight_eq, nonAbstain_eq] at hfit
  have hyes := h.yes
  have hno := h.no
  have habstain := h.abstain
  have hveto := h.noWithVeto
  cases choice <;>
    constructor <;>
      simp only [Tally.addVote, weightOf_append, weightOf_cons, satAdd_val] at hfit ⊢ <;>
        simp [weightOf] at hfit hyes hno habstain hveto ⊢ <;>
          omega

theorem castVotes_holds {votes : List (VoteChoice × Amount)} (hfit : totalWeight votes < 2 ^ 128) :
    Holds (castVotes votes) votes := by
  induction votes using List.reverseRecOn with
  | nil => exact ⟨rfl, rfl, rfl, rfl⟩
  | append_singleton votes v ih =>
    have hle : totalWeight votes < 2 ^ 128 := by
      rw [totalWeight, weightOf_append] at hfit
      exact Nat.lt_of_le_of_lt (Nat.le_add_right _ _) hfit
    rw [castVotes, List.foldl_append]
    exact (ih hle).addVote hfit

/-! ## The thresholds -/

/-- A share in basis points, rounded down, reaches a whole number of them exactly when the share does. -/
theorem bpsOf_reaches (part whole : Amount) (hpart : part.val * 10000 < 2 ^ 128) (hwhole : whole.val ≠ 0) :
    ∃ bps, bpsOf part whole = .ok bps ∧
      ∀ least : Amount, least ≤ bps ↔ least.val * whole.val ≤ part.val * 10000 := by
  have hscaled : mul part 10000 = .ok ⟨part.val * 10000, hpart⟩ := mul_eq_ok.mpr rfl
  obtain ⟨bps, hbps⟩ := div_isOk ⟨part.val * 10000, hpart⟩ hwhole
  refine ⟨bps, ?_, ?_⟩
  · rw [bpsOf, hscaled, ok_bind, hbps]
  · intro least
    rw [Fin.le_def, (div_eq_ok.mp hbps).2, Nat.le_div_iff_mul_le (Nat.pos_of_ne_zero hwhole)]

theorem below_half_iff (total bonded : Nat) :
    (total : ℚ) < 50 / 100 * (bonded : ℚ) ↔ total * 10000 < 5000 * bonded := by
  rw [div_mul_eq_mul_div, lt_div_iff₀ (by norm_num)]
  norm_cast
  omega

theorem veto_third_iff (total veto : Nat) :
    33 / 100 * (total : ℚ) ≤ (veto : ℚ) ↔ 3300 * total ≤ veto * 10000 := by
  rw [div_mul_eq_mul_div, div_le_iff₀ (by norm_num)]
  norm_cast
  omega

theorem two_thirds_iff (nonAbstain yes : Nat) :
    66 / 100 * (nonAbstain : ℚ) ≤ (yes : ℚ) ↔ 6600 * nonAbstain ≤ yes * 10000 := by
  rw [div_mul_eq_mul_div, div_le_iff₀ (by norm_num)]
  norm_cast
  omega

/-- The rule the code follows: nothing passes when nobody says yes or no. -/
def tallyRule (votes : List (VoteChoice × Amount)) (bonded : Amount) : TallyOutcome :=
  if weightOf (· ≠ .abstain) votes = 0 then .rejected else exactOutcome votes bonded

/-- The rule in whole numbers. -/
theorem tallyRule_eq (votes : List (VoteChoice × Amount)) (bonded : Amount) : tallyRule votes bonded =
    if weightOf (· ≠ .abstain) votes = 0 then .rejected
    else if bonded.val = 0 ∨ totalWeight votes * 10000 < 5000 * bonded.val then .rejected
    else if 3300 * totalWeight votes ≤ weightOf (· = .noWithVeto) votes * 10000 then .rejectedWithVeto
    else if 6600 * weightOf (· ≠ .abstain) votes ≤ weightOf (· = .yes) votes * 10000 then .passed
    else .rejected := by
  unfold tallyRule exactOutcome
  simp only [below_half_iff, veto_third_iff, two_thirds_iff]

section

variable {tally : Tally} {votes : List (VoteChoice × Amount)}

theorem Holds.total (h : Holds tally votes) (hfit : totalWeight votes < 2 ^ 128) :
    tally.total.val = totalWeight votes := by
  rw [totalWeight_eq, nonAbstain_eq] at hfit ⊢
  simp only [Tally.total, satAdd_val, h.yes, h.no, h.abstain, h.noWithVeto]
  omega

theorem Holds.nonAbstain (h : Holds tally votes) (hfit : totalWeight votes < 2 ^ 128) :
    tally.nonAbstain.val = weightOf (· ≠ .abstain) votes := by
  rw [totalWeight_eq, nonAbstain_eq] at hfit
  rw [nonAbstain_eq]
  simp only [Tally.nonAbstain, satAdd_val, h.yes, h.no, h.noWithVeto]
  omega

/-- The verdict is the rule's, and no product overflows. -/
theorem Holds.evaluate (h : Holds tally votes) (hcap : totalWeight votes ≤ TOTAL_SUPPLY_CAP.val)
    (bonded : Amount) : tally.evaluate bonded = .ok (tallyRule votes bonded) := by
  have hcapval : TOTAL_SUPPLY_CAP.val = 1000000000000000000 := rfl
  have hfit : totalWeight votes < 2 ^ 128 := by omega
  have htotal := h.total hfit
  have hnonAbstain := h.nonAbstain hfit
  have hsplit := totalWeight_eq votes
  have hchoices := nonAbstain_eq votes
  rw [tallyRule_eq, Tally.evaluate]
  by_cases hnone : bonded = 0 ∨ tally.total = 0
  · rw [if_pos hnone]
    split
    · rfl
    · rename_i hsome
      rw [if_pos]
      · rfl
      · rcases hnone with rfl | hzero
        · exact .inl rfl
        · rw [hzero] at htotal
          simp only [Fin.coe_ofNat_eq_mod, Nat.zero_mod] at htotal
          omega
  · rw [if_neg hnone]
    rw [not_or] at hnone
    have hbonded : bonded.val ≠ 0 := fun hz => hnone.1 (Fin.ext hz)
    have hvotes : tally.total.val ≠ 0 := fun hz => hnone.2 (Fin.ext hz)
    have hquorumBps : QUORUM_BPS.val = 5000 := rfl
    have hvetoBps : VETO_THRESHOLD_BPS.val = 3300 := rfl
    have happrovalBps : APPROVAL_THRESHOLD_BPS.val = 6600 := rfl
    obtain ⟨turnout, hturnout, hquorum⟩ := bpsOf_reaches tally.total bonded (by omega) hbonded
    obtain ⟨vetoPct, hveto, hvetoed⟩ := bpsOf_reaches tally.noWithVeto tally.total
      (by rw [h.noWithVeto]; omega) hvotes
    have hquorum := hquorum QUORUM_BPS
    have hvetoed := hvetoed VETO_THRESHOLD_BPS
    rw [hquorumBps, htotal] at hquorum
    rw [hvetoBps, htotal, h.noWithVeto] at hvetoed
    rw [hturnout, ok_bind]
    by_cases hlow : turnout < QUORUM_BPS
    · rw [if_pos hlow]
      rw [← not_le, hquorum, not_le] at hlow
      split
      · rfl
      · rw [if_pos (.inr hlow)]
        rfl
    rw [if_neg hlow]
    rw [not_lt, hquorum] at hlow
    rw [hveto, ok_bind]
    by_cases hvetos : VETO_THRESHOLD_BPS ≤ vetoPct
    · rw [if_pos hvetos]
      rw [hvetoed] at hvetos
      rw [if_neg (by omega), if_neg (by omega), if_pos hvetos]
      rfl
    rw [if_neg hvetos]
    rw [hvetoed] at hvetos
    by_cases hall : tally.nonAbstain = 0
    · rw [if_pos hall]
      have hzero : weightOf (· ≠ .abstain) votes = 0 := by
        rw [← hnonAbstain, hall]
        rfl
      rw [if_pos hzero]
      rfl
    · rw [if_neg hall]
      have hsome : tally.nonAbstain.val ≠ 0 := fun hz => hall (Fin.ext hz)
      obtain ⟨approvalPct, happroval, happroved⟩ := bpsOf_reaches tally.yes tally.nonAbstain
        (by rw [h.yes]; omega) hsome
      have happroved := happroved APPROVAL_THRESHOLD_BPS
      rw [happrovalBps, hnonAbstain, h.yes] at happroved
      rw [happroval, ok_bind]
      by_cases hpass : APPROVAL_THRESHOLD_BPS ≤ approvalPct
      · rw [if_pos hpass, if_neg (by omega), if_neg (by omega), if_neg hvetos, if_pos (happroved.mp hpass)]
        rfl
      · rw [if_neg hpass, if_neg (by omega), if_neg (by omega), if_neg hvetos,
          if_neg (fun hp => hpass (happroved.mpr hp))]
        rfl

end

/-- A passed tally stays passed with one more yes. -/
theorem tallyRule_yes {votes : List (VoteChoice × Amount)} {bonded : Amount} (weight : Amount)
    (h : tallyRule votes bonded = .passed) : tallyRule (votes ++ [(.yes, weight)]) bonded = .passed := by
  have hyes : weightOf (· = .yes) (votes ++ [(.yes, weight)]) = weightOf (· = .yes) votes + weight.val :=
    weightOf_snoc _ _ _ _
  have hveto : weightOf (· = .noWithVeto) (votes ++ [(.yes, weight)]) = weightOf (· = .noWithVeto) votes :=
    weightOf_snoc _ _ _ _
  have hnonAbstain : weightOf (· ≠ .abstain) (votes ++ [(.yes, weight)]) =
      weightOf (· ≠ .abstain) votes + weight.val := weightOf_snoc _ _ _ _
  have htotal : totalWeight (votes ++ [(.yes, weight)]) = totalWeight votes + weight.val :=
    weightOf_snoc _ _ _ _
  have hchoices := nonAbstain_eq votes
  rw [tallyRule_eq] at h
  rw [tallyRule_eq, hyes, hveto, hnonAbstain, htotal]
  split at h
  · cases h
  rename_i hsome
  split at h
  · cases h
  rename_i hquorum
  split at h
  · cases h
  rename_i hvetoed
  split at h
  · rename_i happroved
    rw [not_or, not_lt] at hquorum
    rw [if_neg (by omega), if_neg (not_or.mpr ⟨hquorum.1, by omega⟩), if_neg (by omega), if_pos (by omega)]
  · cases h

/-- Within the supply cap the tally follows the rule whatever the order of the votes, no product overflows,
and a yes more never undoes a pass. -/
theorem tally_exact {votes : List (VoteChoice × Amount)} (hcap : totalWeight votes ≤ TOTAL_SUPPLY_CAP.val)
    (bonded : Amount) :
    (∀ votes', votes'.Perm votes → (castVotes votes').evaluate bonded = .ok (tallyRule votes bonded)) ∧
    ∀ weight : Amount, totalWeight votes + weight.val ≤ TOTAL_SUPPLY_CAP.val →
      (castVotes votes).evaluate bonded = .ok .passed →
      (castVotes (votes ++ [(.yes, weight)])).evaluate bonded = .ok .passed := by
  have hcapval : TOTAL_SUPPLY_CAP.val = 1000000000000000000 := rfl
  have hown : (castVotes votes).evaluate bonded = .ok (tallyRule votes bonded) :=
    (castVotes_holds (by omega)).evaluate hcap bonded
  constructor
  · intro votes' hperm
    have htotal : totalWeight votes' = totalWeight votes := weightOf_perm hperm
    rw [(castVotes_holds (by omega)).evaluate (by omega) bonded]
    simp only [tallyRule_eq, weightOf_perm hperm, htotal]
  · intro weight hweight hpassed
    have htotal : totalWeight (votes ++ [(.yes, weight)]) = totalWeight votes + weight.val :=
      weightOf_snoc _ _ _ _
    rw [hown] at hpassed
    rw [(castVotes_holds (by omega)).evaluate (by omega) bonded,
      tallyRule_yes weight (Except.ok.inj hpassed)]

/-- Two thirds for, one third against: passed. -/
theorem tally_exact_passed :
    (castVotes [(.no, 34), (.yes, 66)]).evaluate 200 = .ok (tallyRule [(.yes, 66), (.no, 34)] 200) ∧
      tallyRule [(.yes, 66), (.no, 34)] 200 = .passed :=
  ⟨(tally_exact (by decide) 200).1 _ (List.Perm.swap _ _ _), by rw [tallyRule_eq]; decide⟩

/-- When every vote abstains, no vote for is at least 66 % of no votes; the code rejects. -/
theorem all_abstain_rejected : (castVotes [(.abstain, 100)]).evaluate 100 = .ok .rejected ∧
    exactOutcome [(.abstain, 100)] 100 = .passed := by
  refine ⟨by decide, ?_⟩
  unfold exactOutcome
  simp only [below_half_iff, veto_third_iff, two_thirds_iff]
  decide

end Arknet.Laws
