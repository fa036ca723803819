import Arknet.Consensus.Run

/-!
The delegators' part of a reward. The shares before the last are rounded down and the last delegator gets
what is left, so that nothing is lost; a share is the exact floor unless its product saturates.
-/

namespace Arknet.Laws

open Machine Store Arknet.Chain Arknet.Consensus

/-- The delegators of the validator with this operator address, with their stakes in key order. -/
def delegatesOf (s : State) (computeAddr : Address) : List (Address × Amount) :=
  match s.iterValidators.find? fun v => v.operator = computeAddr with
  | none => []
  | some v => delegatorStakes s v.nodeId

def delegatedTo (s : State) (computeAddr : Address) : Nat :=
  ((delegatesOf s computeAddr).map fun p => p.2.val).sum

/-- Whoever is before the last receives the floor of the pro-rata share, where the product fits. -/
def FloorsPaid (total delegated : Nat) (stakes credits : List (Address × Amount)) : Prop :=
  ∀ i p, stakes[i]? = some p → i + 1 < stakes.length → total * p.2.val < 2 ^ 128 →
    ∃ c, credits[i]? = some c ∧ c.1 = p.1 ∧ c.2.val = total * p.2.val / delegated

/-- The last receives at least that. -/
def LastPaid (total delegated : Nat) (stakes credits : List (Address × Amount)) : Prop :=
  ∀ p, stakes.getLast? = some p →
    ∃ c, credits.getLast? = some c ∧ c.1 = p.1 ∧ total * p.2.val / delegated ≤ c.2.val

/-- The branches of the loop's caller, by what is delegated. -/
theorem distributeToDelegators_eq {ctx : BlockCtx} {computeAddr : Address} {delegatorTotal : Amount}
    (hpos : delegatorTotal ≠ 0) (hfit : delegatedTo ctx.state computeAddr < 2 ^ 128) :
    distributeToDelegators ctx computeAddr delegatorTotal =
      if delegatedTo ctx.state computeAddr = 0 then .ok (ctx.creditAddress computeAddr delegatorTotal)
      else creditShares delegatorTotal ⟨delegatedTo ctx.state computeAddr, hfit⟩ ctx 0
        (delegatesOf ctx.state computeAddr) := by
  unfold distributeToDelegators
  rw [if_neg hpos]
  cases hv : ctx.state.iterValidators.find? fun v => v.operator = computeAddr with
  | none =>
    have hnone : delegatedTo ctx.state computeAddr = 0 := by
      simp [delegatedTo, delegatesOf, hv]
    rw [if_pos hnone]
    rfl
  | some v =>
    have hstakes : delegatesOf ctx.state computeAddr = delegatorStakes ctx.state v.nodeId := by
      rw [delegatesOf, hv]
    have hsum : sum ((delegatesOf ctx.state computeAddr).map Prod.snd) =
        .ok ⟨delegatedTo ctx.state computeAddr, hfit⟩ := by
      rw [sum_eq_ok, List.map_map]
      rfl
    dsimp only
    rw [← hstakes]
    by_cases hempty : delegatesOf ctx.state computeAddr = []
    · have hzero : delegatedTo ctx.state computeAddr = 0 := by
        simp [delegatedTo, hempty]
      rw [if_pos hempty, if_pos hzero]
      rfl
    · rw [if_neg hempty, hsum, ok_bind]
      by_cases hzero : delegatedTo ctx.state computeAddr = 0
      · rw [if_pos hzero, if_pos (Fin.ext hzero)]
        rfl
      · rw [if_neg hzero, if_neg fun h => hzero (congrArg Fin.val h)]

/-- The delegators' part is credited in full: to the operator where nothing is delegated, and otherwise to
the delegators in order. -/
theorem delegator_split {ctx : BlockCtx} {computeAddr : Address} {delegatorTotal : Amount}
    (hfit : delegatedTo ctx.state computeAddr < 2 ^ 128) :
    ∃ credits, distributeToDelegators ctx computeAddr delegatorTotal = .ok (creditAll ctx credits) ∧
      creditSum credits = delegatorTotal.val ∧
      (∀ a, ((creditAll ctx credits).account a).balance.val =
        min ((ctx.account a).balance.val + creditSum (credits.filter fun c => c.1 = a)) (2 ^ 128 - 1)) ∧
      (delegatorTotal ≠ 0 → delegatedTo ctx.state computeAddr = 0 →
        credits = [(computeAddr, delegatorTotal)]) ∧
      (delegatorTotal ≠ 0 → delegatedTo ctx.state computeAddr ≠ 0 →
        credits.length = (delegatesOf ctx.state computeAddr).length ∧
        FloorsPaid delegatorTotal.val (delegatedTo ctx.state computeAddr)
          (delegatesOf ctx.state computeAddr) credits ∧
        LastPaid delegatorTotal.val (delegatedTo ctx.state computeAddr)
          (delegatesOf ctx.state computeAddr) credits) := by
  by_cases hzero : delegatorTotal = 0
  · refine ⟨[], ?_, by rw [hzero]; rfl, balance_creditAll ctx [], fun h => absurd hzero h,
      fun h => absurd hzero h⟩
    unfold distributeToDelegators
    rw [if_pos hzero]
    rfl
  rw [distributeToDelegators_eq hzero hfit]
  by_cases hnone : delegatedTo ctx.state computeAddr = 0
  · refine ⟨[(computeAddr, delegatorTotal)], ?_, Nat.add_zero _, balance_creditAll ctx _, fun _ _ => rfl,
      fun _ h => absurd hnone h⟩
    rw [if_pos hnone, creditAll_single hzero]
  · have hne : delegatesOf ctx.state computeAddr ≠ [] := by
      intro hempty
      apply hnone
      simp [delegatedTo, hempty]
    have hinv : (0 : Amount).val * delegatedTo ctx.state computeAddr + delegatorTotal.val *
        ((delegatesOf ctx.state computeAddr).map (fun p => p.2.val)).sum ≤
          delegatorTotal.val * delegatedTo ctx.state computeAddr := by
      have hz : (0 : Amount).val = 0 := rfl
      rw [hz, Nat.zero_mul, Nat.zero_add]
      exact le_rfl
    obtain ⟨credits, hok, hsum, hfair⟩ := @creditShares_fair delegatorTotal
      ⟨delegatedTo ctx.state computeAddr, hfit⟩ _ ctx 0 hnone hne hinv
    have hlen : credits.length = (delegatesOf ctx.state computeAddr).length := by
      simpa using congrArg List.length hfair.delegators
    have hnames : ∀ i : Nat, (credits[i]?).map Prod.fst =
        ((delegatesOf ctx.state computeAddr)[i]?).map Prod.fst := by
      intro i
      rw [← List.getElem?_map, ← List.getElem?_map, hfair.delegators]
    refine ⟨credits, by rw [if_neg hnone, hok], ?_, balance_creditAll ctx credits,
      fun _ h => absurd h hnone, fun _ _ => ⟨hlen, ?_, ?_⟩⟩
    · have hz : (0 : Amount).val = 0 := rfl
      omega
    · intro i p hp hi hproduct
      obtain ⟨c, hc, hshare⟩ := hfair.floors i p hp hi
      have hname := hnames i
      rw [hp, hc] at hname
      refine ⟨c, hc, Option.some.inj hname, ?_⟩
      have hexact : (satMul delegatorTotal p.2).val = delegatorTotal.val * p.2.val := by
        rw [satMul_val]
        omega
      rw [hshare, hexact]
    · intro p hp
      obtain ⟨c, hc, hshare⟩ := hfair.last p hp
      refine ⟨c, hc, ?_, hshare⟩
      rw [List.getLast?_eq_getElem?] at hp hc
      rw [hlen] at hc
      have hname := hnames ((delegatesOf ctx.state computeAddr).length - 1)
      rw [hp, hc] at hname
      exact Option.some.inj hname

/-- A node with two delegators, of two atoms and one. -/
def twoDelegators : State :=
  { State.empty with
    validators := Column.empty.insert 1 ⟨1, ⟨.ed25519, []⟩, 5, 0, 1, false, false⟩
    stakes := (Column.empty.insert ⟨1, .compute, none, some 6⟩ ⟨1, .compute, none, some 6, 2, 0⟩).insert
      ⟨1, .compute, none, some 7⟩ ⟨1, .compute, none, some 7, 1, 0⟩ }

theorem delegator_split_hundred : ∃ credits, distributeToDelegators twoDelegators.beginBlock 5 100 =
      .ok (creditAll twoDelegators.beginBlock credits) ∧ creditSum credits = 100 := by
  obtain ⟨credits, hok, hsum, -⟩ := @delegator_split twoDelegators.beginBlock 5 100 (by decide)
  exact ⟨credits, hok, hsum⟩

theorem largest_split_returns : (distributeToDelegators twoDelegators.beginBlock 5
    (Fin.last _)).toOption.isSome = true := by decide

/-- Of the largest amount, two thirds are due to the first delegator, who gets one. -/
theorem largest_split_saturates : ∃ ctx, distributeToDelegators twoDelegators.beginBlock 5 (Fin.last _) =
      .ok ctx ∧ delegatesOf twoDelegators 5 = [(6, 2), (7, 1)] ∧
      (ctx.account 6).balance.val = (2 ^ 128 - 1) / 3 ∧ (2 ^ 128 - 1) / 3 < (2 ^ 128 - 1) * 2 / 3 :=
  ⟨_, eq_ok_returned largest_split_returns, by decide, by decide, by decide⟩

end Arknet.Laws
