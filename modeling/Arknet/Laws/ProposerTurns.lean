import Arknet.Consensus.Proposer
import Arknet.Lib.Turns

/-!
Proposers take turns by round. The turns are the same at every height, each validator has the same number
of them whatever its power, and a silent group is passed over after one round for each of its members.
-/

namespace Arknet.Laws

open Machine Arknet.Chain Arknet.Consensus Turns

section

variable {M : Malachite} {set : ChainValidatorSet M.PublicKey} {height : U64}

/-- The proposer of a round is the validator whose turn the round is. -/
theorem selectProposer_turn (hne : set.validators ≠ []) {round : M.Round} {r : Nat}
    (hr : (M.asI64 round).toInt = r) {v : ChainValidator M.PublicKey} :
    selectProposer set height round = .ok v ↔ turn set.validators r = some v := by
  have hpos := List.length_pos_iff.mpr hne
  have hmax : max set.validators.length 1 = set.validators.length := by omega
  have hround : (max (M.asI64 round).toInt 0).toNat = r := by rw [hr]; omega
  simp only [selectProposer, hmax, hround, turn]
  cases set.validators[r % set.validators.length]? with
  | none => exact iff_of_false (by simp) (by simp)
  | some w => simp

/-- The nil round has the proposer of round 0. -/
theorem selectProposer_early (hne : set.validators ≠ []) {round : M.Round} (hr : (M.asI64 round).toInt ≤ 0) :
    selectProposer set height round = .ok (set.validators.head hne) := by
  have hpos := List.length_pos_iff.mpr hne
  have hround : (max (M.asI64 round).toInt 0).toNat = 0 := by omega
  have hhead : set.validators[0]? = some (set.validators.head hne) := by
    rw [List.head_eq_getElem, List.getElem?_eq_getElem hpos]
  simp only [selectProposer, hround, Nat.zero_mod, hhead]

variable (set) in
/-- The proposers of some rounds of a height. -/
def proposersOf (height : U64) (rounds : List M.Round) : List (ChainValidator M.PublicKey) :=
  rounds.filterMap fun round => (selectProposer set height round).toOption

/-- Rounds that follow one another, from round `r` on. -/
def RoundsFrom (r : Nat) (rounds : List M.Round) : Prop :=
  ∀ i, (h : i < rounds.length) → (M.asI64 rounds[i]).toInt = ((r + i : Nat) : Int)

theorem RoundsFrom.tail {r : Nat} {round : M.Round} {rounds : List M.Round}
    (h : RoundsFrom r (round :: rounds)) : RoundsFrom (r + 1) rounds := by
  intro i hi
  have hnext := h (i + 1) (Nat.succ_lt_succ hi)
  rw [List.getElem_cons_succ] at hnext
  rw [hnext, Nat.add_assoc, Nat.add_comm 1 i]

theorem proposersOf_window (hne : set.validators ≠ []) {r : Nat} {rounds : List M.Round}
    (h : RoundsFrom r rounds) : proposersOf set height rounds = window set.validators r rounds.length := by
  induction rounds generalizing r with
  | nil => rfl
  | cons round rounds ih =>
    have hround : (M.asI64 round).toInt = r := h 0 (Nat.succ_pos _)
    obtain ⟨v, hv⟩ := Option.isSome_iff_exists.mp (turn_isSome hne r)
    have hproposer : selectProposer set height round = .ok v := (selectProposer_turn hne hround).mpr hv
    have hfirst : window set.validators r 1 = [v] := by simp [window, hv]
    rw [List.length_cons, Nat.add_comm, window_add, hfirst, ← ih h.tail, proposersOf, List.filterMap_cons,
      hproposer]
    rfl

/-- Over any rounds of any height: who proposes is an active validator, whole turns share the proposals
out evenly, and a silent group delays an honest proposal by at most one round for each member. -/
theorem proposers_take_turns [DecidableEq M.PublicKey] {fromBytes : List UInt8 → Exec M.PublicKey}
    {infos : List ValidatorInfo} (hset : ChainValidatorSet.fromInfos fromBytes infos = .ok (.ok set)) :
    (∀ height round, ∃ v, ∃ info ∈ infos, selectProposer set height round = .ok v ∧
      isActiveValidator info = true ∧ v.address = info.operator ∧ v.votingPower = info.votingPower) ∧
    (∃ v ∈ set.validators, (∀ w ∈ set.validators, v.before w) ∧
      ∀ height round, (M.asI64 round).toInt ≤ 0 → selectProposer set height round = .ok v) ∧
    (∀ height r k rounds, RoundsFrom r rounds → rounds.length = k * set.validators.length →
      ∀ v, (proposersOf set height rounds).count v = k * set.validators.count v) ∧
    (∀ (silent : ChainValidator M.PublicKey → Prop) [DecidablePred silent],
      (∃ v ∈ set.validators, ¬ silent v) → ∀ height r rounds, RoundsFrom r rounds →
        set.validators.countP silent < rounds.length →
        ∃ v ∈ proposersOf set height (rounds.take (set.validators.countP silent + 1)), ¬ silent v) := by
  obtain ⟨-, hsome, hvalidators⟩ := fromInfos_ok.mp hset
  have hperm := List.perm_insertionSort ChainValidator.before
    ((infos.filter isActiveValidator).filterMap (built? fromBytes))
  rw [← hvalidators] at hperm
  have hne : set.validators ≠ [] := fun hnil => hsome (by rw [hnil] at hperm; exact hperm.symm.eq_nil)
  refine ⟨fun height round => ?_, ?_, ?_, ?_⟩
  · obtain ⟨v, hturn⟩ := Option.isSome_iff_exists.mp
      (turn_isSome hne (max (M.asI64 round).toInt 0).toNat)
    have hproposer : selectProposer set height round = .ok v := by
      have hpos := List.length_pos_iff.mpr hne
      have hmax : max set.validators.length 1 = set.validators.length := by omega
      rw [turn] at hturn
      simp only [selectProposer, hmax, hturn]
    obtain ⟨info, hinfo, hbuilt⟩ := List.mem_filterMap.mp (hperm.mem_iff.mp (List.mem_of_getElem? hturn))
    obtain ⟨hmem, hactive⟩ := List.mem_filter.mp hinfo
    exact ⟨v, info, hmem, hproposer, hactive, built?_fields hbuilt⟩
  · refine ⟨set.validators.head hne, List.head_mem hne, fun w hw => ?_, fun height round hround =>
      selectProposer_early hne hround⟩
    have hsorted := set.sorted
    rw [← List.cons_head_tail hne] at hsorted hw
    rcases List.mem_cons.mp hw with rfl | hw
    · exact .inr ⟨rfl, le_rfl⟩
    · exact (List.pairwise_cons.mp hsorted).1 w hw
  · intro height r k rounds hrounds hlength v
    rw [proposersOf_window hne hrounds, hlength, count_window]
  · intro silent _ hvoice height r rounds hrounds hlength
    obtain ⟨i, hi, v, hturn, hv⟩ := exists_turn_outside silent r hvoice
    have hlt : i < rounds.length := by omega
    have hproposer : selectProposer set height rounds[i] = .ok v :=
      (selectProposer_turn hne (hrounds i hlt)).mpr hturn
    refine ⟨v, List.mem_filterMap.mpr ⟨rounds[i], ?_, by rw [hproposer]; rfl⟩, hv⟩
    rw [List.mem_take_iff_getElem]
    exact ⟨i, by omega, rfl⟩

/-! ## Two validators -/

def validatorOf (operator : Address) (votingPower : U64) : ValidatorInfo where
  nodeId := 0
  consensusKey := PubKey.ed25519 0
  operator := operator
  bondedStake := 0
  votingPower := votingPower
  isGenesis := true
  jailed := false

instance toyKeyDecidableEq : DecidableEq toyMalachite.PublicKey := inferInstanceAs (DecidableEq (Bytes 32))

/-- Power does not count: one of nine proposes as often as one of one. -/
theorem proposers_take_turns_two : ∃ set : ChainValidatorSet toyMalachite.PublicKey,
    ChainValidatorSet.fromInfos (fun bytes => .ok (numeral 32 bytes)) [validatorOf 1 1, validatorOf 2 9] =
      .ok (.ok set) ∧
    ∀ v, (proposersOf (M := toyMalachite) set 7 [some 0, some 1, some 2, some 3]).count v =
      2 * set.validators.count v := by
  obtain ⟨set, hset⟩ : ∃ set : ChainValidatorSet toyMalachite.PublicKey,
      ChainValidatorSet.fromInfos (fun bytes => .ok (numeral 32 bytes)) [validatorOf 1 1, validatorOf 2 9] =
        .ok (.ok set) := ⟨_, rfl⟩
  have hlength : set.validators.length = 2 := by
    obtain ⟨-, -, hvalidators⟩ := fromInfos_ok.mp hset
    rw [hvalidators]
    rfl
  obtain ⟨-, -, hshare, -⟩ := proposers_take_turns (M := toyMalachite) hset
  refine ⟨set, hset, hshare 7 0 2 _ ?_ (by rw [hlength]; rfl)⟩
  intro i hi
  match i, hi with
  | 0, _ => rfl
  | 1, _ => rfl
  | 2, _ => rfl
  | 3, _ => rfl

end

end Arknet.Laws
