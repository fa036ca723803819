import Arknet.Laws.BuildAgreement
import Arknet.Lib.Selection

/-!
The rotation of the validator set at an epoch boundary. What is ranked, kept and evicted is decided by
the committed records and the committed stakes; a record beyond the first twenty-one is not touched.
-/

namespace Arknet.Laws

open Machine Store Arknet.Chain Arknet.Staking Arknet.Consensus

/-! ## Candidates -/

/-- Every validator record is filed under its own node id. -/
def Filed (s : State) : Prop := ∀ node info, s.validators.get node = some info → info.nodeId = node

/-- The registered validators, each with the validator stake the store has for it. -/
def candidates (s : State) : List Candidate :=
  s.iterValidators.map (fun info => ⟨info, sumValidatorStake s.beginBlock info.nodeId⟩)

theorem rankCandidates_eq (ctx : BlockCtx) : rankCandidates ctx =
    Selection.top Candidate.before MAX_ACTIVE_VALIDATORS (candidates ctx.state) := rfl

theorem before_heaviestFirst :
    Candidate.before = Selection.HeaviestFirst Candidate.totalStake fun c => c.info.operator := rfl

instance : Std.Total Candidate.before := by
  rw [before_heaviestFirst]
  infer_instance

instance : IsTrans Candidate Candidate.before := by
  rw [before_heaviestFirst]
  infer_instance

theorem mem_candidates {s : State} (hk : Filed s) {c : Candidate} : c ∈ candidates s ↔
    s.validators.get c.info.nodeId = some c.info ∧
      c.totalStake = sumValidatorStake s.beginBlock c.info.nodeId := by
  simp only [candidates, List.mem_map, State.iterValidators, Column.mem_values]
  constructor
  · rintro ⟨info, ⟨node, hget⟩, rfl⟩
    obtain rfl := hk node info hget
    exact ⟨hget, rfl⟩
  · rintro ⟨hget, hstake⟩
    exact ⟨c.info, ⟨_, hget⟩, by rw [← hstake]⟩

theorem candidates_keys {s : State} (hk : Filed s) :
    (candidates s).map (fun c => c.info.nodeId) = s.validators.keys := by
  simp only [candidates, State.iterValidators, Column.values, Column.keys, List.map_map]
  apply List.map_congr_left
  rintro ⟨node, info⟩ he
  exact hk node info (Column.get_eq_some.mpr he)

theorem candidates_nodup {s : State} (hk : Filed s) :
    ((candidates s).map (fun c => c.info.nodeId)).Nodup := by
  rw [candidates_keys hk]
  exact s.validators.keys_nodup

/-- Candidates of one node are one candidate. -/
theorem candidate_unique {s : State} (hk : Filed s) {c d : Candidate} (hc : c ∈ candidates s)
    (hd : d ∈ candidates s) (h : c.info.nodeId = d.info.nodeId) : c = d :=
  List.inj_on_of_nodup_map (candidates_nodup hk) hc hd h

theorem length_candidates (s : State) : (candidates s).length = s.iterValidators.length :=
  List.length_map _

/-! ## What a rotation writes -/

/-- The record of a validator that stays. -/
def seat (c : Candidate) : ValidatorInfo :=
  { c.info with votingPower := totalStakeToVotingPower c.totalStake, jailed := false }

/-- What becomes of a ranked candidate's record. -/
def seatOrEvict (bootstrap : Bool) (c : Candidate) : Option ValidatorInfo :=
  if bootstrap || 0 < c.totalStake then some (seat c) else none

theorem rotate_ok {bootstrap : Bool} {acc acc' : BlockCtx × U32} {c : Candidate}
    (h : rotate bootstrap acc c = .ok acc') :
    acc'.1.commit.validators = acc.1.commit.validators.write c.info.nodeId (seatOrEvict bootstrap c) ∧
      acc'.2.val = acc.2.val + if (seatOrEvict bootstrap c).isSome then 1 else 0 := by
  unfold rotate at h
  unfold seatOrEvict
  split at h
  · rename_i hkeep
    simp only [bind_eq_ok, pure_eq_ok] at h
    obtain ⟨active, hadd, rfl⟩ := h
    rw [if_pos hkeep]
    exact ⟨rfl, add_eq_ok.mp hadd⟩
  · rename_i hkeep
    simp only [pure_eq_ok] at h
    subst h
    rw [if_neg hkeep]
    exact ⟨rfl, rfl⟩

theorem rotate_foldlM_ok {bootstrap : Bool} {cs : List Candidate} {acc acc' : BlockCtx × U32}
    (h : cs.foldlM (rotate bootstrap) acc = .ok acc') :
    acc'.1.commit.validators = acc.1.commit.validators.writeAll
        (cs.map (fun c => (c.info.nodeId, seatOrEvict bootstrap c))) ∧
      acc'.2.val = acc.2.val + cs.countP (fun c => (seatOrEvict bootstrap c).isSome) := by
  induction cs generalizing acc with
  | nil =>
    simp only [List.foldlM_nil, pure_eq_ok] at h
    subst h
    exact ⟨rfl, rfl⟩
  | cons c cs ih =>
    rw [List.foldlM_cons, bind_eq_ok] at h
    obtain ⟨mid, hmid, hrest⟩ := h
    obtain ⟨hv₁, hn₁⟩ := rotate_ok hmid
    obtain ⟨hv₂, hn₂⟩ := ih hrest
    constructor
    · rw [hv₂, hv₁]
      rfl
    · rw [hn₂, hn₁, List.countP_cons]
      omega

section

variable {ctx ctx' : BlockCtx} {height : Height} {n : U32}

/-- The flag a rotation goes by. -/
def rotatesInBootstrap (ctx : BlockCtx) (height : Height) : Bool :=
  inBootstrapEpoch height (truncate 32 (rankCandidates ctx).length)

/-- A ranked validator's record is decided by its stake. -/
theorem recompute_ranked (hk : Filed ctx.state) (h : recomputeValidatorSet ctx height = .ok (ctx', n))
    {c : Candidate} (hc : c ∈ rankCandidates ctx) :
    ctx'.commit.validators.get c.info.nodeId = seatOrEvict (rotatesInBootstrap ctx height) c := by
  rw [(rotate_foldlM_ok h).1]
  have hnodup := Selection.top_keys_nodup Candidate.before MAX_ACTIVE_VALIDATORS
    (fun c => c.info.nodeId) (candidates_nodup hk)
  rw [← rankCandidates_eq, List.Nodup, List.pairwise_map] at hnodup
  apply Column.get_writeAll_of_mem
  · rw [List.pairwise_map]
    exact hnodup
  · exact List.mem_map_of_mem hc

/-- A record that is not ranked stays as it is. -/
theorem recompute_unranked (h : recomputeValidatorSet ctx height = .ok (ctx', n)) {node : NodeId}
    (hnode : ∀ c ∈ rankCandidates ctx, c.info.nodeId ≠ node) :
    ctx'.commit.validators.get node = ctx.commit.validators.get node := by
  rw [(rotate_foldlM_ok h).1]
  apply Column.get_writeAll_of_notMem
  intro w hw
  obtain ⟨c, hc, rfl⟩ := List.mem_map.mp hw
  exact hnode c hc

theorem recompute_count (h : recomputeValidatorSet ctx height = .ok (ctx', n)) :
    n.val = (rankCandidates ctx).countP
      (fun c => (seatOrEvict (rotatesInBootstrap ctx height) c).isSome) :=
  (rotate_foldlM_ok h).2.trans (Nat.zero_add _)

end

/-! ## The set a rotation should leave -/

/-- The at most `MAX_ACTIVE_VALIDATORS` candidates with stake that rank highest. -/
structure Elected (s : State) (elected : List Candidate) : Prop where
  staked : ∀ c ∈ elected, c ∈ candidates s ∧ 0 < c.totalStake
  distinct : (elected.map (fun c => c.info.nodeId)).Nodup
  few : elected.length ≤ MAX_ACTIVE_VALIDATORS
  highest : ∀ c ∈ elected, ∀ d ∈ candidates s, 0 < d.totalStake → d ∈ elected ∨ c.before d
  full : elected.length < MAX_ACTIVE_VALIDATORS → ∀ d ∈ candidates s, 0 < d.totalStake → d ∈ elected

/-- The records are the elected candidates', each with the power of its stake, and were counted. -/
structure Rotated (s : State) (elected : List Candidate) (validators : Column NodeId ValidatorInfo)
    (count : U32) : Prop where
  only : ∀ node info, validators.get node = some info → ∃ c ∈ elected, c.info.nodeId = node ∧
    info = { c.info with votingPower := totalStakeToVotingPower c.totalStake, jailed := info.jailed }
  all : ∀ c ∈ elected, ∃ info, validators.get c.info.nodeId = some info
  counted : count.val = validators.entries.length

section

variable {ctx ctx' : BlockCtx} {height : Height} {n : U32}

/-- With more records than seats some record that should go stays, or too many stay. -/
theorem rotated_few (hk : Filed ctx.state) (hsame : ctx.commit.validators = ctx.state.validators)
    (h : recomputeValidatorSet ctx height = .ok (ctx', n)) {elected : List Candidate}
    (hel : Elected ctx.state elected) (hrot : Rotated ctx.state elected ctx'.commit.validators n) :
    ctx.state.iterValidators.length ≤ MAX_ACTIVE_VALIDATORS := by
  by_contra hlen
  rw [← length_candidates, not_le] at hlen
  obtain ⟨d, hd⟩ := Selection.exists_passed Candidate.before MAX_ACTIVE_VALIDATORS hlen
  have hnodup := candidates_nodup hk
  have hdmem := Selection.mem_of_mem_passed _ _ hd
  have hne : ∀ c ∈ rankCandidates ctx, c.info.nodeId ≠ d.info.nodeId :=
    fun c hc => Selection.passed_key_ne _ _ (fun c => c.info.nodeId) hnodup hc hd
  -- the record that was passed over is still there, so it must be one of the elected
  have hstays : ctx'.commit.validators.get d.info.nodeId = some d.info := by
    rw [recompute_unranked h hne, hsame]
    exact ((mem_candidates hk).mp hdmem).1
  have helected : ∀ c ∈ candidates ctx.state, (∃ info, ctx'.commit.validators.get c.info.nodeId =
      some info) → c ∈ elected := by
    rintro c hc ⟨info, hget⟩
    obtain ⟨e, he, heq, -⟩ := hrot.only _ _ hget
    rw [← candidate_unique hk (hel.staked e he).1 hc heq]
    exact he
  have hdel := helected d hdmem ⟨_, hstays⟩
  have hpos := (hel.staked d hdel).2
  -- all that rank before it have stake as well and keep their records
  have hranked : ∀ c ∈ rankCandidates ctx, c ∈ elected := by
    intro c hc
    have hbefore := Selection.top_before_passed Candidate.before MAX_ACTIVE_VALIDATORS hc hd
    have hcpos : 0 < c.totalStake := by
      rcases hbefore with hlt | ⟨heq, -⟩
      · exact lt_trans hpos hlt
      · rw [← heq]
        exact hpos
    apply helected c (Selection.mem_of_mem_top _ _ hc)
    refine ⟨seat c, ?_⟩
    rw [recompute_ranked hk h hc, seatOrEvict, if_pos (by simp [hcpos])]
  have hsub : d :: rankCandidates ctx ⊆ elected := by
    intro c hc
    rcases List.mem_cons.mp hc with rfl | hc
    · exact hdel
    · exact hranked c hc
  have hnodup' : (d :: rankCandidates ctx).Nodup := by
    refine List.nodup_cons.mpr ⟨fun hmem => hne d hmem rfl, ?_⟩
    exact (Selection.top_keys_nodup Candidate.before MAX_ACTIVE_VALIDATORS _ hnodup).of_map
  have hle := (List.subperm_of_subset hnodup' hsub).length_le
  have htop : (rankCandidates ctx).length = MAX_ACTIVE_VALIDATORS := by
    rw [rankCandidates_eq, Selection.length_top]
    exact Nat.min_eq_left hlen.le
  rw [List.length_cons, htop] at hle
  exact absurd hel.few (by omega)

/-- Few enough records and past the bootstrap window: the rotation is past it too. -/
theorem rotatesInBootstrap_false (hlen : ctx.state.iterValidators.length ≤ MAX_ACTIVE_VALIDATORS)
    (hpost : inBootstrapEpoch height ctx.state.validatorCount = false) :
    rotatesInBootstrap ctx height = false := by
  have hrank := rankCandidates_length ctx
  have htarget : BOOTSTRAP_VALIDATOR_TARGET.val = 100 := rfl
  have hbelow : ∀ m : Nat, m ≤ MAX_ACTIVE_VALIDATORS → truncate 32 m < BOOTSTRAP_VALIDATOR_TARGET := by
    intro m hm
    rw [Fin.lt_def, htarget]
    simp only [truncate, MAX_ACTIVE_VALIDATORS] at hm ⊢
    omega
  simp only [inBootstrapEpoch, State.validatorCount, hbelow _ hlen, decide_true, Bool.and_true] at hpost
  simp only [rotatesInBootstrap, inBootstrapEpoch, hpost, Bool.false_and]

/-- The ranked candidates with stake. -/
def kept (ctx : BlockCtx) : List Candidate := (rankCandidates ctx).filter (fun c => 0 < c.totalStake)

theorem kept_elected (hk : Filed ctx.state)
    (hlen : ctx.state.iterValidators.length ≤ MAX_ACTIVE_VALIDATORS) :
    Elected ctx.state (kept ctx) := by
  have hperm := Selection.top_perm Candidate.before MAX_ACTIVE_VALIDATORS
    ((length_candidates ctx.state).le.trans hlen)
  rw [← rankCandidates_eq] at hperm
  have hall : ∀ d ∈ candidates ctx.state, 0 < d.totalStake → d ∈ kept ctx := by
    intro d hd hpos
    exact List.mem_filter.mpr ⟨hperm.symm.subset hd, decide_eq_true hpos⟩
  constructor
  · intro c hc
    obtain ⟨hmem, hpos⟩ := List.mem_filter.mp hc
    exact ⟨hperm.subset hmem, of_decide_eq_true hpos⟩
  · have hnodup := Selection.top_keys_nodup Candidate.before MAX_ACTIVE_VALIDATORS
      (fun c => c.info.nodeId) (candidates_nodup hk)
    exact hnodup.sublist (List.filter_sublist.map _)
  · exact (List.length_filter_le _ _).trans (rankCandidates_length ctx)
  · intro c _ d hd hpos
    exact .inl (hall d hd hpos)
  · intro _ d hd hpos
    exact hall d hd hpos

/-- Past the bootstrap window the seats taken are those of the candidates with stake. -/
theorem seatOrEvict_false (c : Candidate) :
    seatOrEvict false c = if 0 < c.totalStake then some (seat c) else none := by
  simp only [seatOrEvict, Bool.false_or, decide_eq_true_eq]

theorem kept_rotated (hk : Filed ctx.state) (hsame : ctx.commit.validators = ctx.state.validators)
    (hpost : inBootstrapEpoch height ctx.state.validatorCount = false)
    (hlen : ctx.state.iterValidators.length ≤ MAX_ACTIVE_VALIDATORS)
    (h : recomputeValidatorSet ctx height = .ok (ctx', n)) :
    Rotated ctx.state (kept ctx) ctx'.commit.validators n := by
  have hboot := rotatesInBootstrap_false hlen hpost
  have hel := kept_elected hk hlen
  have hperm := Selection.top_perm Candidate.before MAX_ACTIVE_VALIDATORS
    ((length_candidates ctx.state).le.trans hlen)
  rw [← rankCandidates_eq] at hperm
  have hranked : ∀ c ∈ rankCandidates ctx, ctx'.commit.validators.get c.info.nodeId =
      if 0 < c.totalStake then some (seat c) else none := by
    intro c hc
    rw [recompute_ranked hk h hc, hboot, seatOrEvict_false]
  have honly : ∀ node info, ctx'.commit.validators.get node = some info →
      ∃ c ∈ kept ctx, c.info.nodeId = node ∧ info = seat c := by
    intro node info hget
    by_cases hnode : ∃ c ∈ rankCandidates ctx, c.info.nodeId = node
    · obtain ⟨c, hc, rfl⟩ := hnode
      rw [hranked c hc] at hget
      split at hget
      · rename_i hpos
        exact ⟨c, List.mem_filter.mpr ⟨hc, decide_eq_true hpos⟩, rfl, (Option.some.inj hget).symm⟩
      · cases hget
    · -- every record is ranked, so a record that is not has never been there
      have hnone : ∀ c ∈ rankCandidates ctx, c.info.nodeId ≠ node :=
        fun c hc heq => hnode ⟨c, hc, heq⟩
      rw [recompute_unranked h hnone, hsame] at hget
      have hid := hk node info hget
      have hmem : (⟨info, sumValidatorStake ctx.state.beginBlock info.nodeId⟩ : Candidate) ∈
          candidates ctx.state := (mem_candidates hk).mpr ⟨by rw [hid]; exact hget, rfl⟩
      exact absurd hid (hnone _ (hperm.symm.subset hmem))
  have hall : ∀ c ∈ kept ctx, ctx'.commit.validators.get c.info.nodeId = some (seat c) := by
    intro c hc
    obtain ⟨hmem, hpos⟩ := List.mem_filter.mp hc
    rw [hranked c hmem, if_pos (of_decide_eq_true hpos)]
  constructor
  · intro node info hget
    obtain ⟨c, hc, hnode, rfl⟩ := honly node info hget
    exact ⟨c, hc, hnode, rfl⟩
  · intro c hc
    exact ⟨_, hall c hc⟩
  · have hcount : n.val = (kept ctx).length := by
      rw [recompute_count h, kept, ← List.countP_eq_length_filter, hboot]
      apply List.countP_congr
      intro c _
      rw [seatOrEvict_false]
      split
      · rename_i hpos
        simp [hpos]
      · rename_i hpos
        simp [hpos]
    have hkeys : ctx'.commit.validators.keys.Perm ((kept ctx).map (fun c => c.info.nodeId)) := by
      have hnodup : ctx'.commit.validators.keys.Nodup := ctx'.commit.validators.keys_nodup
      rw [List.perm_ext_iff_of_nodup hnodup hel.distinct]
      intro node
      rw [Column.mem_keys, List.mem_map]
      constructor
      · rintro ⟨info, hget⟩
        obtain ⟨c, hc, hnode, -⟩ := honly node info hget
        exact ⟨c, hc, hnode⟩
      · rintro ⟨c, hc, rfl⟩
        exact ⟨_, hall c hc⟩
    have hlength := hkeys.length_eq
    rw [Column.keys, List.length_map, List.length_map] at hlength
    rw [hcount, hlength]

/-- Past the bootstrap window a rotation leaves exactly the highest-ranked candidates with stake, and
counts them, if and only if there are no more records than seats. -/
theorem rotation_selects (hk : Filed ctx.state)
    (hsame : ctx.commit.validators = ctx.state.validators)
    (hpost : inBootstrapEpoch height ctx.state.validatorCount = false)
    (h : recomputeValidatorSet ctx height = .ok (ctx', n)) :
    (∃ elected, Elected ctx.state elected ∧ Rotated ctx.state elected ctx'.commit.validators n) ↔
      ctx.state.iterValidators.length ≤ MAX_ACTIVE_VALIDATORS := by
  constructor
  · rintro ⟨elected, hel, hrot⟩
    exact rotated_few hk hsame h hel hrot
  · intro hlen
    exact ⟨kept ctx, kept_elected hk hlen, kept_rotated hk hsame hpost hlen h⟩

end

/-! ### One seat taken, twenty-two validators -/

/-- Past the bootstrap window, on an epoch boundary. -/
def postBootstrap : Height := 15552000

def validatorRecord (node : NodeId) : ValidatorInfo := ⟨node, ⟨.ed25519, []⟩, 5, 0, 1, false, false⟩

/-- Node 1 has fifty ARK under its own name, node 2 has none. -/
def stakedPair : State := { State.empty with
  validators := (Column.empty.insert 1 (validatorRecord 1)).insert 2 (validatorRecord 2)
  stakes := Column.empty.insert ⟨1, .validator, none, none⟩ ⟨1, .validator, none, none, 50000000000, 0⟩ }

/-- Filing can be read off the entries. -/
theorem filed_of_entries {s : State} (h : ∀ e ∈ s.validators.entries, e.2.nodeId = e.1) : Filed s :=
  fun node info hget => h (node, info) (Column.get_eq_some.mp hget)

theorem stakedPair_rotates :
    (recomputeValidatorSet stakedPair.beginBlock postBootstrap).toOption.isSome = true := by decide

/-- Of two validators the one with stake stays and the other goes. -/
theorem rotation_selects_staked :
    (∃ elected, Elected stakedPair elected ∧ Rotated stakedPair elected
      (returned _ stakedPair_rotates).1.commit.validators (returned _ stakedPair_rotates).2) ∧
    (returned _ stakedPair_rotates).1.commit.validators.entries =
      [(1, { validatorRecord 1 with votingPower := 50 })] :=
  ⟨(@rotation_selects stakedPair.beginBlock _ postBootstrap _ (filed_of_entries (by decide)) rfl
    (by decide) (eq_ok_returned_pair stakedPair_rotates)).mpr (by decide), by decide⟩

/-- Nodes 1 to 22 are registered and nobody has staked. -/
def crowded : State := { State.empty with
  validators := ([1, 2, 3, 4, 5, 6, 7, 8, 9, 10, 11, 12, 13, 14, 15, 16, 17, 18, 19, 20, 21, 22] :
    List NodeId).foldl (fun records node => records.insert node (validatorRecord node)) Column.empty }

theorem crowded_rotates :
    (recomputeValidatorSet crowded.beginBlock postBootstrap).toOption.isSome = true := by decide

/-- Of twenty-two validators without stake, twenty-one are evicted and the last one keeps its record
and its voting power. -/
theorem crowded_keeps_unstaked :
    (returned _ crowded_rotates).1.commit.validators.entries = [(22, validatorRecord 22)] ∧
      (returned _ crowded_rotates).2 = 0 ∧
      ¬ ∃ elected, Elected crowded elected ∧ Rotated crowded elected
        (returned _ crowded_rotates).1.commit.validators (returned _ crowded_rotates).2 := by
  refine ⟨by decide, by decide, ?_⟩
  rintro ⟨elected, hel, hrot⟩
  have hcount := hrot.counted
  revert hcount
  decide

/-! ## The stakes of the block itself -/

section

variable (K : Primitives)

/-- The context the epoch hooks start from: the block's transactions and slashes are in it. -/
def beforeHooks (s : State) (b : Block) : Exec BlockCtx := do
  let (ctx, _) ← applyTxs K s.beginBlock b.txs
  b.txs.foldlM (dispatchSlash K) ctx

/-- The records a block leaves are those a rotation makes of the stakes as they stand after the block's
transactions and slashes. -/
def SeesBlock (s : State) (b : Block) (r : Replay) : Prop :=
  ∀ ctx fresh n, beforeHooks K s b = .ok ctx →
    recomputeValidatorSet ctx.commit.beginBlock b.header.height = .ok (fresh, n) →
    r.ctx.commit.validators = fresh.commit.validators

end

/-- The validator stake the store has for a node. -/
def validatorStake (s : State) (node : NodeId) : Amount := sumValidatorStake s.beginBlock node

/-- Whether the node is among the first `MAX_ACTIVE_VALIDATORS`. -/
def Ranked (s : State) (node : NodeId) : Prop :=
  ∃ c ∈ rankCandidates s.beginBlock, c.info.nodeId = node

instance (s : State) (node : NodeId) : Decidable (Ranked s node) :=
  inferInstanceAs (Decidable (∃ c ∈ rankCandidates s.beginBlock, c.info.nodeId = node))

/-- A record that a rotation with this stake leaves as it is. -/
def Settled (bootstrap : Bool) (info : ValidatorInfo) (stake : Amount) : Prop :=
  (bootstrap = true ∨ 0 < stake) ∧ info.votingPower = totalStakeToVotingPower stake ∧
    info.jailed = false

/-- One record fares alike under the stakes of two stores. -/
structure SameStanding (bootstrap : Bool) (before after : State) (info : ValidatorInfo) : Prop where
  both : Ranked before info.nodeId → Ranked after info.nodeId →
    totalStakeToVotingPower (validatorStake before info.nodeId) =
        totalStakeToVotingPower (validatorStake after info.nodeId) ∧
      (bootstrap = true ∨
        (0 < validatorStake before info.nodeId ↔ 0 < validatorStake after info.nodeId))
  fell : Ranked before info.nodeId → ¬ Ranked after info.nodeId →
    Settled bootstrap info (validatorStake before info.nodeId)
  rose : ¬ Ranked before info.nodeId → Ranked after info.nodeId →
    Settled bootstrap info (validatorStake after info.nodeId)

/-- What a rotation makes of a record. -/
def decided (bootstrap : Bool) (s : State) (info : ValidatorInfo) : Option ValidatorInfo :=
  if Ranked s info.nodeId then seatOrEvict bootstrap ⟨info, validatorStake s info.nodeId⟩ else some info

theorem seatOrEvict_eq_some {bootstrap : Bool} {info : ValidatorInfo} {stake : Amount} :
    seatOrEvict bootstrap ⟨info, stake⟩ = some info ↔ Settled bootstrap info stake := by
  obtain ⟨nodeId, key, operator, bonded, power, genesis, jailed⟩ := info
  simp only [seatOrEvict, seat, Settled, Bool.or_eq_true, decide_eq_true_eq]
  split
  · rename_i hkeep
    simp only [Option.some.injEq, ValidatorInfo.mk.injEq, true_and]
    constructor
    · rintro ⟨hpower, hjailed⟩
      exact ⟨hkeep, hpower.symm, hjailed.symm⟩
    · rintro ⟨-, hpower, hjailed⟩
      exact ⟨hpower.symm, hjailed.symm⟩
  · rename_i hgo
    simp only [reduceCtorEq, false_iff]
    exact fun h => hgo h.1

theorem seatOrEvict_eq_iff {bootstrap : Bool} {info : ValidatorInfo} {x y : Amount} :
    seatOrEvict bootstrap ⟨info, x⟩ = seatOrEvict bootstrap ⟨info, y⟩ ↔
      totalStakeToVotingPower x = totalStakeToVotingPower y ∧
        (bootstrap = true ∨ (0 < x ↔ 0 < y)) := by
  have hseat : some (seat ⟨info, x⟩) = some (seat ⟨info, y⟩) ↔
      totalStakeToVotingPower x = totalStakeToVotingPower y := by
    simp only [seat, Option.some.injEq, ValidatorInfo.mk.injEq, true_and, and_true]
  cases bootstrap with
  | true =>
    simp only [seatOrEvict, Bool.true_or, if_true, true_or, and_true]
    exact hseat
  | false =>
    rw [seatOrEvict_false, seatOrEvict_false]
    by_cases hx : 0 < x <;> by_cases hy : 0 < y
    · rw [if_pos hx, if_pos hy, hseat]
      simp only [hx, hy, or_true, and_true]
    · simp only [hx, hy, if_true, if_false, reduceCtorEq, iff_false, not_true, or_self, and_false]
    · simp only [hx, hy, if_true, if_false, reduceCtorEq, iff_true, or_self, and_false]
    · -- neither has stake
      have hzero : x = y := by
        rw [not_lt, Fin.le_zero_iff] at hx hy
        rw [hx, hy]
      simp only [hzero, if_neg hy, or_true, and_self]

theorem decided_eq_iff {bootstrap : Bool} {before after : State} {info : ValidatorInfo} :
    decided bootstrap before info = decided bootstrap after info ↔
      SameStanding bootstrap before after info := by
  unfold decided
  by_cases hb : Ranked before info.nodeId <;> by_cases ha : Ranked after info.nodeId
  · rw [if_pos hb, if_pos ha, seatOrEvict_eq_iff]
    exact ⟨fun h => ⟨fun _ _ => h, fun _ hn => absurd ha hn, fun hn => absurd hb hn⟩,
      fun h => h.both hb ha⟩
  · rw [if_pos hb, if_neg ha, seatOrEvict_eq_some]
    exact ⟨fun h => ⟨fun _ hn => absurd hn ha, fun _ _ => h, fun hn => absurd hb hn⟩,
      fun h => h.fell hb ha⟩
  · rw [if_neg hb, if_pos ha, eq_comm, seatOrEvict_eq_some]
    exact ⟨fun h => ⟨fun hn => absurd hn hb, fun hn => absurd hn hb, fun _ _ => h⟩,
      fun h => h.rose hb ha⟩
  · rw [if_neg hb, if_neg ha]
    exact ⟨fun _ => ⟨fun hn => absurd hn hb, fun hn => absurd hn hb, fun _ hn => absurd hn ha⟩,
      fun _ => rfl⟩

section

variable {ctx ctx' : BlockCtx} {height : Height} {n : U32}

/-- A rotation decides every record, and makes none. -/
theorem recompute_get (hk : Filed ctx.state) (hsame : ctx.commit.validators = ctx.state.validators)
    (h : recomputeValidatorSet ctx height = .ok (ctx', n)) (node : NodeId) :
    ctx'.commit.validators.get node =
      (ctx.state.validators.get node).bind (decided (rotatesInBootstrap ctx height) ctx.state) := by
  have hmem : ∀ c ∈ rankCandidates ctx, ctx.state.validators.get c.info.nodeId = some c.info ∧
      c.totalStake = validatorStake ctx.state c.info.nodeId :=
    fun c hc => (mem_candidates hk).mp (Selection.mem_of_mem_top _ _ hc)
  by_cases hnode : ∃ c ∈ rankCandidates ctx, c.info.nodeId = node
  · obtain ⟨c, hc, rfl⟩ := hnode
    have hranked : Ranked ctx.state c.info.nodeId := ⟨c, hc, rfl⟩
    rw [recompute_ranked hk h hc, (hmem c hc).1, Option.bind_some, decided, if_pos hranked,
      ← (hmem c hc).2]
  · have hnone : ∀ c ∈ rankCandidates ctx, c.info.nodeId ≠ node :=
      fun c hc heq => hnode ⟨c, hc, heq⟩
    rw [recompute_unranked h hnone, hsame]
    cases hget : ctx.state.validators.get node with
    | none => rfl
    | some info =>
      have hunranked : ¬ Ranked ctx.state info.nodeId := by
        rw [hk node info hget]
        exact hnode
      rw [Option.bind_some, decided, if_neg hunranked]

/-- Two rotations of the same records leave the same records exactly when every record fares alike
under the stakes of both. -/
theorem recompute_agree {fresh fresh' : BlockCtx} {m : U32} (hk : Filed ctx.state)
    (hsame : ctx.commit.validators = ctx.state.validators)
    (hbase : fresh.state.validators = ctx.state.validators)
    (hpend : fresh.commit.validators = ctx.state.validators)
    (h : recomputeValidatorSet ctx height = .ok (ctx', n))
    (h' : recomputeValidatorSet fresh height = .ok (fresh', m)) :
    ctx'.commit.validators = fresh'.commit.validators ↔
      ∀ node info, ctx.state.validators.get node = some info →
        SameStanding (rotatesInBootstrap ctx height) ctx.state fresh.state info := by
  have hk' : Filed fresh.state := by
    unfold Filed
    rw [hbase]
    exact hk
  have hboot : rotatesInBootstrap fresh height = rotatesInBootstrap ctx height := by
    simp only [rotatesInBootstrap, rankCandidates_eq, Selection.length_top, length_candidates,
      State.iterValidators, hbase]
  have hget := recompute_get hk hsame h
  have hget' := recompute_get hk' (hpend.trans hbase.symm) h'
  constructor
  · intro heq node info hnode
    have hboth := hget node
    rw [heq, hget' node, hbase, hnode, hboot] at hboth
    exact decided_eq_iff.mp hboth.symm
  · intro hall
    apply Column.ext_get
    intro node
    rw [hget node, hget' node, hbase, hboot]
    cases hnode : ctx.state.validators.get node with
    | none => rfl
    | some info => exact decided_eq_iff.mpr (hall node info hnode)

end

section

variable {K : Primitives} {s s' : State} {b : Block} {r : Replay}

theorem beforeHooks_ok {ctx : BlockCtx} : beforeHooks K s b = .ok ctx ↔
    ∃ ctx₁ os, applyTxs K s.beginBlock b.txs = .ok (ctx₁, os) ∧
      b.txs.foldlM (dispatchSlash K) ctx₁ = .ok ctx := by
  simp only [beforeHooks, bind_eq_ok, Prod.exists]

/-- Transactions and slashes write no validator record. -/
theorem beforeHooks_validators {ctx : BlockCtx} (h : beforeHooks K s b = .ok ctx) :
    ctx.state = s ∧ ctx.commit.validators = s.validators := by
  obtain ⟨ctx₁, os, h₁, h₂⟩ := beforeHooks_ok.mp h
  have htxs : ctx₁.state = s ∧ ctx₁.commit.validators = s.validators :=
    applyTxs_invariant (P := fun c => c.commit.validators = s.validators)
      (fun c c' stx o _ _ hc happ => (applyTx_frame happ).validators.trans hc) rfl rfl h₁
  refine foldlM_invariant (fun c => c.state = s ∧ c.commit.validators = s.validators) _ _ ?_ htxs h₂
  rintro c c' stx - ⟨hs, hv⟩ hd
  refine ⟨(dispatchSlash_frame hd).state.trans hs, ?_⟩
  obtain rfl | ⟨d, report, -, -, hslash⟩ := dispatchSlash_ok hd
  · exact hv
  · obtain ⟨a, st, u, hc⟩ := applySlash_commit hslash
    rw [hc]
    exact hv

/-- At a boundary the records of the store are those of the rotation. -/
theorem replay_rotates (hb : isEpochBoundary b.header.height = true) (h : replayBlock K s b = .ok r) :
    ∃ ctx rotated n, beforeHooks K s b = .ok ctx ∧
      recomputeValidatorSet ctx b.header.height = .ok (rotated, n) ∧
      r.ctx.commit.validators = rotated.commit.validators := by
  obtain ⟨ctx₁, ctx₂, ctx₃, fee, h₁, h₂, h₃, hr⟩ := replayBlock_ok h
  obtain ⟨hoff, -⟩ | ⟨-, rotated, n, paid, g₁, g₂, g₃⟩ := epochHooks_ok h₃
  · rw [hb] at hoff
    cases hoff
  · refine ⟨ctx₂, rotated, n, beforeHooks_ok.mpr ⟨ctx₁, _, h₁, h₂⟩, g₁, ?_⟩
    obtain ⟨a, rewards, hmint⟩ := epochBoundaryMint_commit g₂
    obtain ⟨a', proposals, hgov⟩ := processGovernanceProposals_commit g₃
    rw [hr]
    simp only [BlockCtx.setBaseFee_commit, BlockCtx.setCurrentHeight_commit, hgov, hmint]

/-- At a boundary the decisions are those of the stakes after the block's own transactions and slashes
if and only if every record fares alike under the committed stakes and under these. -/
theorem rotation_sees_block (hk : Filed s) (hb : isEpochBoundary b.header.height = true)
    (h : replayBlock K s b = .ok r) :
    SeesBlock K s b r ↔ ∀ ctx, beforeHooks K s b = .ok ctx →
      ∀ node info, s.validators.get node = some info →
        SameStanding (rotatesInBootstrap s.beginBlock b.header.height) s ctx.commit info := by
  obtain ⟨ctx, rotated, n, hctx, hrot, hrecords⟩ := replay_rotates hb h
  obtain ⟨hs, hv⟩ := beforeHooks_validators hctx
  obtain ⟨fresh, m, hfresh⟩ := recomputeValidatorSet_isOk ctx.commit.beginBlock b.header.height
  subst hs
  have hfreshBase : ctx.commit.beginBlock.state.validators = ctx.state.validators := hv
  have hagree := recompute_agree hk hv hfreshBase hv hrot hfresh
  have hall : (∀ c, beforeHooks K ctx.state b = .ok c → ∀ node info,
      ctx.state.validators.get node = some info →
        SameStanding (rotatesInBootstrap ctx.state.beginBlock b.header.height) ctx.state c.commit info) ↔
      ∀ node info, ctx.state.validators.get node = some info →
        SameStanding (rotatesInBootstrap ctx b.header.height) ctx.state ctx.commit info := by
    constructor
    · intro hc
      exact hc ctx hctx
    · intro hstand c hc
      rw [hctx] at hc
      obtain rfl := Except.ok.inj hc
      exact hstand
  rw [hall]
  refine Iff.trans ?_ hagree
  rw [← hrecords]
  constructor
  · intro hsees
    exact hsees ctx fresh m hctx hfresh
  · intro heq c f k hc hf
    rw [hctx] at hc
    obtain rfl := Except.ok.inj hc
    rw [hfresh] at hf
    obtain ⟨rfl, -⟩ := Prod.mk.inj (Except.ok.inj hf)
    exact heq

/-- Committed blocks keep the records filed. -/
theorem commits_filed (hk : Filed s) (h : Commits K s b r s') : Filed s' := by
  obtain ⟨blocks, idx, hp⟩ := persist_columns (K := K) r.ctx b
  have hrecords : s'.validators = r.ctx.commit.validators := by
    rw [h.stored, hp]
  unfold Filed
  rw [hrecords]
  by_cases hb : isEpochBoundary b.header.height = true
  · obtain ⟨ctx, rotated, n, hctx, hrot, heq⟩ := replay_rotates hb h.replay
    obtain ⟨rfl, hv⟩ := beforeHooks_validators hctx
    intro node info hget
    rw [heq, recompute_get hk hv hrot node] at hget
    obtain ⟨old, hold, hdec⟩ := Option.bind_eq_some_iff.mp hget
    have hid := hk node old hold
    unfold decided seatOrEvict at hdec
    split at hdec
    · split at hdec
      · obtain rfl := Option.some.inj hdec
        exact hid
      · cases hdec
    · obtain rfl := Option.some.inj hdec
      exact hid
  · obtain ⟨ctx₁, ctx₂, ctx₃, fee, h₁, h₂, h₃, hr⟩ := replayBlock_ok h.replay
    obtain ⟨-, rfl, -⟩ | ⟨hon, -⟩ := epochHooks_ok h₃
    · have hv := (beforeHooks_validators (beforeHooks_ok.mpr ⟨ctx₁, _, h₁, h₂⟩)).2
      rw [hr]
      simp only [BlockCtx.setBaseFee_commit, BlockCtx.setCurrentHeight_commit, hv]
      exact hk
    · exact absurd hon hb

end

/-! ### A deposit in the boundary block -/

def bonderKey : List UInt8 := List.replicate 32 7

def bonder : Address := deriveAddressFromSigner toyPrimitives ⟨.ed25519, bonderKey⟩

/-- Node 1 is registered without stake; its operator holds sixty thousand ARK. -/
def unstakedNode : State := { State.empty with
  accounts := Column.empty.insert bonder ⟨60000000000000, 0⟩
  validators := Column.empty.insert 1 { validatorRecord 1 with operator := bonder }
  metaHeight := some 15551999 }

/-- The operator stakes on its node. -/
def bondTx (amount : Amount) : SignedTransaction :=
  toySigned bonderKey (.stakeOp (.deposit 1 .validator none amount none))

theorem bonded_replays : (replayBlock toyPrimitives unstakedNode
    (bodyAt postBootstrap [bondTx 50000000000000])).toOption.isSome = true := by decide

theorem bonded_hooks : (beforeHooks toyPrimitives unstakedNode
    (bodyAt postBootstrap [bondTx 50000000000000])).toOption.isSome = true := by decide

theorem bonded_rotates : (recomputeValidatorSet (returned _ bonded_hooks).commit.beginBlock
    postBootstrap).toOption.isSome = true := by decide

/-- The deposit is applied in the boundary block and its validator is evicted by it for want of stake. -/
theorem bonded_evicted :
    (bondTx 50000000000000).verifies toyPrimitives = true ∧
      (returned _ bonded_replays).outcomes = [.applied 50000] ∧
      validatorStake (returned _ bonded_hooks).commit 1 = 50000000000000 ∧
      (returned _ bonded_replays).ctx.commit.validators.get 1 = none ∧
      ¬ SeesBlock toyPrimitives unstakedNode (bodyAt postBootstrap [bondTx 50000000000000])
        (returned _ bonded_replays) := by
  refine ⟨by decide, by decide, by decide, by decide, fun hsees => ?_⟩
  have heq := congrArg (fun records => records.get 1)
    (hsees _ _ _ (eq_ok_returned bonded_hooks) (eq_ok_returned_pair bonded_rotates))
  revert heq
  decide

/-- A boundary block without stake operations sees all the stake there is. -/
theorem idle_replays : (replayBlock toyPrimitives stakedPair
    (bodyAt postBootstrap [])).toOption.isSome = true := by decide

theorem rotation_sees_idle : SeesBlock toyPrimitives stakedPair (bodyAt postBootstrap [])
    (returned _ idle_replays) := by
  refine (rotation_sees_block (filed_of_entries (by decide)) (by decide)
    (eq_ok_returned idle_replays)).mpr ?_
  intro ctx hctx node info _
  obtain rfl : stakedPair.beginBlock = ctx := Except.ok.inj hctx
  exact decided_eq_iff.mp rfl

end Arknet.Laws
