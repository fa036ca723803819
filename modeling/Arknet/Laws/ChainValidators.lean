import Arknet.Consensus.Validators

/-!
The validator set of consensus. It is sorted by construction; whether a validator is found under its own
address, whether the order of the records shows, and whether the total power is the sum, all come down to
distinct operators and to powers that fit into 64 bits. The checks of the genesis file ask for neither.
-/

namespace Arknet.Laws

open Machine Selection Arknet.Chain Arknet.Consensus

section

variable {PublicKey : Type}

/-! ## The law -/

/-- The set is the same for every order of the records and sorted; every member is there once and found
under its own address; and the total power is the sum of the members'. -/
structure WellAddressed (fromBytes : List UInt8 → Exec PublicKey) (infos : List ValidatorInfo)
    (set : ChainValidatorSet PublicKey) : Prop where
  orderFree : ∀ infos' : List ValidatorInfo, infos'.Perm infos →
    ChainValidatorSet.fromInfos fromBytes infos' = .ok (.ok set)
  sorted : set.validators.Pairwise fun a b => b.votingPower < a.votingPower ∨
    (b.votingPower = a.votingPower ∧ a.address ≤ b.address)
  once : set.validators.Nodup
  own : ∀ v ∈ set.validators, set.getByAddress v.address = some v
  total : set.totalVotingPower.val = (set.validators.map fun v => v.votingPower.val).sum

/-- The active records have operators of their own and powers with a sum below `2 ^ 64`. -/
structure DistinctOperators (infos : List ValidatorInfo) : Prop where
  operators : ((infos.filter isActiveValidator).map ValidatorInfo.operator).Nodup
  powers : ((infos.filter isActiveValidator).map fun info => info.votingPower.val).sum < 2 ^ 64

/-! ## Total power -/

theorem foldl_satAdd_val (powers : List U64) (acc : U64) : (powers.foldl satAdd acc).val =
    min (acc.val + (powers.map Fin.val).sum) (2 ^ 64 - 1) := by
  induction powers generalizing acc with
  | nil =>
    have hacc := acc.isLt
    simp only [List.foldl_nil, List.map_nil, List.sum_nil]
    omega
  | cons p powers ih =>
    rw [List.foldl_cons, ih, satAdd_val, List.map_cons, List.sum_cons]
    omega

theorem totalVotingPower_eq_sum (set : ChainValidatorSet PublicKey) :
    set.totalVotingPower.val = (set.validators.map fun v => v.votingPower.val).sum ↔
      (set.validators.map fun v => v.votingPower.val).sum < 2 ^ 64 := by
  have hfold := foldl_satAdd_val (set.validators.map ChainValidator.votingPower) 0
  rw [List.map_map] at hfold
  have hzero : (0 : U64).val = 0 := rfl
  have htotal : set.totalVotingPower.val =
      min (set.validators.map fun v => v.votingPower.val).sum (2 ^ 64 - 1) := by
    rw [ChainValidatorSet.totalVotingPower, hfold, hzero, Nat.zero_add]
    rfl
  rw [htotal]
  omega

/-! ## Members and records -/

variable {fromBytes : List UInt8 → Exec PublicKey} {infos : List ValidatorInfo}
  {set : ChainValidatorSet PublicKey}

/-- Members and active records correspond, field by field. -/
theorem members_map {β : Type} {f : ChainValidator PublicKey → β} {g : ValidatorInfo → β}
    (hfg : ∀ info v, built? fromBytes info = some v → f v = g info)
    (h : ChainValidatorSet.fromInfos fromBytes infos = .ok (.ok set)) :
    (set.validators.map f).Perm ((infos.filter isActiveValidator).map g) := by
  obtain ⟨hall, -, hset⟩ := fromInfos_ok.mp h
  rw [hset]
  refine ((List.perm_insertionSort _ _).map f).trans (List.Perm.of_eq ?_)
  generalize infos.filter isActiveValidator = active at hall
  induction active with
  | nil => rfl
  | cons info active ih =>
    obtain ⟨hfirst, hrest⟩ := List.forall_mem_cons.mp hall
    obtain ⟨v, hv⟩ := Option.isSome_iff_exists.mp hfirst
    rw [List.filterMap_cons_some hv, List.map_cons, List.map_cons, ih hrest, hfg info v hv]

theorem members_operators (h : ChainValidatorSet.fromInfos fromBytes infos = .ok (.ok set)) :
    (set.validators.map ChainValidator.address).Nodup ↔
      ((infos.filter isActiveValidator).map ValidatorInfo.operator).Nodup :=
  (members_map (fun _ _ hv => (built?_fields hv).1) h).nodup_iff

theorem members_powers (h : ChainValidatorSet.fromInfos fromBytes infos = .ok (.ok set)) :
    (set.validators.map fun v => v.votingPower.val).sum =
      ((infos.filter isActiveValidator).map fun info => info.votingPower.val).sum :=
  (members_map (fun _ _ hv => congrArg Fin.val (built?_fields hv).2) h).sum_eq

/-- With distinct operators the order of the records does not show. -/
theorem fromInfos_perm (h : ChainValidatorSet.fromInfos fromBytes infos = .ok (.ok set))
    (hnames : ((infos.filter isActiveValidator).map ValidatorInfo.operator).Nodup)
    {infos' : List ValidatorInfo} (hperm : infos'.Perm infos) :
    ChainValidatorSet.fromInfos fromBytes infos' = .ok (.ok set) := by
  have hmembers := (members_operators h).mpr hnames
  obtain ⟨hall, hne, hset⟩ := fromInfos_ok.mp h
  have hactive := hperm.filter isActiveValidator
  have hbuilt := hactive.filterMap (built? fromBytes)
  refine fromInfos_ok.mpr ⟨fun info hinfo => hall info (hactive.subset hinfo), ?_, ?_⟩
  · intro hempty
    rw [hempty] at hbuilt
    exact hne hbuilt.nil_eq.symm
  · rw [hset] at hmembers ⊢
    have hnodup := (((List.perm_insertionSort ChainValidator.before _).map _).nodup_iff).mp hmembers
    exact sort_unique hbuilt.symm hnodup

/-- The set of any list of records is well addressed exactly when the operators of the active ones are
distinct and their powers do not saturate. -/
theorem set_well_addressed (h : ChainValidatorSet.fromInfos fromBytes infos = .ok (.ok set)) :
    WellAddressed fromBytes infos set ↔ DistinctOperators infos := by
  have hown : (set.validators.Nodup ∧ ∀ v ∈ set.validators, set.getByAddress v.address = some v) ↔
      (set.validators.map ChainValidator.address).Nodup := find_own_iff
  constructor
  · intro hwell
    refine ⟨(members_operators h).mp (hown.mp ⟨hwell.once, hwell.own⟩), ?_⟩
    rw [← members_powers h]
    exact (totalVotingPower_eq_sum set).mp hwell.total
  · rintro ⟨hnames, hpowers⟩
    obtain ⟨honce, hfound⟩ := hown.mpr ((members_operators h).mpr hnames)
    rw [← members_powers h] at hpowers
    exact {
      orderFree := fun _ hperm => fromInfos_perm h hnames hperm
      sorted := set.sorted
      once := honce
      own := hfound
      total := (totalVotingPower_eq_sum set).mpr hpowers }

end

/-! ## Two genesis files -/

def genesisValidator (key : UInt8) (operator : Address) (votingPower : U64) : ValidatorInfo where
  nodeId := toyPrimitives.blake3 (List.replicate 32 key)
  consensusKey := ⟨.ed25519, List.replicate 32 key⟩
  operator := operator
  bondedStake := 0
  votingPower := votingPower
  isGenesis := true
  jailed := false

def genesisOf (validators : List ValidatorInfo) : GenesisConfig where
  chainId := "arknet-devnet-1"
  initialHeight := 0
  validators := validators
  initialAccounts := []
  params := ⟨1000000000, 15000000, 30000000⟩
  genesisMessage := ""
  models := []

def twoOperators : List ValidatorInfo := [genesisValidator 1 7 1, genesisValidator 2 8 3]

/-- Two nodes of one operator. -/
def oneOperator : List ValidatorInfo := [genesisValidator 1 7 1, genesisValidator 2 7 1]

theorem twoOperators_addressed : ∃ set : ChainValidatorSet (List UInt8),
    ChainValidatorSet.fromInfos pure twoOperators = .ok (.ok set) ∧
      (WellAddressed pure twoOperators set ↔ DistinctOperators twoOperators) :=
  ⟨_, rfl, set_well_addressed rfl⟩

/-- The file is accepted. The second node's votes are checked under the key of the first, and under the
other order of the records it is the first node's votes that are. -/
theorem one_operator_two_keys : validateGenesis (genesisOf oneOperator) = .ok () ∧
    ∃ set set' : ChainValidatorSet (List UInt8),
      ChainValidatorSet.fromInfos pure oneOperator = .ok (.ok set) ∧
      ChainValidatorSet.fromInfos pure oneOperator.reverse = .ok (.ok set') ∧
      (∃ v ∈ set.validators, v.publicKey = List.replicate 32 2 ∧
        (set.getByAddress v.address).map ChainValidator.publicKey = some (List.replicate 32 1)) ∧
      set.validators ≠ set'.validators :=
  ⟨rfl, _, _, rfl, rfl, by decide, by decide⟩

end Arknet.Laws
