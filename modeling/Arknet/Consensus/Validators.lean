import Arknet.Chain.Genesis
import Arknet.Lib.Selection

/-!
The validator set as consensus sees it: the active records, with the key that votes and proposals are
verified under, sorted by voting power and then by address.
-/

namespace Arknet.Consensus

open Machine Selection Arknet.Chain

/-- `info.is_active()`. -/
def isActiveValidator (info : ValidatorInfo) : Bool := !info.jailed && decide (0 < info.votingPower)

structure ChainValidator (PublicKey : Type) where
  address : Address
  publicKey : PublicKey
  votingPower : U64
  deriving DecidableEq, Repr

/-- Power descending, then address ascending. -/
def ChainValidator.before {PublicKey : Type} : ChainValidator PublicKey → ChainValidator PublicKey → Prop :=
  HeaviestFirst ChainValidator.votingPower ChainValidator.address

instance {PublicKey : Type} : DecidableRel (@ChainValidator.before PublicKey) :=
  inferInstanceAs (DecidableRel (HeaviestFirst _ _))

instance {PublicKey : Type} : Std.Total (@ChainValidator.before PublicKey) :=
  inferInstanceAs (Std.Total (HeaviestFirst _ _))

instance {PublicKey : Type} : IsTrans (ChainValidator PublicKey) ChainValidator.before :=
  inferInstanceAs (IsTrans _ (HeaviestFirst _ _))

structure ChainValidatorSet (PublicKey : Type) where
  validators : List (ChainValidator PublicKey)
  sorted : validators.Pairwise ChainValidator.before

section

-- `PublicKey::from_bytes` of the consensus library aborts where the bytes are no curve point.
variable {PublicKey : Type} (fromBytes : List UInt8 → Exec PublicKey)

def ChainValidator.fromInfo (info : ValidatorInfo) : Exec (Except String (ChainValidator PublicKey)) :=
  if info.consensusKey.bytes.length ≠ 32 then
    pure (.error ("validator " ++ toString info.nodeId.val.val ++ " has " ++
      toString info.consensusKey.bytes.length ++ "-byte pubkey, expected 32 (Ed25519)"))
  else do
    let publicKey ← fromBytes info.consensusKey.bytes
    pure (.ok ⟨info.operator, publicKey, info.votingPower⟩)

/-- The loop over the records. -/
def collectValidators (validators : List (ChainValidator PublicKey)) :
    List ValidatorInfo → Exec (Except String (List (ChainValidator PublicKey)))
  | [] => pure (.ok validators)
  | info :: infos =>
    if info.jailed || !isActiveValidator info then collectValidators validators infos
    else do
      let built ← ChainValidator.fromInfo fromBytes info
      match built with
      | .error e => pure (.error e)
      | .ok validator => collectValidators (validators ++ [validator]) infos

namespace ChainValidatorSet

def fromInfos (infos : List ValidatorInfo) : Exec (Except String (ChainValidatorSet PublicKey)) :=
  if infos.isEmpty then pure (.error "validator set is empty")
  else do
    let collected ← collectValidators fromBytes [] infos
    match collected with
    | .error e => pure (.error e)
    | .ok validators =>
      if validators.isEmpty then
        pure (.error "validator set has no active validators (all jailed or zero power)")
      else
        pure (.ok ⟨validators.insertionSort ChainValidator.before, List.pairwise_insertionSort _ _⟩)

def totalVotingPower (set : ChainValidatorSet PublicKey) : U64 :=
  (set.validators.map ChainValidator.votingPower).foldl satAdd 0

def getByAddress (set : ChainValidatorSet PublicKey) (address : Address) :
    Option (ChainValidator PublicKey) :=
  set.validators.find? fun v => v.address = address

end ChainValidatorSet

end

/-! ## What is built -/

section

variable {PublicKey : Type} {fromBytes : List UInt8 → Exec PublicKey}

/-- The validator of a record, where there is one. -/
def built? (fromBytes : List UInt8 → Exec PublicKey) (info : ValidatorInfo) :
    Option (ChainValidator PublicKey) :=
  match ChainValidator.fromInfo fromBytes info with
  | .ok (.ok v) => some v
  | _ => none

theorem built?_eq_some {info : ValidatorInfo} {v : ChainValidator PublicKey} :
    built? fromBytes info = some v ↔ ChainValidator.fromInfo fromBytes info = .ok (.ok v) := by
  unfold built?
  split
  · rename_i v' heq
    simp [heq]
  · rename_i hnot
    constructor
    · intro h
      cases h
    · intro h
      exact absurd h (hnot v)

theorem built?_fields {info : ValidatorInfo} {v : ChainValidator PublicKey}
    (h : built? fromBytes info = some v) : v.address = info.operator ∧ v.votingPower = info.votingPower := by
  rw [built?_eq_some, ChainValidator.fromInfo] at h
  split_ifs at h
  · cases h
  · obtain ⟨publicKey, -, hv⟩ := bind_eq_ok.mp h
    cases hv
    exact ⟨rfl, rfl⟩

/-- The active records, each built into its validator. -/
theorem collectValidators_ok {acc vs : List (ChainValidator PublicKey)} {infos : List ValidatorInfo} :
    collectValidators fromBytes acc infos = .ok (.ok vs) ↔
      (∀ info ∈ infos.filter isActiveValidator, (built? fromBytes info).isSome) ∧
        vs = acc ++ (infos.filter isActiveValidator).filterMap (built? fromBytes) := by
  induction infos generalizing acc with
  | nil =>
    rw [collectValidators, pure_eq_ok, Except.ok.injEq]
    simp [eq_comm (a := vs)]
  | cons info infos ih =>
    have hskip : (info.jailed || !isActiveValidator info) = !isActiveValidator info := by
      cases hj : info.jailed <;> simp [isActiveValidator, hj]
    rw [collectValidators, hskip]
    cases hactive : isActiveValidator info with
    | false =>
      rw [List.filter_cons_of_neg (by simp [hactive])]
      exact ih
    | true =>
      rw [List.filter_cons_of_pos hactive]
      simp only [Bool.not_true, Bool.false_eq_true, ↓reduceIte, bind_eq_ok, List.forall_mem_cons]
      cases hbuilt : built? fromBytes info with
      | none =>
        simp only [Option.isSome_none, Bool.false_eq_true, false_and, iff_false]
        rintro ⟨built, hfrom, hrest⟩
        cases built with
        | error e => cases hrest
        | ok v =>
          rw [← built?_eq_some, hbuilt] at hfrom
          cases hfrom
      | some v =>
        rw [built?_eq_some] at hbuilt
        have hmap := List.filterMap_cons_some (built?_eq_some.mpr hbuilt)
          (l := infos.filter isActiveValidator)
        rw [hmap]
        constructor
        · rintro ⟨built, hfrom, hrest⟩
          rw [hbuilt] at hfrom
          cases hfrom
          obtain ⟨hall, hvs⟩ := ih.mp hrest
          exact ⟨⟨rfl, hall⟩, by rw [hvs, List.append_assoc, List.singleton_append]⟩
        · rintro ⟨⟨-, hall⟩, hvs⟩
          refine ⟨.ok v, hbuilt, ih.mpr ⟨hall, ?_⟩⟩
          rw [hvs, List.append_assoc, List.singleton_append]

/-- The set is the sorted list of the validators of the active records. -/
theorem fromInfos_ok {infos : List ValidatorInfo} {set : ChainValidatorSet PublicKey} :
    ChainValidatorSet.fromInfos fromBytes infos = .ok (.ok set) ↔
      (∀ info ∈ infos.filter isActiveValidator, (built? fromBytes info).isSome) ∧
      (infos.filter isActiveValidator).filterMap (built? fromBytes) ≠ [] ∧
      set.validators = ((infos.filter isActiveValidator).filterMap (built? fromBytes)).insertionSort
        ChainValidator.before := by
  unfold ChainValidatorSet.fromInfos
  cases infos with
  | nil => simp
  | cons info infos =>
    rw [if_neg (by simp), bind_eq_ok]
    constructor
    · rintro ⟨collected, hcollected, h⟩
      cases collected with
      | error e => cases h
      | ok vs =>
        obtain ⟨hall, rfl⟩ := collectValidators_ok.mp hcollected
        rw [List.nil_append] at h
        dsimp only at h
        split_ifs at h with hempty
        · cases h
        · cases h
          exact ⟨hall, by simpa using hempty, rfl⟩
    · rintro ⟨hall, hne, hset⟩
      refine ⟨.ok _, collectValidators_ok.mpr ⟨hall, rfl⟩, ?_⟩
      rw [List.nil_append]
      dsimp only
      rw [if_neg (by simpa using hne), pure_eq_ok, Except.ok.injEq]
      obtain ⟨validators, hsorted⟩ := set
      subst hset
      rfl

end

end Arknet.Consensus
