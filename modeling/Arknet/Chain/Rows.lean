import Arknet.Lib.PrefixScan
import Arknet.Chain.Encoding

/-!
The composite columns as the store holds them: byte strings under byte strings, in ascending byte
order. The typed columns of the state are these rows read through the key layouts.
-/

namespace Arknet.Chain

open Machine Borsh Store

instance uint8LinearOrder : LinearOrder UInt8 where
  le_refl := UInt8.le_refl
  le_trans _ _ _ := UInt8.le_trans
  lt_iff_le_not_ge a b := by rw [UInt8.lt_iff_toNat_lt, UInt8.le_iff_toNat_le, UInt8.le_iff_toNat_le]; omega
  le_antisymm _ _ := UInt8.le_antisymm
  le_total := UInt8.le_total
  toDecidableLE := inferInstance

/-! ## Keys -/

/-- `role as u8` -/
def StakeRole.byte (r : StakeRole) : UInt8 := UInt8.ofNat r.toNat

/-- `choice as u8` -/
def VoteChoice.byte : VoteChoice → UInt8
  | .yes => 0x01
  | .no => 0x02
  | .abstain => 0x03
  | .noWithVeto => 0x04

/-- A presence flag, then the bytes if there are any. -/
def flagged {n : Nat} : Option (Bytes n) → List UInt8
  | some b => 1 :: b.toList
  | none => [0]

/-- `node_id(32) | role(1) | pool_present(1) | pool(16?) | delegator_present(1) | delegator(20?)` -/
def stakeKey (nodeId : NodeId) (role : StakeRole) (poolId : Option PoolId)
    (delegator : Option Address) : List UInt8 :=
  nodeId.toList ++ (role.byte :: (flagged poolId ++ flagged delegator))

/-- `node_id(32) | u64 BE unbond_id(8)` -/
def unbondKey (nodeId : NodeId) (unbondId : U64) : List UInt8 := nodeId.toList ++ beBytes 8 unbondId.val

/-- `proposal_id(8 BE) || voter(20)` -/
def govVoteKey (proposalId : U64) (voter : Address) : List UInt8 :=
  beBytes 8 proposalId.val ++ voter.toList

/-! ## Values -/

def StakeRole.ofByte (b : UInt8) : Option StakeRole :=
  if b = 1 then some .validator
  else if b = 2 then some .router
  else if b = 3 then some .verifier
  else if b = 4 then some .compute
  else none

def StakeRole.codec : Codec StakeRole := Codec.byte.pmap
  { toFun := ofByte
    invFun := fun r => some r.byte
    inv := by
      intro b r
      unfold ofByte
      constructor
      · intro h
        obtain rfl := Option.some.inj h
        cases r <;> rfl
      · intro h
        split_ifs at h
        all_goals
          obtain rfl := Option.some.inj h
          subst b
          rfl }

def StakeEntry.codec : Codec StakeEntry :=
  ((Bytes.codec 32).prod (StakeRole.codec.prod ((Bytes.codec 16).option.prod
    ((Bytes.codec 20).option.prod (Codec.u128.prod Codec.u64))))).map
    { toFun := fun t => ⟨t.1, t.2.1, t.2.2.1, t.2.2.2.1, t.2.2.2.2.1, t.2.2.2.2.2⟩
      invFun := fun e => (e.nodeId, e.role, e.poolId, e.delegator, e.amount, e.bondedAt)
      left_inv := fun _ => rfl
      right_inv := fun _ => rfl }

def UnbondingEntry.codec : Codec UnbondingEntry :=
  (Codec.u64.prod ((Bytes.codec 32).prod (StakeRole.codec.prod ((Bytes.codec 16).option.prod
    ((Bytes.codec 20).option.prod (Codec.u128.prod (Codec.u64.prod Codec.u64))))))).map
    { toFun := fun t =>
        ⟨t.1, t.2.1, t.2.2.1, t.2.2.2.1, t.2.2.2.2.1, t.2.2.2.2.2.1, t.2.2.2.2.2.2.1, t.2.2.2.2.2.2.2⟩
      invFun := fun e =>
        (e.unbondId, e.nodeId, e.role, e.poolId, e.delegator, e.amount, e.startedAt, e.completesAt)
      left_inv := fun _ => rfl
      right_inv := fun _ => rfl }

/-! ## Rows -/

/-- A column family, in the byte order of its keys. -/
abbrev Rows := Column (List UInt8) (List UInt8)

/-- `ChainError::Codec`, by the step that failed. -/
inductive ChainError where
  | codec (step : String)
  deriving DecidableEq, Repr

def encoded {α : Type} (c : Codec α) (step : String) (a : α) : Except ChainError (List UInt8) :=
  match c.encode a with
  | some bytes => .ok bytes
  | none => .error (.codec step)

def decoded {α : Type} (c : Codec α) (step : String) (bytes : List UInt8) : Except ChainError α :=
  match c.fromSlice bytes with
  | some a => .ok a
  | none => .error (.codec step)

namespace Rows

/-- An entry without stake is not kept. -/
def setStake (rows : Rows) (nodeId : NodeId) (role : StakeRole) (poolId : Option PoolId)
    (delegator : Option Address) (entry : StakeEntry) : Except ChainError Rows :=
  if entry.isEmpty then pure (rows.erase (stakeKey nodeId role poolId delegator))
  else do
    let bytes ← encoded StakeEntry.codec "stake encode" entry
    pure (rows.insert (stakeKey nodeId role poolId delegator) bytes)

def setUnbonding (rows : Rows) (nodeId : NodeId) (entry : UnbondingEntry) : Except ChainError Rows := do
  let bytes ← encoded UnbondingEntry.codec "unbonding encode" entry
  pure (rows.insert (unbondKey nodeId entry.unbondId) bytes)

def deleteUnbonding (rows : Rows) (nodeId : NodeId) (unbondId : U64) : Rows :=
  rows.erase (unbondKey nodeId unbondId)

/-- The write of `apply_gov_vote`: one byte. -/
def setVote (rows : Rows) (proposalId : U64) (voter : Address) (choice : VoteChoice) : Rows :=
  rows.insert (govVoteKey proposalId voter) [choice.byte]

def iterStakesForNode (rows : Rows) (nodeId : NodeId) : Except ChainError (List StakeEntry) :=
  (rows.prefixScan nodeId.toList).mapM fun kv => decoded StakeEntry.codec "stake decode" kv.2

def iterUnbondingsForNode (rows : Rows) (nodeId : NodeId) : Except ChainError (List UnbondingEntry) :=
  (rows.prefixScan nodeId.toList).mapM fun kv => decoded UnbondingEntry.codec "unbonding decode" kv.2

/-- One row of a proposal: skipped unless the key has the length of a vote key and the first byte of the
value is a choice. -/
def readVote (k v : List UInt8) : Option (Address × VoteChoice) :=
  if k.length ≠ 28 then none
  else
    (Bytes.codec 20).fromSlice ((k.drop 8).take 20) |>.bind fun voter =>
      match v with
      | [] => none
      | b :: _ =>
        if b = 0x01 then some (voter, .yes)
        else if b = 0x02 then some (voter, .no)
        else if b = 0x03 then some (voter, .abstain)
        else if b = 0x04 then some (voter, .noWithVeto)
        else none

def iterVotesForProposal (rows : Rows) (proposalId : U64) : List (Address × VoteChoice) :=
  (rows.prefixScan (beBytes 8 proposalId.val)).filterMap fun kv => readVote kv.1 kv.2

end Rows

end Arknet.Chain
