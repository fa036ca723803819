import Arknet.Chain.Rows
import Arknet.Chain.State

/-!
The composite columns at the level of bytes. Each key layout keeps the order of the keys it lays out, so
the rows are an image of the typed column, and the rows with the prefix of a node or a proposal are its
entries.
-/

namespace Arknet.Laws

open Machine Borsh Store Arknet.Chain

/-! ## The order of the fields -/

theorem beBytes_succ (k n : Nat) : beBytes (k + 1) n = beBytes k (n / 256) ++ [UInt8.ofNat n] := by
  simp [beBytes, leBytes]

/-- Big-endian words are ordered as numbers. -/
theorem beBytes_lt_iff {k m n : Nat} (hm : m < 256 ^ k) (hn : n < 256 ^ k) :
    beBytes k m < beBytes k n ↔ m < n := by
  induction k generalizing m n with
  | zero =>
    have hm0 : m = 0 := by simpa using hm
    have hn0 : n = 0 := by simpa using hn
    subst hm0
    subst hn0
    exact iff_of_false (lt_irrefl _) (lt_irrefl _)
  | succ k ih =>
    have hmq : m / 256 < 256 ^ k := by rw [Nat.div_lt_iff_lt_mul (by omega), ← Nat.pow_succ]; exact hm
    have hnq : n / 256 < 256 ^ k := by rw [Nat.div_lt_iff_lt_mul (by omega), ← Nat.pow_succ]; exact hn
    have hinj : beBytes k (m / 256) = beBytes k (n / 256) ↔ m / 256 = n / 256 :=
      ⟨beBytes_inj hmq hnq, fun h => by rw [h]⟩
    have hlast : [UInt8.ofNat m] < [UInt8.ofNat n] ↔ m % 256 < n % 256 := by
      rw [List.cons_lt_cons_iff, UInt8.lt_iff_toNat_lt, UInt8.toNat_ofNat', UInt8.toNat_ofNat']
      simp
    rw [beBytes_succ, beBytes_succ, append_lt_append_iff (by simp), ih hmq hnq, hinj, hlast]
    omega

theorem toList_lt_iff {n : Nat} {a b : Bytes n} : a.toList < b.toList ↔ a < b := by
  rw [Bytes.toList_eq_beBytes, Bytes.toList_eq_beBytes, beBytes_lt_iff a.val.isLt b.val.isLt]
  exact Iff.rfl

theorem roleByte_lt_iff {r s : StakeRole} : r.byte < s.byte ↔ r < s := by
  cases r <;> cases s <;> decide

/-- An absent field comes first; a flag keeps what follows an absent field apart from a present one. -/
theorem flagged_append_lt_iff {n : Nat} {a b : WithBot (Bytes n)} {s t : List UInt8} :
    flagged a ++ s < flagged b ++ t ↔ a < b ∨ a = b ∧ s < t := by
  have hone : ¬ (1 : UInt8) < 0 := by decide
  cases a with
  | bot =>
    cases b with
    | bot =>
      show 0 :: s < 0 :: t ↔ _
      simp
    | coe b =>
      show 0 :: s < 1 :: (b.toList ++ t) ↔ _
      exact iff_of_true (List.cons_lt_cons_iff.mpr (.inl (by decide))) (.inl (WithBot.bot_lt_coe b))
  | coe a =>
    cases b with
    | bot =>
      show 1 :: (a.toList ++ s) < 0 :: t ↔ _
      simp [List.cons_lt_cons_iff, hone]
    | coe b =>
      show 1 :: (a.toList ++ s) < 1 :: (b.toList ++ t) ↔ _
      rw [List.cons_lt_cons_iff, append_lt_append_iff (by simp), toList_lt_iff, WithBot.coe_lt_coe,
        Bytes.toList_injective.eq_iff, WithBot.coe_inj]
      simp

/-! ## The keys -/

/-- The key of a stake entry, as bytes. -/
def stakeRowKey (k : StakeKey) : List UInt8 := stakeKey k.nodeId k.role k.poolId k.delegator

def unbondRowKey (k : UnbondKey) : List UInt8 := unbondKey k.nodeId k.unbondId

def voteRowKey (k : VoteKey) : List UInt8 := govVoteKey k.proposalId k.voter

theorem stakeRowKey_strictMono : StrictMono stakeRowKey := by
  intro j k h
  have h' : StakeKey.ordered j < StakeKey.ordered k := h
  simp only [StakeKey.ordered, Prod.Lex.toLex_lt_toLex] at h'
  rw [stakeRowKey, stakeRowKey, stakeKey, stakeKey, append_lt_append_iff (by simp), toList_lt_iff,
    List.cons_lt_cons_iff, roleByte_lt_iff]
  rcases h' with h | ⟨hnode, h | ⟨hrole, hrest⟩⟩
  · exact .inl h
  · exact .inr ⟨congrArg Bytes.toList hnode, .inl h⟩
  · refine .inr ⟨congrArg Bytes.toList hnode, .inr ⟨congrArg StakeRole.byte hrole, ?_⟩⟩
    apply flagged_append_lt_iff.mpr
    rcases hrest with h | ⟨hpool, h⟩
    · exact .inl h
    · have hlast := flagged_append_lt_iff (s := []) (t := []) |>.mpr (.inl h)
      rw [List.append_nil, List.append_nil] at hlast
      exact .inr ⟨hpool, hlast⟩

theorem unbondRowKey_strictMono : StrictMono unbondRowKey := by
  intro j k h
  have h' : UnbondKey.ordered j < UnbondKey.ordered k := h
  simp only [UnbondKey.ordered, Prod.Lex.toLex_lt_toLex] at h'
  rw [unbondRowKey, unbondRowKey, unbondKey, unbondKey, append_lt_append_iff (by simp), toList_lt_iff,
    beBytes_lt_iff j.unbondId.isLt k.unbondId.isLt, Bytes.toList_injective.eq_iff]
  exact h'

theorem voteRowKey_strictMono : StrictMono voteRowKey := by
  intro j k h
  have h' : VoteKey.ordered j < VoteKey.ordered k := h
  simp only [VoteKey.ordered, Prod.Lex.toLex_lt_toLex] at h'
  rw [voteRowKey, voteRowKey, govVoteKey, govVoteKey, append_lt_append_iff (by simp),
    beBytes_lt_iff j.proposalId.isLt k.proposalId.isLt, toList_lt_iff]
  rcases h' with h | ⟨hid, hvoter⟩
  · exact .inl h
  · exact .inr ⟨congrArg (beBytes 8) hid, hvoter⟩

theorem node_isPrefix_stakeRowKey {node : NodeId} {k : StakeKey} :
    node.toList <+: stakeRowKey k ↔ k.nodeId = node := by
  rw [stakeRowKey, stakeKey, isPrefix_append_iff (by simp), Bytes.toList_injective.eq_iff, eq_comm]

theorem node_isPrefix_unbondRowKey {node : NodeId} {k : UnbondKey} :
    node.toList <+: unbondRowKey k ↔ k.nodeId = node := by
  rw [unbondRowKey, unbondKey, isPrefix_append_iff (by simp), Bytes.toList_injective.eq_iff, eq_comm]

theorem proposal_isPrefix_voteRowKey {id : U64} {k : VoteKey} :
    beBytes 8 id.val <+: voteRowKey k ↔ k.proposalId = id := by
  rw [voteRowKey, govVoteKey, isPrefix_append_iff (by simp)]
  constructor
  · intro h
    exact (Fin.ext (beBytes_inj id.isLt k.proposalId.isLt h)).symm
  · rintro rfl
    rfl

/-! ## The rows of a typed column -/

theorem bytes_total (n : Nat) : (Bytes.codec n).Total := fun b => ⟨_, Bytes.codec_encode b⟩

theorem stakeRole_total : StakeRole.codec.Total := fun r => ⟨[r.byte], rfl⟩

theorem stakeEntry_total : StakeEntry.codec.Total :=
  .map (.prod (bytes_total 32) (.prod stakeRole_total (.prod (bytes_total 16).option
    (.prod (bytes_total 20).option (.prod Codec.total_u128 Codec.total_u64))))) _

theorem unbondingEntry_total : UnbondingEntry.codec.Total :=
  .map (.prod Codec.total_u64 (.prod (bytes_total 32) (.prod stakeRole_total
    (.prod (bytes_total 16).option (.prod (bytes_total 20).option (.prod Codec.total_u128
      (.prod Codec.total_u64 Codec.total_u64))))))) _

theorem encoded_total {α : Type} {c : Codec α} (hc : c.Total) (step : String) (a : α) :
    encoded c step a = .ok (c.form a) := by
  rw [encoded, hc.encode_eq]

theorem decoded_form {α : Type} {c : Codec α} (hc : c.Total) (step : String) (a : α) :
    decoded c step (c.form a) = .ok a := by
  rw [decoded, c.fromSlice_encode (hc.encode_eq a)]

def stakeRows (c : Column StakeKey StakeEntry) : Rows :=
  c.image stakeRowKey stakeRowKey_strictMono StakeEntry.codec.form

def unbondingRows (c : Column UnbondKey UnbondingEntry) : Rows :=
  c.image unbondRowKey unbondRowKey_strictMono UnbondingEntry.codec.form

def voteRows (c : Column VoteKey VoteChoice) : Rows :=
  c.image voteRowKey voteRowKey_strictMono (fun choice => [choice.byte])

/-- What `set_stake` leaves under the key. -/
def keptEntry (e : StakeEntry) : Option StakeEntry := if e.isEmpty then none else some e

theorem setStake_stakeRows (c : Column StakeKey StakeEntry) (k : StakeKey) (e : StakeEntry) :
    (stakeRows c).setStake k.nodeId k.role k.poolId k.delegator e =
      .ok (stakeRows (c.write k (keptEntry e))) := by
  rw [stakeRows, stakeRows, Column.image_write, Rows.setStake, keptEntry]
  split
  · rfl
  · rw [encoded_total stakeEntry_total]
    rfl

theorem setUnbonding_unbondingRows (c : Column UnbondKey UnbondingEntry) (node : NodeId)
    (e : UnbondingEntry) :
    (unbondingRows c).setUnbonding node e = .ok (unbondingRows (c.write ⟨node, e.unbondId⟩ (some e))) := by
  rw [unbondingRows, unbondingRows, Column.image_write, Rows.setUnbonding,
    encoded_total unbondingEntry_total]
  rfl

theorem deleteUnbonding_unbondingRows (c : Column UnbondKey UnbondingEntry) (node : NodeId) (id : U64) :
    (unbondingRows c).deleteUnbonding node id = unbondingRows (c.write ⟨node, id⟩ none) := by
  rw [unbondingRows, unbondingRows, Column.image_write, Rows.deleteUnbonding]
  rfl

theorem setVote_voteRows (c : Column VoteKey VoteChoice) (id : U64) (voter : Address) (choice : VoteChoice) :
    (voteRows c).setVote id voter choice = voteRows (c.write ⟨id, voter⟩ (some choice)) := by
  rw [voteRows, voteRows, Column.image_write, Rows.setVote]
  rfl

/-! ## The iterators -/

theorem mapM_decoded {κ α : Type} {c : Codec α} (hc : c.Total) (step : String) (enc : κ → List UInt8)
    (es : List (κ × α)) :
    (es.map (fun e => (enc e.1, c.form e.2))).mapM (fun kv => decoded c step kv.2) =
      .ok (es.map Prod.snd) := by
  induction es with
  | nil => rfl
  | cons e es ih =>
    rw [List.map_cons, List.mapM_cons, decoded_form hc, ih]
    rfl

theorem iterStakesForNode_stakeRows (c : Column StakeKey StakeEntry) (node : NodeId) :
    (stakeRows c).iterStakesForNode node =
      .ok ((c.entries.filter (fun e => decide (e.1.nodeId = node))).map Prod.snd) := by
  rw [Rows.iterStakesForNode, stakeRows, Column.prefixScan_image, mapM_decoded stakeEntry_total]
  simp only [node_isPrefix_stakeRowKey]

theorem iterUnbondingsForNode_unbondingRows (c : Column UnbondKey UnbondingEntry) (node : NodeId) :
    (unbondingRows c).iterUnbondingsForNode node =
      .ok ((c.entries.filter (fun e => decide (e.1.nodeId = node))).map Prod.snd) := by
  rw [Rows.iterUnbondingsForNode, unbondingRows, Column.prefixScan_image,
    mapM_decoded unbondingEntry_total]
  simp only [node_isPrefix_unbondRowKey]

theorem readVote_row (k : VoteKey) (choice : VoteChoice) :
    Rows.readVote (voteRowKey k) [choice.byte] = some (k.voter, choice) := by
  have hlen : (voteRowKey k).length = 28 := by simp [voteRowKey, govVoteKey]
  have hvoter : ((voteRowKey k).drop 8).take 20 = k.voter.toList := by
    rw [voteRowKey, govVoteKey, List.drop_left' (by simp), List.take_of_length_le (by simp)]
  have hread := (Bytes.codec 20).fromSlice_encode (Bytes.codec_encode k.voter)
  rw [Rows.readVote, if_neg (by rw [hlen]; decide), hvoter, hread]
  cases choice <;> rfl

theorem iterVotesForProposal_voteRows (c : Column VoteKey VoteChoice) (id : U64) :
    (voteRows c).iterVotesForProposal id =
      (c.entries.filter (fun e => decide (e.1.proposalId = id))).map (fun e => (e.1.voter, e.2)) := by
  rw [Rows.iterVotesForProposal, voteRows, Column.prefixScan_image, List.filterMap_map]
  simp only [Function.comp_def, readVote_row, proposal_isPrefix_voteRowKey]
  rw [← List.filterMap_eq_map]
  rfl

/-- The iterators of the rows are the iterators of the state. -/
theorem rows_refine (s : State) :
    (∀ node, (stakeRows s.stakes).iterStakesForNode node = .ok (s.iterStakesForNode node)) ∧
    (∀ node, (unbondingRows s.unbondings).iterUnbondingsForNode node =
      .ok (s.iterUnbondingsForNode node)) ∧
    ∀ id, (voteRows s.votes).iterVotesForProposal id = s.iterVotesForProposal id := by
  refine ⟨fun node => ?_, fun node => ?_, fun id => ?_⟩
  · rw [iterStakesForNode_stakeRows, State.iterStakesForNode,
      Column.scan_eq_filter _ StakeKey.nodeId_monotone]
  · rw [iterUnbondingsForNode_unbondingRows, State.iterUnbondingsForNode,
      Column.scan_eq_filter _ UnbondKey.nodeId_monotone]
  · rw [iterVotesForProposal_voteRows, State.iterVotesForProposal,
      Column.scan_eq_filter _ VoteKey.proposalId_monotone]
    simp only [Fin.val_inj]

/-! ## Everything that is written -/

def writeStake (rows : Rows) (w : StakeKey × StakeEntry) : Except ChainError Rows :=
  rows.setStake w.1.nodeId w.1.role w.1.poolId w.1.delegator w.2

/-- The entry each stake key has after the writes. -/
def stakesAfter (writes : List (StakeKey × StakeEntry)) : Column StakeKey StakeEntry :=
  Column.empty.writeAll (writes.map fun w => (w.1, keptEntry w.2))

inductive UnbondingWrite where
  | set (nodeId : NodeId) (entry : UnbondingEntry)
  | delete (nodeId : NodeId) (unbondId : U64)
  deriving DecidableEq, Repr

def writeUnbonding (rows : Rows) : UnbondingWrite → Except ChainError Rows
  | .set nodeId entry => rows.setUnbonding nodeId entry
  | .delete nodeId unbondId => pure (rows.deleteUnbonding nodeId unbondId)

def UnbondingWrite.effect : UnbondingWrite → UnbondKey × Option UnbondingEntry
  | .set nodeId entry => (⟨nodeId, entry.unbondId⟩, some entry)
  | .delete nodeId unbondId => (⟨nodeId, unbondId⟩, none)

def unbondingsAfter (writes : List UnbondingWrite) : Column UnbondKey UnbondingEntry :=
  Column.empty.writeAll (writes.map UnbondingWrite.effect)

def writeVote (rows : Rows) (w : VoteKey × VoteChoice) : Rows :=
  rows.setVote w.1.proposalId w.1.voter w.2

def votesAfter (writes : List (VoteKey × VoteChoice)) : Column VoteKey VoteChoice :=
  Column.empty.writeAll (writes.map fun w => (w.1, some w.2))

theorem foldlM_writeStake (writes : List (StakeKey × StakeEntry)) (c : Column StakeKey StakeEntry) :
    writes.foldlM writeStake (stakeRows c) =
      .ok (stakeRows (c.writeAll (writes.map fun w => (w.1, keptEntry w.2)))) := by
  induction writes generalizing c with
  | nil => rfl
  | cons w writes ih =>
    rw [List.foldlM_cons, writeStake, setStake_stakeRows, List.map_cons, Column.writeAll_cons]
    exact ih _

theorem foldlM_writeUnbonding (writes : List UnbondingWrite) (c : Column UnbondKey UnbondingEntry) :
    writes.foldlM writeUnbonding (unbondingRows c) =
      .ok (unbondingRows (c.writeAll (writes.map UnbondingWrite.effect))) := by
  induction writes generalizing c with
  | nil => rfl
  | cons w writes ih =>
    rw [List.foldlM_cons, List.map_cons, Column.writeAll_cons]
    cases w with
    | set nodeId entry =>
      rw [writeUnbonding, setUnbonding_unbondingRows]
      exact ih _
    | delete nodeId unbondId =>
      rw [writeUnbonding, deleteUnbonding_unbondingRows]
      exact ih _

theorem foldl_writeVote (writes : List (VoteKey × VoteChoice)) (c : Column VoteKey VoteChoice) :
    writes.foldl writeVote (voteRows c) =
      voteRows (c.writeAll (writes.map fun w => (w.1, some w.2))) := by
  induction writes generalizing c with
  | nil => rfl
  | cons w writes ih =>
    rw [List.foldl_cons, writeVote, setVote_voteRows, List.map_cons, Column.writeAll_cons]
    exact ih _

/-- Different positions, unbondings and votes have different keys, and after any writes through the keys
an iterator returns the entries of its node or proposal, each once in key order, and no other. -/
theorem composite_keys_faithful :
    Function.Injective (fun k : StakeKey => stakeKey k.nodeId k.role k.poolId k.delegator) ∧
    Function.Injective (fun k : UnbondKey => unbondKey k.nodeId k.unbondId) ∧
    Function.Injective (fun k : VoteKey => govVoteKey k.proposalId k.voter) ∧
    (∀ writes : List (StakeKey × StakeEntry), ∃ rows, writes.foldlM writeStake Column.empty = .ok rows ∧
      ∀ node, rows.iterStakesForNode node =
        .ok (((stakesAfter writes).entries.filter (fun e => e.1.nodeId = node)).map Prod.snd)) ∧
    (∀ writes : List UnbondingWrite, ∃ rows, writes.foldlM writeUnbonding Column.empty = .ok rows ∧
      ∀ node, rows.iterUnbondingsForNode node =
        .ok (((unbondingsAfter writes).entries.filter (fun e => e.1.nodeId = node)).map Prod.snd)) ∧
    (∀ (writes : List (VoteKey × VoteChoice)) (id : U64),
      (writes.foldl writeVote Column.empty).iterVotesForProposal id =
        ((votesAfter writes).entries.filter (fun e => e.1.proposalId = id)).map
          (fun e => (e.1.voter, e.2))) := by
  refine ⟨stakeRowKey_strictMono.injective, unbondRowKey_strictMono.injective,
    voteRowKey_strictMono.injective, fun writes => ?_, fun writes => ?_, fun writes id => ?_⟩
  · exact ⟨_, foldlM_writeStake writes Column.empty, iterStakesForNode_stakeRows _⟩
  · exact ⟨_, foldlM_writeUnbonding writes Column.empty, iterUnbondingsForNode_unbondingRows _⟩
  · have hrows := foldl_writeVote writes Column.empty
    have hiter := iterVotesForProposal_voteRows (votesAfter writes) id
    rwa [votesAfter, ← hrows] at hiter

end Arknet.Laws
