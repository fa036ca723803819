import Arknet.Chain.Crypto

/-!
The transaction pool: one entry for each hash, an index by priority, and an index by sender and
nonce. Counts and byte sizes are natural numbers.
-/

namespace Arknet.Consensus

open Machine Store Arknet.Chain

def DEFAULT_MAX_COUNT : Nat := 100000
def DEFAULT_MAX_BYTES : Nat := 50 * 1024 * 1024
def MAX_SIGNED_TX_BYTES : Nat := 1024 * 1024

inductive MempoolError where
  | unsupported (what : String)
  | duplicate
  | oversize (actual max : Nat)
  | underpricedReplacement (existingFee incomingFee : Gas)
  deriving DecidableEq, Repr

/-- Sender, nonce and fee of a transaction the pool takes; the other variants are refused. -/
def extractSenderNonceFee : Transaction → Except MempoolError (Address × Nonce × Gas)
  | .transfer src _ _ nonce fee => .ok (src, nonce, fee)
  | .stakeOp _ => .error (.unsupported "StakeOp (Week 9)")
  | .receiptBatch _ => .error (.unsupported "ReceiptBatch (Week 11 mempool lane)")
  | .dispute _ => .error (.unsupported "Dispute (Week 12 mempool lane)")
  | .registerModel _ registrar _ => .ok (registrar, 0, 200000)
  | .escrowLock src _ _ nonce fee => .ok (src, nonce, fee)
  | .escrowSettle .. => .error (.unsupported "EscrowSettle (proposer-only)")
  | .rewardMint .. => .error (.unsupported "RewardMint (proposer-only)")
  | .govProposal p => .ok (p.proposer, 0, 500000)
  | .govVote _ voter _ => .ok (voter, 0, 30000)
  | .registerTeeCapability _ operator _ => .ok (operator, 0, 200000)
  | .registerGateway _ operator _ _ => .ok (operator, 0, 100000)
  | .unregisterGateway _ operator => .ok (operator, 0, 50000)

/-- Iterated fee descending, then submission order, then hash. -/
structure PriorityKey where
  fee : Gas
  seq : Nat
  hash : TxHash
  deriving DecidableEq, Repr

def PriorityKey.ordered (k : PriorityKey) : ℕᵒᵈ ×ₗ ℕ ×ₗ TxHash :=
  toLex (OrderDual.toDual k.fee.val, toLex (k.seq, k.hash))

theorem PriorityKey.ordered_injective : Function.Injective PriorityKey.ordered := by
  rintro ⟨f, s, h⟩ ⟨f', s', h'⟩ heq
  simp only [PriorityKey.ordered, EmbeddingLike.apply_eq_iff_eq, Prod.mk.injEq] at heq
  obtain ⟨hf, rfl, rfl⟩ := heq
  rw [Fin.ext hf]

instance : LinearOrder PriorityKey :=
  Store.liftOrder PriorityKey.ordered PriorityKey.ordered_injective

theorem PriorityKey.lt_iff {k k' : PriorityKey} : k < k' ↔ k'.fee < k.fee ∨
    k.fee = k'.fee ∧ (k.seq < k'.seq ∨ k.seq = k'.seq ∧ k.hash < k'.hash) := by
  change k.ordered < k'.ordered ↔ _
  unfold PriorityKey.ordered
  rw [Prod.Lex.toLex_lt_toLex, Prod.Lex.toLex_lt_toLex, OrderDual.toDual_lt_toDual]
  simp only [EmbeddingLike.apply_eq_iff_eq, Fin.val_inj, Fin.lt_def]

/-- A pooled transaction with its index data, which is what was extracted from it. -/
structure Entry where
  tx : SignedTransaction
  sender : Address
  nonce : Nonce
  fee : Gas
  seq : Nat
  encodedBytes : Nat
  pooled : extractSenderNonceFee tx.tx = .ok (sender, nonce, fee)

structure Mempool where
  maxCount : Nat
  maxBytes : Nat
  currentBytes : Nat
  byHash : Column TxHash Entry
  byPriority : Column PriorityKey Unit
  bySender : Column Address (Column Nonce TxHash)
  nextSeq : Nat

namespace Mempool

def withLimits (maxCount maxBytes : Nat) : Mempool where
  maxCount := maxCount
  maxBytes := maxBytes
  currentBytes := 0
  byHash := .empty
  byPriority := .empty
  bySender := .empty
  nextSeq := 0

def len (m : Mempool) : Nat := m.byHash.entries.length

def contains (m : Mempool) (hash : TxHash) : Bool := (m.byHash.get hash).isSome

def removeByHash (m : Mempool) (hash : TxHash) : Mempool × Option Entry :=
  match m.byHash.get hash with
  | none => (m, none)
  | some e =>
    let bySender :=
      match m.bySender.get e.sender with
      | none => m.bySender
      | some perNonce =>
        let perNonce := perNonce.erase e.nonce
        if perNonce.entries = [] then m.bySender.erase e.sender else m.bySender.insert e.sender perNonce
    ({ m with
        byHash := m.byHash.erase hash
        currentBytes := m.currentBytes - e.encodedBytes
        byPriority := m.byPriority.erase ⟨e.fee, e.seq, hash⟩
        bySender := bySender }, some e)

def remove (m : Mempool) (hash : TxHash) : Mempool × Bool :=
  ((m.removeByHash hash).1, (m.removeByHash hash).2.isSome)

def removeMany (m : Mempool) (hashes : List TxHash) : Mempool :=
  hashes.foldl (fun m h => (m.removeByHash h).1) m

/-- The eviction loop; every round removes an entry, so the pool's size bounds the rounds. -/
def evict (hash : TxHash) (fee : Gas) : Nat → Mempool → Mempool × Except MempoolError TxHash
  | 0, m => (m, .ok hash)
  | fuel + 1, m =>
    if m.maxCount < m.len || m.maxBytes < m.currentBytes then
      match m.byPriority.keys.getLast? with
      | none => (m, .ok hash)
      | some victim =>
        let m := (m.removeByHash victim.hash).1
        if victim.hash = hash then
          (m, .error (.underpricedReplacement (satAdd victim.fee 1) fee))
        else evict hash fee fuel m
    else (m, .ok hash)

/-- Same sender and nonce: a strictly higher fee replaces, anything else is refused. -/
def replaceSame (m : Mempool) (sender : Address) (nonce : Nonce) (fee : Gas) :
    Exec (Mempool × Option MempoolError) :=
  match (m.bySender.get sender).bind (fun perNonce => perNonce.get nonce) with
  | none => pure (m, none)
  | some existingHash =>
    match m.byHash.get existingHash with
    | none => .error .expectNone
    | some existing =>
      if fee ≤ existing.fee then pure (m, some (.underpricedReplacement existing.fee fee))
      else pure ((m.removeByHash existingHash).1, none)

def enroll (m : Mempool) (hash : TxHash) (e : Entry) : Mempool :=
  { m with
    nextSeq := m.nextSeq + 1
    currentBytes := m.currentBytes + e.encodedBytes
    byPriority := m.byPriority.insert ⟨e.fee, e.seq, hash⟩ ()
    bySender := m.bySender.insert e.sender
      (((m.bySender.get e.sender).getD .empty).insert e.nonce hash)
    byHash := m.byHash.insert hash e }

def insert (K : Primitives) (m : Mempool) (stx : SignedTransaction) :
    Exec (Mempool × Except MempoolError TxHash) :=
  let encodedBytes := stx.encodedLen K
  if MAX_SIGNED_TX_BYTES < encodedBytes then pure (m, .error (.oversize encodedBytes MAX_SIGNED_TX_BYTES))
  else
    match h : extractSenderNonceFee stx.tx with
    | .error e => pure (m, .error e)
    | .ok (sender, nonce, fee) =>
      let hash := stx.hash K
      if m.contains hash then pure (m, .error .duplicate)
      else do
        let (m, refused) ← m.replaceSame sender nonce fee
        match refused with
        | some e => pure (m, .error e)
        | none =>
          let m := m.enroll hash ⟨stx, sender, nonce, fee, m.nextSeq, encodedBytes, h⟩
          pure (m.evict hash fee m.byPriority.entries.length)

/-- The entries in priority order. -/
def ordered (m : Mempool) : List (TxHash × Gas × Nat) :=
  m.byPriority.keys.filterMap (fun k =>
    (m.byHash.get k.hash).map (fun e => (k.hash, e.fee, e.encodedBytes)))

/-- The pool that is left, what was picked, and the two budgets used. -/
structure Drain where
  mempool : Mempool
  picked : List SignedTransaction
  gasUsed : Gas
  bytesUsed : Nat

def drainStep (maxGas : Gas) (maxBytes : Nat) (d : Drain) (item : TxHash × Gas × Nat) : Drain :=
  let (hash, fee, size) := item
  if maxGas < satAdd d.gasUsed fee then d
  else if maxBytes < d.bytesUsed + size then d
  else
    match d.mempool.removeByHash hash with
    | (_, none) => d
    | (m, some e) => ⟨m, d.picked ++ [e.tx], satAdd d.gasUsed fee, d.bytesUsed + size⟩

def drainForBlock (m : Mempool) (maxGas : Gas) (maxBytes : Nat) : Drain :=
  m.ordered.foldl (drainStep maxGas maxBytes) ⟨m, [], 0, 0⟩

/-- Best-effort: what is refused on the way back in is dropped. -/
def readmit (K : Primitives) (m : Mempool) (txs : List SignedTransaction) : Exec Mempool :=
  txs.foldlM (fun m stx => Prod.fst <$> m.insert K stx) m

/-! ## What the operations do to the entries -/

section

variable (m : Mempool) (h y : TxHash)

theorem removeByHash_get : (m.removeByHash h).1.byHash.get y = if h = y then none else m.byHash.get y := by
  unfold removeByHash
  cases hget : m.byHash.get h with
  | none =>
    by_cases hy : h = y
    · rw [if_pos hy, ← hy]
      exact hget
    · rw [if_neg hy]
  | some e => exact Column.get_erase _ _ _

theorem contains_iff : m.contains y = true ↔ ∃ e, m.byHash.get y = some e := Option.isSome_iff_exists

theorem contains_removeByHash : (m.removeByHash h).1.contains y = true ↔ h ≠ y ∧ m.contains y = true := by
  rw [contains_iff, contains_iff, removeByHash_get]
  by_cases hy : h = y
  · simp [hy]
  · simp [hy]

theorem contains_removeMany (hs : List TxHash) :
    (m.removeMany hs).contains y = true ↔ y ∉ hs ∧ m.contains y = true := by
  unfold removeMany
  induction hs generalizing m with
  | nil => simp
  | cons h hs ih =>
    rw [List.foldl_cons, ih, contains_removeByHash, List.mem_cons, not_or]
    constructor
    · rintro ⟨hs, hne, hc⟩
      exact ⟨⟨fun heq => hne heq.symm, hs⟩, hc⟩
    · rintro ⟨⟨hne, hs⟩, hc⟩
      exact ⟨hs, fun heq => hne heq.symm, hc⟩

end

/-- Every entry is stored under the hash of its transaction. -/
def HashKeyed (K : Primitives) (m : Mempool) : Prop :=
  ∀ h e, m.byHash.get h = some e → e.tx.hash K = h

section

variable {K : Primitives} {m m' : Mempool}

theorem HashKeyed.removeByHash (hk : m.HashKeyed K) (h : TxHash) : (m.removeByHash h).1.HashKeyed K := by
  intro y e hget
  rw [removeByHash_get] at hget
  split at hget
  · cases hget
  · exact hk y e hget

theorem HashKeyed.removeMany (hk : m.HashKeyed K) (hs : List TxHash) : (m.removeMany hs).HashKeyed K := by
  unfold Mempool.removeMany
  induction hs generalizing m with
  | nil => exact hk
  | cons h hs ih => exact ih (hk.removeByHash h)

theorem withLimits_hashKeyed (maxCount maxBytes : Nat) : (withLimits maxCount maxBytes).HashKeyed K :=
  fun h e hget => (by cases hget)

/-- The eviction loop accepts the new entry only while it is there. -/
theorem evict_spec (hash : TxHash) (fee : Gas) (fuel : Nat) (hk : m.HashKeyed K) :
    (m.evict hash fee fuel).1.HashKeyed K ∧
      ∀ x, (m.evict hash fee fuel).2 = .ok x →
        x = hash ∧ (m.contains hash = true → (m.evict hash fee fuel).1.contains hash = true) := by
  induction fuel generalizing m with
  | zero => exact ⟨hk, fun x hx => ⟨(Except.ok.inj hx).symm, id⟩⟩
  | succ fuel ih =>
    unfold evict
    split
    · split
      · exact ⟨hk, fun x hx => ⟨(Except.ok.inj hx).symm, id⟩⟩
      · rename_i victim _
        dsimp only
        split
        · exact ⟨hk.removeByHash _, fun x hx => (by cases hx)⟩
        · rename_i hne
          obtain ⟨hk', hok⟩ := ih (hk.removeByHash victim.hash)
          refine ⟨hk', fun x hx => ⟨(hok x hx).1, fun hc => (hok x hx).2 ?_⟩⟩
          exact (contains_removeByHash m victim.hash hash).mpr ⟨hne, hc⟩
    · exact ⟨hk, fun x hx => ⟨(Except.ok.inj hx).symm, id⟩⟩

theorem replaceSame_hashKeyed {sender : Address} {nonce : Nonce} {fee : Gas}
    {refused : Option MempoolError} (hk : m.HashKeyed K)
    (h : m.replaceSame sender nonce fee = .ok (m', refused)) : m'.HashKeyed K := by
  unfold replaceSame at h
  split at h
  · obtain ⟨rfl, -⟩ := Prod.mk.inj (Except.ok.inj h)
    exact hk
  · split at h
    · cases h
    · split at h
      · obtain ⟨rfl, -⟩ := Prod.mk.inj (Except.ok.inj h)
        exact hk
      · obtain ⟨rfl, -⟩ := Prod.mk.inj (Except.ok.inj h)
        exact hk.removeByHash _

/-- What `insert` accepts is in the pool afterwards. -/
theorem insert_spec {stx : SignedTransaction} {result : Except MempoolError TxHash}
    (hk : m.HashKeyed K) (h : m.insert K stx = .ok (m', result)) :
    m'.HashKeyed K ∧ ∀ x, result = .ok x → x = stx.hash K ∧ m'.contains x = true := by
  have hsame : ∀ {e}, (pure (m, Except.error e) : Exec (Mempool × Except MempoolError TxHash)) =
      .ok (m', result) → m'.HashKeyed K ∧ ∀ x, result = .ok x → x = stx.hash K ∧ m'.contains x = true := by
    intro e heq
    obtain ⟨rfl, rfl⟩ := Prod.mk.inj (Except.ok.inj heq)
    exact ⟨hk, fun x hx => (by cases hx)⟩
  unfold insert at h
  dsimp only at h
  split at h
  · exact hsame h
  split at h
  · exact hsame h
  split at h
  · exact hsame h
  rw [bind_eq_ok] at h
  obtain ⟨⟨m₁, refused⟩, hrep, h⟩ := h
  have hk₁ := replaceSame_hashKeyed hk hrep
  cases refused with
  | some e =>
    obtain ⟨rfl, rfl⟩ := Prod.mk.inj (Except.ok.inj h)
    exact ⟨hk₁, fun x hx => (by cases hx)⟩
  | none =>
    dsimp only at h
    rename_i sender nonce fee hextract _
    generalize he : (⟨stx, sender, nonce, fee, m₁.nextSeq, stx.encodedLen K, hextract⟩ : Entry) = e at h
    have htx : e.tx = stx := by rw [← he]
    have hk₂ : (m₁.enroll (stx.hash K) e).HashKeyed K := by
      intro y e' hget
      simp only [enroll, Column.get_insert] at hget
      split at hget
      · rename_i hy
        rw [← Option.some.inj hget, htx]
        exact hy
      · exact hk₁ y e' hget
    have hc₂ : (m₁.enroll (stx.hash K) e).contains (stx.hash K) = true := by
      rw [contains_iff]
      exact ⟨e, by simp [enroll, Column.get_insert]⟩
    have hspec := evict_spec (stx.hash K) fee
      (m₁.enroll (stx.hash K) e).byPriority.entries.length hk₂
    rw [Except.ok.inj h] at hspec
    refine ⟨hspec.1, fun x hx => ?_⟩
    obtain ⟨rfl, hin⟩ := hspec.2 x hx
    exact ⟨rfl, hin hc₂⟩

/-- Between the pool of a drain and what it has picked, the entries of `m` are all there. -/
def Drain.Accounts (K : Primitives) (m : Mempool) (d : Drain) : Prop :=
  d.mempool.HashKeyed K ∧
    ∀ y, m.contains y = true ↔
      d.mempool.contains y = true ∨ y ∈ d.picked.map (SignedTransaction.hash K)

theorem drainStep_accounts {maxGas : Gas} {maxBytes : Nat} {d : Drain} {item : TxHash × Gas × Nat}
    (hd : d.Accounts K m) : (drainStep maxGas maxBytes d item).Accounts K m := by
  obtain ⟨hash, fee, size⟩ := item
  unfold drainStep
  dsimp only
  split
  · exact hd
  split
  · exact hd
  split
  · exact hd
  rename_i m₁ e hrem
  have hm₁ : m₁ = (d.mempool.removeByHash hash).1 := by rw [hrem]
  have he : d.mempool.byHash.get hash = some e := by
    unfold removeByHash at hrem
    split at hrem
    · cases hrem
    · rename_i e' hget
      rw [hget, ← (Prod.mk.inj hrem).2]
  refine ⟨by rw [hm₁]; exact hd.1.removeByHash hash, fun y => ?_⟩
  rw [hd.2 y, hm₁, contains_removeByHash, List.map_append, List.map_singleton, List.mem_append,
    List.mem_singleton, hd.1 hash e he]
  by_cases hy : hash = y
  · subst hy
    have hin : d.mempool.contains hash = true := (contains_iff _ _).mpr ⟨e, he⟩
    simp [hin]
  · simp [hy, Ne.symm hy]

/-- A drain moves entries from the pool to the picked transactions, and loses none. -/
theorem drainForBlock_accounts (hk : m.HashKeyed K) (maxGas : Gas) (maxBytes : Nat) :
    (m.drainForBlock maxGas maxBytes).Accounts K m := by
  have hstart : (⟨m, [], 0, 0⟩ : Drain).Accounts K m := ⟨hk, fun y => (by simp)⟩
  unfold drainForBlock
  generalize (⟨m, [], 0, 0⟩ : Drain) = d at hstart
  induction m.ordered generalizing d with
  | nil => exact hstart
  | cons item items ih => exact ih _ (drainStep_accounts hstart)

end

end Mempool

end Arknet.Consensus
