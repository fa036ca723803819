import Arknet.Consensus.Mempool

/-!
The pool and its indexes: the three maps describe one set of transactions, and what an insertion and a
removal do to it. A well-indexed pool is what its hash map says.
-/

namespace Arknet.Consensus

open Machine Store Arknet.Chain

variable {K : Primitives} {m : Mempool}

/-! ## The maps agree -/

/-- The hash in a sender's slot for a nonce. -/
def slotAt (m : Mempool) (sender : Address) (nonce : Nonce) : Option TxHash :=
  (m.bySender.get sender).bind fun perNonce => perNonce.get nonce

/-- The indexes describe the entries, and the counter adds them up. -/
structure Indexed (K : Primitives) (m : Mempool) : Prop where
  keyed : m.HashKeyed K
  size : ∀ h e, m.byHash.get h = some e →
    e.encodedBytes = e.tx.encodedLen K ∧ e.tx.encodedLen K ≤ MAX_SIGNED_TX_BYTES
  priority : ∀ k, m.byPriority.get k = some () ↔
    ∃ e, m.byHash.get k.hash = some e ∧ e.fee = k.fee ∧ e.seq = k.seq
  slot : ∀ sender nonce h, slotAt m sender nonce = some h ↔
    ∃ e, m.byHash.get h = some e ∧ e.sender = sender ∧ e.nonce = nonce
  nonempty : ∀ sender perNonce, m.bySender.get sender = some perNonce → perNonce.entries ≠ []
  bytes : m.currentBytes = m.byHash.total fun _ e => e.encodedBytes
  arrived : ∀ h e, m.byHash.get h = some e → e.seq < m.nextSeq
  order : ∀ h e h' e', m.byHash.get h = some e → m.byHash.get h' = some e' → e.seq = e'.seq → h = h'

structure Bounded (m : Mempool) : Prop where
  count : m.len ≤ m.maxCount
  bytes : m.currentBytes ≤ m.maxBytes

theorem Indexed.slot_of_get (hi : Indexed K m) {h : TxHash} {e : Entry} (hget : m.byHash.get h = some e) :
    slotAt m e.sender e.nonce = some h := (hi.slot _ _ _).mpr ⟨e, hget, rfl, rfl⟩

theorem Indexed.key (hi : Indexed K m) {h : TxHash} {e : Entry} (hget : m.byHash.get h = some e) :
    (⟨e.fee, e.seq, h⟩ : PriorityKey) ∈ m.byPriority.keys :=
  Column.mem_keys.mpr ⟨(), (hi.priority _).mpr ⟨e, hget, rfl, rfl⟩⟩

theorem Indexed.get_key (hi : Indexed K m) {k : PriorityKey} (hk : k ∈ m.byPriority.keys) :
    ∃ e, m.byHash.get k.hash = some e ∧ e.fee = k.fee ∧ e.seq = k.seq := by
  obtain ⟨⟨⟩, hget⟩ := Column.mem_keys.mp hk
  exact (hi.priority k).mp hget

theorem withLimits_indexed (maxCount maxBytes : Nat) : Indexed K (.withLimits maxCount maxBytes) where
  keyed := Mempool.withLimits_hashKeyed maxCount maxBytes
  size := by simp [Mempool.withLimits]
  priority := by simp [Mempool.withLimits]
  slot := by simp [Mempool.withLimits, slotAt]
  nonempty := by simp [Mempool.withLimits]
  bytes := rfl
  arrived := by simp [Mempool.withLimits]
  order := by simp [Mempool.withLimits]

theorem withLimits_bounded (maxCount maxBytes : Nat) : Bounded (.withLimits maxCount maxBytes) :=
  ⟨Nat.zero_le _, Nat.zero_le _⟩

/-! ## Removal -/

theorem removeByHash_of_none {h : TxHash} (hget : m.byHash.get h = none) :
    m.removeByHash h = (m, none) := by
  simp [Mempool.removeByHash, hget]

theorem removeByHash_of_some {h : TxHash} {e : Entry} (hget : m.byHash.get h = some e) :
    (m.removeByHash h).2 = some e ∧ (m.removeByHash h).1.byHash = m.byHash.erase h ∧
      (m.removeByHash h).1.byPriority = m.byPriority.erase ⟨e.fee, e.seq, h⟩ ∧
      (m.removeByHash h).1.currentBytes = m.currentBytes - e.encodedBytes := by
  simp [Mempool.removeByHash, hget]

theorem removeByHash_limits (h : TxHash) : (m.removeByHash h).1.maxCount = m.maxCount ∧
    (m.removeByHash h).1.maxBytes = m.maxBytes ∧ (m.removeByHash h).1.nextSeq = m.nextSeq := by
  unfold Mempool.removeByHash
  split
  · exact ⟨rfl, rfl, rfl⟩
  · exact ⟨rfl, rfl, rfl⟩

/-- A removed entry leaves its slot empty, and no empty map behind. -/
theorem removeByHash_slot {h : TxHash} {e : Entry} (hget : m.byHash.get h = some e)
    (sender : Address) (nonce : Nonce) : slotAt (m.removeByHash h).1 sender nonce =
      if e.sender = sender ∧ e.nonce = nonce then none else slotAt m sender nonce := by
  simp only [Mempool.removeByHash, hget, slotAt]
  cases hs : m.bySender.get e.sender with
  | none =>
    by_cases hown : e.sender = sender ∧ e.nonce = nonce
    · rw [if_pos hown, ← hown.1, hs]
      rfl
    · rw [if_neg hown]
  | some perNonce =>
    dsimp only
    by_cases hsender : e.sender = sender
    · subst hsender
      split
      · rename_i hempty
        have hnone := Column.get_of_entries_nil hempty nonce
        rw [Column.get_erase] at hnone
        rw [Column.get_erase, if_pos rfl, hs]
        split
        · rfl
        · rename_i hother
          rw [if_neg fun hn => hother ⟨rfl, hn⟩] at hnone
          exact hnone.symm
      · rw [Column.get_insert, if_pos rfl, hs, Option.bind_some, Option.bind_some, Column.get_erase]
        by_cases hn : e.nonce = nonce
        · rw [if_pos hn, if_pos ⟨rfl, hn⟩]
        · rw [if_neg hn, if_neg fun hown => hn hown.2]
    · rw [if_neg (show ¬ (e.sender = sender ∧ e.nonce = nonce) from fun hown => hsender hown.1)]
      split
      · rw [Column.get_erase, if_neg hsender]
      · rw [Column.get_insert, if_neg hsender]

theorem removeByHash_nonempty {h : TxHash}
    (hne : ∀ sender perNonce, m.bySender.get sender = some perNonce → perNonce.entries ≠ []) :
    ∀ sender perNonce, (m.removeByHash h).1.bySender.get sender = some perNonce →
      perNonce.entries ≠ [] := by
  intro sender perNonce hget
  unfold Mempool.removeByHash at hget
  split at hget
  · exact hne _ _ hget
  · rename_i e _
    dsimp only at hget
    split at hget
    · exact hne _ _ hget
    · split at hget
      · rw [Column.get_erase] at hget
        split at hget
        · cases hget
        · exact hne _ _ hget
      · rename_i hfull
        rw [Column.get_insert] at hget
        split at hget
        · rw [← Option.some.inj hget]
          exact hfull
        · exact hne _ _ hget

theorem Indexed.removeByHash (hi : Indexed K m) (h : TxHash) : Indexed K (m.removeByHash h).1 := by
  cases hget : m.byHash.get h with
  | none =>
    rw [removeByHash_of_none hget]
    exact hi
  | some e =>
    obtain ⟨-, hhash, hprio, hbytes⟩ := removeByHash_of_some hget
    obtain ⟨-, -, hseq⟩ := removeByHash_limits (m := m) h
    have hsub : ∀ y e', (m.removeByHash h).1.byHash.get y = some e' →
        h ≠ y ∧ m.byHash.get y = some e' := by
      intro y e' hy
      rw [hhash, Column.get_erase] at hy
      split at hy
      · cases hy
      · rename_i hne
        exact ⟨hne, hy⟩
    refine ⟨hi.keyed.removeByHash h, ?_, ?_, ?_, removeByHash_nonempty hi.nonempty, ?_, ?_, ?_⟩
    · intro y e' hy
      exact hi.size y e' (hsub y e' hy).2
    · intro k
      rw [hprio, hhash, Column.get_erase, Column.get_erase]
      by_cases hk : h = k.hash
      · -- the only key with this hash is the one that goes
        rw [if_pos hk]
        refine iff_of_false ?_ (by simp)
        split
        · simp
        · rename_i hkey
          intro hin
          obtain ⟨e', hget', hfee, hseq'⟩ := (hi.priority k).mp hin
          rw [← hk, hget] at hget'
          obtain rfl := Option.some.inj hget'
          apply hkey
          rw [hfee, hseq', hk]
      · have hkey : (⟨e.fee, e.seq, h⟩ : PriorityKey) ≠ k := by
          rintro rfl
          exact hk rfl
        rw [if_neg hk, if_neg hkey]
        exact hi.priority k
    · intro sender nonce y
      rw [removeByHash_slot hget, hhash, Column.get_erase]
      by_cases hy : h = y
      · subst hy
        rw [if_pos rfl]
        refine iff_of_false ?_ (by simp)
        split
        · simp
        · rename_i hown
          intro hslot
          obtain ⟨e', hget', hs, hn⟩ := (hi.slot _ _ _).mp hslot
          rw [hget] at hget'
          obtain rfl := Option.some.inj hget'
          exact hown ⟨hs, hn⟩
      · rw [if_neg hy]
        split
        · rename_i hown
          refine iff_of_false (by simp) ?_
          rintro ⟨e', hget', hs, hn⟩
          have h₁ := hi.slot_of_get hget
          have h₂ := hi.slot_of_get hget'
          rw [hs, hn, ← hown.1, ← hown.2, h₁] at h₂
          exact hy (Option.some.inj h₂)
        · exact hi.slot _ _ _
    · have htotal := Column.total_write m.byHash (fun _ e => e.encodedBytes) h none
      rw [hget, Column.part_some, Column.part_none] at htotal
      have hwrite : m.byHash.write h none = m.byHash.erase h := rfl
      rw [hwrite] at htotal
      rw [hbytes, hi.bytes, hhash]
      omega
    · intro y e' hy
      rw [hseq]
      exact hi.arrived y e' (hsub y e' hy).2
    · intro y e' y' e'' hy hy' heq
      exact hi.order y e' y' e'' (hsub y e' hy).2 (hsub y' e'' hy').2 heq

/-- A part of a pool within its limits is within them. -/
theorem Bounded.of_sub {m' : Mempool} (hb : Bounded m) (hi : Indexed K m) (hi' : Indexed K m')
    (hcount : m'.maxCount = m.maxCount) (hbytes : m'.maxBytes = m.maxBytes)
    (hsub : ∀ y e, m'.byHash.get y = some e → m.byHash.get y = some e) : Bounded m' := by
  have hle : ∀ f : TxHash → Entry → Nat, m'.byHash.total f ≤ m.byHash.total f := by
    intro f
    apply Column.total_le_total
    intro y
    cases hy : m'.byHash.get y with
    | none => exact Nat.zero_le _
    | some e => rw [hsub y e hy]
  refine ⟨?_, ?_⟩
  · have hb' := hb.count
    rw [Mempool.len, Column.length_eq_total] at hb' ⊢
    rw [hcount]
    exact (hle _).trans hb'
  · have hb' := hb.bytes
    rw [hi.bytes] at hb'
    rw [hi'.bytes, hbytes]
    exact (hle _).trans hb'

/-! ## Admission -/

/-- The pooled transaction with this sender and nonce. -/
def predecessor (m : Mempool) (sender : Address) (nonce : Nonce) : Option Entry :=
  (slotAt m sender nonce).bind fun h => m.byHash.get h

/-- Why a transaction is refused before anything changes. -/
def refusal (K : Primitives) (m : Mempool) (stx : SignedTransaction) : Option MempoolError :=
  if MAX_SIGNED_TX_BYTES < stx.encodedLen K then
    some (.oversize (stx.encodedLen K) MAX_SIGNED_TX_BYTES)
  else
    match extractSenderNonceFee stx.tx with
    | .error e => some e
    | .ok extracted =>
      if m.contains (stx.hash K) then some .duplicate
      else
        match predecessor m extracted.1 extracted.2.1 with
        | none => none
        | some e =>
          if extracted.2.2 ≤ e.fee then some (.underpricedReplacement e.fee extracted.2.2) else none

theorem size_of_refusal {stx : SignedTransaction} (h : refusal K m stx = none) :
    stx.encodedLen K ≤ MAX_SIGNED_TX_BYTES := by
  unfold refusal at h
  split at h
  · cases h
  · rename_i hsize
    exact not_lt.mp hsize

/-- The pool without the entry in the slot. -/
def vacate (m : Mempool) (sender : Address) (nonce : Nonce) : Mempool :=
  match slotAt m sender nonce with
  | none => m
  | some h => (m.removeByHash h).1

theorem predecessor_of_slot (hi : Indexed K m) {sender : Address} {nonce : Nonce} {h : TxHash}
    (hslot : slotAt m sender nonce = some h) :
    ∃ e, m.byHash.get h = some e ∧ predecessor m sender nonce = some e ∧ e.sender = sender ∧
      e.nonce = nonce := by
  obtain ⟨e, hget, hs, hn⟩ := (hi.slot _ _ _).mp hslot
  refine ⟨e, hget, ?_, hs, hn⟩
  rw [predecessor, hslot]
  exact hget

theorem predecessor_eq_some (hi : Indexed K m) {sender : Address} {nonce : Nonce} {e : Entry} :
    predecessor m sender nonce = some e ↔
      m.byHash.get (e.tx.hash K) = some e ∧ e.sender = sender ∧ e.nonce = nonce := by
  unfold predecessor
  rw [Option.bind_eq_some_iff]
  constructor
  · rintro ⟨h, hslot, hget⟩
    obtain ⟨e', hget', hs, hn⟩ := (hi.slot _ _ _).mp hslot
    rw [hget] at hget'
    obtain rfl := Option.some.inj hget'
    rw [hi.keyed h e hget]
    exact ⟨hget, hs, hn⟩
  · rintro ⟨hget, hs, hn⟩
    exact ⟨_, (hi.slot _ _ _).mpr ⟨e, hget, hs, hn⟩, hget⟩

theorem replaceSame_eq (hi : Indexed K m) (sender : Address) (nonce : Nonce) (fee : Gas) :
    m.replaceSame sender nonce fee =
      match predecessor m sender nonce with
      | none => .ok (m, none)
      | some e =>
        if fee ≤ e.fee then .ok (m, some (.underpricedReplacement e.fee fee))
        else .ok (vacate m sender nonce, none) := by
  unfold Mempool.replaceSame vacate
  change (match slotAt m sender nonce with | none => _ | some existingHash => _) = _
  cases hslot : slotAt m sender nonce with
  | none =>
    rw [predecessor, hslot]
    rfl
  | some h =>
    obtain ⟨e, hget, hpred, -⟩ := predecessor_of_slot hi hslot
    rw [hpred]
    dsimp only
    rw [hget]
    rfl

theorem vacate_of_none {sender : Address} {nonce : Nonce} (hi : Indexed K m)
    (h : predecessor m sender nonce = none) : vacate m sender nonce = m := by
  unfold vacate
  cases hslot : slotAt m sender nonce with
  | none => rfl
  | some y =>
    obtain ⟨e, -, hpred, -⟩ := predecessor_of_slot hi hslot
    rw [h] at hpred
    cases hpred

theorem insert_of_error {stx : SignedTransaction} {err : MempoolError}
    (hsize : ¬ MAX_SIGNED_TX_BYTES < stx.encodedLen K) (h : extractSenderNonceFee stx.tx = .error err) :
    m.insert K stx = .ok (m, .error err) := by
  unfold Mempool.insert
  dsimp only
  rw [if_neg hsize]
  split
  · rename_i h'
    rw [h] at h'
    cases h'
    rfl
  · rename_i h'
    rw [h] at h'
    cases h'

theorem insert_of_ok {stx : SignedTransaction} {sender : Address} {nonce : Nonce} {fee : Gas}
    (hsize : ¬ MAX_SIGNED_TX_BYTES < stx.encodedLen K)
    (h : extractSenderNonceFee stx.tx = .ok (sender, nonce, fee)) :
    m.insert K stx =
      if m.contains (stx.hash K) then pure (m, .error .duplicate)
      else (do
        let (m, refused) ← m.replaceSame sender nonce fee
        match refused with
        | some e => pure (m, .error e)
        | none =>
          let m := m.enroll (stx.hash K) ⟨stx, sender, nonce, fee, m.nextSeq, stx.encodedLen K, h⟩
          pure (m.evict (stx.hash K) fee m.byPriority.entries.length)) := by
  conv_lhs => unfold Mempool.insert
  dsimp only
  rw [if_neg hsize]
  split
  · rename_i h'
    rw [h] at h'
    cases h'
  · rename_i h'
    rw [h] at h'
    cases h'
    rfl

/-- The two ways an insertion goes: refused with the pool as it was, or entered and evicted from. -/
theorem insert_cases (hi : Indexed K m) (stx : SignedTransaction) :
    (∃ err, refusal K m stx = some err ∧ m.insert K stx = .ok (m, .error err)) ∨
      (refusal K m stx = none ∧ ∃ e : Entry, e.tx = stx ∧ e.encodedBytes = stx.encodedLen K ∧
        e.seq = (vacate m e.sender e.nonce).nextSeq ∧ m.byHash.get (stx.hash K) = none ∧
        (∀ old, predecessor m e.sender e.nonce = some old → old.fee < e.fee) ∧
        m.insert K stx = .ok (((vacate m e.sender e.nonce).enroll (stx.hash K) e).evict (stx.hash K) e.fee
          ((vacate m e.sender e.nonce).enroll (stx.hash K) e).byPriority.entries.length)) := by
  unfold refusal
  by_cases hsize : MAX_SIGNED_TX_BYTES < stx.encodedLen K
  · left
    rw [if_pos hsize]
    unfold Mempool.insert
    dsimp only
    rw [if_pos hsize]
    exact ⟨_, rfl, rfl⟩
  rw [if_neg hsize]
  cases hextract : extractSenderNonceFee stx.tx with
  | error err => exact .inl ⟨err, rfl, insert_of_error hsize hextract⟩
  | ok extracted =>
  obtain ⟨sender, nonce, fee⟩ := extracted
  rw [insert_of_ok hsize hextract]
  dsimp only
  by_cases hdup : m.contains (stx.hash K) = true
  · left
    rw [if_pos hdup, if_pos hdup]
    exact ⟨_, rfl, rfl⟩
  rw [if_neg hdup, if_neg hdup, replaceSame_eq hi]
  have hfresh : m.byHash.get (stx.hash K) = none := by
    simpa [Mempool.contains] using hdup
  cases hpred : predecessor m sender nonce with
  | none =>
    right
    refine ⟨rfl, ⟨stx, sender, nonce, fee, m.nextSeq, stx.encodedLen K, hextract⟩, rfl, rfl, ?_, hfresh,
      ?_, ?_⟩
    · rw [vacate_of_none hi hpred]
    · intro old hold
      rw [hpred] at hold
      cases hold
    · rw [vacate_of_none hi hpred]
      rfl
  | some old =>
    dsimp only
    by_cases hfee : fee ≤ old.fee
    · left
      rw [if_pos hfee, if_pos hfee]
      exact ⟨_, rfl, rfl⟩
    · right
      rw [if_neg hfee, if_neg hfee]
      refine ⟨rfl, ⟨stx, sender, nonce, fee, (vacate m sender nonce).nextSeq, stx.encodedLen K, hextract⟩,
        rfl, rfl, rfl, hfresh, ?_, rfl⟩
      intro old' hold'
      rw [hpred] at hold'
      obtain rfl := Option.some.inj hold'
      exact lt_of_not_ge hfee

theorem vacate_indexed (hi : Indexed K m) (sender : Address) (nonce : Nonce) :
    Indexed K (vacate m sender nonce) := by
  unfold vacate
  split
  · exact hi
  · exact hi.removeByHash _

theorem vacate_limits (sender : Address) (nonce : Nonce) :
    (vacate m sender nonce).maxCount = m.maxCount ∧ (vacate m sender nonce).maxBytes = m.maxBytes ∧
      (vacate m sender nonce).nextSeq = m.nextSeq := by
  unfold vacate
  split
  · exact ⟨rfl, rfl, rfl⟩
  · exact removeByHash_limits _

/-- Everything but the predecessor stays. -/
theorem vacate_get (sender : Address) (nonce : Nonce) (y : TxHash) :
    (vacate m sender nonce).byHash.get y =
      if slotAt m sender nonce = some y then none else m.byHash.get y := by
  unfold vacate
  cases hslot : slotAt m sender nonce with
  | none => simp
  | some h =>
    dsimp only
    rw [Mempool.removeByHash_get]
    simp

theorem vacate_slot (hi : Indexed K m) (sender : Address) (nonce : Nonce) :
    slotAt (vacate m sender nonce) sender nonce = none := by
  unfold vacate
  cases hslot : slotAt m sender nonce with
  | none => exact hslot
  | some h =>
    obtain ⟨e, hget, -, hs, hn⟩ := predecessor_of_slot hi hslot
    dsimp only
    rw [removeByHash_slot hget, if_pos ⟨hs, hn⟩]

theorem enroll_slot (h : TxHash) (e : Entry) (sender : Address) (nonce : Nonce) :
    slotAt (m.enroll h e) sender nonce =
      if e.sender = sender ∧ e.nonce = nonce then some h else slotAt m sender nonce := by
  simp only [slotAt, Mempool.enroll, Column.get_insert]
  by_cases hs : e.sender = sender
  · subst hs
    rw [if_pos rfl, Option.bind_some, Column.get_insert]
    by_cases hn : e.nonce = nonce
    · rw [if_pos hn, if_pos ⟨rfl, hn⟩]
    · rw [if_neg hn, if_neg (show ¬ (e.sender = e.sender ∧ e.nonce = nonce) from fun hown => hn hown.2)]
      cases m.bySender.get e.sender with
      | none => rfl
      | some perNonce => rfl
  · rw [if_neg hs, if_neg (show ¬ (e.sender = sender ∧ e.nonce = nonce) from fun hown => hs hown.1)]

/-- A new entry, in a free slot and with the next number. -/
theorem Indexed.enroll (hi : Indexed K m) {h : TxHash} {e : Entry} (hhash : e.tx.hash K = h)
    (hsize : e.encodedBytes = e.tx.encodedLen K ∧ e.tx.encodedLen K ≤ MAX_SIGNED_TX_BYTES)
    (hseq : e.seq = m.nextSeq)
    (hfresh : m.byHash.get h = none) (hfree : slotAt m e.sender e.nonce = none) :
    Indexed K (m.enroll h e) := by
  have hget : ∀ y, (m.enroll h e).byHash.get y = if h = y then some e else m.byHash.get y :=
    fun y => Column.get_insert _ _ _ _
  refine ⟨?_, ?_, ?_, ?_, ?_, ?_, ?_, ?_⟩
  · intro y e' hy
    rw [hget] at hy
    split at hy
    · rename_i hown
      rw [← Option.some.inj hy, hhash, hown]
    · exact hi.keyed y e' hy
  · intro y e' hy
    rw [hget] at hy
    split at hy
    · rw [← Option.some.inj hy]
      exact hsize
    · exact hi.size y e' hy
  · intro k
    have hprio : (m.enroll h e).byPriority.get k =
        if (⟨e.fee, e.seq, h⟩ : PriorityKey) = k then some () else m.byPriority.get k :=
      Column.get_insert _ _ _ _
    rw [hprio, hget]
    by_cases hk : h = k.hash
    · rw [if_pos hk]
      split
      · rename_i hkey
        subst hkey
        exact iff_of_true rfl ⟨e, rfl, rfl, rfl⟩
      · rename_i hkey
        refine iff_of_false ?_ ?_
        · intro hin
          obtain ⟨e', hget', -⟩ := (hi.priority k).mp hin
          rw [← hk, hfresh] at hget'
          cases hget'
        · rintro ⟨e', he', hfee, hseq'⟩
          obtain rfl := Option.some.inj he'
          apply hkey
          rw [hfee, hseq', hk]
    · have hkey : (⟨e.fee, e.seq, h⟩ : PriorityKey) ≠ k := by
        rintro rfl
        exact hk rfl
      rw [if_neg hk, if_neg hkey]
      exact hi.priority k
  · intro sender nonce y
    rw [enroll_slot, hget]
    split
    · rename_i hown
      constructor
      · intro hy
        rw [Option.some.injEq] at hy
        rw [if_pos hy]
        exact ⟨e, rfl, hown⟩
      · rintro ⟨e', he', hs, hn⟩
        split at he'
        · rename_i hy
          rw [hy]
        · have hslot := hi.slot_of_get he'
          rw [hs, hn, ← hown.1, ← hown.2, hfree] at hslot
          cases hslot
    · rename_i hother
      rw [hi.slot]
      by_cases hy : h = y
      · subst hy
        rw [if_pos rfl, hfresh]
        refine iff_of_false (by simp) ?_
        rintro ⟨e', he', hs, hn⟩
        obtain rfl := Option.some.inj he'
        exact hother ⟨hs, hn⟩
      · rw [if_neg hy]
  · intro sender perNonce hper
    have hinsert : (m.enroll h e).bySender.get sender =
        if e.sender = sender then some (((m.bySender.get e.sender).getD .empty).insert e.nonce h)
        else m.bySender.get sender := Column.get_insert _ _ _ _
    rw [hinsert] at hper
    split at hper
    · rw [← Option.some.inj hper]
      intro hempty
      have hnone := Column.get_of_entries_nil hempty e.nonce
      rw [Column.get_insert, if_pos rfl] at hnone
      cases hnone
    · exact hi.nonempty sender perNonce hper
  · have htotal := Column.total_write m.byHash (fun _ e => e.encodedBytes) h (some e)
    rw [hfresh, Column.part_none, Column.part_some, add_zero] at htotal
    change m.currentBytes + e.encodedBytes = _
    rw [hi.bytes]
    exact htotal.symm
  · intro y e' hy
    rw [hget] at hy
    change e'.seq < m.nextSeq + 1
    split at hy
    · obtain rfl := Option.some.inj hy
      omega
    · exact Nat.lt_succ_of_lt (hi.arrived y e' hy)
  · intro y e' y' e'' hy hy' heq
    rw [hget] at hy hy'
    split at hy
    · rename_i hown
      obtain rfl := Option.some.inj hy
      split at hy'
      · rename_i hown'
        rw [← hown, ← hown']
      · have harrived := hi.arrived y' e'' hy'
        omega
    · split at hy'
      · obtain rfl := Option.some.inj hy'
        have harrived := hi.arrived y e' hy
        omega
      · exact hi.order y e' y' e'' hy hy' heq

end Arknet.Consensus
