import Arknet.Consensus.PoolIndex

/-!
The pool through its operations. It stays within its limits by dropping from the low end, so that an
insertion that fails late has already dropped what was below the newcomer.
-/

namespace Arknet.Laws

open Machine Store Arknet.Chain Arknet.Consensus

variable {K : Primitives} {m : Mempool}

/-! ## Eviction -/

/-- The number of entries with at least this fee. -/
def countFrom (m : Mempool) (fee : Gas) : Nat :=
  m.byHash.total fun _ e => if fee ≤ e.fee then 1 else 0

/-- Their size. -/
def bytesFrom (m : Mempool) (fee : Gas) : Nat :=
  m.byHash.total fun _ e => if fee ≤ e.fee then e.encodedBytes else 0

def FitsFrom (m : Mempool) (fee : Gas) : Prop :=
  countFrom m fee ≤ m.maxCount ∧ bytesFrom m fee ≤ m.maxBytes

structure Newest (m : Mempool) (x : TxHash) (e : Entry) : Prop where
  there : m.byHash.get x = some e
  last : ∀ y e', m.byHash.get y = some e' → y ≠ x → e'.seq < e.seq

/-- The entries above a fee are some of all. -/
theorem fitsFrom_of_bounded (hi : Indexed K m) (hb : Bounded m) (fee : Gas) : FitsFrom m fee := by
  refine ⟨le_trans ?_ hb.count, le_trans ?_ hb.bytes⟩
  · rw [Mempool.len, Column.length_eq_total]
    unfold countFrom Column.total
    apply List.sum_le_sum
    intro item _
    dsimp only
    split
    · exact le_rfl
    · exact Nat.zero_le _
  · rw [hi.bytes]
    unfold bytesFrom Column.total
    apply List.sum_le_sum
    intro item _
    dsimp only
    split
    · exact le_rfl
    · exact Nat.zero_le _

/-- Where all entries are above the fee, nothing is left out. -/
theorem bounded_of_fitsFrom (hi : Indexed K m) {fee : Gas} (h : FitsFrom m fee)
    (hall : ∀ y e', m.byHash.get y = some e' → fee ≤ e'.fee) : Bounded m := by
  have hcount : countFrom m fee = m.len := by
    rw [Mempool.len, Column.length_eq_total]
    unfold countFrom Column.total
    congr 1
    apply List.map_congr_left
    rintro ⟨y, e'⟩ hmem
    exact if_pos (hall y e' (Column.get_eq_some.mpr hmem))
  have hbytes : bytesFrom m fee = m.currentBytes := by
    rw [hi.bytes]
    unfold bytesFrom Column.total
    congr 1
    apply List.map_congr_left
    rintro ⟨y, e'⟩ hmem
    exact if_pos (hall y e' (Column.get_eq_some.mpr hmem))
  exact ⟨hcount ▸ h.1, hbytes ▸ h.2⟩

/-- Removing an entry below the fee is not seen above it. -/
theorem countFrom_removeByHash {h : TxHash} {e : Entry} {fee : Gas} (hget : m.byHash.get h = some e)
    (hlow : e.fee < fee) : countFrom (m.removeByHash h).1 fee = countFrom m fee ∧
      bytesFrom (m.removeByHash h).1 fee = bytesFrom m fee := by
  obtain ⟨-, hhash, -⟩ := removeByHash_of_some hget
  have hwrite : m.byHash.write h none = m.byHash.erase h := rfl
  have hcount := Column.total_write m.byHash (fun _ e => if fee ≤ e.fee then 1 else 0) h none
  have hbytes := Column.total_write m.byHash (fun _ e => if fee ≤ e.fee then e.encodedBytes else 0) h none
  rw [hget, Column.part_some, if_neg (not_le.mpr hlow), hwrite] at hcount hbytes
  simp only [Column.part_none, add_zero] at hcount hbytes
  unfold countFrom bytesFrom
  rw [hhash]
  exact ⟨hcount, hbytes⟩

theorem fitsFrom_removeByHash {h : TxHash} {e : Entry} {fee : Gas} (hget : m.byHash.get h = some e)
    (hlow : e.fee < fee) : FitsFrom (m.removeByHash h).1 fee ↔ FitsFrom m fee := by
  obtain ⟨hc, hb, -⟩ := removeByHash_limits (m := m) h
  obtain ⟨hcount, hbytes⟩ := countFrom_removeByHash hget hlow
  unfold FitsFrom
  rw [hc, hb, hcount, hbytes]

theorem removeByHash_shrinks {h : TxHash} {e : Entry} (hi : Indexed K m)
    (hget : m.byHash.get h = some e) :
    (m.removeByHash h).1.byPriority.entries.length + 1 = m.byPriority.entries.length := by
  obtain ⟨-, -, hprio, -⟩ := removeByHash_of_some hget
  have hkey := (hi.priority ⟨e.fee, e.seq, h⟩).mpr ⟨e, hget, rfl, rfl⟩
  have hwrite : m.byPriority.write ⟨e.fee, e.seq, h⟩ none = m.byPriority.erase ⟨e.fee, e.seq, h⟩ := rfl
  have htotal := Column.total_write m.byPriority (fun _ _ => 1) ⟨e.fee, e.seq, h⟩ none
  rw [hkey, Column.part_some, Column.part_none, hwrite] at htotal
  rw [hprio, Column.length_eq_total, Column.length_eq_total]
  omega

/-- The loop drops from the low end: it stops with the newcomer in the pool when the newcomer fits on top
of the entries with at least its fee, and otherwise drops it and everything below. -/
theorem evict_outcome {x : TxHash} {e : Entry} {fuel : Nat} (hi : Indexed K m) (hnew : Newest m x e)
    (hfuel : m.byPriority.entries.length ≤ fuel) :
    Indexed K (m.evict x e.fee fuel).1 ∧
      (m.evict x e.fee fuel).1.maxCount = m.maxCount ∧ (m.evict x e.fee fuel).1.maxBytes = m.maxBytes ∧
      (((m.evict x e.fee fuel).2 = .ok x ∧ FitsFrom m e.fee ∧ Bounded (m.evict x e.fee fuel).1 ∧
          (m.evict x e.fee fuel).1.byHash.get x = some e ∧
          ∀ y e', (m.evict x e.fee fuel).1.byHash.get y = some e' → m.byHash.get y = some e') ∨
        ((m.evict x e.fee fuel).2 = .error (.underpricedReplacement (satAdd e.fee 1) e.fee) ∧
          ¬ FitsFrom m e.fee ∧ ∀ y e', (m.evict x e.fee fuel).1.byHash.get y = some e' ↔
            m.byHash.get y = some e' ∧ y ≠ x ∧ e.fee ≤ e'.fee)) := by
  induction fuel generalizing m with
  | zero =>
    have hempty := List.eq_nil_of_length_eq_zero (Nat.le_zero.mp hfuel)
    have hkey := hi.key hnew.there
    rw [Column.keys, hempty] at hkey
    cases hkey
  | succ fuel ih =>
    unfold Mempool.evict
    by_cases hover : m.maxCount < m.len ∨ m.maxBytes < m.currentBytes
    · rw [if_pos (by simpa using hover)]
      cases hlast : m.byPriority.keys.getLast? with
      | none =>
        have hkey := hi.key hnew.there
        rw [List.getLast?_eq_none_iff.mp hlast] at hkey
        cases hkey
      | some victim =>
        dsimp only
        obtain ⟨ev, hget, hfee, hseq⟩ := hi.get_key (List.mem_of_getLast? hlast)
        have hvictim : (⟨ev.fee, ev.seq, victim.hash⟩ : PriorityKey) = victim := by rw [hfee, hseq]
        have hlow : ∀ y e', m.byHash.get y = some e' → y ≠ victim.hash →
            (⟨e'.fee, e'.seq, y⟩ : PriorityKey) < victim := by
          intro y e' hy hne
          refine Column.lt_last hlast (hi.key hy) ?_
          rintro rfl
          exact hne rfl
        by_cases hx : victim.hash = x
        · rw [if_pos hx]
          subst hx
          have he : ev = e := Option.some.inj (hget.symm.trans hnew.there)
          subst he
          have hall : ∀ y e', m.byHash.get y = some e' → ev.fee ≤ e'.fee := by
            intro y e' hy
            by_cases hne : y = victim.hash
            · rw [hne, hget] at hy
              rw [← Option.some.inj hy]
            · rcases PriorityKey.lt_iff.mp (hlow y e' hy hne) with h | ⟨h, -⟩
              · rw [hfee]
                exact h.le
              · rw [hfee]
                exact h.ge
          obtain ⟨hc, hb, -⟩ := removeByHash_limits (m := m) victim.hash
          refine ⟨hi.removeByHash _, hc, hb, .inr ⟨?_, ?_, ?_⟩⟩
          · rw [hfee]
          · intro hfits
            obtain ⟨h₁, h₂⟩ := bounded_of_fitsFrom hi hfits hall
            omega
          · intro y e'
            rw [Mempool.removeByHash_get]
            constructor
            · intro hy
              split at hy
              · cases hy
              · rename_i hne
                exact ⟨hy, fun heq => hne heq.symm, hall y e' hy⟩
            · rintro ⟨hy, hne, -⟩
              rw [if_neg fun heq => hne heq.symm]
              exact hy
        · rw [if_neg hx]
          have hbelow : ev.fee < e.fee := by
            have hkey := hlow x e hnew.there fun heq => hx heq.symm
            have holder := hnew.last _ _ hget hx
            rcases PriorityKey.lt_iff.mp hkey with h | ⟨-, h⟩
            · rw [hfee]
              exact h
            · dsimp only at h
              omega
          have hnew' : Newest (m.removeByHash victim.hash).1 x e := by
            refine ⟨?_, fun y e' hy hne => ?_⟩
            · rw [Mempool.removeByHash_get, if_neg hx]
              exact hnew.there
            · rw [Mempool.removeByHash_get] at hy
              split at hy
              · cases hy
              · exact hnew.last y e' hy hne
          have hshrinks := removeByHash_shrinks hi hget
          obtain ⟨hc, hb, -⟩ := removeByHash_limits (m := m) victim.hash
          obtain ⟨hi', hc', hb', hout⟩ := ih (hi.removeByHash victim.hash) hnew' (by omega)
          refine ⟨hi', hc'.trans hc, hb'.trans hb, ?_⟩
          rw [fitsFrom_removeByHash hget hbelow] at hout
          refine hout.imp ?_ ?_
          · rintro ⟨hok, hfits, hbounded, hthere, hsub⟩
            refine ⟨hok, hfits, hbounded, hthere, fun y e' hy => ?_⟩
            have hy' := hsub y e' hy
            rw [Mempool.removeByHash_get] at hy'
            split at hy'
            · cases hy'
            · exact hy'
          · rintro ⟨herr, hfits, hleft⟩
            refine ⟨herr, hfits, fun y e' => ?_⟩
            rw [hleft, Mempool.removeByHash_get]
            by_cases hy : victim.hash = y
            · rw [if_pos hy]
              refine iff_of_false (by simp) ?_
              rintro ⟨hget', -, hge⟩
              rw [← hy, hget] at hget'
              rw [← Option.some.inj hget'] at hge
              exact absurd hbelow (not_lt.mpr hge)
            · rw [if_neg hy]
    · rw [if_neg (by simpa using hover)]
      have hbounded : Bounded m := ⟨by omega, by omega⟩
      have hfits := fitsFrom_of_bounded hi hbounded e.fee
      exact ⟨hi, rfl, rfl, .inl ⟨rfl, hfits, hbounded, hnew.there, fun _ _ h => h⟩⟩

/-! ## Insertion -/

/-- A transaction of this fee and size fits on top of the entries with at least its fee. -/
def FitsAbove (m : Mempool) (fee : Gas) (size : Nat) : Prop :=
  countFrom m fee + 1 ≤ m.maxCount ∧ bytesFrom m fee + size ≤ m.maxBytes

/-- What comes out when a transaction was not refused at once. -/
inductive Entered (K : Primitives) (m : Mempool) (stx : SignedTransaction) (m' : Mempool) :
    Except MempoolError TxHash → Prop where
  | kept {e : Entry} (tx : e.tx = stx) (fits : FitsAbove m e.fee (stx.encodedLen K))
      (there : m'.byHash.get (stx.hash K) = some e)
      (sub : ∀ y old, m'.byHash.get y = some old → y ≠ stx.hash K → m.byHash.get y = some old) :
      Entered K m stx m' (.ok (stx.hash K))
  | dropped {e : Entry} (tx : e.tx = stx) (full : ¬ FitsAbove m e.fee (stx.encodedLen K))
      (left : ∀ y old, m'.byHash.get y = some old ↔ m.byHash.get y = some old ∧ e.fee ≤ old.fee) :
      Entered K m stx m' (.error (.underpricedReplacement (satAdd e.fee 1) e.fee))

theorem fitsFrom_enroll {h : TxHash} {e : Entry} (hfresh : m.byHash.get h = none) :
    FitsFrom (m.enroll h e) e.fee ↔ FitsAbove m e.fee e.encodedBytes := by
  have hcount := Column.total_write m.byHash (fun _ e' => if e.fee ≤ e'.fee then 1 else 0) h (some e)
  have hbytes := Column.total_write m.byHash
    (fun _ e' => if e.fee ≤ e'.fee then e'.encodedBytes else 0) h (some e)
  rw [hfresh, Column.part_some, if_pos le_rfl, Column.part_none, add_zero] at hcount hbytes
  unfold FitsFrom FitsAbove countFrom bytesFrom
  change (Column.total (m.byHash.write h (some e)) _ ≤ m.maxCount ∧
    Column.total (m.byHash.write h (some e)) _ ≤ m.maxBytes) ↔ _
  rw [hcount, hbytes]

theorem fitsAbove_vacate (hi : Indexed K m) {e : Entry} {fee : Gas} {size : Nat}
    (hpred : ∀ old, predecessor m e.sender e.nonce = some old → old.fee < fee) :
    FitsAbove (vacate m e.sender e.nonce) fee size ↔ FitsAbove m fee size := by
  have hcount : countFrom (vacate m e.sender e.nonce) fee = countFrom m fee ∧
      bytesFrom (vacate m e.sender e.nonce) fee = bytesFrom m fee := by
    unfold vacate
    cases hslot : slotAt m e.sender e.nonce with
    | none => exact ⟨rfl, rfl⟩
    | some h =>
      obtain ⟨old, hget, hold, -⟩ := predecessor_of_slot hi hslot
      exact countFrom_removeByHash hget (hpred old hold)
  obtain ⟨hc, hb, -⟩ := vacate_limits (m := m) e.sender e.nonce
  unfold FitsAbove
  rw [hcount.1, hcount.2, hc, hb]

/-- An insertion never stops the program, and leaves a well-indexed pool within its limits. -/
theorem insert_outcome (hi : Indexed K m) (hb : Bounded m) (stx : SignedTransaction) :
    ∃ m' r, m.insert K stx = .ok (m', r) ∧ Indexed K m' ∧ Bounded m' ∧ m'.maxCount = m.maxCount ∧
      m'.maxBytes = m.maxBytes ∧
      ((∃ err, refusal K m stx = some err ∧ m' = m ∧ r = .error err) ∨
        (refusal K m stx = none ∧ Entered K m stx m' r)) := by
  rcases insert_cases hi stx with ⟨err, href, hins⟩ | ⟨href, e, htx, hsize, hseq, hfresh, hpred, hins⟩
  · exact ⟨m, _, hins, hi, hb, rfl, rfl, .inl ⟨err, href, rfl, rfl⟩⟩
  have hv := vacate_indexed hi e.sender e.nonce
  have hvfresh : (vacate m e.sender e.nonce).byHash.get (stx.hash K) = none := by
    rw [vacate_get]
    split
    · rfl
    · exact hfresh
  have hv₂ : Indexed K ((vacate m e.sender e.nonce).enroll (stx.hash K) e) :=
    hv.enroll (by rw [htx]) (by rw [htx]; exact ⟨hsize, size_of_refusal href⟩) hseq hvfresh
      (vacate_slot hi e.sender e.nonce)
  have hget : ∀ y, ((vacate m e.sender e.nonce).enroll (stx.hash K) e).byHash.get y =
      if stx.hash K = y then some e else (vacate m e.sender e.nonce).byHash.get y :=
    fun y => Column.get_insert _ _ _ _
  have hold : ∀ y old, (vacate m e.sender e.nonce).byHash.get y = some old ↔
      m.byHash.get y = some old ∧ slotAt m e.sender e.nonce ≠ some y := by
    intro y old
    rw [vacate_get]
    by_cases hy : slotAt m e.sender e.nonce = some y
    · simp [hy]
    · simp [hy]
  have hnew : Newest ((vacate m e.sender e.nonce).enroll (stx.hash K) e) (stx.hash K) e := by
    refine ⟨by rw [hget, if_pos rfl], fun y e' hy hne => ?_⟩
    rw [hget, if_neg fun heq => hne heq.symm] at hy
    rw [hseq]
    exact hv.arrived y e' hy
  have hlimits : ((vacate m e.sender e.nonce).enroll (stx.hash K) e).maxCount = m.maxCount ∧
      ((vacate m e.sender e.nonce).enroll (stx.hash K) e).maxBytes = m.maxBytes :=
    ⟨(vacate_limits e.sender e.nonce).1, (vacate_limits e.sender e.nonce).2.1⟩
  obtain ⟨hi', hc', hb', hout⟩ := evict_outcome hv₂ hnew le_rfl
  rw [fitsFrom_enroll hvfresh, fitsAbove_vacate hi hpred, hsize] at hout
  refine ⟨_, _, hins, hi', ?_⟩
  rcases hout with ⟨hok, hfits, hbounded, hthere, hsub⟩ | ⟨herr, hfull, hleft⟩
  · refine ⟨hbounded, hc'.trans hlimits.1, hb'.trans hlimits.2, .inr ⟨href, ?_⟩⟩
    rw [hok]
    refine .kept htx hfits hthere fun y old hy hne => ?_
    have hy' := hsub y old hy
    rw [hget, if_neg fun heq => hne heq.symm] at hy'
    exact ((hold y old).mp hy').1
  · have hleft' : ∀ y old, (((vacate m e.sender e.nonce).enroll (stx.hash K) e).evict (stx.hash K) e.fee
        ((vacate m e.sender e.nonce).enroll (stx.hash K) e).byPriority.entries.length).1.byHash.get y =
          some old ↔ m.byHash.get y = some old ∧ e.fee ≤ old.fee := by
      intro y old
      rw [hleft, hget]
      constructor
      · rintro ⟨hy, hne, hge⟩
        rw [if_neg fun heq => hne heq.symm] at hy
        exact ⟨((hold y old).mp hy).1, hge⟩
      · rintro ⟨hy, hge⟩
        have hne : y ≠ stx.hash K := by
          rintro rfl
          rw [hfresh] at hy
          cases hy
        rw [if_neg fun heq => hne heq.symm, hold]
        refine ⟨⟨hy, fun hslot => ?_⟩, hne, hge⟩
        obtain ⟨e', hget', hpred', -⟩ := predecessor_of_slot hi hslot
        rw [hy] at hget'
        rw [Option.some.inj hget'] at hge
        exact absurd (hpred e' hpred') (not_lt.mpr hge)
    refine ⟨?_, hc'.trans hlimits.1, hb'.trans hlimits.2, .inr ⟨href, ?_⟩⟩
    · exact hb.of_sub hi hi' (by rw [hc', hlimits.1]) (by rw [hb', hlimits.2])
        fun y old hy => ((hleft' y old).mp hy).1
    · rw [herr]
      exact .dropped htx hfull hleft'

/-! ## Draining -/

/-- `e` comes out before `e'`. -/
def DrainedBefore (e e' : Entry) : Prop := e'.fee < e.fee ∨ e.fee = e'.fee ∧ e.seq < e'.seq

/-- What a drain takes: entries of the pool in drain order, whose sizes and fees, these added with
saturation, are within the budgets. -/
structure DrainLawful (m : Mempool) (maxGas : Gas) (maxBytes : Nat) (d : Mempool.Drain)
    (taken : List Entry) : Prop where
  pooled : ∀ e ∈ taken, ∃ h, m.byHash.get h = some e
  picked : d.picked = taken.map (·.tx)
  order : taken.Pairwise DrainedBefore
  gas : d.gasUsed.val = min (taken.map (·.fee.val)).sum (2 ^ 64 - 1)
  gasLimit : d.gasUsed ≤ maxGas
  bytes : d.bytesUsed = (taken.map (·.encodedBytes)).sum
  bytesLimit : d.bytesUsed ≤ maxBytes

/-- The entries along a list of keys. -/
def along (m : Mempool) (keys : List PriorityKey) : List Entry :=
  keys.filterMap fun k => m.byHash.get k.hash

theorem keys_hash_nodup (hi : Indexed K m) :
    m.byPriority.keys.Pairwise fun k k' => k.hash ≠ k'.hash := by
  have hsorted : m.byPriority.keys.Pairwise (· < ·) := List.pairwise_map.mpr m.byPriority.sorted
  refine hsorted.imp_of_mem ?_
  intro k k' hk hk' hlt heq
  obtain ⟨e, hget, hfee, hseq⟩ := hi.get_key hk
  obtain ⟨e', hget', hfee', hseq'⟩ := hi.get_key hk'
  rw [heq, hget'] at hget
  obtain rfl := Option.some.inj hget
  have hsame : k = k' := by
    cases k
    cases k'
    simp_all
  exact absurd hlt (hsame ▸ lt_irrefl _)

/-- The entries in key order are in drain order. -/
theorem along_order (hi : Indexed K m) : (along m m.byPriority.keys).Pairwise DrainedBefore := by
  have hsorted : m.byPriority.keys.Pairwise (· < ·) := List.pairwise_map.mpr m.byPriority.sorted
  unfold along
  rw [List.pairwise_filterMap]
  refine hsorted.imp_of_mem ?_
  intro k k' hk hk' hlt e he e' he'
  obtain ⟨e₁, hget, hfee, hseq⟩ := hi.get_key hk
  obtain ⟨e₂, hget', hfee', hseq'⟩ := hi.get_key hk'
  rw [he] at hget
  rw [he'] at hget'
  obtain rfl := Option.some.inj hget
  obtain rfl := Option.some.inj hget'
  have hne : e.seq ≠ e'.seq := by
    intro heq
    have hhash := hi.order _ _ _ _ he he' heq
    rcases PriorityKey.lt_iff.mp hlt with h | ⟨hf, h | ⟨-, h⟩⟩
    · rw [hhash, he'] at he
      rw [← hfee, ← hfee', Option.some.inj he] at h
      exact lt_irrefl _ h
    · omega
    · rw [hhash] at h
      exact lt_irrefl _ h
  unfold DrainedBefore
  rw [hfee, hfee']
  rcases PriorityKey.lt_iff.mp hlt with h | ⟨hf, h⟩
  · exact .inl h
  · exact .inr ⟨hf, by omega⟩

theorem mem_along (hi : Indexed K m) {e : Entry} :
    e ∈ along m m.byPriority.keys ↔ m.byHash.get (e.tx.hash K) = some e := by
  unfold along
  rw [List.mem_filterMap]
  constructor
  · rintro ⟨k, -, hget⟩
    rw [hi.keyed _ _ hget]
    exact hget
  · intro hget
    exact ⟨_, hi.key hget, hget⟩

/-- Entries in drain order count for at most the pool. -/
theorem sum_le_total (hi : Indexed K m) {taken : List Entry} (f : Entry → Nat)
    (hpooled : ∀ e ∈ taken, ∃ h, m.byHash.get h = some e) (horder : taken.Pairwise DrainedBefore) :
    (taken.map f).sum ≤ m.byHash.total fun _ e => f e := by
  have hnodup : (taken.map fun e => (e.tx.hash K, e)).Nodup := by
    rw [List.Nodup, List.pairwise_map]
    refine horder.imp ?_
    intro e e' hbefore heq
    obtain rfl := (Prod.mk.inj heq).2
    rcases hbefore with h | ⟨-, h⟩
    · exact lt_irrefl _ h
    · exact lt_irrefl _ h
  have hsub : (taken.map fun e => (e.tx.hash K, e)) ⊆ m.byHash.entries := by
    intro item hitem
    obtain ⟨e, he, rfl⟩ := List.mem_map.mp hitem
    obtain ⟨h, hget⟩ := hpooled e he
    rw [hi.keyed h e hget]
    exact Column.get_eq_some.mp hget
  obtain ⟨l, hperm, hsublist⟩ := hnodup.subperm hsub
  have hsum := (hperm.map fun item => f item.2).sum_eq
  have hle := (hsublist.map fun item => f item.2).sum_le_sum fun _ _ => Nat.zero_le _
  rw [List.map_map] at hsum
  calc (taken.map f).sum = (l.map fun item => f item.2).sum := hsum.symm
    _ ≤ _ := hle

/-- What the drain looks at for a list of keys. -/
def items (m : Mempool) (keys : List PriorityKey) : List (TxHash × Gas × Nat) :=
  keys.filterMap fun k => (m.byHash.get k.hash).map fun e => (k.hash, e.fee, e.encodedBytes)

/-- One entry: passed over, or taken out and added. -/
theorem drainStep_cases (maxGas : Gas) (maxBytes : Nat) {d : Mempool.Drain} {h : TxHash} {e : Entry}
    (hget : d.mempool.byHash.get h = some e) :
    (Mempool.drainStep maxGas maxBytes d (h, e.fee, e.encodedBytes) = d ∧
        (maxGas < satAdd d.gasUsed e.fee ∨ maxBytes < d.bytesUsed + e.encodedBytes)) ∨
      (satAdd d.gasUsed e.fee ≤ maxGas ∧ d.bytesUsed + e.encodedBytes ≤ maxBytes ∧
        Mempool.drainStep maxGas maxBytes d (h, e.fee, e.encodedBytes) =
          ⟨(d.mempool.removeByHash h).1, d.picked ++ [e.tx], satAdd d.gasUsed e.fee,
            d.bytesUsed + e.encodedBytes⟩) := by
  have hpair : d.mempool.removeByHash h = ((d.mempool.removeByHash h).1, some e) := by
    rw [← (removeByHash_of_some hget).1]
  unfold Mempool.drainStep
  dsimp only
  by_cases hgas : maxGas < satAdd d.gasUsed e.fee
  · rw [if_pos hgas]
    exact .inl ⟨rfl, .inl hgas⟩
  · rw [if_neg hgas]
    by_cases hbytes : maxBytes < d.bytesUsed + e.encodedBytes
    · rw [if_pos hbytes]
      exact .inl ⟨rfl, .inr hbytes⟩
    · rw [if_neg hbytes, hpair]
      exact .inr ⟨not_lt.mp hgas, not_lt.mp hbytes, rfl⟩

theorem drain_along (maxGas : Gas) (maxBytes : Nat) {keys : List PriorityKey} {d : Mempool.Drain}
    (hnodup : keys.Pairwise fun k k' => k.hash ≠ k'.hash) (hgas : d.gasUsed ≤ maxGas)
    (hbytes : d.bytesUsed ≤ maxBytes)
    (hthere : ∀ k ∈ keys, d.mempool.byHash.get k.hash = m.byHash.get k.hash) :
    ∃ taken, taken.Sublist (along m keys) ∧
      ((items m keys).foldl (Mempool.drainStep maxGas maxBytes) d).picked = d.picked ++ taken.map (·.tx) ∧
      ((items m keys).foldl (Mempool.drainStep maxGas maxBytes) d).gasUsed.val =
        min (d.gasUsed.val + (taken.map (·.fee.val)).sum) (2 ^ 64 - 1) ∧
      ((items m keys).foldl (Mempool.drainStep maxGas maxBytes) d).gasUsed ≤ maxGas ∧
      ((items m keys).foldl (Mempool.drainStep maxGas maxBytes) d).bytesUsed =
        d.bytesUsed + (taken.map (·.encodedBytes)).sum ∧
      ((items m keys).foldl (Mempool.drainStep maxGas maxBytes) d).bytesUsed ≤ maxBytes ∧
      (d.gasUsed.val + ((along m keys).map (·.fee.val)).sum ≤ maxGas.val →
        d.bytesUsed + ((along m keys).map (·.encodedBytes)).sum ≤ maxBytes → taken = along m keys) := by
  induction keys generalizing d with
  | nil =>
    refine ⟨[], .refl _, by simp [items], ?_, hgas, by simp [items], hbytes, fun _ _ => rfl⟩
    have hlt := d.gasUsed.isLt
    simp only [items, List.filterMap_nil, List.foldl_nil, List.map_nil, List.sum_nil]
    omega
  | cons k keys ih =>
    obtain ⟨hk, hkeys⟩ := List.pairwise_cons.mp hnodup
    have hrest : ∀ k' ∈ keys, d.mempool.byHash.get k'.hash = m.byHash.get k'.hash :=
      fun k' hk' => hthere k' (List.mem_cons_of_mem _ hk')
    cases hget : m.byHash.get k.hash with
    | none =>
      have halong : along m (k :: keys) = along m keys := by simp [along, hget]
      have hitems : items m (k :: keys) = items m keys := by simp [items, hget]
      rw [halong, hitems]
      exact ih hkeys hgas hbytes hrest
    | some e =>
      have halong : along m (k :: keys) = e :: along m keys := by simp [along, hget]
      have hitems : items m (k :: keys) = (k.hash, e.fee, e.encodedBytes) :: items m keys := by
        simp [items, hget]
      have hd : d.mempool.byHash.get k.hash = some e := by
        rw [hthere k (List.mem_cons_self ..), hget]
      rw [halong, hitems, List.foldl_cons]
      rcases drainStep_cases maxGas maxBytes hd with
        ⟨hstep, hover⟩ | ⟨hfee, hsize, hstep⟩
      · rw [hstep]
        obtain ⟨taken, hsub, hpicked, hg, hgl, hb, hbl, -⟩ := ih hkeys hgas hbytes hrest
        refine ⟨taken, hsub.cons e, hpicked, hg, hgl, hb, hbl, ?_⟩
        intro hallgas hallbytes
        rw [List.map_cons, List.sum_cons] at hallgas hallbytes
        exfalso
        rcases hover with h | h
        · have hle := satAdd_le d.gasUsed e.fee
          have hlt := Fin.lt_def.mp h
          omega
        · omega
      · rw [hstep]
        have hrest' : ∀ k' ∈ keys,
            (d.mempool.removeByHash k.hash).1.byHash.get k'.hash = m.byHash.get k'.hash := by
          intro k' hk'
          rw [Mempool.removeByHash_get, if_neg (hk k' hk')]
          exact hrest k' hk'
        obtain ⟨taken, hsub, hpicked, hg, hgl, hb, hbl, hall⟩ :=
          ih (d := ⟨(d.mempool.removeByHash k.hash).1, d.picked ++ [e.tx], satAdd d.gasUsed e.fee,
            d.bytesUsed + e.encodedBytes⟩) hkeys hfee hsize hrest'
        refine ⟨e :: taken, hsub.cons_cons e, ?_, ?_, hgl, ?_, hbl, ?_⟩
        · rw [hpicked, List.append_assoc]
          rfl
        · rw [hg]
          have hsum := satAdd_val d.gasUsed e.fee
          rw [List.map_cons, List.sum_cons]
          dsimp only
          omega
        · rw [hb, List.map_cons, List.sum_cons]
          dsimp only
          omega
        · intro hallgas hallbytes
          rw [List.map_cons, List.sum_cons] at hallgas hallbytes
          have hle := satAdd_le d.gasUsed e.fee
          have htail := hall (by dsimp only; omega) (by dsimp only; omega)
          rw [htail]

theorem drainForBlock_lawful (hi : Indexed K m) (maxGas : Gas) (maxBytes : Nat) :
    ∃ taken, DrainLawful m maxGas maxBytes (m.drainForBlock maxGas maxBytes) taken ∧
      (((along m m.byPriority.keys).map (·.fee.val)).sum ≤ maxGas.val →
        ((along m m.byPriority.keys).map (·.encodedBytes)).sum ≤ maxBytes →
        taken = along m m.byPriority.keys) := by
  obtain ⟨taken, hsub, hpicked, hg, hgl, hb, hbl, hall⟩ :=
    drain_along (m := m) maxGas maxBytes (d := ⟨m, [], 0, 0⟩)
      (keys_hash_nodup hi) (Fin.zero_le _) (Nat.zero_le _) (fun _ _ => rfl)
  simp only [List.nil_append, Fin.coe_ofNat_eq_mod, Nat.zero_mod, Nat.zero_add] at hpicked hg hb hall
  refine ⟨taken, ⟨?_, hpicked, (along_order hi).sublist hsub, hg, hgl, hb, hbl⟩, hall⟩
  intro e he
  obtain ⟨k, -, hget⟩ := List.mem_filterMap.mp (hsub.subset he)
  exact ⟨k.hash, hget⟩

/-! ## Runs of the pool -/

inductive PoolOp where
  | insert (stx : SignedTransaction)
  | remove (hash : TxHash)
  | removeMany (hashes : List TxHash)
  | drainForBlock (maxGas : Gas) (maxBytes : Nat)
  | readmit (txs : List SignedTransaction)

def PoolOp.run (K : Primitives) (m : Mempool) : PoolOp → Exec Mempool
  | .insert stx => Prod.fst <$> m.insert K stx
  | .remove hash => pure (m.remove hash).1
  | .removeMany hashes => pure (m.removeMany hashes)
  | .drainForBlock maxGas maxBytes => pure (m.drainForBlock maxGas maxBytes).mempool
  | readmit txs => m.readmit K txs

/-- The representation invariant, with the limits the pool was made with. -/
structure PoolSound (K : Primitives) (maxCount maxBytes : Nat) (m : Mempool) : Prop where
  indexed : Indexed K m
  bounded : Bounded m
  maxCount : m.maxCount = maxCount
  maxBytes : m.maxBytes = maxBytes

section

variable {maxCount maxBytes : Nat}

theorem PoolSound.insert (hs : PoolSound K maxCount maxBytes m) (stx : SignedTransaction) :
    ∃ m', Prod.fst <$> m.insert K stx = .ok m' ∧ PoolSound K maxCount maxBytes m' := by
  obtain ⟨m', r, hins, hi, hb, hc, hbytes, -⟩ := insert_outcome hs.indexed hs.bounded stx
  refine ⟨m', ?_, hi, hb, hc.trans hs.maxCount, hbytes.trans hs.maxBytes⟩
  rw [hins]
  rfl

theorem PoolSound.removeByHash (hs : PoolSound K maxCount maxBytes m) (h : TxHash) :
    PoolSound K maxCount maxBytes (m.removeByHash h).1 := by
  obtain ⟨hc, hb, -⟩ := removeByHash_limits (m := m) h
  have hi := hs.indexed.removeByHash h
  refine ⟨hi, hs.bounded.of_sub hs.indexed hi hc hb ?_, hc.trans hs.maxCount, hb.trans hs.maxBytes⟩
  intro y e hy
  rw [Mempool.removeByHash_get] at hy
  split at hy
  · cases hy
  · exact hy

theorem PoolSound.removeMany (hs : PoolSound K maxCount maxBytes m) (hashes : List TxHash) :
    PoolSound K maxCount maxBytes (m.removeMany hashes) := by
  unfold Mempool.removeMany
  induction hashes generalizing m with
  | nil => exact hs
  | cons h hashes ih => exact ih (hs.removeByHash h)

theorem PoolSound.drainStep {maxGas : Gas} {budget : Nat} {d : Mempool.Drain}
    (hs : PoolSound K maxCount maxBytes d.mempool) (item : TxHash × Gas × Nat) :
    PoolSound K maxCount maxBytes (Mempool.drainStep maxGas budget d item).mempool := by
  unfold Mempool.drainStep
  dsimp only
  split
  · exact hs
  · split
    · exact hs
    · split
      · exact hs
      · rename_i hremoved
        have hfst := congrArg Prod.fst hremoved
        dsimp only at hfst ⊢
        rw [← hfst]
        exact hs.removeByHash _

theorem PoolSound.drainForBlock (hs : PoolSound K maxCount maxBytes m) (maxGas : Gas) (budget : Nat) :
    PoolSound K maxCount maxBytes (m.drainForBlock maxGas budget).mempool := by
  unfold Mempool.drainForBlock
  have hstart : PoolSound K maxCount maxBytes (⟨m, [], 0, 0⟩ : Mempool.Drain).mempool := hs
  generalize (⟨m, [], 0, 0⟩ : Mempool.Drain) = d at hstart
  induction m.ordered generalizing d with
  | nil => exact hstart
  | cons item rest ih => exact ih _ (hstart.drainStep item)

theorem PoolSound.readmit (hs : PoolSound K maxCount maxBytes m) (txs : List SignedTransaction) :
    ∃ m', m.readmit K txs = .ok m' ∧ PoolSound K maxCount maxBytes m' := by
  unfold Mempool.readmit
  induction txs generalizing m with
  | nil => exact ⟨m, rfl, hs⟩
  | cons stx txs ih =>
    obtain ⟨m₁, hins, hs₁⟩ := hs.insert stx
    obtain ⟨m', hrest, hs'⟩ := ih hs₁
    refine ⟨m', ?_, hs'⟩
    rw [List.foldlM_cons, hins]
    exact hrest

theorem PoolSound.run (hs : PoolSound K maxCount maxBytes m) (op : PoolOp) :
    ∃ m', op.run K m = .ok m' ∧ PoolSound K maxCount maxBytes m' := by
  cases op with
  | insert stx => exact hs.insert stx
  | remove h => exact ⟨_, rfl, hs.removeByHash h⟩
  | removeMany hashes => exact ⟨_, rfl, hs.removeMany hashes⟩
  | drainForBlock maxGas budget => exact ⟨_, rfl, hs.drainForBlock maxGas budget⟩
  | readmit txs => exact hs.readmit txs

theorem pool_sound (K : Primitives) (maxCount maxBytes : Nat) (ops : List PoolOp) :
    ∃ m, ops.foldlM (PoolOp.run K) (.withLimits maxCount maxBytes) = .ok m ∧
      PoolSound K maxCount maxBytes m := by
  have hstart : PoolSound K maxCount maxBytes (.withLimits maxCount maxBytes) :=
    ⟨withLimits_indexed _ _, withLimits_bounded _ _, rfl, rfl⟩
  generalize Mempool.withLimits maxCount maxBytes = m at hstart
  induction ops generalizing m with
  | nil => exact ⟨m, rfl, hstart⟩
  | cons op ops ih =>
    obtain ⟨m₁, hrun, hs₁⟩ := hstart.run op
    obtain ⟨m', hrest, hs'⟩ := ih m₁ hs₁
    refine ⟨m', ?_, hs'⟩
    rw [List.foldlM_cons, hrun]
    exact hrest

end

/-- Whatever is done to a pool, with whatever limits: it does not stop the program, its maps describe one
set of transactions within the limits, and a drain takes some of them in order of fee, then arrival,
within both budgets. The gas budget counts fees with saturation, so that its largest value is no limit. -/
theorem pool_representation (K : Primitives) (maxCount maxBytes : Nat) (ops : List PoolOp) :
    ∃ m, ops.foldlM (PoolOp.run K) (.withLimits maxCount maxBytes) = .ok m ∧
      PoolSound K maxCount maxBytes m ∧ (∀ stx, ∃ out, m.insert K stx = .ok out) ∧
      ∀ maxGas budget, ∃ taken, DrainLawful m maxGas budget (m.drainForBlock maxGas budget) taken ∧
        (maxGas.val < 2 ^ 64 - 1 → (taken.map (·.fee.val)).sum ≤ maxGas.val) := by
  obtain ⟨m, hrun, hs⟩ := pool_sound K maxCount maxBytes ops
  refine ⟨m, hrun, hs, fun stx => ?_, fun maxGas budget => ?_⟩
  · obtain ⟨m', r, hins, -⟩ := insert_outcome hs.indexed hs.bounded stx
    exact ⟨_, hins⟩
  · obtain ⟨taken, hd, -⟩ := drainForBlock_lawful hs.indexed maxGas budget
    refine ⟨taken, hd, fun hlt => ?_⟩
    have hgas := hd.gas
    have hlimit := Fin.le_def.mp hd.gasLimit
    omega

def topBids : List PoolOp :=
  [.insert ⟨.transfer 1 2 5 0 (2 ^ 63), ⟨.ed25519, [1]⟩, ⟨.ed25519, [1]⟩⟩,
    .insert ⟨.transfer 2 3 5 0 (2 ^ 63), ⟨.ed25519, [2]⟩, ⟨.ed25519, [2]⟩⟩]

set_option maxRecDepth 4000 in
theorem topBids_run : (topBids.foldlM (PoolOp.run toyPrimitives)
    (.withLimits DEFAULT_MAX_COUNT DEFAULT_MAX_BYTES)).toOption.isSome = true := by decide

set_option maxRecDepth 4000 in
/-- Two transactions that bid half the range each both go into a block of the largest gas budget. -/
theorem drain_above_gas : ∃ m, topBids.foldlM (PoolOp.run toyPrimitives)
      (.withLimits DEFAULT_MAX_COUNT DEFAULT_MAX_BYTES) = .ok m ∧
      (m.drainForBlock (Fin.last _) DEFAULT_MAX_BYTES).picked.map (fun stx => stx.tx) =
        [.transfer 1 2 5 0 (2 ^ 63), .transfer 2 3 5 0 (2 ^ 63)] ∧
      (Fin.last (2 ^ 64 - 1) : Gas).val < 2 ^ 63 + 2 ^ 63 :=
  ⟨_, eq_ok_returned topBids_run, by decide, by decide⟩

/-! ## Failed insertions -/

def SameTransactions (m m' : Mempool) : Prop :=
  ∀ h, (m'.byHash.get h).map Entry.tx = (m.byHash.get h).map Entry.tx

/-- An insertion that fails changes nothing. -/
def KeptOnFailure (K : Primitives) (m : Mempool) (stx : SignedTransaction) : Prop :=
  ∀ m' err, m.insert K stx = .ok (m', .error err) → SameTransactions m m'

/-- The transaction is refused at once, or fits on top of what bids at least as much, or nothing bids
less. -/
def Harmless (K : Primitives) (m : Mempool) (stx : SignedTransaction) : Prop :=
  (refusal K m stx).isSome ∨ ∀ sender nonce fee, extractSenderNonceFee stx.tx = .ok (sender, nonce, fee) →
    FitsAbove m fee (stx.encodedLen K) ∨ ∀ h e, m.byHash.get h = some e → fee ≤ e.fee

theorem sameTransactions_dropped {m' : Mempool} {fee : Gas}
    (hleft : ∀ y old, m'.byHash.get y = some old ↔ m.byHash.get y = some old ∧ fee ≤ old.fee) :
    SameTransactions m m' ↔ ∀ h e, m.byHash.get h = some e → fee ≤ e.fee := by
  constructor
  · intro hsame h e hget
    have hkept := hsame h
    rw [hget, Option.map_some] at hkept
    obtain ⟨e', hget', -⟩ := Option.map_eq_some_iff.mp hkept
    obtain ⟨hold, hge⟩ := (hleft h e').mp hget'
    rw [hget] at hold
    rw [Option.some.inj hold]
    exact hge
  · intro hall h
    congr 1
    apply Option.ext
    intro e
    rw [hleft]
    constructor
    · intro hget
      exact hget.1
    · intro hget
      exact ⟨hget, hall h e hget⟩

/-- Over every history of the pool: a failed insertion leaves it as it was exactly when the transaction
is refused at once, fits above what bids less, or finds nothing that does. -/
theorem failed_insert_keeps (K : Primitives) (maxCount maxBytes : Nat) (ops : List PoolOp) :
    ∃ m, ops.foldlM (PoolOp.run K) (.withLimits maxCount maxBytes) = .ok m ∧
      ∀ stx, KeptOnFailure K m stx ↔ Harmless K m stx := by
  obtain ⟨m, hrun, hs⟩ := pool_sound K maxCount maxBytes ops
  refine ⟨m, hrun, fun stx => ?_⟩
  obtain ⟨m', r, hins, -, -, -, -, hout⟩ := insert_outcome hs.indexed hs.bounded stx
  unfold KeptOnFailure Harmless
  rw [hins]
  rcases hout with ⟨err, href, rfl, rfl⟩ | ⟨href, hentered⟩
  · refine iff_of_true ?_ (.inl (by rw [href]; rfl))
    intro m₂ err₂ heq
    obtain ⟨rfl, -⟩ := Prod.mk.inj (Except.ok.inj heq)
    exact fun _ => rfl
  · have hearly : ¬ (refusal K m stx).isSome := by simp [href]
    cases hentered with
    | kept htx hfits =>
      rename_i e _ _
      refine iff_of_true ?_ (.inr ?_)
      · intro m₂ err₂ heq
        cases (Prod.mk.inj (Except.ok.inj heq)).2
      · intro sender nonce fee hextract
        rw [← htx, e.pooled] at hextract
        simp only [Except.ok.injEq, Prod.mk.injEq] at hextract
        obtain ⟨-, -, rfl⟩ := hextract
        exact .inl hfits
    | dropped htx hfull hleft =>
      rename_i e
      have hcondition : ((refusal K m stx).isSome ∨ ∀ sender nonce fee,
          extractSenderNonceFee stx.tx = .ok (sender, nonce, fee) →
            FitsAbove m fee (stx.encodedLen K) ∨ ∀ h e', m.byHash.get h = some e' → fee ≤ e'.fee) ↔
          ∀ h e', m.byHash.get h = some e' → e.fee ≤ e'.fee := by
        rw [or_iff_right hearly, ← htx, e.pooled, htx]
        simp only [Except.ok.injEq, Prod.mk.injEq, and_imp]
        constructor
        · intro h
          exact (h _ _ _ rfl rfl rfl).resolve_left hfull
        · rintro h _ _ _ - - rfl
          exact .inr h
      rw [hcondition, ← sameTransactions_dropped hleft]
      constructor
      · intro h
        exact h m' _ rfl
      · intro hsame m₂ err₂ heq
        obtain ⟨rfl, -⟩ := Prod.mk.inj (Except.ok.inj heq)
        exact hsame

def crowdedPool : List PoolOp :=
  [.insert ⟨.transfer 1 2 5 0 50000, ⟨.ed25519, [1]⟩, ⟨.ed25519, [1]⟩⟩,
    .insert ⟨.govVote 1 3 .yes, ⟨.ed25519, [3]⟩, ⟨.ed25519, [3]⟩⟩]

def lateTransfer : SignedTransaction :=
  ⟨.transfer 2 3 5 0 40000, ⟨.ed25519, [2]⟩, ⟨.ed25519, [2]⟩⟩

theorem crowdedPool_run : (crowdedPool.foldlM (PoolOp.run toyPrimitives)
    (.withLimits 10 40)).toOption.isSome = true := by decide

theorem lateTransfer_returns : ((returned _ crowdedPool_run).insert toyPrimitives
    lateTransfer).toOption.isSome = true := by decide

/-- A transaction that does not fit under its betters takes a cheaper one with it: a vote is gone from the
pool, and so is the transfer that drove it out. -/
theorem failed_insert_evicts : ∃ m out, crowdedPool.foldlM (PoolOp.run toyPrimitives) (.withLimits 10 40) =
      .ok m ∧ m.insert toyPrimitives lateTransfer = .ok out ∧
      out.2 = .error (.underpricedReplacement 40001 40000) ∧ m.len = 2 ∧ out.1.len = 1 :=
  ⟨_, _, eq_ok_returned crowdedPool_run, eq_ok_returned lateTransfer_returns, by decide, by decide,
    by decide⟩

end Arknet.Laws
