import Arknet.Router.QuotaGossip
import Arknet.Lib.Ledger
import Arknet.Lib.Runs
import Arknet.Laws.QuotaGossip

/-!
What a router gossips of its own consumption. A wallet has one pending entry, whose buckets follow the
clock: what was counted before an hour ended is carried into the next one unless it was drained in
between.
-/

namespace Arknet.Laws

open Machine Ledger Runs Arknet.Chain Arknet.Router

/-! ## The emitter -/

/-- The pending map, with the ticks drained from it, the records made, and the time of the last one. -/
structure Emitter where
  pending : PendingConsumption
  ticks : List FreeTierTick
  records : List (Address × Timestamp)
  clock : Timestamp

def Emitter.start : Emitter := ⟨⟨[]⟩, [], [], 0⟩

inductive PendingCall where
  | record (wallet : Address) (nowMs : Timestamp)
  /-- With the order in which the map is drained. -/
  | drain (nextNonce : U64) (nowMs : Timestamp) (drained : List (Address × Consumption))

/-- `none` where the call cannot happen: time does not go back, and what is drained is what is there. -/
def Emitter.next (em : Emitter) : PendingCall → Option Emitter
  | .record wallet nowMs =>
    if em.clock ≤ nowMs then
      some { em with
        pending := em.pending.record wallet nowMs
        records := em.records ++ [(wallet, nowMs)]
        clock := nowMs }
    else none
  | .drain nextNonce nowMs drained =>
    if drained.isPerm em.pending.inner then
      some { em with
        pending := ⟨[]⟩
        ticks := em.ticks ++ (drainEntries nowMs nextNonce drained).1 }
    else none

def EmitterStep (em : Emitter) (call : PendingCall) (em' : Emitter) : Prop := em.next call = some em'

theorem emitterStep_deterministic : Deterministic EmitterStep := by
  intro u call u₁ u₂ h₁ h₂
  exact Option.some.inj (h₁.symm.trans h₂)

/-! ## The law -/

/-- The records of a wallet within one window of the given width. -/
def recordedIn (width : Nat) (records : List (Address × Timestamp)) (wallet : Address) (idx : U64) : Nat :=
  records.countP (fun e => e.1 = wallet ∧ e.2.val / width = idx.val)

/-- The drained ticks give every bucket what was recorded in it. -/
structure Attributed (em : Emitter) : Prop where
  hourly : ∀ wallet idx, hourlyIn em.ticks wallet idx = recordedIn MS_PER_HOUR em.records wallet idx
  daily : ∀ wallet idx, dailyIn em.ticks wallet idx = recordedIn MS_PER_DAY em.records wallet idx

/-- A record finds its wallet with nothing pending, or with a count of the same hour that is not full. -/
def WithinHour (em : Emitter) : PendingCall → Prop
  | .record wallet nowMs => ∀ c, (wallet, c) ∈ em.pending.inner →
    c.hourBucket = (bucketIndices nowMs).1 ∧ c.hourlyCount.val < 2 ^ 32 - 1
  | .drain .. => True

/-! ## Granularities -/

inductive Granularity where
  | hour
  | day

namespace Granularity

def width : Granularity → Nat
  | .hour => MS_PER_HOUR
  | .day => MS_PER_DAY

def bucket : Granularity → Consumption → U64
  | .hour => Consumption.hourBucket
  | .day => Consumption.dayBucket

def count : Granularity → Consumption → U32
  | .hour => Consumption.hourlyCount
  | .day => Consumption.dailyCount

def index (g : Granularity) (nowMs : Timestamp) : U64 :=
  match g with
  | .hour => (bucketIndices nowMs).1
  | .day => (bucketIndices nowMs).2

theorem index_val (g : Granularity) (nowMs : Timestamp) : (g.index nowMs).val = nowMs.val / g.width := by
  cases g with
  | hour => rfl
  | day => rfl

def ofPending (g : Granularity) (e : Address × Consumption) : Entry Address :=
  ⟨e.1, (g.bucket e.2).val, (g.count e.2).val⟩

def ofTick : Granularity → FreeTierTick → Entry Address
  | .hour, t => ⟨t.wallet, t.hourBucket.val, t.hourlyCount.val⟩
  | .day, t => ⟨t.wallet, t.dayBucket.val, t.dailyCount.val⟩

def ofRecord (g : Granularity) (e : Address × Timestamp) : Entry Address := ⟨e.1, e.2.val / g.width, 1⟩

/-- What is drained or pending. -/
def attributed (g : Granularity) (em : Emitter) : List (Entry Address) :=
  em.ticks.map g.ofTick ++ em.pending.inner.map g.ofPending

def recorded (g : Granularity) (em : Emitter) : List (Entry Address) := em.records.map g.ofRecord

end Granularity

/-- Times of one hour are of one day. -/
theorem index_day {s t : Timestamp} (h : Granularity.hour.index s = Granularity.hour.index t) :
    Granularity.day.index s = Granularity.day.index t := by
  have hhour : s.val / MS_PER_HOUR = t.val / MS_PER_HOUR := congrArg Fin.val h
  apply Fin.ext
  have hday : ∀ n : Nat, n / MS_PER_DAY = n / MS_PER_HOUR / 24 := fun n => by
    rw [Nat.div_div_eq_div_mul]
    rfl
  show s.val / MS_PER_DAY = t.val / MS_PER_DAY
  rw [hday, hday]
  exact congrArg (· / 24) hhour

theorem index_le (g : Granularity) {s t : Timestamp} (h : s ≤ t) : (g.index s).val ≤ (g.index t).val := by
  rw [g.index_val, g.index_val]
  exact Nat.div_le_div_right h

/-! ## Draining -/

theorem drainEntries_ofTick (g : Granularity) (nowMs : Timestamp) (nextNonce : U64)
    (entries : List (Address × Consumption)) :
    (drainEntries nowMs nextNonce entries).1.map g.ofTick = entries.map g.ofPending := by
  induction entries generalizing nextNonce with
  | nil => rfl
  | cons e rest ih =>
    simp only [drainEntries, List.map_cons, ih]
    cases g with
    | hour => rfl
    | day => rfl

theorem drain_attributed {em em' : Emitter} {nextNonce : U64} {nowMs : Timestamp}
    {drained : List (Address × Consumption)} (h : EmitterStep em (.drain nextNonce nowMs drained) em')
    (g : Granularity) (p : Nat → Bool) (a : Address) :
    booked p a (g.attributed em') = booked p a (g.attributed em) ∧ g.recorded em' = g.recorded em := by
  simp only [EmitterStep, Emitter.next] at h
  split at h
  · rename_i hperm
    obtain rfl := Option.some.inj h
    refine ⟨?_, rfl⟩
    have hbooked := booked_perm (p := p) (a := a) ((List.isPerm_iff.mp hperm).map g.ofPending)
    simp only [Granularity.attributed, List.map_append, drainEntries_ofTick, List.map_nil, List.append_nil,
      booked_append, hbooked]
  · cases h

/-! ## Recording -/

theorem other_keys {before after : List (Address × Consumption)} {wallet : Address} {c : Consumption}
    (hkeys : ((before ++ (wallet, c) :: after).map Prod.fst).Nodup) :
    ∀ e ∈ before ++ after, e.1 ≠ wallet := by
  rw [List.map_append, List.map_cons, List.nodup_middle, List.nodup_cons, ← List.map_append] at hkeys
  intro e he heq
  apply hkeys.1
  show wallet ∈ _
  rw [← heq]
  exact List.mem_map_of_mem he

/-- A wallet with nothing pending gets an entry, or its entry is rewritten where it is. -/
theorem record_cases (pending : PendingConsumption) (hkeys : (pending.inner.map Prod.fst).Nodup)
    (wallet : Address) (nowMs : Timestamp) :
    ((∀ c, (wallet, c) ∉ pending.inner) ∧ (pending.record wallet nowMs).inner =
      pending.inner ++ [(wallet, ⟨(bucketIndices nowMs).1, (bucketIndices nowMs).2, 1, 1⟩)]) ∨
    ∃ before c after, pending.inner = before ++ (wallet, c) :: after ∧
      (pending.record wallet nowMs).inner = before ++ (wallet, ⟨(bucketIndices nowMs).1,
        (bucketIndices nowMs).2, satAdd c.hourlyCount 1, satAdd c.dailyCount 1⟩) :: after := by
  unfold PendingConsumption.record
  cases hfind : pending.inner.find? (fun e => e.1 = wallet) with
  | none =>
    refine .inl ⟨fun c hc => ?_, rfl⟩
    have hnone := List.find?_eq_none.mp hfind (wallet, c) hc
    simp at hnone
  | some e =>
    obtain ⟨hwallet, before, after, hsplit, -⟩ := List.find?_eq_some_iff_append.mp hfind
    obtain ⟨w, c⟩ := e
    obtain rfl : w = wallet := by simpa using hwallet
    refine .inr ⟨before, c, after, hsplit, ?_⟩
    rw [hsplit] at hkeys
    have hother := other_keys hkeys
    have hkeep : ∀ l : List (Address × Consumption), (∀ e ∈ l, e.1 ≠ w) → (l.map fun e =>
        if e.1 = w then (w, (⟨(bucketIndices nowMs).1, (bucketIndices nowMs).2, satAdd e.2.hourlyCount 1,
          satAdd e.2.dailyCount 1⟩ : Consumption)) else e) = l := by
      intro l hl
      conv_rhs => rw [← List.map_id l]
      apply List.map_congr_left
      intro e he
      exact if_neg (hl e he)
    have hbefore := hkeep before fun e he => hother e (List.mem_append_left _ he)
    have hafter := hkeep after fun e he => hother e (List.mem_append_right _ he)
    simp only [hsplit, List.map_append, List.map_cons, ↓reduceIte, hbefore, hafter]

theorem step_record {em em' : Emitter} {wallet : Address} {nowMs : Timestamp}
    (h : EmitterStep em (.record wallet nowMs) em') : em.clock ≤ nowMs ∧ em'.clock = nowMs ∧
      em'.pending = em.pending.record wallet nowMs ∧ em'.ticks = em.ticks ∧
      em'.records = em.records ++ [(wallet, nowMs)] := by
  simp only [EmitterStep, Emitter.next] at h
  split at h
  · rename_i hle
    obtain rfl := Option.some.inj h
    exact ⟨hle, rfl, rfl, rfl, rfl⟩
  · cases h

/-! ## What holds all along -/

/-- A pending entry carries the buckets of one time that has been, and as many hourly as daily counts. No
record is counted in an earlier hour than its own. -/
structure Emitter.Sound (em : Emitter) : Prop where
  keys : (em.pending.inner.map Prod.fst).Nodup
  stamped : ∀ e ∈ em.pending.inner, ∃ t ≤ em.clock, ∀ g : Granularity, g.bucket e.2 = g.index t
  counted : ∀ e ∈ em.pending.inner, 0 < e.2.hourlyCount.val ∧ e.2.dailyCount = e.2.hourlyCount
  behind : ∀ k a, bookedUpTo k a (Granularity.hour.attributed em) ≤
    bookedUpTo k a (Granularity.hour.recorded em)

/-- Every set of buckets was given what was recorded in it. -/
def Emitter.Even (em : Emitter) : Prop :=
  ∀ (g : Granularity) p a, booked p a (g.attributed em) = booked p a (g.recorded em)

/-- Some count is in a later hour than its record, or nowhere. -/
def Emitter.Short (em : Emitter) : Prop :=
  ∃ (k : U64) (a : Address), bookedUpTo k.val a (Granularity.hour.attributed em) <
    bookedUpTo k.val a (Granularity.hour.recorded em)

section

variable {em em' : Emitter} {wallet : Address} {nowMs : Timestamp}

theorem record_recorded (h : EmitterStep em (.record wallet nowMs) em') (g : Granularity) (p : Nat → Bool)
    (a : Address) : booked p a (g.recorded em') =
      booked p a (g.recorded em) + (Entry.mk wallet (g.index nowMs).val 1).share p a := by
  obtain ⟨-, -, -, -, hrecords⟩ := step_record h
  rw [Granularity.recorded, hrecords, List.map_append, List.map_singleton, booked_snoc, g.index_val]
  rfl

/-- A new entry counts the record where it belongs; an old one is carried along to it. -/
theorem record_attributed (hs : em.Sound) (h : EmitterStep em (.record wallet nowMs) em') :
    ((∀ c, (wallet, c) ∉ em.pending.inner) ∧ ∀ (g : Granularity) p a, booked p a (g.attributed em') =
      booked p a (g.attributed em) + (Entry.mk wallet (g.index nowMs).val 1).share p a) ∨
    ∃ c, (wallet, c) ∈ em.pending.inner ∧ (∀ c', (wallet, c') ∈ em.pending.inner → c' = c) ∧
      ∀ (g : Granularity) p a, booked p a (g.attributed em') +
          (Entry.mk wallet (g.bucket c).val (g.count c).val).share p a = booked p a (g.attributed em) +
          (Entry.mk wallet (g.index nowMs).val (satAdd (g.count c) 1).val).share p a := by
  obtain ⟨-, -, hpending, hticks, -⟩ := step_record h
  rcases record_cases em.pending hs.keys wallet nowMs with ⟨hnew, hinner⟩ | ⟨before, c, after, hsplit, hinner⟩
  · refine .inl ⟨hnew, fun g p a => ?_⟩
    rw [Granularity.attributed, hpending, hticks, hinner, List.map_append, ← List.append_assoc,
      List.map_singleton, booked_snoc]
    cases g with
    | hour => rfl
    | day => rfl
  · refine .inr ⟨c, by simp [hsplit], fun c' hc' => ?_, fun g p a => ?_⟩
    · have hkeys := hs.keys
      rw [hsplit] at hkeys hc'
      rcases List.mem_append.mp hc' with hc' | hc'
      · exact absurd rfl (other_keys hkeys _ (List.mem_append_left _ hc'))
      · rcases List.mem_cons.mp hc' with hc' | hc'
        · exact congrArg Prod.snd hc'
        · exact absurd rfl (other_keys hkeys _ (List.mem_append_right _ hc'))
    · rw [Granularity.attributed, Granularity.attributed, hpending, hticks, hinner, hsplit]
      simp only [List.map_append, List.map_cons, booked_append, booked_cons]
      have hold : g.ofPending (wallet, c) = ⟨wallet, (g.bucket c).val, (g.count c).val⟩ := rfl
      have hnew : g.ofPending (wallet, ⟨(bucketIndices nowMs).1, (bucketIndices nowMs).2,
          satAdd c.hourlyCount 1, satAdd c.dailyCount 1⟩) =
          ⟨wallet, (g.index nowMs).val, (satAdd (g.count c) 1).val⟩ := by
        cases g with
        | hour => rfl
        | day => rfl
      rw [hold, hnew]
      omega

theorem one_val : (1 : U32).val = 1 := rfl

theorem satAdd_one_le (n : U32) : (satAdd n 1).val ≤ n.val + 1 := satAdd_le n 1

/-- A carried entry comes from the same bucket or an earlier one. -/
theorem Emitter.Sound.carried (hs : em.Sound) {c : Consumption} (hc : (wallet, c) ∈ em.pending.inner)
    (hle : em.clock ≤ nowMs) (g : Granularity) : (g.bucket c).val ≤ (g.index nowMs).val := by
  obtain ⟨t, ht, hstamp⟩ := hs.stamped _ hc
  rw [hstamp g]
  exact index_le g (le_trans ht hle)

/-- What is attributed never catches up with what is recorded. -/
theorem upTo_step {call : PendingCall} (hs : em.Sound) (h : EmitterStep em call em') (k : Nat) (a : Address) :
    bookedUpTo k a (Granularity.hour.attributed em') + bookedUpTo k a (Granularity.hour.recorded em) ≤
      bookedUpTo k a (Granularity.hour.attributed em) + bookedUpTo k a (Granularity.hour.recorded em') := by
  cases call with
  | drain nextNonce nowMs drained =>
    obtain ⟨hattributed, hrecorded⟩ := drain_attributed h Granularity.hour (fun i => decide (i ≤ k)) a
    rw [bookedUpTo, hattributed, hrecorded]
  | record wallet nowMs =>
    have hrecorded := record_recorded h Granularity.hour (fun i => decide (i ≤ k)) a
    simp only [bookedUpTo]
    rcases record_attributed hs h with ⟨-, hnew⟩ | ⟨c, hc, -, hold⟩
    · rw [hrecorded, hnew]
      omega
    · have hattributed := hold Granularity.hour (fun i => decide (i ≤ k)) a
      have hcarried := share_carried (a := a) (b := wallet) (k := k)
        (hs.carried hc (step_record h).1 Granularity.hour) (satAdd_one_le (Granularity.hour.count c))
      omega

theorem Emitter.Sound.start : Emitter.start.Sound where
  keys := List.nodup_nil
  stamped := by simp [Emitter.start]
  counted := by simp [Emitter.start]
  behind := fun _ _ => Nat.le_refl _

theorem record_entries (hs : em.Sound) (h : EmitterStep em (.record wallet nowMs) em') :
    (em'.pending.inner.map Prod.fst).Nodup ∧ ∀ e ∈ em'.pending.inner, e ∈ em.pending.inner ∨
      (∀ g : Granularity, g.bucket e.2 = g.index nowMs) ∧ 0 < e.2.hourlyCount.val ∧
        e.2.dailyCount = e.2.hourlyCount := by
  obtain ⟨-, -, hpending, -, -⟩ := step_record h
  rw [hpending]
  rcases record_cases em.pending hs.keys wallet nowMs with ⟨hnew, hinner⟩ | ⟨before, c, after, hsplit, hinner⟩
  · rw [hinner, List.map_append, List.map_singleton]
    constructor
    · refine List.nodup_append.mpr ⟨hs.keys, List.nodup_singleton _, ?_⟩
      intro w hw w' hw' heq
      rw [List.mem_singleton.mp hw'] at heq
      obtain ⟨e, he, rfl⟩ := List.mem_map.mp hw
      subst heq
      exact hnew e.2 he
    · intro e he
      rcases List.mem_append.mp he with he | he
      · exact .inl he
      · rw [List.mem_singleton.mp he]
        refine .inr ⟨fun g => ?_, Nat.one_pos, rfl⟩
        cases g with
        | hour => rfl
        | day => rfl
  · rw [hinner]
    have hkeys := hs.keys
    have hcounted := hs.counted (wallet, c) (by simp [hsplit])
    rw [hsplit] at hkeys ⊢
    constructor
    · rwa [List.map_append, List.map_cons] at hkeys ⊢
    · intro e he
      rcases List.mem_append.mp he with he | he
      · exact .inl (List.mem_append_left _ he)
      · rcases List.mem_cons.mp he with rfl | he
        · refine .inr ⟨fun g => ?_, ?_, congrArg (satAdd · 1) hcounted.2⟩
          · cases g with
            | hour => rfl
            | day => rfl
          · exact Nat.lt_of_lt_of_le hcounted.1 (le_satAdd _ _)
        · exact .inl (List.mem_append_right _ (List.mem_cons_of_mem _ he))

theorem Emitter.Sound.step {call : PendingCall} (hs : em.Sound) (h : EmitterStep em call em') :
    em'.Sound := by
  have hbehind : ∀ k a, bookedUpTo k a (Granularity.hour.attributed em') ≤
      bookedUpTo k a (Granularity.hour.recorded em') := by
    intro k a
    have hstep := upTo_step hs h k a
    have hbefore := hs.behind k a
    omega
  cases call with
  | drain nextNonce nowMs drained =>
    have hempty : em'.pending.inner = [] := by
      simp only [EmitterStep, Emitter.next] at h
      split at h
      · obtain rfl := Option.some.inj h
        rfl
      · cases h
    exact ⟨by simp [hempty], by simp [hempty], by simp [hempty], hbehind⟩
  | record wallet nowMs =>
    obtain ⟨hle, hclock, -⟩ := step_record h
    obtain ⟨hkeys, hentries⟩ := record_entries hs h
    refine ⟨hkeys, fun e he => ?_, fun e he => ?_, hbehind⟩
    · rw [hclock]
      rcases hentries e he with hold | ⟨hstamp, -⟩
      · obtain ⟨t, ht, hstamp⟩ := hs.stamped e hold
        exact ⟨t, le_trans ht hle, hstamp⟩
      · exact ⟨nowMs, le_rfl, hstamp⟩
    · rcases hentries e he with hold | ⟨-, hcounted⟩
      · exact hs.counted e hold
      · exact hcounted

/-- Within an hour every bucket gets its record. -/
theorem Emitter.Even.step {call : PendingCall} (hs : em.Sound) (he : em.Even) (h : EmitterStep em call em')
    (hwithin : WithinHour em call) : em'.Even := by
  intro g p a
  cases call with
  | drain nextNonce nowMs drained =>
    obtain ⟨hattributed, hrecorded⟩ := drain_attributed h g p a
    rw [hattributed, hrecorded]
    exact he g p a
  | record wallet nowMs =>
    rw [record_recorded h]
    rcases record_attributed hs h with ⟨-, hnew⟩ | ⟨c, hc, -, hold⟩
    · rw [hnew, he g p a]
    · obtain ⟨hhour, hfull⟩ := hwithin c hc
      obtain ⟨t, -, hstamp⟩ := hs.stamped _ hc
      have hbucket : g.bucket c = g.index nowMs := by
        have hsame : Granularity.hour.index t = Granularity.hour.index nowMs :=
          (hstamp Granularity.hour).symm.trans hhour
        cases g with
        | hour => exact hhour
        | day => exact (hstamp Granularity.day).trans (index_day hsame)
      have hcount : (g.count c).val < 2 ^ 32 - 1 := by
        cases g with
        | hour => exact hfull
        | day =>
          show c.dailyCount.val < _
          rw [(hs.counted _ hc).2]
          exact hfull
      have hsat : (satAdd (g.count c) 1).val = (g.count c).val + 1 := by
        rw [satAdd_val, one_val]
        omega
      have hattributed := hold g p a
      rw [hsat, share_added, hbucket, he g p a] at hattributed
      omega

theorem Emitter.Short.step {call : PendingCall} (hs : em.Sound) (hshort : em.Short)
    (h : EmitterStep em call em') : em'.Short := by
  obtain ⟨k, a, hlt⟩ := hshort
  have hstep := upTo_step hs h k.val a
  exact ⟨k, a, by omega⟩

/-- A count carried into another hour, or a record on a full count, leaves a gap. -/
theorem Emitter.Sound.short {call : PendingCall} (hs : em.Sound) (h : EmitterStep em call em')
    (hnot : ¬ WithinHour em call) : em'.Short := by
  cases call with
  | drain nextNonce nowMs drained => exact absurd trivial hnot
  | record wallet nowMs =>
    simp only [WithinHour, not_forall] at hnot
    obtain ⟨c, hc, hbad⟩ := hnot
    rcases record_attributed hs h with ⟨hnone, -⟩ | ⟨c', hc', honly, hold⟩
    · exact absurd hc (hnone c)
    obtain rfl := honly c hc
    refine ⟨c.hourBucket, wallet, ?_⟩
    have hrecorded := record_recorded h Granularity.hour (fun i => decide (i ≤ c.hourBucket.val)) wallet
    have hattributed := hold Granularity.hour (fun i => decide (i ≤ c.hourBucket.val)) wallet
    have hbehind := hs.behind c.hourBucket.val wallet
    simp only [bookedUpTo] at hbehind ⊢
    have hle : c.hourBucket.val ≤ (Granularity.hour.index nowMs).val :=
      hs.carried hc (step_record h).1 Granularity.hour
    by_cases hhour : c.hourBucket = (bucketIndices nowMs).1
    · have hfull : (satAdd c.hourlyCount 1).val ≤ c.hourlyCount.val := by
        have hmax : ¬ c.hourlyCount.val < 2 ^ 32 - 1 := fun hlt => hbad ⟨hhour, hlt⟩
        exact Nat.le_trans (Nat.min_le_right _ _) (Nat.le_of_not_lt hmax)
      have hindex : c.hourBucket.val = (Granularity.hour.index nowMs).val := congrArg Fin.val hhour
      have hlost := share_lost_lt (b := wallet) (i := c.hourBucket.val) hfull
      rw [← hindex] at hattributed hrecorded
      simp only [Granularity.count, Granularity.bucket] at hattributed
      omega
    · have hlt : c.hourBucket.val < (Granularity.hour.index nowMs).val := by
        refine Nat.lt_of_le_of_ne hle fun heq => hhour (Fin.ext heq)
      have hpos : 0 < c.hourlyCount.val := (hs.counted _ hc).1
      have hcarried := share_carried_lt wallet (satAdd c.hourlyCount 1).val hlt hpos
      simp only [Granularity.count, Granularity.bucket] at hattributed
      omega

end

/-! ## The law over a run -/

theorem hourlyIn_booked (ticks : List FreeTierTick) (wallet : Address) (idx : U64) :
    bookedAt idx.val wallet (ticks.map Granularity.hour.ofTick) = hourlyIn ticks wallet idx := by
  simp only [bookedAt, booked, hourlyIn, countIn, List.map_map, Function.comp_def, Entry.share,
    Granularity.ofTick, decide_eq_true_eq, Fin.val_inj]

theorem dailyIn_booked (ticks : List FreeTierTick) (wallet : Address) (idx : U64) :
    bookedAt idx.val wallet (ticks.map Granularity.day.ofTick) = dailyIn ticks wallet idx := by
  simp only [bookedAt, booked, dailyIn, countIn, List.map_map, Function.comp_def, Entry.share,
    Granularity.ofTick, decide_eq_true_eq, Fin.val_inj]

theorem recordedIn_booked (g : Granularity) (records : List (Address × Timestamp)) (wallet : Address)
    (idx : U64) :
    bookedAt idx.val wallet (records.map g.ofRecord) = recordedIn g.width records wallet idx := by
  induction records with
  | nil => rfl
  | cons e records ih =>
    have hshare : (g.ofRecord e).share (fun i => decide (i = idx.val)) wallet =
        if e.1 = wallet ∧ e.2.val / g.width = idx.val then 1 else 0 := by
      unfold Entry.share Granularity.ofRecord
      simp only [decide_eq_true_eq]
    simp only [bookedAt, recordedIn] at ih ⊢
    rw [List.map_cons, booked_cons, hshare, ih, List.countP_cons, Nat.add_comm]
    simp only [decide_eq_true_eq]

/-- Whatever is recorded and drained, in any order: once everything is drained the ticks give each wallet
and bucket what was recorded in it, exactly when no record met a pending count of an earlier hour or a
full one. -/
theorem consumption_attributed {hist : List PendingCall} {em : Emitter}
    (run : Steps EmitterStep Emitter.start hist em) (hdrained : em.pending.inner = []) :
    Attributed em ↔ Along EmitterStep Emitter.start WithinHour hist := by
  have hsound : ∀ past u, Steps EmitterStep Emitter.start past u → u.Sound := fun past u hu =>
    hu.invariant Emitter.Sound Emitter.Sound.start fun _ _ _ hs hstep => hs.step hstep
  have hticks : ∀ g : Granularity, g.attributed em = em.ticks.map g.ofTick := fun g => by
    rw [Granularity.attributed, hdrained, List.map_nil, List.append_nil]
  have hverdict : (Along EmitterStep Emitter.start WithinHour hist ∧ em.Even) ∨
      (¬ Along EmitterStep Emitter.start WithinHour hist ∧ em.Short) :=
    run.clean_or_flawed emitterStep_deterministic hsound (fun _ _ _ => rfl)
      (fun _ _ _ hs he hstep hwithin => he.step hs hstep hwithin)
      (fun _ _ _ hs hstep hnot => hs.short hstep hnot)
      (fun _ _ _ hs hshort hstep => hshort.step hs hstep)
  rcases hverdict with ⟨halong, heven⟩ | ⟨hbroken, k, a, hlt⟩
  · refine iff_of_true ⟨fun wallet idx => ?_, fun wallet idx => ?_⟩ halong
    · rw [← hourlyIn_booked, ← hticks]
      exact (heven _ _ _).trans (recordedIn_booked Granularity.hour em.records wallet idx)
    · rw [← dailyIn_booked, ← hticks]
      exact (heven _ _ _).trans (recordedIn_booked Granularity.day em.records wallet idx)
  · refine iff_of_false (fun h => ?_) hbroken
    have hsame : bookedUpTo k.val a (Granularity.hour.attributed em) =
        bookedUpTo k.val a (Granularity.hour.recorded em) := by
      apply bookedUpTo_congr
      intro i hi
      have hidx : i < 2 ^ 64 := Nat.lt_of_le_of_lt hi k.isLt
      have hhour := h.hourly a ⟨i, hidx⟩
      rw [← hourlyIn_booked, ← hticks] at hhour
      exact hhour.trans (recordedIn_booked Granularity.hour em.records a ⟨i, hidx⟩).symm
    omega

/-- A job at the end of an hour and one at its beginning, each drained before the next. -/
theorem consumption_attributed_hours : ∃ hist em,
    hist = [.record 7 3599999, .drain 0 3599999 [(7, ⟨0, 0, 1, 1⟩)], .record 7 3600000,
      .drain 1 3600000 [(7, ⟨1, 0, 1, 1⟩)]] ∧
    Steps EmitterStep Emitter.start hist em ∧
    (Attributed em ↔ Along EmitterStep Emitter.start WithinHour hist) := by
  obtain ⟨em, hem, hdrained⟩ := (Option.any_eq_true _ _).mp (show
    (([.record 7 3599999, .drain 0 3599999 [(7, ⟨0, 0, 1, 1⟩)], .record 7 3600000,
      .drain 1 3600000 [(7, ⟨1, 0, 1, 1⟩)]] : List PendingCall).foldlM Emitter.next Emitter.start).any
        (fun em => em.pending.inner = []) = true by decide)
  exact ⟨_, em, rfl, steps_of_foldlM hem,
    consumption_attributed (steps_of_foldlM hem) (of_decide_eq_true hdrained)⟩

/-- The same two jobs, drained together: both are counted in the second hour. -/
theorem carried_into_next_hour : ∃ hist em, Steps EmitterStep Emitter.start hist em ∧
    em.pending.inner = [] ∧ recordedIn MS_PER_HOUR em.records 7 0 = 1 ∧ hourlyIn em.ticks 7 0 = 0 ∧
      recordedIn MS_PER_HOUR em.records 7 1 = 1 ∧ hourlyIn em.ticks 7 1 = 2 := by
  have hrun : (([.record 7 3599999, .record 7 3600000, .drain 0 3600500 [(7, ⟨1, 0, 2, 2⟩)]] :
      List PendingCall).foldlM Emitter.next Emitter.start).any (fun em => em.pending.inner = [] ∧
        recordedIn MS_PER_HOUR em.records 7 0 = 1 ∧ hourlyIn em.ticks 7 0 = 0 ∧
          recordedIn MS_PER_HOUR em.records 7 1 = 1 ∧ hourlyIn em.ticks 7 1 = 2) = true := by
    decide
  obtain ⟨em, hem, hfacts⟩ := (Option.any_eq_true _ _).mp hrun
  exact ⟨_, em, steps_of_foldlM hem, of_decide_eq_true hfacts⟩

end Arknet.Laws
