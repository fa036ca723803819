import Arknet.Router.FreeTier

/-!
The free-tier bound. A counter of the current or a later bucket is at least the number of reservations
it let through: pruning only takes past buckets, merging only adds, and a reservation is let through below
the limit (`free_tier_bound`).
-/

namespace Arknet.Laws

open Machine Arknet.Chain Arknet.Router

/-! ## Calls on a tracker -/

inductive QuotaCall where
  | consume (wallet : Address) (nowMs : Timestamp)
  | absorbTick (tick : FreeTierTick)
  | prune (nowMs : Timestamp)

def QuotaCall.time : QuotaCall → Option Timestamp
  | .consume _ nowMs => some nowMs
  | .absorbTick _ => none
  | .prune nowMs => some nowMs

/-- The tracker, with the reservations that were allowed. -/
structure Quota where
  tracker : FreeTierTracker
  allowed : List (Address × Timestamp)

/-- A reservation that aborts has not written anything. -/
def Quota.call (cfg : FreeTierConfig) (q : Quota) : QuotaCall → Quota
  | .consume wallet nowMs =>
    match q.tracker.consume cfg wallet nowMs with
    | .ok r => ⟨r.2, if r.1.isAllowed then q.allowed ++ [(wallet, nowMs)] else q.allowed⟩
    | .error _ => q
  | .absorbTick tick => { q with tracker := q.tracker.absorbTick tick }
  | .prune nowMs => { q with tracker := q.tracker.prune nowMs }

def quotaRun (cfg : FreeTierConfig) (calls : List QuotaCall) : Quota :=
  calls.foldl (Quota.call cfg) ⟨.new, []⟩

/-- The reservations allowed for a wallet within one window of the given width. -/
def allowedWithin (width : Nat) (log : List (Address × Timestamp)) (wallet : Address) (k : Nat) : Nat :=
  log.countP (fun e => e.1 = wallet ∧ e.2.val / width = k)

/-- The next `n` reservations of a wallet at this time are all allowed. -/
def allowedInARow (cfg : FreeTierConfig) (wallet : Address) (nowMs : Timestamp) :
    Nat → FreeTierTracker → Bool
  | 0, _ => true
  | n + 1, tracker =>
    match tracker.consume cfg wallet nowMs with
    | .ok r => r.1.isAllowed && allowedInARow cfg wallet nowMs n r.2
    | .error _ => false

/-! ## One granularity -/

/-- The bucket of a time. -/
def bucketOf (width : Nat) (nowMs : Timestamp) : U64 :=
  ⟨nowMs.val / width, Nat.lt_of_le_of_lt (Nat.div_le_self _ _) nowMs.isLt⟩

/-- From the current bucket on the counters cover what was allowed, and no window holds more than the
limit. -/
structure Covers (width : Nat) (limit : U32) (log : List (Address × Timestamp)) (store : BucketStore)
    (last : Timestamp) : Prop where
  counted : ∀ w i, bucketOf width last ≤ i → allowedWithin width log w i.val ≤ (store w i).val
  limited : ∀ w k, allowedWithin width log w k ≤ limit.val

section

variable {width : Nat} {limit : U32} {log : List (Address × Timestamp)} {store : BucketStore}
  {last now : Timestamp}

theorem allowedWithin_snoc (width : Nat) (log : List (Address × Timestamp)) (wallet : Address)
    (now : Timestamp) (w : Address) (k : Nat) : allowedWithin width (log ++ [(wallet, now)]) w k =
      allowedWithin width log w k + if wallet = w ∧ now.val / width = k then 1 else 0 := by
  simp [allowedWithin, List.countP_append, List.countP_cons]

theorem le_add (store : BucketStore) (wallet : Address) (idx : U64) (delta : U32) (w : Address) (i : U64) :
    store w i ≤ store.add wallet idx delta w i := by
  unfold BucketStore.add
  split
  · exact Fin.le_def.mpr (le_satAdd _ _)
  · exact le_rfl

theorem Covers.new : Covers width limit [] FreeTierTracker.new.hourly last :=
  ⟨fun _ _ _ => Nat.zero_le _, fun _ _ => Nat.zero_le _⟩

theorem Covers.later (h : Covers width limit log store last) (hle : last ≤ now) :
    Covers width limit log store now := by
  refine ⟨fun w i hi => h.counted w i ?_, h.limited⟩
  exact le_trans (Fin.le_def.mpr (Nat.div_le_div_right hle)) hi

theorem Covers.add (h : Covers width limit log store last) (wallet : Address) (idx : U64) (delta : U32) :
    Covers width limit log (store.add wallet idx delta) last := by
  refine ⟨fun w i hi => ?_, h.limited⟩
  exact Nat.le_trans (h.counted w i hi) (le_add store wallet idx delta w i)

/-- Pruning takes no bucket that is current or to come. -/
theorem Covers.prune (h : Covers width limit log store now) :
    Covers width limit log (store.prune (satSub (bucketOf width now) 1)) now := by
  refine ⟨fun w i hi => ?_, h.limited⟩
  have hkept : satSub (bucketOf width now) 1 ≤ i := by
    rw [Fin.le_def, satSub_val]
    rw [Fin.le_def] at hi
    omega
  rw [BucketStore.prune, if_pos hkept]
  exact h.counted w i hi

/-- A reservation below the limit is counted where it was made. -/
theorem Covers.allow (h : Covers width limit log store now) {wallet : Address}
    (hlt : store wallet (bucketOf width now) < limit) :
    Covers width limit (log ++ [(wallet, now)]) (store.add wallet (bucketOf width now) 1) now := by
  have hcount := h.counted wallet (bucketOf width now) le_rfl
  have hval : (bucketOf width now).val = now.val / width := rfl
  have hone : (1 : U32).val = 1 := rfl
  rw [Fin.lt_def] at hlt
  constructor
  · intro w i hi
    rw [allowedWithin_snoc]
    have hold := h.counted w i hi
    unfold BucketStore.add
    by_cases hat : w = wallet ∧ i = bucketOf width now
    · obtain ⟨rfl, rfl⟩ := hat
      have hmax := limit.isLt
      rw [if_pos ⟨rfl, hval.symm⟩, if_pos ⟨rfl, rfl⟩, satAdd_val, hone]
      omega
    · have hout : ¬ (wallet = w ∧ now.val / width = i.val) := by
        rintro ⟨rfl, hidx⟩
        exact hat ⟨rfl, Fin.ext hidx.symm⟩
      rw [if_neg hat, if_neg hout]
      exact hold
  · intro w k
    rw [allowedWithin_snoc]
    by_cases hat : wallet = w ∧ now.val / width = k
    · obtain ⟨rfl, rfl⟩ := hat
      rw [if_pos ⟨rfl, rfl⟩]
      rw [hval] at hcount
      omega
    · rw [if_neg hat]
      exact h.limited w k

end

/-! ## A run -/

/-- Both granularities. -/
def Quota.Sound (cfg : FreeTierConfig) (q : Quota) (last : Timestamp) : Prop :=
  Covers MS_PER_HOUR cfg.hourlyLimit q.allowed q.tracker.hourly last ∧
    Covers MS_PER_DAY cfg.dailyLimit q.allowed q.tracker.daily last

section

variable {cfg : FreeTierConfig} {q : Quota} {last : Timestamp}

theorem Quota.Sound.absorbTick (h : q.Sound cfg last) (tick : FreeTierTick) :
    Quota.Sound cfg { q with tracker := q.tracker.absorbTick tick } last := by
  constructor
  · show Covers _ _ _ (if tick.hourlyCount > 0 then _ else _) _
    split
    · exact h.1.add _ _ _
    · exact h.1
  · show Covers _ _ _ (if tick.dailyCount > 0 then _ else _) _
    split
    · exact h.2.add _ _ _
    · exact h.2

theorem Quota.Sound.consume (h : q.Sound cfg last) (wallet : Address) :
    (q.call cfg (.consume wallet last)).Sound cfg last := by
  show Quota.Sound cfg (match q.tracker.consume cfg wallet last with
    | .ok r => ⟨r.2, if r.1.isAllowed then q.allowed ++ [(wallet, last)] else q.allowed⟩
    | .error _ => q) last
  cases hc : q.tracker.consume cfg wallet last with
  | error p => exact h
  | ok r =>
    rcases FreeTierTracker.consume_ok hc with ⟨hallowed, hhour, hday, htracker⟩ | ⟨hallowed, htracker⟩
    · show Quota.Sound cfg ⟨r.2, if r.1.isAllowed then _ else _⟩ last
      rw [hallowed, htracker]
      exact ⟨h.1.allow hhour, h.2.allow hday⟩
    · show Quota.Sound cfg ⟨r.2, if r.1.isAllowed then _ else _⟩ last
      rw [hallowed, htracker]
      exact h

/-- A call at or after the last one. -/
theorem Quota.Sound.call (h : q.Sound cfg last) (c : QuotaCall) (hlater : ∀ t ∈ c.time, last ≤ t) :
    (q.call cfg c).Sound cfg (c.time.getD last) := by
  cases c with
  | consume wallet nowMs =>
    have hle := hlater nowMs rfl
    exact Quota.Sound.consume ⟨h.1.later hle, h.2.later hle⟩ wallet
  | absorbTick tick => exact h.absorbTick tick
  | prune nowMs =>
    have hle := hlater nowMs rfl
    exact ⟨(h.1.later hle).prune, (h.2.later hle).prune⟩

theorem Quota.Sound.calls {calls : List QuotaCall} (h : q.Sound cfg last)
    (hlater : ∀ t ∈ calls.filterMap QuotaCall.time, last ≤ t)
    (hmono : (calls.filterMap QuotaCall.time).Pairwise (· ≤ ·)) :
    ∃ last', (calls.foldl (Quota.call cfg) q).Sound cfg last' := by
  induction calls generalizing q last with
  | nil => exact ⟨last, h⟩
  | cons c calls ih =>
    rw [List.foldl_cons]
    cases htime : c.time with
    | none =>
      rw [List.filterMap_cons, htime] at hlater hmono
      have hnext := h.call c (by rw [htime]; simp)
      rw [htime] at hnext
      exact ih hnext hlater hmono
    | some nowMs =>
      rw [List.filterMap_cons, htime] at hlater hmono
      have hnext := h.call c (by rw [htime]; exact fun t ht => hlater t (by simp_all))
      rw [htime] at hnext
      obtain ⟨hfirst, hrest⟩ := List.pairwise_cons.mp hmono
      exact ih hnext hfirst hrest

end

/-! ## What a wallet may still consume -/

section

variable {cfg : FreeTierConfig} {wallet : Address} {nowMs : Timestamp}

/-- As many as both buckets have left. -/
theorem allowedInARow_iff (n : Nat) (tracker : FreeTierTracker) :
    allowedInARow cfg wallet nowMs n tracker = true ↔ n = 0 ∨
      (n + (tracker.hourly wallet (bucketIndices nowMs).1).val ≤ cfg.hourlyLimit.val ∧
        n + (tracker.daily wallet (bucketIndices nowMs).2).val ≤ cfg.dailyLimit.val) := by
  induction n generalizing tracker with
  | zero => simp [allowedInARow]
  | succ n ih =>
    simp only [allowedInARow]
    by_cases hroom : tracker.hourly wallet (bucketIndices nowMs).1 < cfg.hourlyLimit ∧
        tracker.daily wallet (bucketIndices nowMs).2 < cfg.dailyLimit
    · obtain ⟨outcome, hc, hallowed⟩ := FreeTierTracker.consume_allowed hroom.1 hroom.2
      have hone : (1 : U32).val = 1 := rfl
      have hmaxHour := cfg.hourlyLimit.isLt
      have hmaxDay := cfg.dailyLimit.isLt
      obtain ⟨hhour, hday⟩ := hroom
      rw [Fin.lt_def] at hhour hday
      rw [hc]
      simp only [hallowed, Bool.true_and, ih, BucketStore.add, and_self, ↓reduceIte, satAdd_val, hone]
      omega
    · have hnot : ¬ ((n + 1) + (tracker.hourly wallet (bucketIndices nowMs).1).val ≤ cfg.hourlyLimit.val ∧
          (n + 1) + (tracker.daily wallet (bucketIndices nowMs).2).val ≤ cfg.dailyLimit.val) := by
        rintro ⟨hhour, hday⟩
        exact hroom ⟨Fin.lt_def.mpr (by omega), Fin.lt_def.mpr (by omega)⟩
      have hfalse : (match tracker.consume cfg wallet nowMs with
          | .ok r => r.1.isAllowed && allowedInARow cfg wallet nowMs n r.2
          | .error _ => false) = false := by
        cases hc : tracker.consume cfg wallet nowMs with
        | error p => rfl
        | ok r =>
          rcases FreeTierTracker.consume_ok hc with ⟨-, hhour, hday, -⟩ | ⟨hallowed, -⟩
          · exact absurd ⟨hhour, hday⟩ hroom
          · simp [hallowed]
      rw [hfalse]
      simp [hnot]

theorem absorbTick_le (tracker : FreeTierTracker) (tick : FreeTierTick) (w : Address) (i : U64) :
    tracker.hourly w i ≤ (tracker.absorbTick tick).hourly w i ∧
      tracker.daily w i ≤ (tracker.absorbTick tick).daily w i := by
  unfold FreeTierTracker.absorbTick
  constructor
  · dsimp only
    split
    · exact le_add _ _ _ _ _ _
    · exact le_rfl
  · dsimp only
    split
    · exact le_add _ _ _ _ _ _
    · exact le_rfl

/-- Over calls with non-decreasing times no window holds more allowed reservations than its limit; a
reservation that is not allowed changes nothing; a merged tick never leaves more to consume. -/
theorem free_tier_bound (cfg : FreeTierConfig) {calls : List QuotaCall}
    (hmono : (calls.filterMap QuotaCall.time).Pairwise (· ≤ ·)) :
    (∀ wallet hour, allowedWithin MS_PER_HOUR (quotaRun cfg calls).allowed wallet hour ≤
      cfg.hourlyLimit.val) ∧
    (∀ wallet day, allowedWithin MS_PER_DAY (quotaRun cfg calls).allowed wallet day ≤
      cfg.dailyLimit.val) ∧
    (∀ (tracker tracker' : FreeTierTracker) wallet nowMs outcome,
      tracker.consume cfg wallet nowMs = .ok (outcome, tracker') → outcome.isAllowed = false →
        tracker' = tracker) ∧
    ∀ (tracker : FreeTierTracker) tick wallet nowMs n,
      allowedInARow cfg wallet nowMs n (tracker.absorbTick tick) = true →
        allowedInARow cfg wallet nowMs n tracker = true := by
  have hnew : Quota.Sound cfg ⟨.new, []⟩ 0 := ⟨Covers.new, Covers.new⟩
  obtain ⟨last, hhour, hday⟩ : ∃ last, (quotaRun cfg calls).Sound cfg last :=
    hnew.calls (fun t _ => Fin.zero_le t) hmono
  refine ⟨hhour.limited, hday.limited, ?_, ?_⟩
  · intro tracker tracker' wallet nowMs outcome h hnot
    rcases FreeTierTracker.consume_ok h with ⟨hallowed, -⟩ | ⟨-, hsame⟩
    · rw [hallowed] at hnot
      cases hnot
    · exact hsame
  · intro tracker tick wallet nowMs n h
    have hle := absorbTick_le tracker tick wallet
    have hhour := Fin.le_def.mp (hle (bucketIndices nowMs).1).1
    have hday := Fin.le_def.mp (hle (bucketIndices nowMs).2).2
    rw [allowedInARow_iff] at h ⊢
    omega

end

/-- Two jobs of an hour are allowed, a third is not, and the next hour starts afresh. -/
def hourOfCalls : List QuotaCall :=
  [.consume 7 0, .consume 7 1000, .consume 7 2000, .prune 3600000, .consume 7 3600000]

theorem free_tier_bound_hour : (quotaRun ⟨2, 100⟩ hourOfCalls).allowed.length = 3 ∧
    ∀ hour, allowedWithin MS_PER_HOUR (quotaRun ⟨2, 100⟩ hourOfCalls).allowed 7 hour ≤ 2 :=
  ⟨by decide, (free_tier_bound ⟨2, 100⟩ (by decide)).1 7⟩

end Arknet.Laws
