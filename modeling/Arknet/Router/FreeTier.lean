import Arknet.Router.QuotaGossip

/-!
The free-tier quota of a wallet: the check of its two buckets, the reservation, and the pruning of old
buckets. The counters and `absorb_tick` are those of the quota gossip.
-/

namespace Arknet.Router

open Machine Arknet.Chain

structure FreeTierConfig where
  hourlyLimit : U32
  dailyLimit : U32
  deriving DecidableEq, Repr

def DEFAULT_HOURLY_LIMIT : U32 := 10
def DEFAULT_DAILY_LIMIT : U32 := 100

def FreeTierConfig.default : FreeTierConfig := ⟨DEFAULT_HOURLY_LIMIT, DEFAULT_DAILY_LIMIT⟩

inductive QuotaOutcome where
  | allowed (hourlyRemaining dailyRemaining : U32)
  | hourlyExceeded (retryAfterMs : U64)
  | dailyExceeded (retryAfterMs : U64)
  deriving DecidableEq, Repr

def QuotaOutcome.isAllowed : QuotaOutcome → Bool
  | .allowed .. => true
  | _ => false

/-- `(idx + 1) * width`. -/
def rollover (idx width : U64) : Exec U64 := do
  let next ← add idx 1
  mul next width

/-- The entries at or after the cutoff stay. -/
def BucketStore.prune (counts : BucketStore) (cutoffIdx : U64) : BucketStore := fun w i =>
  if cutoffIdx ≤ i then counts w i else 0

namespace FreeTierTracker

def check (cfg : FreeTierConfig) (tracker : FreeTierTracker) (wallet : Address) (nowMs : Timestamp) :
    Exec QuotaOutcome :=
  let idx := bucketIndices nowMs
  let hUsed := tracker.hourly wallet idx.1
  let dUsed := tracker.daily wallet idx.2
  if cfg.hourlyLimit ≤ hUsed then do
    let retryAfterMs ← rollover idx.1 3600000
    pure (.hourlyExceeded retryAfterMs)
  else if cfg.dailyLimit ≤ dUsed then do
    let retryAfterMs ← rollover idx.2 86400000
    pure (.dailyExceeded retryAfterMs)
  else do
    let hourlyRemaining ← sub cfg.hourlyLimit hUsed
    let dailyRemaining ← sub cfg.dailyLimit dUsed
    pure (.allowed hourlyRemaining dailyRemaining)

/-- Check and reserve one job. -/
def consume (cfg : FreeTierConfig) (tracker : FreeTierTracker) (wallet : Address) (nowMs : Timestamp) :
    Exec (QuotaOutcome × FreeTierTracker) := do
  let outcome ← tracker.check cfg wallet nowMs
  if outcome.isAllowed then
    let idx := bucketIndices nowMs
    pure (outcome, ⟨tracker.hourly.add wallet idx.1 1, tracker.daily.add wallet idx.2 1⟩)
  else pure (outcome, tracker)

/-- The bucket before the current one is kept too. -/
def prune (tracker : FreeTierTracker) (nowMs : Timestamp) : FreeTierTracker :=
  let idx := bucketIndices nowMs
  ⟨tracker.hourly.prune (satSub idx.1 1), tracker.daily.prune (satSub idx.2 1)⟩

end FreeTierTracker

section

variable {cfg : FreeTierConfig} {tracker tracker' : FreeTierTracker} {wallet : Address} {nowMs : Timestamp}
  {outcome : QuotaOutcome}

/-- Both counts are below their limits, and the remainders are reported. -/
theorem FreeTierTracker.check_allowed_iff {h d : U32} :
    tracker.check cfg wallet nowMs = .ok (.allowed h d) ↔
      tracker.hourly wallet (bucketIndices nowMs).1 < cfg.hourlyLimit ∧
      tracker.daily wallet (bucketIndices nowMs).2 < cfg.dailyLimit ∧
      h.val + (tracker.hourly wallet (bucketIndices nowMs).1).val = cfg.hourlyLimit.val ∧
      d.val + (tracker.daily wallet (bucketIndices nowMs).2).val = cfg.dailyLimit.val := by
  simp only [FreeTierTracker.check]
  split
  · rename_i hle
    simp only [bind_eq_ok, pure_eq_ok]
    constructor
    · rintro ⟨_, -, heq⟩
      cases heq
    · rintro ⟨hlt, -⟩
      exact absurd hle (not_le.mpr hlt)
  rename_i hhour
  split
  · rename_i hle
    simp only [bind_eq_ok, pure_eq_ok]
    constructor
    · rintro ⟨_, -, heq⟩
      cases heq
    · rintro ⟨-, hlt, -⟩
      exact absurd hle (not_le.mpr hlt)
  rename_i hday
  simp only [bind_eq_ok, pure_eq_ok, sub_eq_ok, QuotaOutcome.allowed.injEq]
  constructor
  · rintro ⟨_, hh, _, hd, rfl, rfl⟩
    exact ⟨not_le.mp hhour, not_le.mp hday, hh, hd⟩
  · rintro ⟨-, -, hh, hd⟩
    exact ⟨h, hh, d, hd, rfl, rfl⟩

/-- A reservation that returns: both counts go up by one, or nothing changes. -/
theorem FreeTierTracker.consume_ok (h : tracker.consume cfg wallet nowMs = .ok (outcome, tracker')) :
    (outcome.isAllowed = true ∧
      tracker.hourly wallet (bucketIndices nowMs).1 < cfg.hourlyLimit ∧
      tracker.daily wallet (bucketIndices nowMs).2 < cfg.dailyLimit ∧
      tracker' = ⟨tracker.hourly.add wallet (bucketIndices nowMs).1 1,
        tracker.daily.add wallet (bucketIndices nowMs).2 1⟩) ∨
    (outcome.isAllowed = false ∧ tracker' = tracker) := by
  simp only [FreeTierTracker.consume, bind_eq_ok] at h
  obtain ⟨checked, hcheck, h⟩ := h
  split at h
  · rename_i hallowed
    rw [pure_eq_ok, Prod.mk.injEq] at h
    obtain ⟨rfl, rfl⟩ := h
    cases checked with
    | allowed hr dr =>
      obtain ⟨hhour, hday, -, -⟩ := check_allowed_iff.mp hcheck
      exact .inl ⟨rfl, hhour, hday, rfl⟩
    | hourlyExceeded ms => cases hallowed
    | dailyExceeded ms => cases hallowed
  · rename_i hnot
    rw [pure_eq_ok, Prod.mk.injEq] at h
    obtain ⟨rfl, rfl⟩ := h
    exact .inr ⟨by simpa using hnot, rfl⟩

/-- Below both limits. -/
theorem FreeTierTracker.consume_allowed
    (hhour : tracker.hourly wallet (bucketIndices nowMs).1 < cfg.hourlyLimit)
    (hday : tracker.daily wallet (bucketIndices nowMs).2 < cfg.dailyLimit) :
    ∃ outcome, tracker.consume cfg wallet nowMs = .ok (outcome,
        ⟨tracker.hourly.add wallet (bucketIndices nowMs).1 1,
          tracker.daily.add wallet (bucketIndices nowMs).2 1⟩) ∧ outcome.isAllowed = true := by
  obtain ⟨hr, hhr⟩ := sub_isOk (Fin.le_of_lt hhour)
  obtain ⟨dr, hdr⟩ := sub_isOk (Fin.le_of_lt hday)
  have hcheck : tracker.check cfg wallet nowMs = .ok (.allowed hr dr) :=
    check_allowed_iff.mpr ⟨hhour, hday, sub_eq_ok.mp hhr, sub_eq_ok.mp hdr⟩
  refine ⟨.allowed hr dr, ?_, rfl⟩
  rw [FreeTierTracker.consume, hcheck, ok_bind]
  rfl

end

end Arknet.Router
