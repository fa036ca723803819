import Arknet.Consensus.Timeouts
import Arknet.Lib.Runs

/-!
Timeouts over the runs of the consensus loop: each goes off at most once for every time it was scheduled,
not before its duration has passed, not at all when it was cancelled in time, and every one that went off
is fed to the state machine once, in order.
-/

namespace Arknet.Laws

open Machine Timers Runs Arknet.Consensus

section

variable {M : Malachite} [DecidableEq M.Round] (c : TimeoutConfig)

/-- What an event does to the timers. -/
def eventActs : LoopEvent M → List (Act (Timeout M) Instant)
  | .arrive => []
  | .drive _ effects => effects.filterMap fun effect => (effect.act c).toOption
  | .wake now => [.wake now]

def actsOf (hist : List (LoopEvent M)) : List (Act (Timeout M) Instant) := hist.flatMap (eventActs c)

/-- The timeouts that go off at a wake-up after a history. -/
def wentOff (hist : List (LoopEvent M)) (now : Instant) : List (Timeout M) :=
  ((after .empty (actsOf c hist)).expired now).map Prod.fst

def wentOffAt (hist : List (LoopEvent M)) : LoopEvent M → List (Timeout M)
  | .wake now => wentOff c hist now
  | .arrive => []
  | .drive _ _ => []

/-- All that have gone off, in order. -/
def goneOff (hist : List (LoopEvent M)) : List (Timeout M) :=
  (List.range hist.length).flatMap fun i => (hist[i]?.map (wentOffAt c (hist.take i))).getD []

/-- The timeout that an input is about. -/
def elapsed : LoopInput M → Option (Timeout M)
  | .timeoutElapsed t => some t
  | .other => none

/-- The elapsed timeouts that were fed. -/
def fedTimeouts (hist : List (LoopEvent M)) : List (Timeout M) :=
  hist.filterMap fun e =>
    match e with
    | .drive input _ => elapsed input
    | .arrive => none
    | .wake _ => none

variable {c} {s s' : Loop M} {hist : List (LoopEvent M)}

theorem goneOff_snoc (hist : List (LoopEvent M)) (e : LoopEvent M) :
    goneOff c (hist ++ [e]) = goneOff c hist ++ wentOffAt c hist e := by
  rw [goneOff, List.length_append, List.length_singleton, List.range_succ, List.flatMap_append]
  congr 1
  · refine List.flatMap_congr fun i hi => ?_
    have hlt : i < hist.length := List.mem_range.mp hi
    rw [List.getElem?_append_left hlt, List.take_append_of_le_length hlt.le]
  · simp

theorem handleEffects_timeouts {effects : List (TimerEffect M)}
    (h : effects.foldlM (Loop.handleEffect c) s = .ok s') :
    s'.pendingTimeouts = after s.pendingTimeouts (effects.filterMap fun effect => (effect.act c).toOption) ∧
      s'.pendingInputs = s.pendingInputs := by
  induction effects generalizing s with
  | nil =>
    obtain rfl := Except.ok.inj h
    exact ⟨rfl, rfl⟩
  | cons effect rest ih =>
    rw [List.foldlM_cons] at h
    obtain ⟨mid, hmid, hrest⟩ := bind_eq_ok.mp h
    obtain ⟨a, ha, hs⟩ := bind_eq_ok.mp hmid
    obtain rfl := pure_eq_ok.mp hs
    obtain ⟨htimeouts, hinputs⟩ := ih hrest
    refine ⟨?_, hinputs⟩
    rw [htimeouts, List.filterMap_cons_some (by rw [ha]; rfl)]
    rfl

/-- What the timers and the queue are after a run. -/
theorem loop_run (run : Steps (Loop.step c) .start hist s) :
    s.pendingTimeouts = after .empty (actsOf c hist) ∧
      fedTimeouts hist ++ s.pendingInputs.filterMap elapsed = goneOff c hist := by
  induction run with
  | nil => exact ⟨rfl, rfl⟩
  | @snoc hist t t' e run step ih =>
    obtain ⟨htimers, hqueue⟩ := ih
    have hacts : actsOf c (hist ++ [e]) = actsOf c hist ++ eventActs c e := by
      simp [actsOf]
    have hfed : fedTimeouts (hist ++ [e]) = fedTimeouts hist ++ fedTimeouts [e] := by
      simp [fedTimeouts]
    rw [hacts, after_append, ← htimers, goneOff_snoc, ← hqueue, hfed]
    cases e with
    | arrive =>
      obtain rfl : t' = _ := step
      exact ⟨rfl, by simp [fedTimeouts, wentOffAt, elapsed]⟩
    | drive input effects =>
      obtain ⟨rest, hrest, hhandled⟩ := step
      obtain ⟨htimeouts, hinputs⟩ := handleEffects_timeouts hhandled
      refine ⟨htimeouts, ?_⟩
      rw [hinputs, hrest]
      cases input with
      | other =>
        rw [List.filterMap_cons_none (f := elapsed) rfl]
        simp [fedTimeouts, wentOffAt, elapsed]
      | timeoutElapsed elapsedOne =>
        rw [List.filterMap_cons_some (f := elapsed) rfl]
        simp [fedTimeouts, wentOffAt, elapsed]
    | wake now =>
      obtain ⟨hempty, rfl⟩ := step
      refine ⟨rfl, ?_⟩
      have hall : ((t.pendingTimeouts.expired now).map fun e => LoopInput.timeoutElapsed e.1).filterMap
          elapsed = (t.pendingTimeouts.expired now).map Prod.fst := by
        rw [List.filterMap_map, ← List.filterMap_eq_map]
        rfl
      simp only [hempty, List.filterMap_nil, List.append_nil, wentOffAt, wentOff, ← htimers, hall]
      simp [fedTimeouts]

omit [DecidableEq M.Round] in
/-- A deadline is the time of an effect and the duration for its round. -/
theorem mem_actsOf_set {t : Timeout M} {d : Instant} (h : .set t d ∈ actsOf c hist) :
    ∃ input effects now dur, .drive input effects ∈ hist ∧ .scheduleTimeout t now ∈ effects ∧
      c.durationFor t = .ok dur ∧ d = now + dur := by
  obtain ⟨e, he, hacts⟩ := List.mem_flatMap.mp h
  cases e with
  | arrive => simp [eventActs] at hacts
  | wake now => simp [eventActs] at hacts
  | drive input effects =>
    obtain ⟨effect, heffect, hact⟩ := List.mem_filterMap.mp hacts
    cases effect with
    | resetTimeouts => cases hact
    | cancelAllTimeouts => cases hact
    | cancelTimeout other => cases hact
    | scheduleTimeout other now =>
      cases hdur : c.durationFor other with
      | error panic => simp [TimerEffect.act, hdur, Except.toOption] at hact
      | ok dur =>
        have hset : Act.set other (now + dur) = Act.set t d := by
          simpa [TimerEffect.act, hdur, Except.toOption, pure, Except.pure] using hact
        cases hset
        exact ⟨input, effects, now, dur, he, heffect, hdur, rfl⟩

omit [DecidableEq M.Round] in
/-- Later rounds wait longer. -/
theorem durationFor_mono {t t' : Timeout M} (hkind : t.kind = t'.kind) (hround : t.roundNumber ≤ t'.roundNumber)
    {dur dur' : Duration} (h : c.durationFor t = .ok dur) (h' : c.durationFor t' = .ok dur') : dur ≤ dur' := by
  simp only [TimeoutConfig.durationFor] at h h'
  split_ifs at h h'
  obtain rfl := Except.ok.inj h
  obtain rfl := Except.ok.inj h'
  have hproduct : c.perRoundDelta * t.roundNumber.val ≤ c.perRoundDelta * t'.roundNumber.val :=
    Nat.mul_le_mul_left _ hround
  rw [hkind]
  exact Nat.add_le_add_left (min_le_min_right _ hproduct) _

/-- Timeouts over a run of the loop. -/
structure TimeoutsKept (c : TimeoutConfig) (hist : List (LoopEvent M)) (s : Loop M) : Prop where
  /-- A timeout is pending exactly when its last schedule has been spared since. -/
  pending : ∀ t d, (t, d) ∈ s.pendingTimeouts.entries ↔
    ∃ before rest, actsOf c hist = before ++ .set t d :: rest ∧ ∀ a ∈ rest, Spares t d a
  /-- What has gone off was fed or is about to be, in order and once. -/
  fed : fedTimeouts hist ++ s.pendingInputs.filterMap elapsed = goneOff c hist
  /-- At a wake-up goes off what is pending and due, once. -/
  due : ∀ past now rest, hist = past ++ .wake now :: rest → (wentOff c past now).Nodup ∧
    ∀ t, t ∈ wentOff c past now ↔ ∃ d ≤ now, ∃ before later,
      actsOf c past = before ++ .set t d :: later ∧ ∀ a ∈ later, Spares t d a
  /-- Between two wake-ups at which a timeout goes off it was scheduled. -/
  again : ∀ past now between now' rest, hist = past ++ .wake now :: (between ++ .wake now' :: rest) →
    ∀ t, t ∈ wentOff c past now → t ∈ wentOff c (past ++ .wake now :: between) now' →
      ∃ d, .set t d ∈ actsOf c between
  /-- Every deadline lies the duration for its round after its effect. -/
  timed : ∀ t d, .set t d ∈ actsOf c hist → ∃ input effects now dur, .drive input effects ∈ hist ∧
    .scheduleTimeout t now ∈ effects ∧ c.durationFor t = .ok dur ∧ d = now + dur
  /-- Later rounds wait longer. -/
  longer : ∀ t t' : Timeout M, t.kind = t'.kind → t.roundNumber ≤ t'.roundNumber → ∀ dur dur',
    c.durationFor t = .ok dur → c.durationFor t' = .ok dur' → dur ≤ dur'
  /-- A sleep until the first deadline is not in vain. -/
  sleeps : ∀ d, s.pendingTimeouts.next = some d → ∀ now, wentOff c hist now ≠ [] ↔ d ≤ now

theorem timeouts_kept (run : Steps (Loop.step c) .start hist s) : TimeoutsKept c hist s := by
  obtain ⟨htimers, hfed⟩ := loop_run run
  constructor
  · intro t d
    rw [← deadline_eq_some, htimers, deadline_after_empty]
  · exact hfed
  · intro past now rest _
    refine ⟨expired_once _ _, fun t => ?_⟩
    simp only [wentOff, List.mem_map, Prod.exists, exists_and_right, exists_eq_right, mem_expired,
      deadline_after_empty]
    exact ⟨fun ⟨d, hset, hd⟩ => ⟨d, hd, hset⟩, fun ⟨d, hd, hset⟩ => ⟨d, hset, hd⟩⟩
  · intro past now between now' rest _ t hfirst hsecond
    obtain ⟨⟨t₁, d₁⟩, hd₁, rfl⟩ := List.mem_map.mp hfirst
    obtain ⟨⟨t₂, d₂⟩, hd₂, rfl⟩ := List.mem_map.mp hsecond
    have hacts : actsOf c (past ++ .wake now :: between) = actsOf c past ++ .wake now :: actsOf c between := by
      simp [actsOf, eventActs]
    rw [hacts] at hd₂
    exact ⟨d₂, set_between hd₁ hd₂⟩
  · intro t d hset
    exact mem_actsOf_set hset
  · intro t t' hkind hround dur dur' h h'
    exact durationFor_mono hkind hround h h'
  · intro d hd now
    rw [wentOff, ← htimers, ne_eq, List.map_eq_nil_iff]
    exact (next_spec (s := s.pendingTimeouts)).2 d hd now

end

/-! ## One timeout -/

instance toyRoundDecidableEq : DecidableEq toyMalachite.Round := inferInstanceAs (DecidableEq (Option U32))

def firstPropose : Timeout toyMalachite := ⟨some (0 : U32), .propose⟩

def onePropose : List (LoopEvent toyMalachite) :=
  [.arrive, .drive .other [.scheduleTimeout firstPropose 5], .wake 3000000005]

/-- A proposal that does not come is given up after three seconds. -/
theorem timeouts_kept_one : ∃ s, Steps (Loop.step .default) .start onePropose s ∧
    firstPropose ∈ wentOff .default [.arrive, .drive .other [.scheduleTimeout firstPropose 5]] 3000000005 := by
  have hdur : TimeoutConfig.default.durationFor firstPropose = .ok 3000000000 := by decide
  have hact : (TimerEffect.scheduleTimeout firstPropose 5).act .default =
      .ok (.set firstPropose 3000000005) := by
    rw [TimerEffect.act, hdur]
    rfl
  have harrive : Steps (Loop.step .default) .start [.arrive] (⟨.empty, [.other]⟩ : Loop toyMalachite) :=
    Steps.nil.snoc rfl
  have hdrive : Steps (Loop.step .default) .start
      [.arrive, .drive .other [.scheduleTimeout firstPropose 5]]
      (⟨Armed.empty.set firstPropose 3000000005, []⟩ : Loop toyMalachite) := by
    refine harrive.snoc ⟨[], rfl, ?_⟩
    rw [List.foldlM_cons, Loop.handleEffect, hact]
    rfl
  have hstep : Loop.step .default (⟨Armed.empty.set firstPropose 3000000005, []⟩ : Loop toyMalachite)
      (.wake 3000000005) ⟨(Armed.empty.set firstPropose 3000000005).pending 3000000005,
        ((Armed.empty.set firstPropose 3000000005).expired 3000000005).map fun e => .timeoutElapsed e.1⟩ :=
    ⟨rfl, rfl⟩
  have hwake := hdrive.snoc hstep
  refine ⟨_, hwake, (((timeouts_kept hwake).due _ 3000000005 [] rfl).2 firstPropose).mpr
    ⟨3000000005, le_rfl, [], [], ?_, by simp⟩⟩
  simp [actsOf, eventActs, hact, Except.toOption]

end Arknet.Laws
