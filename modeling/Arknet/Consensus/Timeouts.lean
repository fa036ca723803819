import Arknet.Consensus.Signing
import Arknet.Lib.Timers

/-!
The timeouts of the consensus loop. The state machine asks for them by effects; they go off when the loop
has nothing else to feed, and are fed back as inputs.
-/

namespace Arknet.Consensus

open Machine Timers

/-- In nanoseconds. -/
abbrev Duration := Nat

/-- A point of the monotonic clock, in nanoseconds. -/
abbrev Instant := Nat

def DURATION_MAX : Duration := (2 ^ 64 - 1) * 1000000000 + 999999999

inductive TimeoutKind where
  | propose | prevote | precommit | rebroadcast
  deriving DecidableEq, Repr

structure Timeout (M : Malachite) where
  round : M.Round
  kind : TimeoutKind

instance timeoutDecidableEq {M : Malachite} [DecidableEq M.Round] : DecidableEq (Timeout M) := fun a b =>
  decidable_of_iff (a.round = b.round ∧ a.kind = b.kind) (by cases a; cases b; simp)

structure TimeoutConfig where
  propose : Duration
  prevote : Duration
  precommit : Duration
  rebroadcast : Duration
  perRoundDelta : Duration
  blockInterval : Duration
  deriving DecidableEq, Repr

def TimeoutConfig.default : TimeoutConfig where
  propose := 3000000000
  prevote := 1000000000
  precommit := 1000000000
  rebroadcast := 2000000000
  perRoundDelta := 500000000
  blockInterval := 500000000

variable {M : Malachite}

/-- `t.round.as_i64().max(0) as u32`. -/
def Timeout.roundNumber (t : Timeout M) : U32 := truncate 32 (max (M.asI64 t.round).toInt 0).toNat

def TimeoutConfig.base (c : TimeoutConfig) : TimeoutKind → Duration
  | .propose => c.propose
  | .prevote => c.prevote
  | .precommit => c.precommit
  | .rebroadcast => c.rebroadcast

/-- The product saturates, the sum is checked. -/
def TimeoutConfig.durationFor (c : TimeoutConfig) (t : Timeout M) : Exec Duration :=
  let extension := min (c.perRoundDelta * t.roundNumber.val) DURATION_MAX
  if c.base t.kind + extension ≤ DURATION_MAX then .ok (c.base t.kind + extension) else .error .addOverflow

/-- The effects on timeouts; the time is when the effect is handled. -/
inductive TimerEffect (M : Malachite) where
  | resetTimeouts
  | cancelAllTimeouts
  | cancelTimeout (t : Timeout M)
  | scheduleTimeout (t : Timeout M) (now : Instant)

/-- What is fed to the state machine: an elapsed timeout, or anything else. -/
inductive LoopInput (M : Malachite) where
  | timeoutElapsed (t : Timeout M)
  | other

structure Loop (M : Malachite) where
  pendingTimeouts : Armed (Timeout M) Instant
  pendingInputs : List (LoopInput M)

/-- An input is put at the end of the queue; the first input is fed and its effects are handled; the loop
wakes up by its sleep. -/
inductive LoopEvent (M : Malachite) where
  | arrive
  | drive (input : LoopInput M) (effects : List (TimerEffect M))
  | wake (now : Instant)

variable [DecidableEq M.Round] (c : TimeoutConfig)

/-- What an effect does to the pending timeouts. -/
def TimerEffect.act : TimerEffect M → Exec (Act (Timeout M) Instant)
  | .resetTimeouts => .ok .clear
  | .cancelAllTimeouts => .ok .clear
  | .cancelTimeout t => .ok (.cancel t)
  | .scheduleTimeout t now => do
    let dur ← c.durationFor t
    pure (.set t (now + dur))

def Loop.handleEffect (s : Loop M) (effect : TimerEffect M) : Exec (Loop M) := do
  let a ← effect.act c
  pure { s with pendingTimeouts := s.pendingTimeouts.act a }

/-- The loop sleeps only with an empty queue. -/
def Loop.step (s : Loop M) : LoopEvent M → Loop M → Prop
  | .arrive, s' => s' = { s with pendingInputs := s.pendingInputs ++ [.other] }
  | .drive input effects, s' => ∃ rest, s.pendingInputs = input :: rest ∧
      effects.foldlM (Loop.handleEffect c) { s with pendingInputs := rest } = .ok s'
  | .wake now, s' => s.pendingInputs = [] ∧ s' = {
      pendingTimeouts := s.pendingTimeouts.pending now
      pendingInputs := (s.pendingTimeouts.expired now).map fun e => .timeoutElapsed e.1 }

def Loop.start : Loop M := ⟨.empty, []⟩

end Arknet.Consensus
