import Arknet.Lib.Borsh
import Arknet.Chain.Encoding

/-!
Free-tier quota gossip: every router turns what it observed into ticks, and adds the ticks of others to
its own buckets. A tick carries no name of its emitter; the receiver tells ticks apart by wallet and
nonce, as far back as its cache goes.
-/

namespace Arknet.Router

open Machine Borsh Arknet.Chain

def MS_PER_HOUR : Nat := 3600000
def MS_PER_DAY : Nat := 86400000

structure FreeTierTick where
  wallet : Address
  hourBucket : U64
  dayBucket : U64
  hourlyCount : U32
  dailyCount : U32
  nonce : U64
  emittedAtMs : Timestamp
  deriving DecidableEq, Repr

def FreeTierTick.codec : Codec FreeTierTick :=
  ((Bytes.codec 20).prod (Codec.u64.prod (Codec.u64.prod (Codec.u32.prod
    (Codec.u32.prod (Codec.u64.prod Codec.u64)))))).map
    { toFun := fun t =>
        ⟨t.1, t.2.1, t.2.2.1, t.2.2.2.1, t.2.2.2.2.1, t.2.2.2.2.2.1, t.2.2.2.2.2.2⟩
      invFun := fun t => (t.wallet, t.hourBucket, t.dayBucket, t.hourlyCount, t.dailyCount,
        t.nonce, t.emittedAtMs)
      left_inv := fun _ => rfl
      right_inv := fun _ => rfl }

def bucketIndices (nowMs : Timestamp) : U64 × U64 :=
  (⟨nowMs.val / MS_PER_HOUR, Nat.lt_of_le_of_lt (Nat.div_le_self _ _) nowMs.isLt⟩,
    ⟨nowMs.val / MS_PER_DAY, Nat.lt_of_le_of_lt (Nat.div_le_self _ _) nowMs.isLt⟩)

/-! ## Tracker -/

/-- The counts under `(wallet, bucket)`; an absent entry is 0. -/
abbrev BucketStore := Address → U64 → U32

def BucketStore.add (counts : BucketStore) (wallet : Address) (idx : U64) (delta : U32) : BucketStore :=
  fun w i => if w = wallet ∧ i = idx then satAdd (counts w i) delta else counts w i

structure FreeTierTracker where
  hourly : BucketStore
  daily : BucketStore

def FreeTierTracker.new : FreeTierTracker := ⟨fun _ _ => 0, fun _ _ => 0⟩

def FreeTierTracker.absorbTick (tracker : FreeTierTracker) (tick : FreeTierTick) : FreeTierTracker where
  hourly :=
    if tick.hourlyCount > 0 then tracker.hourly.add tick.wallet tick.hourBucket tick.hourlyCount
    else tracker.hourly
  daily :=
    if tick.dailyCount > 0 then tracker.daily.add tick.wallet tick.dayBucket tick.dailyCount
    else tracker.daily

/-! ## Receiver -/

structure RecentNonces where
  cap : Nat
  seen : List (Address × U64)
  deriving DecidableEq, Repr

def RecentNonces.new (cap : Nat) : RecentNonces := ⟨cap, []⟩

def RecentNonces.insert (recent : RecentNonces) (wallet : Address) (nonce : U64) :
    Bool × RecentNonces :=
  if (wallet, nonce) ∈ recent.seen then (false, recent)
  else
    let seen := if recent.seen.length ≥ recent.cap then recent.seen.tail else recent.seen
    (true, { recent with seen := seen ++ [(wallet, nonce)] })

/-- The text of the borsh library, which ends the first message, is left out. -/
def absorbTickBytes (tracker : FreeTierTracker) (recent : RecentNonces) (bytes : List UInt8) :
    Except String (FreeTierTracker × RecentNonces) :=
  match FreeTierTick.codec.fromSlice bytes with
  | none => .error "decode quota tick: "
  | some tick =>
    let inserted := recent.insert tick.wallet tick.nonce
    if inserted.1 = false then .error "duplicate quota tick"
    else .ok (tracker.absorbTick tick, inserted.2)

/-! ## Emitter -/

/-- `(hour_bucket, day_bucket, hourly_count, daily_count)`. -/
structure Consumption where
  hourBucket : U64
  dayBucket : U64
  hourlyCount : U32
  dailyCount : U32
  deriving DecidableEq, Repr

/-- A map with an order of its own. -/
structure PendingConsumption where
  inner : List (Address × Consumption)
  deriving DecidableEq, Repr

/-- The buckets move to those of `now_ms`; the counts stay. -/
def PendingConsumption.record (pending : PendingConsumption) (wallet : Address) (nowMs : Timestamp) :
    PendingConsumption :=
  let idx := bucketIndices nowMs
  match pending.inner.find? (fun e => e.1 = wallet) with
  | none => ⟨pending.inner ++ [(wallet, ⟨idx.1, idx.2, 1, 1⟩)]⟩
  | some _ => ⟨pending.inner.map fun e =>
      if e.1 = wallet then
        (wallet, ⟨idx.1, idx.2, satAdd e.2.hourlyCount 1, satAdd e.2.dailyCount 1⟩)
      else e⟩

/-- The loop of `drain` over the entries in the order in which the map gives them. -/
def drainEntries (nowMs : Timestamp) : U64 → List (Address × Consumption) → List FreeTierTick × U64
  | nextNonce, [] => ([], nextNonce)
  | nextNonce, e :: rest =>
    let tick : FreeTierTick := {
      wallet := e.1
      hourBucket := e.2.hourBucket
      dayBucket := e.2.dayBucket
      hourlyCount := e.2.hourlyCount
      dailyCount := e.2.dailyCount
      nonce := nextNonce
      emittedAtMs := nowMs }
    let drained := drainEntries nowMs (satAdd nextNonce 1) rest
    (tick :: drained.1, drained.2)

/-! ## Routers and the messages between them -/

structure GossipRouter where
  pending : PendingConsumption
  nextNonce : U64
  tracker : FreeTierTracker
  recent : RecentNonces

/-- The ticks published so far are numbered in the order of their publication. The two logs hold, for
each router, the messages brought to it and those it absorbed. -/
structure GossipNet (ρ : Type) where
  routers : ρ → GossipRouter
  published : List FreeTierTick
  delivered : ρ → List Nat
  absorbed : ρ → List Nat

inductive GossipEvent (ρ : Type) where
  | record (router : ρ) (wallet : Address) (nowMs : Timestamp)
  /-- A wake-up of `run_emitter`, with the order in which the map is drained. -/
  | emit (router : ρ) (nowMs : Timestamp) (drained : List (Address × Consumption))
  /-- `run_emitter` is started again, on a map it may have had before. -/
  | restart (router : ρ) (pending : PendingConsumption)
  | deliver (router : ρ) (message : Nat)

section

variable {ρ : Type} [DecidableEq ρ]

def GossipNet.start (cap : ρ → Nat) : GossipNet ρ where
  routers r := ⟨⟨[]⟩, 0, .new, .new (cap r)⟩
  published := []
  delivered _ := []
  absorbed _ := []

def GossipNet.setRouter (net : GossipNet ρ) (r : ρ) (router : GossipRouter) : GossipNet ρ :=
  { net with routers := Function.update net.routers r router }

/-- What a router does with a message that is brought to it. -/
def GossipNet.receive (net : GossipNet ρ) (r : ρ) (message : Nat) (bytes : List UInt8) : GossipNet ρ :=
  let router := net.routers r
  let net := { net with delivered := Function.update net.delivered r (net.delivered r ++ [message]) }
  match absorbTickBytes router.tracker router.recent bytes with
  | .error _ => net
  | .ok absorbed =>
    let net := { net with absorbed := Function.update net.absorbed r (net.absorbed r ++ [message]) }
    net.setRouter r { router with tracker := absorbed.1, recent := absorbed.2 }

/-- `none` where the event cannot happen: the map is drained of what it holds, and only published
messages are delivered, in any order and any number of times. -/
def GossipNet.next (net : GossipNet ρ) : GossipEvent ρ → Option (GossipNet ρ)
  | .record r wallet nowMs =>
    let router := net.routers r
    some (net.setRouter r { router with pending := router.pending.record wallet nowMs })
  | .emit r nowMs drained =>
    let router := net.routers r
    if drained.isPerm router.pending.inner then
      let ticks := drainEntries nowMs router.nextNonce drained
      let net := { net with published := net.published ++ ticks.1 }
      some (net.setRouter r { router with pending := ⟨[]⟩, nextNonce := ticks.2 })
    else none
  | .restart r pending =>
    let router := net.routers r
    some (net.setRouter r { router with pending := pending, nextNonce := 0 })
  | .deliver r message =>
    match net.published[message]? with
    | none => none
    | some tick => (FreeTierTick.codec.encode tick).map fun bytes => net.receive r message bytes

end

end Arknet.Router
