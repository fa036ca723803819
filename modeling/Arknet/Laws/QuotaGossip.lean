import Arknet.Router.QuotaGossip
import Arknet.Lib.Dedup
import Arknet.Lib.Runs

/-!
Quota counts across routers. Ticks are additive, so that a router has to absorb each of them once; it
knows a tick by its wallet and nonce, which two emitters, or one emitter started twice, give to
different ticks, and it forgets the oldest when its cache is full.
-/

namespace Arknet.Laws

open Machine Borsh Dedup Runs Arknet.Chain Arknet.Router

variable {ρ : Type} [DecidableEq ρ]

/-! ## The law -/

/-- The ticks with these numbers. -/
def ticksOf (net : GossipNet ρ) (messages : List Nat) : List FreeTierTick :=
  messages.filterMap fun i => net.published[i]?

def tickKey (tick : FreeTierTick) : Address × U64 := (tick.wallet, tick.nonce)

/-- The sum of the counts for a wallet and a bucket. -/
def countIn (bucket : FreeTierTick → U64) (count : FreeTierTick → U32) (ticks : List FreeTierTick)
    (wallet : Address) (idx : U64) : Nat :=
  (ticks.map fun t => if t.wallet = wallet ∧ bucket t = idx then (count t).val else 0).sum

def hourlyIn : List FreeTierTick → Address → U64 → Nat := countIn (·.hourBucket) (·.hourlyCount)

def dailyIn : List FreeTierTick → Address → U64 → Nat := countIn (·.dayBucket) (·.dailyCount)

/-- A router absorbed each of the messages brought to it when it came first, and counts what they
say. -/
structure CountsDelivered (net : GossipNet ρ) (r : ρ) : Prop where
  once : net.absorbed r = firsts (net.delivered r)
  hourly : ∀ wallet idx, ((net.routers r).tracker.hourly wallet idx).val =
    hourlyIn (ticksOf net (firsts (net.delivered r))) wallet idx
  daily : ∀ wallet idx, ((net.routers r).tracker.daily wallet idx).val =
    dailyIn (ticksOf net (firsts (net.delivered r))) wallet idx

def QuotaConverges (net : GossipNet ρ) : Prop := ∀ r, CountsDelivered net r

/-! ## The condition -/

/-- The keys a router with this history remembers. -/
def remembered (net : GossipNet ρ) (r : ρ) : List (Address × U64) :=
  lastN (max (net.routers r).recent.cap 1) ((ticksOf net (firsts (net.delivered r))).map tickKey)

/-- A message that was brought before is still remembered, a new one has a key of its own among those
that are, and its counts fit on top of the others. -/
def Distinguished (net : GossipNet ρ) : GossipEvent ρ → Prop
  | .deliver r message => ∀ tick, net.published[message]? = some tick →
    (tickKey tick ∈ remembered net r ↔ message ∈ net.delivered r) ∧
      (message ∉ net.delivered r →
        hourlyIn (ticksOf net (firsts (net.delivered r))) tick.wallet tick.hourBucket +
            tick.hourlyCount.val < 2 ^ 32 ∧
          dailyIn (ticksOf net (firsts (net.delivered r))) tick.wallet tick.dayBucket +
            tick.dailyCount.val < 2 ^ 32)
  | _ => True

def GossipStep (net : GossipNet ρ) (ev : GossipEvent ρ) (net' : GossipNet ρ) : Prop :=
  net.next ev = some net'

theorem gossipStep_deterministic : Deterministic (GossipStep (ρ := ρ)) := by
  intro u ev u₁ u₂ h₁ h₂
  exact Option.some.inj (h₁.symm.trans h₂)

/-! ## Counting -/

theorem countIn_snoc (bucket : FreeTierTick → U64) (count : FreeTierTick → U32)
    (ticks : List FreeTierTick) (tick : FreeTierTick) (wallet : Address) (idx : U64) :
    countIn bucket count (ticks ++ [tick]) wallet idx = countIn bucket count ticks wallet idx +
      if tick.wallet = wallet ∧ bucket tick = idx then (count tick).val else 0 := by
  simp [countIn]

/-- Adding nothing leaves an entry as it is, so the guard on the count does not show. -/
theorem add_guarded_val (counts : BucketStore) (wallet w : Address) (idx i : U64) (delta : U32) :
    ((if delta > 0 then counts.add wallet idx delta else counts) w i).val =
      if w = wallet ∧ i = idx then min ((counts w i).val + delta.val) (2 ^ 32 - 1)
      else (counts w i).val := by
  have hlt := (counts w i).isLt
  by_cases hpos : delta > 0
  · rw [if_pos hpos, BucketStore.add]
    split
    · exact satAdd_val _ _
    · rfl
  · have hzero : delta.val = 0 := by
      have hval : ¬ 0 < delta.val := hpos
      omega
    rw [if_neg hpos, hzero]
    split
    · omega
    · rfl

/-- The counts stay right exactly when the new one does not saturate. -/
theorem add_guarded_counts {counts : BucketStore} {bucket : FreeTierTick → U64}
    {count : FreeTierTick → U32} {ticks : List FreeTierTick} (tick : FreeTierTick)
    (h : ∀ w i, (counts w i).val = countIn bucket count ticks w i) :
    (∀ w i, ((if count tick > 0 then counts.add tick.wallet (bucket tick) (count tick) else counts)
        w i).val = countIn bucket count (ticks ++ [tick]) w i) ↔
      countIn bucket count ticks tick.wallet (bucket tick) + (count tick).val < 2 ^ 32 := by
  simp only [add_guarded_val, countIn_snoc, h]
  constructor
  · intro hall
    have hown := hall tick.wallet (bucket tick)
    rw [if_pos ⟨rfl, rfl⟩, if_pos ⟨rfl, rfl⟩] at hown
    omega
  · intro hfits w i
    by_cases hown : w = tick.wallet ∧ i = bucket tick
    · obtain ⟨rfl, rfl⟩ := hown
      rw [if_pos ⟨rfl, rfl⟩, if_pos ⟨rfl, rfl⟩]
      omega
    · have hother : ¬ (tick.wallet = w ∧ bucket tick = i) := by
        rintro ⟨rfl, rfl⟩
        exact hown ⟨rfl, rfl⟩
      rw [if_neg hown, if_neg hother, Nat.add_zero]

/-! ## Memory -/

omit [DecidableEq ρ] in
/-- Messages keep their numbers. -/
theorem ticksOf_publish {net net' : GossipNet ρ} {ticks : List FreeTierTick} {messages : List Nat}
    (hpub : net'.published = net.published ++ ticks)
    (h : ∀ i ∈ messages, i < net.published.length) : ticksOf net' messages = ticksOf net messages := by
  unfold ticksOf
  apply List.filterMap_congr
  intro i hi
  rw [hpub, List.getElem?_append_left (h i hi)]

/-- What a router's logs and cache have to do with one another. -/
structure Remembers (net : GossipNet ρ) (r : ρ) : Prop where
  published : ∀ i ∈ net.delivered r, i < net.published.length
  absorbed : ∀ i ∈ net.absorbed r, i ∈ net.delivered r
  seen : (net.routers r).recent.seen =
    lastN (max (net.routers r).recent.cap 1) ((ticksOf net (net.absorbed r)).map tickKey)

theorem insert_seen {recent : RecentNonces} {keys : List (Address × U64)} {wallet : Address}
    {nonce : U64} (hseen : recent.seen = lastN (max recent.cap 1) keys)
    (hfresh : (wallet, nonce) ∉ recent.seen) :
    (recent.insert wallet nonce).1 = true ∧ (recent.insert wallet nonce).2.cap = recent.cap ∧
      (recent.insert wallet nonce).2.seen = lastN (max recent.cap 1) (keys ++ [(wallet, nonce)]) := by
  unfold RecentNonces.insert
  rw [if_neg hfresh, lastN_snoc (by omega), ← hseen]
  refine ⟨rfl, rfl, ?_⟩
  by_cases hcap : recent.cap = 0
  · have hlen : recent.seen.length ≤ 1 := by
      rw [hseen, length_lastN]
      omega
    rw [if_pos (by omega)]
    split
    · rfl
    · rename_i hempty
      have hnil := List.eq_nil_of_length_eq_zero (show recent.seen.length = 0 by omega)
      rw [hnil]
      rfl
  · rw [show max recent.cap 1 = recent.cap by omega]

/-! ## Steps -/

/-- Nothing that concerns deliveries to `r` has changed. -/
structure SameView (net net' : GossipNet ρ) (r : ρ) : Prop where
  published : ∃ ticks, net'.published = net.published ++ ticks
  delivered : net'.delivered r = net.delivered r
  absorbed : net'.absorbed r = net.absorbed r
  tracker : (net'.routers r).tracker = (net.routers r).tracker
  recent : (net'.routers r).recent = (net.routers r).recent

section

variable {net net' : GossipNet ρ} {r : ρ}

omit [DecidableEq ρ] in
theorem SameView.ticksOf (h : SameView net net' r) {messages : List Nat}
    (hpub : ∀ i ∈ messages, i < net.published.length) : ticksOf net' messages = ticksOf net messages := by
  obtain ⟨ticks, hticks⟩ := h.published
  exact ticksOf_publish hticks hpub

omit [DecidableEq ρ] in
theorem SameView.remembers (h : SameView net net' r) (hr : Remembers net r) : Remembers net' r := by
  obtain ⟨ticks, hticks⟩ := h.published
  have habsorbed := fun i hi => hr.published i (hr.absorbed i hi)
  refine ⟨fun i hi => ?_, fun i hi => ?_, ?_⟩
  · rw [h.delivered] at hi
    have hlt := hr.published i hi
    rw [hticks, List.length_append]
    omega
  · rw [h.absorbed] at hi
    rw [h.delivered]
    exact hr.absorbed i hi
  · rw [h.recent, h.absorbed, h.ticksOf habsorbed]
    exact hr.seen

omit [DecidableEq ρ] in
theorem firsts_published (hr : Remembers net r) :
    ∀ i ∈ firsts (net.delivered r), i < net.published.length :=
  fun i hi => hr.published i (mem_firsts.mp hi)

omit [DecidableEq ρ] in
theorem SameView.counts (h : SameView net net' r) (hr : Remembers net r)
    (hc : CountsDelivered net r) : CountsDelivered net' r := by
  refine ⟨?_, ?_, ?_⟩
  · rw [h.absorbed, h.delivered]
    exact hc.once
  · rw [h.tracker, h.delivered, h.ticksOf (firsts_published hr)]
    exact hc.hourly
  · rw [h.tracker, h.delivered, h.ticksOf (firsts_published hr)]
    exact hc.daily

/-- Changing what a router emits is not seen by the receivers, itself included. -/
theorem setRouter_sameView {s : ρ} {router : GossipRouter} (ticks : List FreeTierTick)
    (htracker : router.tracker = (net.routers s).tracker)
    (hrecent : router.recent = (net.routers s).recent) (r : ρ) :
    SameView net ({ net with published := net.published ++ ticks }.setRouter s router) r := by
  refine ⟨⟨ticks, rfl⟩, rfl, rfl, ?_, ?_⟩
  · by_cases hs : r = s
    · subst hs
      simp [GossipNet.setRouter, htracker]
    · simp [GossipNet.setRouter, hs]
  · by_cases hs : r = s
    · subst hs
      simp [GossipNet.setRouter, hrecent]
    · simp [GossipNet.setRouter, hs]

/-- What an event leaves alone: everything but the receiver of a delivery. -/
theorem next_sameView {ev : GossipEvent ρ} (h : net.next ev = some net')
    (hev : ∀ message, ev ≠ .deliver r message) : SameView net net' r := by
  cases ev with
  | record s wallet nowMs =>
    obtain rfl := Option.some.inj h
    have hview := @setRouter_sameView _ _ net s
      { net.routers s with pending := (net.routers s).pending.record wallet nowMs } [] rfl rfl r
    simpa only [List.append_nil] using hview
  | emit s nowMs drained =>
    simp only [GossipNet.next, Option.ite_none_right_eq_some] at h
    obtain ⟨-, h⟩ := h
    obtain rfl := Option.some.inj h
    exact @setRouter_sameView _ _ net s
      ⟨⟨[]⟩, (drainEntries nowMs (net.routers s).nextNonce drained).2, (net.routers s).tracker,
        (net.routers s).recent⟩ _ rfl rfl r
  | restart s pending =>
    obtain rfl := Option.some.inj h
    have hview := @setRouter_sameView _ _ net s
      { net.routers s with pending := pending, nextNonce := 0 } [] rfl rfl r
    simpa only [List.append_nil] using hview
  | deliver s message =>
    have hs : r ≠ s := by
      rintro rfl
      exact hev message rfl
    simp only [GossipNet.next] at h
    split at h
    · cases h
    · obtain ⟨bytes, -, rfl⟩ := Option.map_eq_some_iff.mp h
      unfold GossipNet.receive
      dsimp only
      split
      · exact ⟨⟨[], by simp⟩, by simp [hs], rfl, rfl, rfl⟩
      · exact ⟨⟨[], by simp [GossipNet.setRouter]⟩, by simp [GossipNet.setRouter, hs],
          by simp [GossipNet.setRouter, hs], by simp [GossipNet.setRouter, hs],
          by simp [GossipNet.setRouter, hs]⟩

/-! ## Deliveries -/

theorem absorbTickBytes_encode {tracker : FreeTierTracker} {recent : RecentNonces} {tick : FreeTierTick}
    {bytes : List UInt8} (h : FreeTierTick.codec.encode tick = some bytes) :
    absorbTickBytes tracker recent bytes =
      if tickKey tick ∈ recent.seen then .error "duplicate quota tick"
      else .ok (tracker.absorbTick tick, (recent.insert tick.wallet tick.nonce).2) := by
  unfold absorbTickBytes
  rw [Codec.fromSlice_encode _ h]
  dsimp only
  unfold RecentNonces.insert tickKey
  split
  · rfl
  · rfl

/-- The two ways a delivery goes. -/
theorem deliver_cases {message : Nat} (h : net.next (.deliver r message) = some net') :
    ∃ tick, net.published[message]? = some tick ∧ net'.published = net.published ∧
      net'.delivered r = net.delivered r ++ [message] ∧
      ((tickKey tick ∈ (net.routers r).recent.seen ∧ net'.absorbed r = net.absorbed r ∧
          net'.routers r = net.routers r) ∨
        (tickKey tick ∉ (net.routers r).recent.seen ∧ net'.absorbed r = net.absorbed r ++ [message] ∧
          (net'.routers r).tracker = (net.routers r).tracker.absorbTick tick ∧
          (net'.routers r).recent = ((net.routers r).recent.insert tick.wallet tick.nonce).2)) := by
  simp only [GossipNet.next] at h
  split at h
  · cases h
  · rename_i tick htick
    obtain ⟨bytes, hbytes, rfl⟩ := Option.map_eq_some_iff.mp h
    refine ⟨tick, htick, ?_⟩
    unfold GossipNet.receive
    dsimp only
    rw [absorbTickBytes_encode hbytes]
    by_cases hseen : tickKey tick ∈ (net.routers r).recent.seen
    · simp [hseen]
    · simp [hseen, GossipNet.setRouter]

omit [DecidableEq ρ] in
theorem ticksOf_snoc {messages : List Nat} {message : Nat} {tick : FreeTierTick}
    (h : net.published[message]? = some tick) :
    ticksOf net (messages ++ [message]) = ticksOf net messages ++ [tick] := by
  simp [ticksOf, h]

omit [DecidableEq ρ] in
theorem ticksOf_congr (h : net'.published = net.published) : ticksOf net' = ticksOf net := by
  unfold ticksOf
  rw [h]

/-- The receiver's logs and cache stay in step. -/
theorem deliver_remembers {message : Nat} (h : net.next (.deliver r message) = some net')
    (hr : Remembers net r) : Remembers net' r := by
  obtain ⟨tick, htick, hpub, hdelivered, hway⟩ := deliver_cases h
  have hmessage : message < net.published.length := (List.getElem?_eq_some_iff.mp htick).1
  have hpublished : ∀ i ∈ net'.delivered r, i < net'.published.length := by
    intro i hi
    rw [hdelivered, List.mem_append, List.mem_singleton] at hi
    rw [hpub]
    rcases hi with hi | rfl
    · exact hr.published i hi
    · exact hmessage
  rcases hway with ⟨hseen, habsorbed, hrouter⟩ | ⟨hseen, habsorbed, -, hrecent⟩
  · refine ⟨hpublished, fun i hi => ?_, ?_⟩
    · rw [habsorbed] at hi
      rw [hdelivered]
      exact List.mem_append_left _ (hr.absorbed i hi)
    · rw [hrouter, habsorbed, ticksOf_congr hpub]
      exact hr.seen
  · obtain ⟨-, hcap, hinsert⟩ := insert_seen hr.seen hseen
    refine ⟨hpublished, fun i hi => ?_, ?_⟩
    · rw [habsorbed, List.mem_append] at hi
      rw [hdelivered, List.mem_append]
      exact hi.imp_left (hr.absorbed i)
    · rw [hrecent, habsorbed, ticksOf_congr hpub, ticksOf_snoc htick, List.map_append, hcap]
      exact hinsert

theorem next_remembers {ev : GossipEvent ρ} (h : net.next ev = some net')
    (hr : ∀ s, Remembers net s) : ∀ s, Remembers net' s := by
  intro s
  by_cases hev : ∃ message, ev = .deliver s message
  · obtain ⟨message, rfl⟩ := hev
    exact deliver_remembers h (hr s)
  · exact (next_sameView h fun message hm => hev ⟨message, hm⟩).remembers (hr s)

/-- A receiver that counted right counts right after a delivery exactly when it takes a new message and
refuses an old one, and the counts fit. -/
theorem deliver_counts {message : Nat} (h : net.next (.deliver r message) = some net')
    (hr : Remembers net r) (hc : CountsDelivered net r) :
    CountsDelivered net' r ↔ Distinguished net (.deliver r message) := by
  obtain ⟨tick, htick, hpub, hdelivered, hway⟩ := deliver_cases h
  have hremembered : remembered net r = (net.routers r).recent.seen := by
    rw [remembered, ← hc.once]
    exact hr.seen.symm
  have hcondition : Distinguished net (.deliver r message) ↔
      (tickKey tick ∈ (net.routers r).recent.seen ↔ message ∈ net.delivered r) ∧
        (message ∉ net.delivered r →
          hourlyIn (ticksOf net (firsts (net.delivered r))) tick.wallet tick.hourBucket +
              tick.hourlyCount.val < 2 ^ 32 ∧
            dailyIn (ticksOf net (firsts (net.delivered r))) tick.wallet tick.dayBucket +
              tick.dailyCount.val < 2 ^ 32) := by
    simp only [Distinguished, htick, Option.some.injEq, forall_eq', hremembered]
  have hfirsts := firsts_snoc (net.delivered r) message
  simp only [mem_firsts] at hfirsts
  rw [hcondition]
  rcases hway with ⟨hseen, habsorbed, hrouter⟩ | ⟨hseen, habsorbed, htracker, -⟩
  · by_cases hold : message ∈ net.delivered r
    · -- a repetition, refused
      rw [if_pos hold] at hfirsts
      refine iff_of_true ⟨?_, ?_, ?_⟩ ⟨iff_of_true hseen hold, fun hnew => absurd hold hnew⟩
      · rw [habsorbed, hdelivered, hfirsts]
        exact hc.once
      · rw [hrouter, hdelivered, hfirsts, ticksOf_congr hpub]
        exact hc.hourly
      · rw [hrouter, hdelivered, hfirsts, ticksOf_congr hpub]
        exact hc.daily
    · -- a new tick, refused for the key of another
      refine iff_of_false (fun hc' => ?_) (fun hcond => hold (hcond.1.mp hseen))
      have honce := hc'.once
      rw [habsorbed, hdelivered, hfirsts, if_neg hold, ← hc.once] at honce
      simpa using congrArg List.length honce
  · by_cases hold : message ∈ net.delivered r
    · -- a repetition, counted again
      refine iff_of_false (fun hc' => ?_) (fun hcond => hseen (hcond.1.mpr hold))
      have honce := hc'.once
      rw [habsorbed, hdelivered, hfirsts, if_pos hold, ← hc.once] at honce
      simpa using congrArg List.length honce
    · -- a new tick, counted
      rw [if_neg hold] at hfirsts
      have hticks : ticksOf net' (firsts (net'.delivered r)) =
          ticksOf net (firsts (net.delivered r)) ++ [tick] := by
        rw [hdelivered, hfirsts, ticksOf_congr hpub, ticksOf_snoc htick]
      have honce : net'.absorbed r = firsts (net'.delivered r) := by
        rw [habsorbed, hdelivered, hfirsts, hc.once]
      have hhourly := add_guarded_counts tick hc.hourly
      have hdaily := add_guarded_counts tick hc.daily
      constructor
      · intro hc'
        have hhourly' := hc'.hourly
        have hdaily' := hc'.daily
        rw [htracker, hticks] at hhourly' hdaily'
        exact ⟨iff_of_false hseen hold, fun _ => ⟨hhourly.mp hhourly', hdaily.mp hdaily'⟩⟩
      · rintro ⟨-, hfits⟩
        refine ⟨honce, ?_, ?_⟩
        · rw [htracker, hticks]
          exact hhourly.mpr (hfits hold).1
        · rw [htracker, hticks]
          exact hdaily.mpr (hfits hold).2

theorem next_converges {ev : GossipEvent ρ} (h : net.next ev = some net')
    (hr : ∀ s, Remembers net s) (hc : QuotaConverges net) :
    QuotaConverges net' ↔ Distinguished net ev := by
  by_cases hev : ∃ s message, ev = .deliver s message
  · obtain ⟨s, message, rfl⟩ := hev
    rw [← deliver_counts h (hr s) (hc s)]
    constructor
    · intro hall
      exact hall s
    · intro hs r
      by_cases hrs : r = s
      · rw [hrs]
        exact hs
      · refine (next_sameView h fun m hm => ?_).counts (hr r) (hc r)
        cases hm
        exact hrs rfl
  · have htrue : Distinguished net ev := by
      cases ev with
      | deliver s message => exact absurd ⟨s, message, rfl⟩ hev
      | record | emit | restart => trivial
    refine iff_of_true (fun r => ?_) htrue
    exact (next_sameView h fun m hm => hev ⟨r, m, hm⟩).counts (hr r) (hc r)

end

/-! ## Runs -/

omit [DecidableEq ρ] in
theorem start_remembers (cap : ρ → Nat) (r : ρ) : Remembers (GossipNet.start cap) r :=
  ⟨by simp [GossipNet.start], by simp [GossipNet.start],
    by simp [GossipNet.start, RecentNonces.new, ticksOf, lastN]⟩

omit [DecidableEq ρ] in
theorem start_converges (cap : ρ → Nat) : QuotaConverges (GossipNet.start cap) :=
  fun _ => ⟨rfl, fun _ _ => rfl, fun _ _ => rfl⟩

theorem run_remembers {cap : ρ → Nat} {hist : List (GossipEvent ρ)} {net : GossipNet ρ}
    (run : Steps GossipStep (GossipNet.start cap) hist net) (r : ρ) : Remembers net r := by
  refine run.invariant (fun u => ∀ s, Remembers u s) (start_remembers cap) ?_ r
  intro u ev u' hu hstep
  exact next_remembers hstep hu

/-- Whatever is recorded, emitted, restarted and delivered, in any order: the routers count every tick
that reached them once at every point of the run, exactly when every delivery can be told from those
that the receiver remembers. -/
theorem quota_converges {cap : ρ → Nat} {hist : List (GossipEvent ρ)} {net : GossipNet ρ}
    (run : Steps GossipStep (GossipNet.start cap) hist net) :
    Throughout GossipStep (GossipNet.start cap) (fun _ u => QuotaConverges u) hist ↔
      Along GossipStep (GossipNet.start cap) Distinguished hist := by
  refine throughout_iff_along gossipStep_deterministic (start_converges cap) ?_ run
  intro past u ev u' hu hc hstep
  exact next_converges hstep (run_remembers hu) hc

/-- One tick, delivered twice. -/
theorem quota_converges_repeated :
    ∃ hist net, hist = [.record false 7 0, .emit false 5 [(7, ⟨0, 0, 1, 1⟩)], .deliver true 0,
        .deliver true 0] ∧
      Steps GossipStep (GossipNet.start fun _ : Bool => 16) hist net ∧
      (Throughout GossipStep (GossipNet.start fun _ => 16) (fun _ u => QuotaConverges u) hist ↔
        Along GossipStep (GossipNet.start fun _ => 16) Distinguished hist) := by
  obtain ⟨net, hnet⟩ := Option.isSome_iff_exists.mp (show
    (([.record false 7 0, .emit false 5 [(7, ⟨0, 0, 1, 1⟩)], .deliver true 0, .deliver true 0] :
      List (GossipEvent Bool)).foldlM GossipNet.next (GossipNet.start fun _ => 16)).isSome = true
    by decide)
  exact ⟨_, net, rfl, steps_of_foldlM hnet, quota_converges (steps_of_foldlM hnet)⟩

/-- Two routers serve the same wallet. Each gives its first tick the nonce 0, and a third router takes
one of the ticks for a repetition of the other. -/
theorem second_router_uncounted :
    ∃ hist net, Steps GossipStep (GossipNet.start fun _ : Fin 3 => 16) hist net ∧
      net.published.Nodup ∧ net.delivered 2 = [0, 1] ∧ net.absorbed 2 = [0] ∧
      hourlyIn (ticksOf net [0, 1]) 7 0 = 2 ∧ (net.routers 2).tracker.hourly 7 0 = 1 := by
  have hrun : ((([.record 0 7 0, .record 1 7 0, .emit 0 5 [(7, ⟨0, 0, 1, 1⟩)],
      .emit 1 6 [(7, ⟨0, 0, 1, 1⟩)], .deliver 2 0, .deliver 2 1] :
      List (GossipEvent (Fin 3))).foldlM GossipNet.next (GossipNet.start fun _ => 16)).any fun net =>
        net.published.Nodup ∧ net.delivered 2 = [0, 1] ∧ net.absorbed 2 = [0] ∧
        hourlyIn (ticksOf net [0, 1]) 7 0 = 2 ∧ (net.routers 2).tracker.hourly 7 0 = 1) = true := by
    decide
  obtain ⟨net, hnet, hfacts⟩ := (Option.any_eq_true _ _).mp hrun
  exact ⟨_, net, steps_of_foldlM hnet, of_decide_eq_true hfacts⟩

end Arknet.Laws
