import Arknet.Node.Correlation
import Arknet.Lib.Runs

/-!
Responses and their requesters. The call that holds the receiver drops what it reads of others, so a
response reaches its call exactly when no holder meets it on the way to its own
(`responses_delivered`).
-/

namespace Arknet.Laws

open Arknet.Network Arknet.Node

/-- The exchange with what was sent, what arrived, what arrived before its call returned, and who read
what. -/
structure ExchangeRun (ε : Type) where
  exchange : Exchange ε
  sent : List RequestId
  arrived : List RequestId
  inTime : List InferenceResponseEvent
  consumed : List (RequestId × InferenceResponseEvent)

section

variable {ε : Type}

namespace ExchangeRun

def start : ExchangeRun ε := ⟨.start, [], [], [], []⟩

def queue (w : ExchangeRun ε) : List InferenceResponseEvent := w.exchange.channel.queue

/-- The logs next to `Exchange.next`. -/
def log (w : ExchangeRun ε) : Move → ExchangeRun ε
  | .send id => { w with sent := id :: w.sent }
  | .arrive ev => { w with
      arrived := ev.requestId :: w.arrived
      inTime := if w.exchange.Active ev.requestId then ev :: w.inTime else w.inTime }
  | .read =>
    match w.exchange.holder, w.exchange.channel.recv with
    | some id, some (ev, _) => { w with consumed := (id, ev) :: w.consumed }
    | _, _ => w
  | _ => w

/-- Outbound ids are fresh, and a request has one response. -/
def Contract (w : ExchangeRun ε) : Move → Prop
  | .send id => id ∉ w.sent
  | .arrive ev => ev.requestId ∈ w.sent ∧ ev.requestId ∉ w.arrived
  | _ => True

def Moves (F : Failures ε) (w : ExchangeRun ε) (m : Move) (w' : ExchangeRun ε) : Prop :=
  w.Contract m ∧ ∃ s, w.exchange.next F m = some s ∧ w' = { w.log m with exchange := s }

end ExchangeRun

/-- A response that arrived before its call returned is what its call returned, and nobody else read
it. -/
def Delivered (w : ExchangeRun ε) : Prop :=
  ∀ ev ∈ w.inTime, (ev.requestId, .ok ev) ∈ w.exchange.results ∧
    ∀ id, (id, ev) ∈ w.consumed → id = ev.requestId

/-- The requests answered ahead of `id` in a queue. -/
def ahead (id : RequestId) (queue : List InferenceResponseEvent) : List RequestId :=
  (queue.map (·.requestId)).takeWhile (· ≠ id)

/-- Nobody takes the lock behind the response of a call that waits for it; a response of a call that
waits does not arrive before the holder's own, and one of a call that has not returned finds room. -/
def Orderly (w : ExchangeRun ε) : Move → Prop
  | .lock id => ∀ x ∈ ahead id w.queue, x ∉ w.exchange.waiting
  | .arrive ev =>
    (w.exchange.Active ev.requestId → w.queue.length < RESPONSE_BUFFER) ∧
    (ev.requestId ∈ w.exchange.waiting →
      ∀ id, w.exchange.holder = some id → id ∈ w.queue.map (·.requestId))
  | _ => True

/-- The moves of the calls themselves. -/
def internal : Move → Bool
  | .lock _ | .read | .lapse | .close => true
  | .send _ | .arrive _ => false

def isSend : Move → Bool
  | .send _ => true
  | _ => false

def isArrive : Move → Bool
  | .arrive _ => true
  | _ => false

/-! ## The front of the queue -/

section

variable {id x : RequestId} {ev : InferenceResponseEvent} {queue rest : List InferenceResponseEvent}

theorem ahead_cons_own (h : ev.requestId = id) : ahead id (ev :: queue) = [] := by
  simp [ahead, h]

theorem ahead_cons_other (h : ev.requestId ≠ id) :
    ahead id (ev :: queue) = ev.requestId :: ahead id queue := by
  simp [ahead, h]

theorem mem_of_mem_ahead (h : x ∈ ahead id queue) : ∃ ev ∈ queue, ev.requestId = x := by
  have hmem : x ∈ queue.map (·.requestId) := (List.takeWhile_sublist _).mem h
  exact List.mem_map.mp hmem

theorem mem_ahead_append (h : x ∈ ahead id queue) : x ∈ ahead id (queue ++ rest) := by
  induction queue with
  | nil => simp [ahead] at h
  | cons e queue ih =>
    by_cases he : e.requestId = id
    · rw [ahead_cons_own he] at h
      cases h
    · rw [ahead_cons_other he] at h
      rw [List.cons_append, ahead_cons_other he]
      rcases List.mem_cons.mp h with rfl | h
      · exact List.mem_cons_self ..
      · exact .tail _ (ih h)

/-- Behind the holder's own response nothing is ahead of it any more. -/
theorem ahead_append (h : id ∈ queue.map (·.requestId)) : ahead id (queue ++ rest) = ahead id queue := by
  induction queue with
  | nil => cases h
  | cons e queue ih =>
    by_cases he : e.requestId = id
    · rw [List.cons_append, ahead_cons_own he, ahead_cons_own he]
    · have htail : id ∈ queue.map (·.requestId) := by
        rcases List.mem_cons.mp h with heq | htail
        · exact absurd heq.symm he
        · exact htail
      rw [List.cons_append, ahead_cons_other he, ahead_cons_other he, ih htail]

theorem ahead_all (h : id ∉ queue.map (·.requestId)) : ahead id queue = queue.map (·.requestId) := by
  induction queue with
  | nil => rfl
  | cons e queue ih =>
    rw [List.map_cons, List.mem_cons, not_or] at h
    rw [ahead_cons_other (Ne.symm h.1), ih h.2, List.map_cons]

end

/-! ## One move -/

section

variable {F : Failures ε} {w w' : ExchangeRun ε} {m : Move}

/-- What a move does. -/
inductive Turn (w : ExchangeRun ε) : Move → ExchangeRun ε → Prop where
  | send {id : RequestId} (hfresh : id ∉ w.sent) : Turn w (.send id) { w with
      sent := id :: w.sent
      exchange := { w.exchange with waiting := w.exchange.waiting ++ [id] } }
  | queued {ev : InferenceResponseEvent} {channel : Channel InferenceResponseEvent RESPONSE_BUFFER}
      (hsent : ev.requestId ∈ w.sent) (hfresh : ev.requestId ∉ w.arrived)
      (hroom : w.queue.length < RESPONSE_BUFFER) (hqueue : channel.queue = w.queue ++ [ev]) :
      Turn w (.arrive ev) { w with
        arrived := ev.requestId :: w.arrived
        inTime := if w.exchange.Active ev.requestId then ev :: w.inTime else w.inTime
        exchange := { w.exchange with channel := channel } }
  | dropped {ev : InferenceResponseEvent} (hsent : ev.requestId ∈ w.sent)
      (hfresh : ev.requestId ∉ w.arrived) (hfull : ¬ w.queue.length < RESPONSE_BUFFER) :
      Turn w (.arrive ev) { w with
        arrived := ev.requestId :: w.arrived
        inTime := if w.exchange.Active ev.requestId then ev :: w.inTime else w.inTime }
  | lock {id : RequestId} (hfree : w.exchange.holder = none) (hid : id ∈ w.exchange.waiting) :
      Turn w (.lock id) { w with exchange := { w.exchange with
        waiting := w.exchange.waiting.filter (· ≠ id), holder := some id } }
  | own {ev : InferenceResponseEvent} {channel : Channel InferenceResponseEvent RESPONSE_BUFFER}
      (hholder : w.exchange.holder = some ev.requestId) (hqueue : w.queue = ev :: channel.queue) :
      Turn w .read { w with
        consumed := (ev.requestId, ev) :: w.consumed
        exchange := { w.exchange with holder := none, channel := channel,
                                      results := w.exchange.results ++ [(ev.requestId, .ok ev)] } }
  | other {id : RequestId} {ev : InferenceResponseEvent}
      {channel : Channel InferenceResponseEvent RESPONSE_BUFFER} (hholder : w.exchange.holder = some id)
      (hqueue : w.queue = ev :: channel.queue) (hother : ev.requestId ≠ id) :
      Turn w .read { w with
        consumed := (id, ev) :: w.consumed
        exchange := { w.exchange with channel := channel } }
  | gaveUp {m : Move} {id : RequestId} {e : ε} (hm : m = .lapse ∨ m = .close)
      (hholder : w.exchange.holder = some id) (hempty : w.queue = []) :
      Turn w m { w with exchange := { w.exchange with
        holder := none, results := w.exchange.results ++ [(id, .error e)] } }

theorem moves_turn (h : w.Moves F m w') : Turn w m w' := by
  obtain ⟨hcontract, s, hs, rfl⟩ := h
  cases m with
  | send id =>
    cases hs
    exact .send hcontract
  | arrive ev =>
    cases hs
    cases htry : w.exchange.channel.trySend ev with
    | none =>
      have hfull := Channel.trySend_eq_none.mp htry
      exact .dropped hcontract.1 hcontract.2 (Nat.not_lt_of_ge (Nat.le_of_eq hfull.symm))
    | some channel =>
      obtain ⟨hroom, hqueue⟩ := Channel.trySend_eq_some.mp htry
      exact .queued hcontract.1 hcontract.2 hroom hqueue
  | lock id =>
    simp only [Exchange.next] at hs
    split at hs
    · rename_i h
      cases hs
      exact .lock h.1 h.2
    · cases hs
  | read =>
    simp only [Exchange.next] at hs
    split at hs
    · rename_i id ev channel hholder hrecv
      have hqueue : w.queue = ev :: channel.queue := Channel.recv_eq_some.mp hrecv
      cases hs
      simp only [ExchangeRun.log, hholder, hrecv, Exchange.heard, Failures.hear]
      by_cases hown : ev.requestId = id
      · subst hown
        rw [if_pos rfl]
        exact .own hholder hqueue
      · simp only [if_neg hown, ← hholder]
        exact .other hholder hqueue hown
    · cases hs
  | lapse =>
    simp only [Exchange.next] at hs
    split at hs
    · rename_i id hholder hrecv
      cases hs
      exact .gaveUp (.inl rfl) hholder (Channel.recv_eq_none.mp hrecv)
    · cases hs
  | close =>
    simp only [Exchange.next] at hs
    split at hs
    · rename_i id hholder hrecv
      cases hs
      exact .gaveUp (.inr rfl) hholder (Channel.recv_eq_none.mp hrecv)
    · cases hs

theorem moves_deterministic : Runs.Deterministic (ExchangeRun.Moves F) := by
  rintro u m u₁ u₂ ⟨-, s₁, h₁, rfl⟩ ⟨-, s₂, h₂, rfl⟩
  rw [h₁] at h₂
  cases h₂
  rfl

end

/-! ## What holds in every run -/

/-- Ids are fresh, a queued response is in time exactly while its call has not returned, and what was
returned is off the queue. -/
structure Tidy (w : ExchangeRun ε) : Prop where
  nodup : (w.queue.map (·.requestId)).Nodup
  queued : ∀ ev ∈ w.queue, ev.requestId ∈ w.arrived
  arrived : ∀ id ∈ w.arrived, id ∈ w.sent
  active : ∀ id, w.exchange.Active id → id ∈ w.sent
  alone : ∀ id, w.exchange.holder = some id → id ∉ w.exchange.waiting
  inTime : ∀ ev ∈ w.inTime, ev.requestId ∈ w.arrived
  consumed : ∀ id ev, (id, ev) ∈ w.consumed → ev.requestId ∈ w.arrived
  current : ∀ ev ∈ w.queue, (ev ∈ w.inTime ↔ w.exchange.Active ev.requestId)
  returned : ∀ id ev, (id, .ok ev) ∈ w.exchange.results → ev.requestId ∈ w.arrived ∧ ev ∉ w.queue

section

variable {F : Failures ε} {w w' : ExchangeRun ε} {m : Move} {id : RequestId}
  {ev : InferenceResponseEvent} {channel : Channel InferenceResponseEvent RESPONSE_BUFFER}

theorem tidy_start : Tidy (ExchangeRun.start : ExchangeRun ε) where
  nodup := List.nodup_nil
  queued := by simp [ExchangeRun.queue, ExchangeRun.start, Exchange.start]
  arrived := by simp [ExchangeRun.start]
  active := by simp [ExchangeRun.start, Exchange.start, Exchange.Active]
  alone := by simp [ExchangeRun.start, Exchange.start]
  inTime := by simp [ExchangeRun.start]
  consumed := by simp [ExchangeRun.start]
  current := by simp [ExchangeRun.queue, ExchangeRun.start, Exchange.start]
  returned := by simp [ExchangeRun.start, Exchange.start]

/-- A response that was not yet answered is not among those in time. -/
theorem Tidy.inTime_fresh (h : Tidy w) (hfresh : ev.requestId ∉ w.arrived) : ev ∉ w.inTime :=
  fun hev => hfresh (h.inTime ev hev)

/-- What is logged as in time when a response arrives. -/
theorem mem_inTime_arrive {x : InferenceResponseEvent} :
    x ∈ (if w.exchange.Active ev.requestId then ev :: w.inTime else w.inTime) ↔
      (x = ev ∧ w.exchange.Active ev.requestId) ∨ x ∈ w.inTime := by
  split
  · rename_i h
    simp [h]
  · rename_i h
    simp [h]

/-- The requests behind the head of the queue are not the head's. -/
theorem Tidy.ne_head (h : Tidy w) (hqueue : w.queue = ev :: channel.queue) {x : InferenceResponseEvent}
    (hx : x ∈ channel.queue) : x.requestId ≠ ev.requestId := by
  have hnodup := h.nodup
  rw [hqueue, List.map_cons, List.nodup_cons] at hnodup
  exact fun heq => hnodup.1 (heq ▸ List.mem_map_of_mem hx)

theorem Tidy.head_not_mem (h : Tidy w) (hqueue : w.queue = ev :: channel.queue) :
    ev ∉ channel.queue := fun hx => h.ne_head hqueue hx rfl

theorem Tidy.mem_tail (hqueue : w.queue = ev :: channel.queue) {x : InferenceResponseEvent}
    (hx : x ∈ channel.queue) : x ∈ w.queue := hqueue ▸ .tail _ hx

theorem mem_queued (hqueue : channel.queue = w.queue ++ [ev]) {x : InferenceResponseEvent}
    (hx : x ∈ channel.queue) : x ∈ w.queue ∨ x = ev := by
  rw [hqueue, List.mem_append, List.mem_singleton] at hx
  exact hx

theorem Tidy.nodup_tail (h : Tidy w) (hqueue : w.queue = ev :: channel.queue) :
    (channel.queue.map (·.requestId)).Nodup := by
  have hnodup := h.nodup
  rw [hqueue, List.map_cons, List.nodup_cons] at hnodup
  exact hnodup.2

theorem Tidy.head_arrived (h : Tidy w) (hqueue : w.queue = ev :: channel.queue) :
    ev.requestId ∈ w.arrived := h.queued ev (hqueue ▸ List.mem_cons_self ..)

theorem active_lock (hfree : w.exchange.holder = none) (hid : id ∈ w.exchange.waiting) (x : RequestId) :
    x ∈ w.exchange.waiting.filter (· ≠ id) ∨ some id = some x ↔ w.exchange.Active x := by
  unfold Exchange.Active
  rw [hfree]
  simp only [List.mem_filter, Option.some.injEq, reduceCtorEq, or_false]
  constructor
  · rintro (⟨hx, -⟩ | rfl)
    · exact hx
    · exact hid
  · intro hx
    by_cases heq : id = x
    · exact .inr heq
    · exact .inl ⟨hx, by simpa using Ne.symm heq⟩

theorem tidy_turn (h : Tidy w) (turn : Turn w m w') : Tidy w' := by
  cases turn with
  | send hfresh =>
    rename_i id
    refine ⟨h.nodup, h.queued, fun x hx => .tail _ (h.arrived x hx), fun x hx => ?_, fun x hx => ?_,
      h.inTime, h.consumed, fun x hx => ?_, h.returned⟩
    · rcases hx with hx | hx
      · rcases List.mem_append.mp hx with hx | hx
        · exact .tail _ (h.active x (.inl hx))
        · rw [List.mem_singleton.mp hx]
          exact List.mem_cons_self ..
      · exact .tail _ (h.active x (.inr hx))
    · show x ∉ w.exchange.waiting ++ [id]
      rw [List.mem_append, List.mem_singleton, not_or]
      exact ⟨h.alone x hx, fun heq => hfresh (heq ▸ h.active x (.inr hx))⟩
    · have hne : x.requestId ≠ id := fun heq => hfresh (heq ▸ h.arrived _ (h.queued x hx))
      rw [h.current x hx]
      simp [Exchange.Active, hne]
  | queued hsent hfresh hroom hqueue =>
    rename_i ev channel
    have hnew : ev.requestId ∉ w.queue.map (·.requestId) := by
      intro hmem
      obtain ⟨x, hx, heq⟩ := List.mem_map.mp hmem
      exact hfresh (heq ▸ h.queued x hx)
    refine ⟨?_, fun x hx => ?_, fun x hx => ?_, h.active, h.alone, fun x hx => ?_,
      fun id x hx => .tail _ (h.consumed id x hx), fun x hx => ?_, fun id x hx => ?_⟩
    · show (channel.queue.map (·.requestId)).Nodup
      rw [hqueue, List.map_append, List.nodup_append]
      refine ⟨h.nodup, List.nodup_singleton _, fun x hx y hy heq => hnew ?_⟩
      have hy : y = ev.requestId := List.mem_singleton.mp hy
      rw [← hy, ← heq]
      exact hx
    · rcases mem_queued hqueue hx with hx | rfl
      · exact .tail _ (h.queued x hx)
      · exact List.mem_cons_self ..
    · rcases List.mem_cons.mp hx with rfl | hx
      · exact hsent
      · exact h.arrived x hx
    · rcases mem_inTime_arrive.mp hx with ⟨rfl, -⟩ | hx
      · exact List.mem_cons_self ..
      · exact .tail _ (h.inTime x hx)
    · show x ∈ (if w.exchange.Active ev.requestId then ev :: w.inTime else w.inTime) ↔
        w.exchange.Active x.requestId
      rw [mem_inTime_arrive]
      rcases mem_queued hqueue hx with hx | rfl
      · have hne : x ≠ ev := fun heq => hnew (heq ▸ List.mem_map_of_mem hx)
        simp [hne, h.current x hx]
      · simp [h.inTime_fresh hfresh]
    · obtain ⟨harrived, hout⟩ := h.returned id x hx
      refine ⟨.tail _ harrived, fun hmem => ?_⟩
      rcases mem_queued hqueue hmem with hmem | rfl
      · exact hout hmem
      · exact hfresh harrived
  | dropped hsent hfresh hfull =>
    rename_i ev
    refine ⟨h.nodup, fun x hx => .tail _ (h.queued x hx), fun x hx => ?_, h.active, h.alone,
      fun x hx => ?_, fun id x hx => .tail _ (h.consumed id x hx), fun x hx => ?_, fun id x hx => ?_⟩
    · rcases List.mem_cons.mp hx with rfl | hx
      · exact hsent
      · exact h.arrived x hx
    · rcases mem_inTime_arrive.mp hx with ⟨rfl, -⟩ | hx
      · exact List.mem_cons_self ..
      · exact .tail _ (h.inTime x hx)
    · have hne : x ≠ ev := fun heq => hfresh (heq ▸ h.queued x hx)
      rw [mem_inTime_arrive, h.current x hx]
      simp [hne]
    · exact ⟨.tail _ (h.returned id x hx).1, (h.returned id x hx).2⟩
  | lock hfree hid =>
    rename_i id
    refine ⟨h.nodup, h.queued, h.arrived, fun x hx => h.active x ((active_lock hfree hid x).mp hx),
      fun x hx => ?_, h.inTime, h.consumed, fun x hx => ?_, h.returned⟩
    · cases hx
      simp
    · rw [h.current x hx]
      exact (active_lock hfree hid x.requestId).symm
  | own hholder hqueue =>
    rename_i ev channel
    refine ⟨h.nodup_tail hqueue, fun x hx => h.queued x (Tidy.mem_tail hqueue hx), h.arrived,
      fun x hx => h.active x (.inl (hx.resolve_right (by simp))), by simp, h.inTime, fun id x hx => ?_,
      fun x hx => ?_, fun id x hx => ?_⟩
    · rcases List.mem_cons.mp hx with heq | hx
      · cases heq
        exact h.head_arrived hqueue
      · exact h.consumed id x hx
    · have hne : ev.requestId ≠ x.requestId := (h.ne_head hqueue hx).symm
      rw [h.current x (Tidy.mem_tail hqueue hx)]
      simp [Exchange.Active, hholder, hne]
    · rcases List.mem_append.mp hx with hx | hx
      · exact ⟨(h.returned id x hx).1, fun hmem => (h.returned id x hx).2 (Tidy.mem_tail hqueue hmem)⟩
      · cases List.mem_singleton.mp hx
        exact ⟨h.head_arrived hqueue, h.head_not_mem hqueue⟩
  | other hholder hqueue hother =>
    rename_i id ev channel
    refine ⟨h.nodup_tail hqueue, fun x hx => h.queued x (Tidy.mem_tail hqueue hx), h.arrived, h.active,
      h.alone, h.inTime, fun id x hx => ?_, fun x hx => h.current x (Tidy.mem_tail hqueue hx),
      fun id x hx => ?_⟩
    · rcases List.mem_cons.mp hx with heq | hx
      · cases heq
        exact h.head_arrived hqueue
      · exact h.consumed id x hx
    · exact ⟨(h.returned id x hx).1, fun hmem => (h.returned id x hx).2 (Tidy.mem_tail hqueue hmem)⟩
  | gaveUp hm hholder hempty =>
    refine ⟨h.nodup, h.queued, h.arrived, fun x hx => h.active x (.inl (hx.resolve_right (by simp))),
      by simp, h.inTime, h.consumed, fun x hx => ?_, fun id x hx => ?_⟩
    · have hmem : x ∈ w.queue := hx
      rw [hempty] at hmem
      cases hmem
    · rcases List.mem_append.mp hx with hx | hx
      · exact h.returned id x hx
      · cases List.mem_singleton.mp hx

theorem steps_tidy {hist : List Move} (run : Runs.Steps (ExchangeRun.Moves F) .start hist w) : Tidy w :=
  run.invariant Tidy tidy_start (fun _ _ _ h hstep => tidy_turn h (moves_turn hstep))

/-! ## Orderly and disorderly moves -/

/-- Nothing in time is lost, the holder meets no response of a call that waits, and nobody read what
was another's. -/
structure Clean (w : ExchangeRun ε) : Prop where
  kept : ∀ ev ∈ w.inTime, ev ∈ w.queue ∨ (ev.requestId, .ok ev) ∈ w.exchange.results
  first : ∀ id, w.exchange.holder = some id → ∀ x ∈ ahead id w.queue, x ∉ w.exchange.waiting
  reader : ∀ id ev, (id, ev) ∈ w.consumed → ev ∈ w.inTime → id = ev.requestId

/-- A response in time was not returned, and is gone or ahead of the holder's own. -/
def Flawed (w : ExchangeRun ε) : Prop :=
  ∃ ev ∈ w.inTime, (ev.requestId, .ok ev) ∉ w.exchange.results ∧
    (ev ∉ w.queue ∨ ∃ id, w.exchange.holder = some id ∧ ev.requestId ∈ ahead id w.queue)

theorem clean_start : Clean (ExchangeRun.start : ExchangeRun ε) where
  kept := by simp [ExchangeRun.start]
  first := by simp [ExchangeRun.start, Exchange.start]
  reader := by simp [ExchangeRun.start]

theorem clean_turn (h : Tidy w) (hclean : Clean w) (turn : Turn w m w') (horderly : Orderly w m) :
    Clean w' := by
  cases turn with
  | send hfresh =>
    rename_i id
    refine ⟨hclean.kept, fun c hc x hx => ?_, hclean.reader⟩
    show x ∉ w.exchange.waiting ++ [id]
    rw [List.mem_append, List.mem_singleton, not_or]
    refine ⟨hclean.first c hc x hx, ?_⟩
    rintro rfl
    obtain ⟨ev, hev, rfl⟩ := mem_of_mem_ahead hx
    exact hfresh (h.arrived _ (h.queued ev hev))
  | queued hsent hfresh hroom hqueue =>
    rename_i ev channel
    refine ⟨fun x hx => ?_, fun c hc x hx => ?_, fun c x hx hin => ?_⟩
    · show x ∈ channel.queue ∨ _
      rw [hqueue, List.mem_append, List.mem_singleton]
      rcases mem_inTime_arrive.mp hx with ⟨rfl, -⟩ | hx
      · exact .inl (.inr rfl)
      · exact (hclean.kept x hx).imp_left .inl
    · have hx : x ∈ ahead c (w.queue ++ [ev]) := hqueue ▸ hx
      by_cases hown : c ∈ w.queue.map (·.requestId)
      · rw [ahead_append hown] at hx
        exact hclean.first c hc x hx
      · obtain ⟨y, hy, rfl⟩ := mem_of_mem_ahead hx
        rcases List.mem_append.mp hy with hy | hy
        · refine hclean.first c hc _ ?_
          rw [ahead_all hown]
          exact List.mem_map_of_mem hy
        · -- the holder's own response is not queued, so the new one's call does not wait
          rw [List.mem_singleton.mp hy]
          exact fun hwaits => hown (horderly.2 hwaits c hc)
    · rcases mem_inTime_arrive.mp hin with ⟨rfl, -⟩ | hin
      · exact absurd (h.consumed c x hx) hfresh
      · exact hclean.reader c x hx hin
  | dropped hsent hfresh hfull =>
    rename_i ev
    have hidle : ¬ w.exchange.Active ev.requestId := fun hactive => hfull (horderly.1 hactive)
    refine ⟨fun x hx => ?_, hclean.first, fun c x hx hin => ?_⟩
    · rcases mem_inTime_arrive.mp hx with ⟨-, hactive⟩ | hx
      · exact absurd hactive hidle
      · exact hclean.kept x hx
    · rcases mem_inTime_arrive.mp hin with ⟨-, hactive⟩ | hin
      · exact absurd hactive hidle
      · exact hclean.reader c x hx hin
  | lock hfree hid =>
    refine ⟨hclean.kept, fun c hc x hx => ?_, hclean.reader⟩
    cases hc
    exact fun hmem => horderly x hx (List.mem_of_mem_filter hmem)
  | own hholder hqueue =>
    rename_i ev channel
    refine ⟨fun x hx => ?_, by simp, fun c x hx hin => ?_⟩
    · show x ∈ channel.queue ∨ _ ∈ w.exchange.results ++ [_]
      rw [List.mem_append, List.mem_singleton]
      rcases hclean.kept x hx with hmem | hmem
      · rw [hqueue] at hmem
        rcases List.mem_cons.mp hmem with rfl | hmem
        · exact .inr (.inr rfl)
        · exact .inl hmem
      · exact .inr (.inl hmem)
    · rcases List.mem_cons.mp hx with heq | hx
      · cases heq
        rfl
      · exact hclean.reader c x hx hin
  | other hholder hqueue hother =>
    rename_i id ev channel
    have hahead : ahead id w.queue = ev.requestId :: ahead id channel.queue := by
      rw [hqueue, ahead_cons_other hother]
    -- the head belongs to a call that has returned
    have hlate : ev ∉ w.inTime := by
      intro hin
      rcases (h.current ev (hqueue ▸ List.mem_cons_self ..)).mp hin with hwaits | hholds
      · exact hclean.first id hholder ev.requestId (hahead ▸ List.mem_cons_self ..) hwaits
      · rw [hholder] at hholds
        exact hother (Option.some.inj hholds).symm
    refine ⟨fun x hx => ?_, fun c hc x hx => ?_, fun c x hx hin => ?_⟩
    · rcases hclean.kept x hx with hmem | hmem
      · rw [hqueue] at hmem
        rcases List.mem_cons.mp hmem with rfl | hmem
        · exact absurd hx hlate
        · exact .inl hmem
      · exact .inr hmem
    · have heq : c = id := Option.some.inj (hc.symm.trans hholder)
      subst heq
      exact hclean.first c hholder x (hahead ▸ .tail _ hx)
    · rcases List.mem_cons.mp hx with heq | hx
      · cases heq
        exact absurd hin hlate
      · exact hclean.reader c x hx hin
  | gaveUp hm hholder hempty =>
    refine ⟨fun x hx => ?_, by simp, hclean.reader⟩
    rcases hclean.kept x hx with hmem | hmem
    · exact .inl hmem
    · exact .inr (List.mem_append_left _ hmem)

/-- A disorderly move loses a response, or puts it where the holder will drop it. -/
theorem flawed_turn (h : Tidy w) (turn : Turn w m w') (horderly : ¬ Orderly w m) : Flawed w' := by
  cases turn with
  | send hfresh => exact absurd trivial horderly
  | queued hsent hfresh hroom hqueue =>
    rename_i ev channel
    simp only [Orderly, not_and_or, not_forall] at horderly
    rcases horderly with ⟨-, hfull⟩ | ⟨hwaits, id, hholder, hown⟩
    · exact absurd hroom hfull
    · refine ⟨ev, mem_inTime_arrive.mpr (.inl ⟨rfl, .inl hwaits⟩), fun hmem => ?_,
        .inr ⟨id, hholder, ?_⟩⟩
      · exact hfresh (h.returned _ ev hmem).1
      · show ev.requestId ∈ ahead id channel.queue
        have hne : ev.requestId ≠ id := fun heq => h.alone id hholder (heq ▸ hwaits)
        have hout : id ∉ (w.queue ++ [ev]).map (·.requestId) := by
          rw [List.map_append, List.mem_append, not_or]
          exact ⟨hown, by simpa using hne.symm⟩
        rw [hqueue, ahead_all hout]
        simp
  | dropped hsent hfresh hfull =>
    rename_i ev
    simp only [Orderly, not_and_or, not_forall] at horderly
    have hactive : w.exchange.Active ev.requestId := by
      rcases horderly with ⟨hactive, -⟩ | ⟨hwaits, -⟩
      · exact hactive
      · exact .inl hwaits
    refine ⟨ev, mem_inTime_arrive.mpr (.inl ⟨rfl, hactive⟩), fun hmem => ?_, .inl fun hmem => ?_⟩
    · exact hfresh (h.returned _ ev hmem).1
    · exact hfresh (h.queued ev hmem)
  | lock hfree hid =>
    rename_i id
    simp only [Orderly, not_forall, not_not] at horderly
    obtain ⟨x, hx, hwaits⟩ := horderly
    obtain ⟨ev, hev, rfl⟩ := mem_of_mem_ahead hx
    exact ⟨ev, (h.current ev hev).mpr (.inl hwaits), fun hmem => (h.returned _ ev hmem).2 hev,
      .inr ⟨id, rfl, hx⟩⟩
  | own hholder hqueue => exact absurd trivial horderly
  | other hholder hqueue hother => exact absurd trivial horderly
  | gaveUp hm hholder hempty =>
    rcases hm with rfl | rfl <;> exact absurd trivial horderly

/-- A response lost stays lost, and one that the holder meets is dropped before its own is read. -/
theorem flawed_stays (h : Tidy w) (hflawed : Flawed w) (turn : Turn w m w') : Flawed w' := by
  obtain ⟨ev, hin, hout, hlost⟩ := hflawed
  cases turn with
  | send hfresh => exact ⟨ev, hin, hout, hlost⟩
  | queued hsent hfresh hroom hqueue =>
    rename_i x channel
    refine ⟨ev, mem_inTime_arrive.mpr (.inr hin), hout, hlost.imp (fun hgone hmem => ?_) ?_⟩
    · rcases mem_queued hqueue hmem with hmem | rfl
      · exact hgone hmem
      · exact h.inTime_fresh hfresh hin
    · rintro ⟨id, hholder, hahead⟩
      refine ⟨id, hholder, ?_⟩
      show ev.requestId ∈ ahead id channel.queue
      rw [hqueue]
      exact mem_ahead_append hahead
  | dropped hsent hfresh hfull => exact ⟨ev, mem_inTime_arrive.mpr (.inr hin), hout, hlost⟩
  | lock hfree hid =>
    rcases hlost with hgone | ⟨id, hholder, -⟩
    · exact ⟨ev, hin, hout, .inl hgone⟩
    · rw [hfree] at hholder
      cases hholder
  | own hholder hqueue =>
    rename_i x channel
    rcases hlost with hgone | ⟨id, hid, hahead⟩
    · refine ⟨ev, hin, fun hmem => ?_, .inl fun hmem => hgone (Tidy.mem_tail hqueue hmem)⟩
      rcases List.mem_append.mp hmem with hmem | hmem
      · exact hout hmem
      · have heq : ev = x := Except.ok.inj (Prod.mk.inj (List.mem_singleton.mp hmem)).2
        rw [heq] at hgone
        exact hgone (hqueue ▸ List.mem_cons_self ..)
    · have heq : x.requestId = id := Option.some.inj (hholder.symm.trans hid)
      rw [hqueue, ahead_cons_own heq] at hahead
      cases hahead
  | other hholder hqueue hother =>
    rename_i id x channel
    refine ⟨ev, hin, hout, ?_⟩
    rcases hlost with hgone | ⟨c, hc, hahead⟩
    · exact .inl fun hmem => hgone (Tidy.mem_tail hqueue hmem)
    · have heq : c = id := Option.some.inj (hc.symm.trans hholder)
      subst heq
      rw [hqueue, ahead_cons_other hother] at hahead
      rcases List.mem_cons.mp hahead with heq | hahead
      · -- the holder drops it
        exact .inl fun hmem => h.ne_head hqueue hmem heq
      · exact .inr ⟨c, hholder, hahead⟩
  | gaveUp hm hholder hempty =>
    rcases hlost with hgone | ⟨id, hid, hahead⟩
    · refine ⟨ev, hin, fun hmem => ?_, .inl hgone⟩
      rcases List.mem_append.mp hmem with hmem | hmem
      · exact hout hmem
      · cases List.mem_singleton.mp hmem
    · rw [hempty] at hahead
      cases hahead

/-! ## Where a run leads -/

theorem Clean.delivered (h : Tidy w) (hclean : Clean w) (hended : w.exchange.Ended) : Delivered w := by
  intro ev hin
  refine ⟨(hclean.kept ev hin).resolve_left fun hmem => ?_, fun id hmem => hclean.reader id ev hmem hin⟩
  rcases (h.current ev hmem).mp hin with hwaits | hholds
  · rw [hended.1] at hwaits
    cases hwaits
  · rw [hended.2] at hholds
    cases hholds

theorem Flawed.not_delivered (hflawed : Flawed w) : ¬ Delivered w := by
  obtain ⟨ev, hin, hout, -⟩ := hflawed
  exact fun h => hout (h ev hin).1

/-- Until the calls have all returned, one of them can go on. -/
theorem exists_internal (h : ¬ w.exchange.Ended) : ∃ m w', internal m = true ∧ w.Moves F m w' := by
  cases hholder : w.exchange.holder with
  | some id =>
    cases hrecv : w.exchange.channel.recv with
    | some p =>
      have hnext : w.exchange.next F .read = some (w.exchange.heard F id p.2 (.event p.1)) := by
        simp only [Exchange.next, hholder, hrecv]
      exact ⟨.read, _, rfl, trivial, _, hnext, rfl⟩
    | none =>
      have hnext : w.exchange.next F .lapse = some (w.exchange.heard F id w.exchange.channel .elapsed) := by
        simp only [Exchange.next, hholder, hrecv]
      exact ⟨.lapse, _, rfl, trivial, _, hnext, rfl⟩
  | none =>
    cases hwaiting : w.exchange.waiting with
    | nil => exact absurd ⟨hwaiting, hholder⟩ h
    | cons id rest =>
      have hnext : w.exchange.next F (.lock id) = some { w.exchange with
          waiting := w.exchange.waiting.filter (· ≠ id), holder := some id } :=
        if_pos ⟨hholder, hwaiting ▸ List.mem_cons_self ..⟩
      exact ⟨.lock id, _, rfl, trivial, _, hnext, rfl⟩

/-- What the calls still have to do. -/
def remaining (w : ExchangeRun ε) : Nat :=
  2 * w.exchange.waiting.length + (if w.exchange.holder.isSome then 1 else 0) + w.queue.length

theorem remaining_turn (turn : Turn w m w') : remaining w' + (if internal m then 1 else 0) ≤
    remaining w + (if isSend m then 2 else 0) + (if isArrive m then 1 else 0) := by
  cases turn with
  | send hfresh => simp [remaining, internal, isSend, isArrive, ExchangeRun.queue]; omega
  | queued hsent hfresh hroom hqueue =>
    simp only [ExchangeRun.queue] at hqueue
    simp [remaining, internal, isSend, isArrive, ExchangeRun.queue, hqueue]
    omega
  | dropped hsent hfresh hfull => simp [remaining, internal, isSend, isArrive, ExchangeRun.queue]
  | lock hfree hid =>
    rename_i id
    have hlt : (w.exchange.waiting.filter (· ≠ id)).length < w.exchange.waiting.length :=
      List.length_filter_lt_length_iff_exists.mpr ⟨id, hid, by simp⟩
    simp only [remaining, internal, isSend, isArrive, ExchangeRun.queue, hfree]
    simp only [Option.isSome_some, Option.isSome_none, if_true, Bool.false_eq_true, if_false]
    omega
  | own hholder hqueue =>
    simp only [ExchangeRun.queue] at hqueue
    simp [remaining, internal, isSend, isArrive, ExchangeRun.queue, hqueue, hholder]
    omega
  | other hholder hqueue hother =>
    simp only [ExchangeRun.queue] at hqueue
    simp [remaining, internal, isSend, isArrive, ExchangeRun.queue, hqueue, hholder]
  | gaveUp hm hholder hempty =>
    rcases hm with rfl | rfl <;>
      simp [remaining, internal, isSend, isArrive, ExchangeRun.queue, hholder]

/-- The calls make at most two moves for each request and one for each response. -/
theorem internal_bounded {hist : List Move} (run : Runs.Steps (ExchangeRun.Moves F) .start hist w) :
    hist.countP internal + remaining w ≤ 2 * hist.countP isSend + hist.countP isArrive := by
  induction run with
  | nil => simp [remaining, ExchangeRun.start, Exchange.start, ExchangeRun.queue]
  | snoc run last ih =>
    have hturn := remaining_turn (moves_turn last)
    simp only [List.countP_append, List.countP_singleton]
    split at hturn <;> split at hturn <;> split at hturn <;> simp_all <;> omega

end

/-- Until every call has returned one of them can move on, and they make at most two moves for each
request and one for each response. Once they have returned, every response that came in time is with
its call, and was read by nobody else, exactly when every move of the run was orderly. -/
theorem responses_delivered {F : Failures ε} {w : ExchangeRun ε} {hist : List Move}
    (run : Runs.Steps (ExchangeRun.Moves F) .start hist w) :
    (¬ w.exchange.Ended → ∃ m w', internal m = true ∧ w.Moves F m w') ∧
    hist.countP internal ≤ 2 * hist.countP isSend + hist.countP isArrive ∧
    (w.exchange.Ended →
      (Delivered w ↔ Runs.Along (ExchangeRun.Moves F) .start Orderly hist)) := by
  refine ⟨exists_internal, ?_, fun hended => ?_⟩
  · have hbound := internal_bounded run
    omega
  · have hcases := run.clean_or_flawed (I := Tidy) (C := Orderly) moves_deterministic
      (fun _ _ h => steps_tidy h) clean_start
      (fun _ _ _ h hclean hstep horderly => clean_turn h hclean (moves_turn hstep) horderly)
      (fun _ _ _ h hstep hnot => flawed_turn h (moves_turn hstep) hnot)
      (fun _ _ _ h hflawed hstep => flawed_stays h hflawed (moves_turn hstep))
    rcases hcases with ⟨halong, hclean⟩ | ⟨hnot, hflawed⟩
    · exact iff_of_true (hclean.delivered (steps_tidy run) hended) halong
    · exact iff_of_false hflawed.not_delivered hnot

/-- A move that is possible. -/
def ExchangeRun.after (F : Failures ε) (w : ExchangeRun ε) (m : Move) : ExchangeRun ε :=
  { w.log m with exchange := (w.exchange.next F m).getD w.exchange }

/-- Where moves that are possible lead. -/
def ExchangeRun.reached (F : Failures ε) (hist : List Move) : ExchangeRun ε :=
  hist.foldl (ExchangeRun.after F) .start

theorem moves_after {F : Failures ε} {w : ExchangeRun ε} {m : Move} (hcontract : w.Contract m)
    (hnext : (w.exchange.next F m).isSome = true) : w.Moves F m (w.after F m) := by
  obtain ⟨s, hs⟩ := Option.isSome_iff_exists.mp hnext
  refine ⟨hcontract, s, hs, ?_⟩
  rw [ExchangeRun.after, hs, Option.getD_some]

end

/-- The response to a request, from a peer without a name. -/
def answerTo (id : RequestId) : InferenceResponseEvent := ⟨id, [], .ok []⟩

/-- Two calls whose responses come in the order in which the calls take the lock. -/
def inOrder : List Move :=
  [.send 0, .send 1, .lock 0, .arrive (answerTo 0), .arrive (answerTo 1), .read, .lock 1, .read]

theorem responses_delivered_in_order : ∃ w, Runs.Steps (ExchangeRun.Moves sdkFailures) .start inOrder w ∧
    w.exchange.Ended ∧ Delivered w := by
  let w (n : Nat) := ExchangeRun.reached sdkFailures (inOrder.take n)
  have h0 : (w 0).Moves sdkFailures (.send 0) (w 1) := moves_after (show 0 ∉ [] by decide) (by rfl)
  have h1 : (w 1).Moves sdkFailures (.send 1) (w 2) := moves_after (show 1 ∉ [0] by decide) (by rfl)
  have h2 : (w 2).Moves sdkFailures (.lock 0) (w 3) := moves_after trivial (by rfl)
  have h3 : (w 3).Moves sdkFailures (.arrive (answerTo 0)) (w 4) :=
    moves_after (show 0 ∈ [1, 0] ∧ 0 ∉ [] by decide) (by rfl)
  have h4 : (w 4).Moves sdkFailures (.arrive (answerTo 1)) (w 5) :=
    moves_after (show 1 ∈ [1, 0] ∧ 1 ∉ [0] by decide) (by rfl)
  have h5 : (w 5).Moves sdkFailures .read (w 6) := moves_after trivial (by rfl)
  have h6 : (w 6).Moves sdkFailures (.lock 1) (w 7) := moves_after trivial (by rfl)
  have h7 : (w 7).Moves sdkFailures .read (w 8) := moves_after trivial (by rfl)
  have run : Runs.Steps (ExchangeRun.Moves sdkFailures) .start inOrder (w 8) :=
    .cons h0 (.cons h1 (.cons h2 (.cons h3 (.cons h4 (.cons h5 (.cons h6 (.cons h7 .nil)))))))
  have hended : (w 8).exchange.Ended := ⟨by rfl, by rfl⟩
  refine ⟨w 8, run, hended, ((responses_delivered run).2.2 hended).mpr ?_⟩
  have det := moves_deterministic (F := sdkFailures)
  refine Runs.along_cons det h0 trivial (Runs.along_cons det h1 trivial (Runs.along_cons det h2 ?_
    (Runs.along_cons det h3 ?_ (Runs.along_cons det h4 ?_ (Runs.along_cons det h5 trivial
    (Runs.along_cons det h6 ?_ (Runs.along_cons det h7 trivial Runs.along_nil)))))))
  · show ∀ x ∈ ([] : List RequestId), x ∉ _
    simp
  · refine ⟨fun _ => ?_, fun h => ?_⟩
    · show 0 < RESPONSE_BUFFER
      decide
    · have h : 0 ∈ [1] := h
      simp at h
  · refine ⟨fun _ => ?_, fun _ id hid => ?_⟩
    · show 1 < RESPONSE_BUFFER
      decide
    · have hid : some 0 = some id := hid
      cases hid
      show 0 ∈ [0]
      decide
  · show ∀ x ∈ ([] : List RequestId), x ∉ _
    simp

/-- The second call's response comes while the first holds the receiver. -/
def outOfOrder : List Move :=
  [.send 0, .send 1, .lock 0, .arrive (answerTo 1), .read, .lapse, .lock 1, .lapse]

theorem response_dropped : ∃ hist w, Runs.Steps (ExchangeRun.Moves dispatcherFailures) .start hist w ∧
    w.exchange.Ended ∧ ¬ Delivered w := by
  let w (n : Nat) := ExchangeRun.reached dispatcherFailures (outOfOrder.take n)
  have h0 : (w 0).Moves dispatcherFailures (.send 0) (w 1) := moves_after (show 0 ∉ [] by decide) (by rfl)
  have h1 : (w 1).Moves dispatcherFailures (.send 1) (w 2) := moves_after (show 1 ∉ [0] by decide) (by rfl)
  have h2 : (w 2).Moves dispatcherFailures (.lock 0) (w 3) := moves_after trivial (by rfl)
  have h3 : (w 3).Moves dispatcherFailures (.arrive (answerTo 1)) (w 4) :=
    moves_after (show 1 ∈ [1, 0] ∧ 1 ∉ [] by decide) (by rfl)
  have h4 : (w 4).Moves dispatcherFailures .read (w 5) := moves_after trivial (by rfl)
  have h5 : (w 5).Moves dispatcherFailures .lapse (w 6) := moves_after trivial (by rfl)
  have h6 : (w 6).Moves dispatcherFailures (.lock 1) (w 7) := moves_after trivial (by rfl)
  have h7 : (w 7).Moves dispatcherFailures .lapse (w 8) := moves_after trivial (by rfl)
  refine ⟨outOfOrder, w 8, .cons h0 (.cons h1 (.cons h2 (.cons h3 (.cons h4 (.cons h5 (.cons h6 (.cons h7
    .nil))))))), ⟨by rfl, by rfl⟩, fun h => ?_⟩
  have hmem : (0, answerTo 1) ∈ (w 8).consumed := List.mem_cons_self ..
  have hread := (h (answerTo 1) (List.mem_cons_self ..)).2 0 hmem
  cases hread

end Arknet.Laws
