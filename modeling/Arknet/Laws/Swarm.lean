import Arknet.Network.Swarm
import Arknet.Lib.Runs

/-!
The inference messages of the network task. A hand-over that finds its channel full is discarded, and
the failure of an inbound request leaves its reply channel in the map: nothing is lost and nothing is
kept too long exactly when neither happens (`inference_kept`).
-/

namespace Arknet.Laws

open Arknet.Network

/-- The task with what libp2p reported to it and what the roles took from it. -/
structure SwarmRun where
  task : InferenceState
  received : List RequestId
  taken : List RequestId
  answered : List RequestId
  failed : List RequestId
  sent : List RequestId
  settled : List RequestId
  delivered : List RequestId

namespace SwarmRun

def start : SwarmRun := ⟨.empty, [], [], [], [], [], [], []⟩

/-- Requests that reached the requests channel. -/
def handed (w : SwarmRun) : List RequestId :=
  w.taken ++ w.task.reqTx.queue.map (·.requestId)

/-- Outbound requests with an event in the responses channel, once for each event. -/
def yielded (w : SwarmRun) : List RequestId :=
  w.delivered ++ w.task.respTx.queue.map (·.requestId)

/-- The logs next to `handleEvent`. -/
def log (w : SwarmRun) : SwarmEvent → SwarmRun
  | .request _ id _ => { w with received := id :: w.received }
  | .response _ id _ => { w with settled := id :: w.settled }
  | .outboundFailure _ id _ => { w with settled := id :: w.settled }
  | .inboundFailure id => { w with failed := id :: w.failed }
  | .sendInferenceRequest _ id _ => { w with sent := id :: w.sent }
  | .sendInferenceResponse id _ =>
    if id ∈ w.task.pendingChannels then { w with answered := id :: w.answered } else w
  | .takeRequest => { w with taken := w.taken ++ (w.task.reqTx.queue.map (·.requestId)).take 1 }
  | .takeResponse =>
    { w with delivered := w.delivered ++ (w.task.respTx.queue.map (·.requestId)).take 1 }

def after (w : SwarmRun) (ev : SwarmEvent) : SwarmRun :=
  { w.log ev with task := handleEvent w.task ev }

/-- What the two outcomes of an outbound request share. -/
def outcome (w : SwarmRun) (e : InferenceResponseEvent) : SwarmRun :=
  { w with settled := e.requestId :: w.settled, task := w.task.handResponse e }

/-- What libp2p promises: ids are fresh, and an outbound request has one outcome. -/
def Reports (w : SwarmRun) : SwarmEvent → Prop
  | .request _ id _ => id ∉ w.received ∧ id ∉ w.failed
  | .response _ id _ => id ∈ w.sent ∧ id ∉ w.settled
  | .outboundFailure _ id _ => id ∈ w.sent ∧ id ∉ w.settled
  | .sendInferenceRequest _ id _ => id ∉ w.sent
  | _ => True

/-- One event: libp2p's, a command's or a role's. -/
def Occurs (w : SwarmRun) (ev : SwarmEvent) (w' : SwarmRun) : Prop :=
  w.Reports ev ∧ w' = w.after ev

end SwarmRun

/-- An inbound request is handed over once or let go, and the map holds the requests that were handed
over and can still be answered. -/
structure InboundKept (w : SwarmRun) : Prop where
  handed : ∀ id ∈ w.received, w.handed.count id = 1 ∨ id ∉ w.handed ∧ id ∉ w.task.pendingChannels
  pending : ∀ id, id ∈ w.task.pendingChannels ↔ id ∈ w.handed ∧ id ∉ w.answered ∧ id ∉ w.failed

/-- An outbound request has one event, from its outcome on. -/
def OutboundKept (w : SwarmRun) : Prop :=
  ∀ id ∈ w.sent, w.yielded.count id = if id ∈ w.settled then 1 else 0

def InferenceKept (w : SwarmRun) : Prop := InboundKept w ∧ OutboundKept w

/-- The event finds room in the channel it goes to; an inbound failure is not for a request whose reply
channel is kept. -/
def Served (w : SwarmRun) : SwarmEvent → Prop
  | .request _ _ _ => w.task.reqTx.queue.length < REQUEST_BUFFER
  | .response _ _ _ => w.task.respTx.queue.length < RESPONSE_BUFFER
  | .outboundFailure _ _ _ => w.task.respTx.queue.length < RESPONSE_BUFFER
  | .inboundFailure id => id ∉ w.task.pendingChannels
  | _ => True

/-! ## The operations of the task -/

section

variable {s : InferenceState} {id x : RequestId}

theorem mem_keepChannel :
    x ∈ (s.keepChannel id).pendingChannels ↔ x = id ∨ x ∈ s.pendingChannels := by
  simp only [InferenceState.keepChannel]
  split
  · rename_i h
    exact ⟨.inr, fun hx => hx.elim (fun heq => heq ▸ h) (fun hx => hx)⟩
  · exact List.mem_cons

theorem mem_dropChannel :
    x ∈ (s.dropChannel id).pendingChannels ↔ x ∈ s.pendingChannels ∧ x ≠ id := by
  simp [InferenceState.dropChannel]

variable {r : InboundInferenceRequest} {e : InferenceResponseEvent}

@[simp] theorem handRequest_pendingChannels : (s.handRequest r).pendingChannels = s.pendingChannels := by
  unfold InferenceState.handRequest
  split <;> rfl

@[simp] theorem handRequest_respTx : (s.handRequest r).respTx = s.respTx := by
  unfold InferenceState.handRequest
  split <;> rfl

@[simp] theorem handResponse_pendingChannels :
    (s.handResponse e).pendingChannels = s.pendingChannels := by
  unfold InferenceState.handResponse
  split <;> rfl

@[simp] theorem handResponse_reqTx : (s.handResponse e).reqTx = s.reqTx := by
  unfold InferenceState.handResponse
  split <;> rfl

/-- A discarded hand-over leaves the channel as it was. -/
theorem handRequest_queue : (s.handRequest r).reqTx.queue =
    if s.reqTx.queue.length < REQUEST_BUFFER then s.reqTx.queue ++ [r] else s.reqTx.queue := by
  unfold InferenceState.handRequest
  split
  · rename_i c h
    obtain ⟨hroom, hqueue⟩ := Channel.trySend_eq_some.mp h
    rw [if_pos hroom]
    exact hqueue
  · rename_i h
    rw [if_neg (Nat.not_lt_of_ge (Nat.le_of_eq (Channel.trySend_eq_none.mp h).symm))]

theorem handResponse_queue : (s.handResponse e).respTx.queue =
    if s.respTx.queue.length < RESPONSE_BUFFER then s.respTx.queue ++ [e] else s.respTx.queue := by
  unfold InferenceState.handResponse
  split
  · rename_i c h
    obtain ⟨hroom, hqueue⟩ := Channel.trySend_eq_some.mp h
    rw [if_pos hroom]
    exact hqueue
  · rename_i h
    rw [if_neg (Nat.not_lt_of_ge (Nat.le_of_eq (Channel.trySend_eq_none.mp h).symm))]

end

/-! ## What an event does to the logs -/

/-- Every id in a log was reported. -/
structure Reported (w : SwarmRun) : Prop where
  handed : ∀ id ∈ w.handed, id ∈ w.received
  pending : ∀ id ∈ w.task.pendingChannels, id ∈ w.received
  answered : ∀ id ∈ w.answered, id ∈ w.received
  settled : ∀ id ∈ w.settled, id ∈ w.sent
  yielded : ∀ id ∈ w.yielded, id ∈ w.sent

section

variable {w : SwarmRun} {peer : PeerId} {id x : RequestId} {data : List UInt8} {error : String}

theorem handed_request : (w.after (.request peer id data)).handed =
    if w.task.reqTx.queue.length < REQUEST_BUFFER then w.handed ++ [id] else w.handed := by
  show w.taken ++ ((w.task.keepChannel id).handRequest ⟨peer, data, id⟩).reqTx.queue.map _ = _
  rw [handRequest_queue]
  show w.taken ++ (if w.task.reqTx.queue.length < _ then w.task.reqTx.queue ++ _ else _).map _ = _
  split
  · rw [List.map_append, ← List.append_assoc]
    rfl
  · rfl

theorem pending_request : x ∈ (w.after (.request peer id data)).task.pendingChannels ↔
    x = id ∨ x ∈ w.task.pendingChannels := by
  show x ∈ ((w.task.keepChannel id).handRequest _).pendingChannels ↔ _
  rw [handRequest_pendingChannels, mem_keepChannel]

theorem yielded_request : (w.after (.request peer id data)).yielded = w.yielded := by
  show w.delivered ++ ((w.task.keepChannel id).handRequest _).respTx.queue.map _ = _
  rw [handRequest_respTx]
  rfl

theorem handed_outcome {e : InferenceResponseEvent} : (w.outcome e).handed = w.handed := by
  show w.taken ++ (w.task.handResponse e).reqTx.queue.map _ = _
  rw [handResponse_reqTx]
  rfl

theorem pending_outcome {e : InferenceResponseEvent} :
    (w.outcome e).task.pendingChannels = w.task.pendingChannels := handResponse_pendingChannels

theorem yielded_outcome {e : InferenceResponseEvent} : (w.outcome e).yielded =
    if w.task.respTx.queue.length < RESPONSE_BUFFER then w.yielded ++ [e.requestId] else w.yielded := by
  show w.delivered ++ (w.task.handResponse e).respTx.queue.map _ = _
  rw [handResponse_queue]
  split
  · rw [List.map_append, ← List.append_assoc]
    rfl
  · rfl

/-- A role's read moves the head of a channel to its log. -/
theorem append_recv {α : Type} {f : α → RequestId} {n : Nat} {log : List RequestId} {c c' : Channel α n}
    {a : α} (h : c.recv = some (a, c')) :
    log ++ (c.queue.map f).take 1 ++ c'.queue.map f = log ++ c.queue.map f := by
  rw [Channel.recv_eq_some.mp h]
  simp

theorem append_recv_none {α : Type} {f : α → RequestId} {n : Nat} {log : List RequestId} {c : Channel α n}
    (h : c.recv = none) : log ++ (c.queue.map f).take 1 ++ c.queue.map f = log ++ c.queue.map f := by
  rw [Channel.recv_eq_none.mp h]
  simp

theorem handed_takeRequest : (w.after .takeRequest).handed = w.handed := by
  show w.taken ++ _ ++ (handleEvent w.task .takeRequest).reqTx.queue.map _ = _
  simp only [handleEvent]
  split
  · rename_i r c h
    exact append_recv h
  · rename_i h
    exact append_recv_none h

theorem yielded_takeResponse : (w.after .takeResponse).yielded = w.yielded := by
  show w.delivered ++ _ ++ (handleEvent w.task .takeResponse).respTx.queue.map _ = _
  simp only [handleEvent]
  split
  · rename_i r c h
    exact append_recv h
  · rename_i h
    exact append_recv_none h

/-- A role's reads leave the map alone. -/
theorem pending_takeRequest :
    (w.after .takeRequest).task.pendingChannels = w.task.pendingChannels := by
  show (handleEvent w.task .takeRequest).pendingChannels = _
  simp only [handleEvent]
  split <;> rfl

theorem pending_takeResponse :
    (w.after .takeResponse).task.pendingChannels = w.task.pendingChannels := by
  show (handleEvent w.task .takeResponse).pendingChannels = _
  simp only [handleEvent]
  split <;> rfl

theorem yielded_takeRequest : (w.after .takeRequest).yielded = w.yielded := by
  show w.delivered ++ (handleEvent w.task .takeRequest).respTx.queue.map _ = _
  simp only [handleEvent]
  split <;> rfl

theorem handed_takeResponse : (w.after .takeResponse).handed = w.handed := by
  show w.taken ++ (handleEvent w.task .takeResponse).reqTx.queue.map _ = _
  simp only [handleEvent]
  split <;> rfl

end

/-! ## One event -/

section

variable {w w' : SwarmRun} {peer : PeerId} {id x : RequestId} {data : List UInt8} {error : String}

/-- Events on the other side of the task leave the inbound requests alone. -/
theorem inboundKept_congr (h : InboundKept w) (hreceived : w'.received = w.received)
    (hhanded : w'.handed = w.handed) (hpending : w'.task.pendingChannels = w.task.pendingChannels)
    (hanswered : w'.answered = w.answered) (hfailed : w'.failed = w.failed) : InboundKept w' := by
  refine ⟨fun x hx => ?_, fun x => ?_⟩
  · rw [hreceived] at hx
    rw [hhanded, hpending]
    exact h.handed x hx
  · rw [hpending, hhanded, hanswered, hfailed]
    exact h.pending x

theorem outboundKept_congr (h : OutboundKept w) (hsent : w'.sent = w.sent)
    (hsettled : w'.settled = w.settled) (hyielded : w'.yielded = w.yielded) : OutboundKept w' := by
  intro x hx
  rw [hsent] at hx
  rw [hyielded, hsettled]
  exact h x hx

/-- A request that finds no room stays in the map without a way to be answered. -/
theorem inboundKept_request (hreported : Reported w) (hfresh : id ∉ w.received ∧ id ∉ w.failed)
    (h : InboundKept w) :
    InboundKept (w.after (.request peer id data)) ↔ w.task.reqTx.queue.length < REQUEST_BUFFER := by
  have hnew : id ∉ w.handed := fun hid => hfresh.1 (hreported.handed id hid)
  constructor
  · intro h'
    by_contra hfull
    have hmem := ((h'.pending id).mp (pending_request.mpr (.inl rfl))).1
    rw [handed_request, if_neg hfull] at hmem
    exact hnew hmem
  · intro hroom
    refine ⟨fun x hx => ?_, fun x => ?_⟩
    · rw [handed_request, if_pos hroom, pending_request]
      rcases List.mem_cons.mp hx with rfl | hx
      · left
        rw [List.count_append, List.count_eq_zero.mpr hnew, List.count_singleton_self]
      · have hne : x ≠ id := fun heq => hfresh.1 (heq ▸ hx)
        rcases h.handed x hx with hone | ⟨hout, hquiet⟩
        · left
          rw [List.count_append, hone, List.count_singleton, if_neg (by simpa using hne.symm)]
        · right
          exact ⟨by simp [hout, hne], by simp [hquiet, hne]⟩
    · rw [pending_request, handed_request, if_pos hroom, List.mem_append, List.mem_singleton, h.pending x]
      show _ ↔ _ ∧ x ∉ w.answered ∧ x ∉ w.failed
      by_cases heq : x = id
      · subst heq
        have hunanswered : x ∉ w.answered := fun hid => hfresh.1 (hreported.answered x hid)
        simp [hunanswered, hfresh.2]
      · simp [heq]

/-- The failure of a request leaves its reply channel where it was. -/
theorem inboundKept_inboundFailure (h : InboundKept w) :
    InboundKept (w.after (.inboundFailure id)) ↔ id ∉ w.task.pendingChannels := by
  constructor
  · intro h' hid
    exact ((h'.pending id).mp hid).2.2 (List.mem_cons_self ..)
  · intro hout
    refine ⟨h.handed, fun x => ?_⟩
    show x ∈ w.task.pendingChannels ↔ x ∈ w.handed ∧ x ∉ w.answered ∧ x ∉ id :: w.failed
    rw [h.pending x]
    by_cases heq : x = id
    · subst heq
      exact iff_of_false (fun hx => hout ((h.pending x).mpr hx)) (by simp)
    · simp [heq]

theorem inboundKept_sendInferenceResponse (h : InboundKept w) :
    InboundKept (w.after (.sendInferenceResponse id data)) := by
  by_cases hid : id ∈ w.task.pendingChannels
  · have hafter : w.after (.sendInferenceResponse id data) =
        { w with task := w.task.dropChannel id, answered := id :: w.answered } := by
      simp [SwarmRun.after, SwarmRun.log, handleEvent, hid]
    rw [hafter]
    refine ⟨fun x hx => ?_, fun x => ?_⟩
    · rcases h.handed x hx with hone | ⟨hout, hquiet⟩
      · exact .inl hone
      · exact .inr ⟨hout, fun hx' => hquiet (mem_dropChannel.mp hx').1⟩
    · show x ∈ (w.task.dropChannel id).pendingChannels ↔
        x ∈ w.handed ∧ x ∉ id :: w.answered ∧ x ∉ w.failed
      rw [mem_dropChannel, h.pending x, List.mem_cons]
      constructor
      · rintro ⟨⟨hhanded, hanswered, hfailed⟩, hne⟩
        exact ⟨hhanded, fun hx => hx.elim hne hanswered, hfailed⟩
      · rintro ⟨hhanded, hanswered, hfailed⟩
        exact ⟨⟨hhanded, fun hx => hanswered (.inr hx), hfailed⟩, fun heq => hanswered (.inl heq)⟩
  · have hafter : w.after (.sendInferenceResponse id data) = w := by
      simp [SwarmRun.after, SwarmRun.log, handleEvent, hid]
    rw [hafter]
    exact h

/-- An outcome that finds no room is an event its request never has. -/
theorem outboundKept_outcome {e : InferenceResponseEvent}
    (hreport : e.requestId ∈ w.sent ∧ e.requestId ∉ w.settled) (h : OutboundKept w) :
    OutboundKept (w.outcome e) ↔ w.task.respTx.queue.length < RESPONSE_BUFFER := by
  have hnone : w.yielded.count e.requestId = 0 := by rw [h _ hreport.1, if_neg hreport.2]
  constructor
  · intro h'
    by_contra hfull
    have hone : (w.outcome e).yielded.count e.requestId =
        if e.requestId ∈ e.requestId :: w.settled then 1 else 0 := h' _ hreport.1
    rw [yielded_outcome, if_neg hfull, hnone, if_pos (List.mem_cons_self ..)] at hone
    cases hone
  · intro hroom x hx
    show (w.outcome e).yielded.count x = if x ∈ e.requestId :: w.settled then 1 else 0
    rw [yielded_outcome, if_pos hroom, List.count_append]
    by_cases heq : x = e.requestId
    · rw [heq, hnone, List.count_singleton_self, if_pos (List.mem_cons_self ..)]
    · rw [List.count_singleton, if_neg (by simpa using Ne.symm heq), h x hx]
      simp [heq]

theorem outboundKept_sendInferenceRequest (hreported : Reported w) (hfresh : id ∉ w.sent) (h : OutboundKept w) :
    OutboundKept (w.after (.sendInferenceRequest peer id data)) := by
  intro x hx
  show w.yielded.count x = if x ∈ w.settled then 1 else 0
  rcases List.mem_cons.mp hx with rfl | hx
  · rw [if_neg (fun hx => hfresh (hreported.settled x hx)),
      List.count_eq_zero.mpr (fun hx => hfresh (hreported.yielded x hx))]
  · exact h x hx

end

/-! ## Runs of the task -/

section

open SwarmRun

variable {w w' : SwarmRun} {ev : SwarmEvent} {hist : List SwarmEvent}

theorem reported_start : Reported start :=
  ⟨by simp [handed, start, InferenceState.empty], by simp [start, InferenceState.empty],
    by simp [start], by simp [start], by simp [yielded, start, InferenceState.empty]⟩

/-- The outcome of an outbound request is of one that was sent. -/
theorem reported_outcome {e : InferenceResponseEvent} (hreported : Reported w) (hreport : e.requestId ∈ w.sent) :
    Reported (w.outcome e) := by
  refine ⟨fun x hx => hreported.handed x (handed_outcome ▸ hx),
    fun x hx => hreported.pending x (pending_outcome ▸ hx), hreported.answered, fun x hx => ?_, fun x hx => ?_⟩
  · show x ∈ w.sent
    rcases List.mem_cons.mp hx with rfl | hx
    · exact hreport
    · exact hreported.settled x hx
  · show x ∈ w.sent
    rw [yielded_outcome] at hx
    split at hx
    · rcases List.mem_append.mp hx with hold | hnew
      · exact hreported.yielded x hold
      · rw [List.mem_singleton.mp hnew]
        exact hreport
    · exact hreported.yielded x hx

theorem reported_request {peer : PeerId} {id : RequestId} {data : List UInt8} (hreported : Reported w) :
    Reported (w.after (.request peer id data)) := by
  refine ⟨fun x hx => ?_, fun x hx => ?_, fun x hx => .tail _ (hreported.answered x hx), hreported.settled,
    fun x hx => hreported.yielded x (yielded_request ▸ hx)⟩
  · show x ∈ id :: w.received
    rw [handed_request] at hx
    split at hx
    · rcases List.mem_append.mp hx with hold | hnew
      · exact .tail _ (hreported.handed x hold)
      · rw [List.mem_singleton.mp hnew]
        exact List.mem_cons_self ..
    · exact .tail _ (hreported.handed x hx)
  · show x ∈ id :: w.received
    rcases pending_request.mp hx with rfl | hold
    · exact List.mem_cons_self ..
    · exact .tail _ (hreported.pending x hold)

theorem reported_step (hreported : Reported w) (h : Occurs w ev w') : Reported w' := by
  obtain ⟨hreport, rfl⟩ := h
  cases ev with
  | request peer id data => exact reported_request hreported
  | response peer id data => exact reported_outcome (e := ⟨id, peer, .ok data⟩) hreported hreport.1
  | outboundFailure peer id error => exact reported_outcome (e := ⟨id, peer, .error error⟩) hreported hreport.1
  | inboundFailure id => exact ⟨hreported.1, hreported.2, hreported.3, hreported.4, hreported.5⟩
  | sendInferenceRequest peer id data =>
    exact ⟨hreported.1, hreported.2, hreported.3, fun x hx => .tail _ (hreported.settled x hx),
      fun x hx => .tail _ (hreported.yielded x hx)⟩
  | sendInferenceResponse id data =>
    simp only [SwarmRun.after, SwarmRun.log, handleEvent]
    split
    · rename_i hid
      refine ⟨hreported.handed, fun x hx => hreported.pending x (mem_dropChannel.mp hx).1, fun x hx => ?_,
        hreported.settled, hreported.yielded⟩
      rcases List.mem_cons.mp hx with rfl | hx
      · exact hreported.pending _ hid
      · exact hreported.answered x hx
    · exact hreported
  | takeRequest =>
    exact ⟨fun x hx => hreported.handed x (handed_takeRequest ▸ hx),
      fun x hx => hreported.pending x (pending_takeRequest ▸ hx), hreported.answered, hreported.settled,
      fun x hx => hreported.yielded x (yielded_takeRequest ▸ hx)⟩
  | takeResponse =>
    exact ⟨fun x hx => hreported.handed x (handed_takeResponse ▸ hx),
      fun x hx => hreported.pending x (pending_takeResponse ▸ hx), hreported.answered, hreported.settled,
      fun x hx => hreported.yielded x (yielded_takeResponse ▸ hx)⟩

theorem steps_reported (run : Runs.Steps Occurs start hist w) : Reported w :=
  run.invariant Reported reported_start (fun _ _ _ hreported h => reported_step hreported h)

theorem kept_outcome {e : InferenceResponseEvent} (hreport : e.requestId ∈ w.sent ∧ e.requestId ∉ w.settled)
    (hin : InboundKept w) (hout : OutboundKept w) :
    InferenceKept (w.outcome e) ↔ w.task.respTx.queue.length < RESPONSE_BUFFER := by
  have hinbound : InboundKept (w.outcome e) :=
    inboundKept_congr hin rfl handed_outcome pending_outcome rfl rfl
  exact (and_iff_right hinbound).trans (outboundKept_outcome hreport hout)

/-- An event keeps the messages exactly when it is served. -/
theorem kept_step (hreported : Reported w) (hkept : InferenceKept w) (h : Occurs w ev w') :
    InferenceKept w' ↔ Served w ev := by
  obtain ⟨hreport, rfl⟩ := h
  obtain ⟨hin, hout⟩ := hkept
  cases ev with
  | request peer id data =>
    have houtbound : OutboundKept (w.after (.request peer id data)) :=
      outboundKept_congr hout rfl rfl yielded_request
    exact (and_iff_left houtbound).trans (inboundKept_request hreported hreport hin)
  | response peer id data => exact kept_outcome (e := ⟨id, peer, .ok data⟩) hreport hin hout
  | outboundFailure peer id error => exact kept_outcome (e := ⟨id, peer, .error error⟩) hreport hin hout
  | inboundFailure id => exact (and_iff_left hout).trans (inboundKept_inboundFailure hin)
  | sendInferenceRequest peer id data =>
    exact iff_of_true ⟨⟨hin.handed, hin.pending⟩, outboundKept_sendInferenceRequest hreported hreport hout⟩
      trivial
  | sendInferenceResponse id data =>
    refine iff_of_true ⟨inboundKept_sendInferenceResponse hin, ?_⟩ trivial
    simp only [SwarmRun.after, SwarmRun.log, handleEvent]
    split <;> exact hout
  | takeRequest =>
    exact iff_of_true ⟨inboundKept_congr hin rfl handed_takeRequest pending_takeRequest rfl rfl,
      outboundKept_congr hout rfl rfl yielded_takeRequest⟩ trivial
  | takeResponse =>
    exact iff_of_true ⟨inboundKept_congr hin rfl handed_takeResponse pending_takeResponse rfl rfl,
      outboundKept_congr hout rfl rfl yielded_takeResponse⟩ trivial

theorem kept_start : InferenceKept start :=
  ⟨⟨by simp [start], by simp [start, handed, InferenceState.empty]⟩, by simp [OutboundKept, start]⟩

theorem occurs_deterministic : Runs.Deterministic Occurs :=
  fun _ _ _ _ h₁ h₂ => h₁.2.trans h₂.2.symm

/-- The network task keeps every inference message, and its map holds exactly the requests it handed
over that wait for an answer, throughout a run in which every event is served, and only then. -/
theorem inference_kept (run : Runs.Steps Occurs start hist w) :
    Runs.Throughout Occurs start (fun _ u => InferenceKept u) hist ↔ Runs.Along Occurs start Served hist := by
  apply Runs.throughout_iff_along occurs_deterministic kept_start ?_ run
  intro past u ev u' hu hkept hstep
  exact kept_step (steps_reported hu) hkept hstep

theorem steps_eq (run : Runs.Steps Occurs start hist w) : w = hist.foldl after start := by
  induction run with
  | nil => rfl
  | snoc run last ih =>
    rw [List.foldl_append, ← ih]
    exact last.2

/-- A request answered, and one sent that gets its response. -/
def servedEvents : List SwarmEvent :=
  [.request [] 0 [], .sendInferenceResponse 0 [], .sendInferenceRequest [] 0 [], .response [] 0 []]

theorem inference_kept_served : ∃ w, Runs.Steps Occurs start servedEvents w ∧
    Runs.Throughout Occurs start (fun _ u => InferenceKept u) servedEvents := by
  have run : Runs.Steps Occurs start servedEvents (servedEvents.foldl after start) := by
    refine .cons ⟨?_, rfl⟩ (.cons ⟨trivial, rfl⟩ (.cons ⟨?_, rfl⟩ (.cons ⟨?_, rfl⟩ .nil)))
    · show (0 ∉ ([] : List RequestId) ∧ 0 ∉ ([] : List RequestId))
      decide
    · show 0 ∉ ([] : List RequestId)
      decide
    · show (0 ∈ [0] ∧ 0 ∉ ([] : List RequestId))
      decide
  refine ⟨_, run, (inference_kept run).mpr ?_⟩
  rintro past ev rest u heq hu
  rw [steps_eq hu]
  rcases past with _ | ⟨_, _ | ⟨_, _ | ⟨_, _ | ⟨_, past⟩⟩⟩⟩
  · cases heq
    show 0 < REQUEST_BUFFER
    decide
  · cases heq
    trivial
  · cases heq
    trivial
  · cases heq
    show 0 < RESPONSE_BUFFER
    decide
  · simp [servedEvents] at heq

/-- The failure of a request that is still in the channel leaves an entry nobody can use. -/
theorem inference_leaked : ∃ hist w, Runs.Steps Occurs start hist w ∧
    ¬ Runs.Throughout Occurs start (fun _ u => InferenceKept u) hist := by
  have run : Runs.Steps Occurs start [.request [] 0 [], .inboundFailure 0]
      ((start.after (.request [] 0 [])).after (.inboundFailure 0)) := by
    refine .cons ⟨?_, rfl⟩ (.cons ⟨trivial, rfl⟩ .nil)
    show (0 ∉ ([] : List RequestId) ∧ 0 ∉ ([] : List RequestId))
    decide
  refine ⟨_, _, run, fun h => ?_⟩
  have hkept : InferenceKept _ := h _ [] _ (List.append_nil _).symm run
  have hmem : 0 ∈ (start.after (.request [] 0 [])).task.pendingChannels :=
    pending_request.mpr (.inl rfl)
  exact ((hkept.1.pending 0).mp hmem).2.2 (List.mem_cons_self ..)

end

end Arknet.Laws
