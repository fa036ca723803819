import Arknet.Node.L2Dispatch

/-!
Terminal events on router streams. The first event of a stream goes out ahead of the loop that stops
at terminals, so a stream that starts with a `Stop` gets a second terminal (`one_terminal`).
-/

namespace Arknet.Laws

open Arknet.Chain Arknet.Compute Arknet.Router Arknet.Node

/-- Exactly one terminal event, and nothing after it. -/
def OneTerminal (events : List InferenceJobEvent) : Prop :=
  ∃ before last, events = before ++ [last] ∧ last.isTerminal = true ∧
    ∀ ev ∈ before, ev.isTerminal = false

theorem oneTerminal_cons {ev : InferenceJobEvent} {events : List InferenceJobEvent}
    (hev : ev.isTerminal = false) (h : OneTerminal events) : OneTerminal (ev :: events) := by
  obtain ⟨before, last, rfl, hlast, hbefore⟩ := h
  refine ⟨ev :: before, last, rfl, hlast, fun x hx => ?_⟩
  rcases List.mem_cons.mp hx with rfl | hx
  · exact hev
  · exact hbefore x hx

/-- Nothing follows a terminal event. -/
theorem oneTerminal_first {ev : InferenceJobEvent} {events : List InferenceJobEvent}
    (hev : ev.isTerminal = true) (h : OneTerminal (ev :: events)) : events = [] := by
  obtain ⟨before, last, heq, -, hbefore⟩ := h
  cases before with
  | nil => exact (List.cons.inj heq).2
  | cons b before =>
    obtain ⟨rfl, -⟩ := List.cons.inj heq
    rw [hbefore ev (List.mem_cons_self ..)] at hev
    cases hev

section

variable {jobId : JobId}

/-! ## The loop -/

theorem forwardLoop_ne_nil {closes : Bool} {events : List InferenceJobEvent}
    (h : forwardCloses closes events = true) : forwardLoop jobId closes events ≠ [] := by
  cases events with
  | nil =>
    have hcloses : closes = true := by simpa [forwardCloses] using h
    simp [forwardLoop, hcloses]
  | cons ev rest =>
    simp only [forwardLoop]
    split <;> simp

/-- A loop that ends leaves one terminal, whatever it was given. -/
theorem forwardLoop_oneTerminal {closes : Bool} {events : List InferenceJobEvent}
    (h : forwardCloses closes events = true) : OneTerminal (forwardLoop jobId closes events) := by
  induction events with
  | nil =>
    have hcloses : closes = true := by simpa [forwardCloses] using h
    rw [forwardLoop, if_pos hcloses]
    exact ⟨[], _, rfl, rfl, by simp⟩
  | cons ev rest ih =>
    rw [forwardLoop]
    by_cases hterminal : ev.isTerminal = true
    · rw [if_pos hterminal]
      exact ⟨[], ev, rfl, hterminal, by simp⟩
    · rw [if_neg hterminal]
      have hrest : forwardCloses closes rest = true := by
        simpa [forwardCloses, hterminal] using h
      exact oneTerminal_cons (by simpa using hterminal) (ih hrest)

/-- The node's own stream has one terminal when it ends. -/
theorem localDispatch_oneTerminal {inner : Except String EventStream} {stream : EventStream}
    (h : localDispatch jobId inner = .returned (.ok stream)) (hcloses : stream.closes = true) :
    OneTerminal stream.events := by
  cases inner with
  | error e => cases h
  | ok inner =>
    cases h
    exact forwardLoop_oneTerminal hcloses

/-- A remote stream is the peer's events as they came, at most 64 of them. -/
theorem bufferEvents_ok {decodeEvent : List UInt8 → Except String InferenceJobEvent}
    {raws : List (List UInt8)} {sent : List InferenceJobEvent} {stream : EventStream}
    (hsent : sent.length ≤ REMOTE_BUFFER)
    (h : bufferEvents decodeEvent sent raws = .returned (.ok stream)) :
    stream.closes = true ∧ stream.events.length ≤ REMOTE_BUFFER ∧
      ∃ events, stream.events = sent ++ events ∧ raws.map decodeEvent = events.map .ok := by
  induction raws generalizing sent with
  | nil =>
    cases h
    exact ⟨rfl, hsent, [], by simp, rfl⟩
  | cons raw rest ih =>
    simp only [bufferEvents] at h
    cases hdecode : decodeEvent raw with
    | error e =>
      rw [hdecode] at h
      cases h
    | ok event =>
      simp only [hdecode] at h
      split at h
      · cases h
      · have hroom : (sent ++ [event]).length ≤ REMOTE_BUFFER := by
          rw [List.length_append, List.length_singleton]
          omega
        obtain ⟨hcloses, hlen, events, hevents, hraws⟩ := ih hroom h
        refine ⟨hcloses, hlen, event :: events, by rw [hevents, ← List.append_cons], ?_⟩
        rw [List.map_cons, List.map_cons, hdecode, hraws]

/-! ## One candidate -/

/-- The first event of a stream that `dispatch_one` settles for. -/
def settledFirst : Outcome EventStream → Option InferenceJobEvent
  | .returned (.ok inner) =>
    if inner.timely then
      match inner.events with
      | [] => none
      | .error _ _ :: _ => none
      | first :: _ => some first
    else none
  | _ => none

def isStop : InferenceJobEvent → Bool
  | .stop _ _ => true
  | _ => false

/-- What `dispatch_one` returns: the first event and what the loop makes of the others. -/
theorem dispatchOne_ok {inner : Outcome EventStream} {stream : EventStream}
    (h : dispatchOne jobId inner = .returned (.ok stream)) : ∃ first rest closes,
      settledFirst inner = some first ∧ (∀ job message, first ≠ .error job message) ∧
      stream.events = first :: forwardLoop jobId closes rest ∧ stream.closes = forwardCloses closes rest := by
  cases inner with
  | pending => cases h
  | returned result =>
    cases result with
    | error e => cases h
    | ok inner =>
      simp only [dispatchOne] at h
      split at h
      · cases h
      · rename_i htimely
        have htimely : inner.timely = true := by simpa using htimely
        split at h
        · cases h
        · cases h
        · rename_i first rest herror hevents
          cases h
          refine ⟨first, rest, inner.closes, ?_, herror, rfl, rfl⟩
          simp only [settledFirst, htimely, ↓reduceIte, hevents]

theorem settledFirst_of_error {inner : Outcome EventStream} {e : RouterError}
    (h : dispatchOne jobId inner = .returned (.error e)) : settledFirst inner = none := by
  cases inner with
  | pending => cases h
  | returned result =>
    cases result with
    | error e => rfl
    | ok inner =>
      simp only [dispatchOne] at h
      simp only [settledFirst]
      by_cases htimely : inner.timely = true
      · rw [if_pos htimely]
        rw [if_neg (by simp [htimely])] at h
        split at h
        · rename_i hevents
          simp only [hevents]
        · rename_i hevents
          simp only [hevents]
        · cases h
      · rw [if_neg htimely]

/-- The stream of one candidate, read to its end, has one terminal exactly when it did not start with
a stop. -/
theorem dispatchOne_oneTerminal {inner : Outcome EventStream} {stream : EventStream}
    (h : dispatchOne jobId inner = .returned (.ok stream)) (hcloses : stream.closes = true) :
    OneTerminal stream.events ↔ ∀ first, settledFirst inner = some first → isStop first = false := by
  obtain ⟨first, rest, closes, hfirst, hnotError, hevents, hclose⟩ := dispatchOne_ok h
  rw [hclose] at hcloses
  rw [hevents, hfirst]
  cases first with
  | stop job reason =>
    refine iff_of_false (fun hone => ?_) (fun hall => by cases hall _ rfl)
    exact forwardLoop_ne_nil hcloses (oneTerminal_first rfl hone)
  | error job message => exact absurd rfl (hnotError job message)
  | token job index text =>
    refine iff_of_true (oneTerminal_cons rfl (forwardLoop_oneTerminal hcloses)) ?_
    intro first hsome
    cases hsome
    rfl
  | busy job =>
    refine iff_of_true (oneTerminal_cons rfl (forwardLoop_oneTerminal hcloses)) ?_
    intro first hsome
    cases hsome
    rfl

/-! ## Failover -/

/-- The first event of the candidate that is chosen: the first one that has such an event. -/
def chosenFirst {ρ : Type} (request : ρ) (ranked : List (Candidate ρ)) : Option InferenceJobEvent :=
  ranked.findSome? (fun c => settledFirst (c.dispatcher request))

theorem tryCandidates_ok {ρ : Type} {request : ρ} {ranked : List (Candidate ρ)}
    {lastErr : Option RouterError} {stream : EventStream}
    (h : tryCandidates jobId request ranked lastErr = .returned (.ok stream)) :
    ∃ inner, dispatchOne jobId inner = .returned (.ok stream) ∧
      chosenFirst request ranked = settledFirst inner := by
  induction ranked generalizing lastErr with
  | nil => cases h
  | cons candidate rest ih =>
    simp only [tryCandidates] at h
    split at h
    · cases h
    · rename_i stream' hone
      cases h
      obtain ⟨first, _, _, hfirst, -⟩ := dispatchOne_ok hone
      refine ⟨_, hone, ?_⟩
      rw [chosenFirst, List.findSome?_cons, hfirst]
    · rename_i e hone
      obtain ⟨inner, hinner, hchosen⟩ := ih h
      refine ⟨inner, hinner, ?_⟩
      rw [chosenFirst, List.findSome?_cons, settledFirst_of_error hone]
      exact hchosen

/-- For every list of candidates and whatever their dispatchers do: a returned stream, read to its
end, has exactly one terminal event and has it last, if and only if the first event of the chosen
candidate's stream is not a stop. -/
theorem one_terminal {ρ : Type} (ranked : List (Candidate ρ)) (request : ρ) (stream : EventStream)
    (h : dispatchWithFailover jobId ranked request = .returned (.ok stream))
    (hcloses : stream.closes = true) :
    OneTerminal stream.events ↔
      ∀ first, chosenFirst request ranked = some first → isStop first = false := by
  unfold dispatchWithFailover at h
  split at h
  · cases h
  · obtain ⟨inner, hone, hchosen⟩ := tryCandidates_ok h
    rw [hchosen]
    exact dispatchOne_oneTerminal hone hcloses

end

/-! ## A local candidate -/

/-- A node whose own runner streams these events. -/
def localCandidate (events : List InferenceJobEvent) : Candidate Unit :=
  ⟨1, fun _ => localDispatch 5 (.ok ⟨events, true, true⟩)⟩

/-- A peer that answers nothing, then a node that streams a token. -/
def tokenCandidates : List (Candidate Unit) :=
  [⟨2, fun _ => .returned (.ok ⟨[], true, true⟩)⟩,
    localCandidate [.token 5 0 "hi", .stop 5 .endOfStream]]

/-- The empty stream is passed over, the other one is handed on. -/
theorem one_terminal_token : ∃ stream, dispatchWithFailover 5 tokenCandidates () = .returned (.ok stream) ∧
    OneTerminal stream.events := by
  have hreturned : dispatchWithFailover 5 tokenCandidates () =
      .returned (.ok ⟨[.token 5 0 "hi", .stop 5 .endOfStream], true, true⟩) := rfl
  refine ⟨_, hreturned, (one_terminal tokenCandidates () _ hreturned rfl).mpr fun first hfirst => ?_⟩
  cases hfirst
  rfl

/-- A model that ends at once: its single stop is followed by a `Cancelled`. -/
theorem two_terminals : ∃ stream,
    dispatchWithFailover 5 [localCandidate [.stop 5 .endOfStream]] () = .returned (.ok stream) ∧
    stream.closes = true ∧ stream.events = [.stop 5 .endOfStream, .stop 5 .cancelled] ∧
    ¬ OneTerminal stream.events := by
  refine ⟨⟨[.stop 5 .endOfStream, .stop 5 .cancelled], true, true⟩, rfl, rfl, rfl, fun h => ?_⟩
  cases oneTerminal_first rfl h

end Arknet.Laws
