import Arknet.Node.InferenceHandler
import Arknet.Node.L2Dispatch
import Arknet.Sdk.Client

/-!
The answer of a compute node as its two readers take it. The router's dispatcher reads the format
that is written; the client of the SDK reads a list of events where a list of encoded events was
written, so it understands the empty answer only and never sees that a node was busy.
-/

namespace Arknet.Laws

open Machine Borsh Arknet.Chain Arknet.Compute Arknet.Node Arknet.Sdk Arknet.Router

/-- Every event stands beside its own encoding. -/
abbrev Encoded (events : List InferenceJobEvent) (encoded : List (List UInt8)) : Prop :=
  List.Forall₂ (fun event bytes => InferenceJobEvent.codec.encode event = some bytes) events encoded

theorem encodeEvents_encoded {sent encoded : List (List UInt8)} {events : List InferenceJobEvent}
    (h : encodeEvents sent events = some encoded) :
    ∃ tail, sent ++ tail = encoded ∧ Encoded events tail := by
  induction events generalizing sent with
  | nil =>
    obtain rfl := Option.some.inj h
    exact ⟨[], List.append_nil _, .nil⟩
  | cons event rest ih =>
    cases hbytes : InferenceJobEvent.codec.encode event with
    | none => simp [encodeEvents, hbytes] at h
    | some bytes =>
      simp only [encodeEvents, hbytes] at h
      obtain ⟨tail, rfl, hrest⟩ := ih h
      exact ⟨bytes :: tail, by simp, .cons hbytes hrest⟩

theorem encodeResponse_encoded {events : List InferenceJobEvent} {wire : List UInt8}
    (h : encodeResponse events = some wire) :
    ∃ encoded, Encoded events encoded ∧ InferenceResponse.codec.encode ⟨encoded⟩ = some wire := by
  obtain ⟨encoded, hencoded, hwire⟩ := Option.bind_eq_some_iff.mp h
  obtain ⟨tail, rfl, hevents⟩ := encodeEvents_encoded hencoded
  exact ⟨tail, hevents, hwire⟩

/-- The encoded events one after another, without their lengths, are what a list of events is. -/
theorem Encoded.flatten {events : List InferenceJobEvent} {encoded : List (List UInt8)}
    (h : Encoded events encoded) :
    InferenceJobEvent.codec.encodeAll events = some encoded.flatten := by
  induction h with
  | nil => rfl
  | cons hbytes _ ih => simp [Codec.encodeAll, hbytes, ih]

/-- A list of byte strings also carries their lengths. -/
theorem length_encodeAll_bytes {items : List (List UInt8)} {e : List UInt8}
    (h : Codec.bytes.encodeAll items = some e) :
    e.length = 4 * items.length + items.flatten.length := by
  induction items generalizing e with
  | nil =>
    obtain rfl := Option.some.inj h
    rfl
  | cons item items ih =>
    simp only [Codec.encodeAll, Option.bind_eq_some_iff, Option.map_eq_some_iff] at h
    obtain ⟨head, hhead, tail, htail, rfl⟩ := h
    obtain ⟨-, rfl⟩ := Codec.bytes_encode.mp hhead
    have hlen := ih htail
    simp only [List.length_append, length_leBytes, List.length_cons, List.flatten_cons, hlen]
    omega

/-- The two formats agree on the empty list only. -/
theorem decodeEvents_eq_iff {events : List InferenceJobEvent} {wire : List UInt8}
    (h : encodeResponse events = some wire) : decodeEvents wire = some events ↔ events = [] := by
  obtain ⟨encoded, hevents, hwire⟩ := encodeResponse_encoded h
  have hlen := hevents.length_eq
  replace hwire : Codec.bytes.vec.encode encoded = some wire := hwire
  obtain ⟨-, framed, hframed, rfl⟩ := (Codec.vec_encode _).mp hwire
  have hframe := length_encodeAll_bytes hframed
  unfold decodeEvents
  rw [Codec.fromSlice_eq_some, Codec.vec_encode]
  constructor
  · rintro ⟨-, plain, hplain, hsame⟩
    rw [hevents.flatten] at hplain
    obtain rfl := Option.some.inj hplain
    have hlength := congrArg List.length hsame
    simp only [List.length_append, length_leBytes, hframe] at hlength
    apply List.eq_nil_of_length_eq_zero
    omega
  · rintro rfl
    obtain rfl := List.eq_nil_of_length_eq_zero hlen.symm
    obtain rfl := Option.some.inj hframed
    exact ⟨by decide, [], rfl, rfl⟩

/-- The client understands an answer, and passes over a busy node because of it, exactly when the
answer has no events. -/
theorem answer_understood {events : List InferenceJobEvent} {wire : List UInt8}
    (h : encodeResponse events = some wire) :
    (decodeEvents wire = some events ∧
      (movesOn wire = true ↔ ∃ event ∈ events, event.isBusy = true)) ↔ events = [] := by
  rw [decodeEvents_eq_iff h]
  constructor
  · rintro ⟨rfl, -⟩
    rfl
  · rintro rfl
    have hread := (decodeEvents_eq_iff h).mpr rfl
    refine ⟨rfl, ?_⟩
    simp [movesOn, hread]

theorem empty_answer_understood :
    decodeEvents [0, 0, 0, 0] = some [] ∧
      (movesOn [0, 0, 0, 0] = true ↔
        ∃ event ∈ ([] : List InferenceJobEvent), event.isBusy = true) :=
  (answer_understood (show encodeResponse [] = some [0, 0, 0, 0] by decide)).mpr rfl

/-- One busy event is 33 bytes, and there is no thirty-fourth variant: the next candidate is never
asked. -/
theorem busy_answer_returned :
    ∃ wire, encodeResponse [.busy 0] = some wire ∧ decodeEvents wire ≠ some [.busy 0] ∧
      movesOn wire = false ∧ infer none [some wire, some [0, 0, 0, 0]] = .ok wire := by
  refine ⟨_, rfl, ?_, ?_, ?_⟩
  · decide
  · decide
  · decide

/-! ## The router -/

section

variable {decodeResponse : List UInt8 → Except String (List (List UInt8))}
  {decodeEvent : List UInt8 → Except String InferenceJobEvent}
  (hresponse : ∀ r bytes, InferenceResponse.codec.encode r = some bytes →
    decodeResponse bytes = .ok r.events)
  (hevent : ∀ event bytes, InferenceJobEvent.codec.encode event = some bytes →
    decodeEvent bytes = .ok event)
include hevent

theorem bufferEvents_encoded {encoded : List (List UInt8)} {sent events : List InferenceJobEvent}
    (h : Encoded events encoded) (hroom : sent.length + events.length ≤ REMOTE_BUFFER) :
    bufferEvents decodeEvent sent encoded = .returned (.ok ⟨sent ++ events, true, true⟩) := by
  induction h generalizing sent with
  | nil => simp [bufferEvents]
  | @cons event bytes rest tail hbytes _ ih =>
    simp only [List.length_cons] at hroom
    have hfree : sent.length ≠ REMOTE_BUFFER := by omega
    simp only [bufferEvents, hevent _ _ hbytes, if_neg hfree]
    rw [ih (by simp only [List.length_append, List.length_singleton]; omega)]
    simp

include hresponse

/-- The dispatcher of the router gets the list back, as far as its buffer goes. -/
theorem remoteDispatch_encoded {events : List InferenceJobEvent} {wire : List UInt8}
    (h : encodeResponse events = some wire) (hroom : events.length ≤ REMOTE_BUFFER) :
    remoteDispatch decodeResponse decodeEvent (.ok wire) = .returned (.ok ⟨events, true, true⟩) := by
  obtain ⟨encoded, hevents, hwire⟩ := encodeResponse_encoded h
  simp only [remoteDispatch, hresponse _ _ hwire]
  apply bufferEvents_encoded hevent hevents
  simpa using hroom

end

end Arknet.Laws
