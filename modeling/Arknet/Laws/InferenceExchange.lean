import Arknet.Laws.ResponseFormat
import Arknet.Network.InferenceProto
import Arknet.Node.ServeInference

/-!
A request to a compute node and its answer, over substreams that are cut into pieces and may be cut off. Who
gets an answer gets the node's, and a router reads the events of the job from it (`inference_exchange`).
-/

namespace Arknet.Laws

open Machine Borsh Arknet.Chain Arknet.Compute Arknet.Inference Arknet.Node Arknet.Router Arknet.Network

/-! ## Framed messages -/

theorem readFramed_eq_ok {io : List (List UInt8)} {max : Nat} {body : List UInt8} :
    readFramed io max = .ok body ↔ ∃ rest, Frames.read max io = .ok (body, rest) := by
  unfold readFramed
  split <;> rename_i h
  · simp [h]
  · simp only [h, Except.ok.injEq, Prod.mk.injEq]
    constructor
    · rintro rfl
      exact ⟨_, rfl, rfl⟩
    · rintro ⟨rest, rfl, -⟩
      rfl

/-- Whether a message arrives is a matter of its length and of what the link loses. -/
theorem readFramed_frame {max : Nat} (hmax : max < 2 ^ 32) {sent : List UInt8} (hsent : sent.length ≤ max)
    (link : Link) {body : List UInt8} :
    readFramed (link.deliver (Frames.frame sent)) max = .ok body ↔ body = sent ∧ link.Whole (Frames.frame sent) := by
  rw [readFramed_eq_ok]
  by_cases hwhole : link.Whole (Frames.frame sent)
  · have hall : (link.deliver (Frames.frame sent)).flatten = Frames.frame sent ++ [] := by
      rw [List.append_nil]
      exact hwhole
    obtain ⟨rest, hread, -⟩ := Frames.read_frame hmax hsent hall
    rw [hread]
    simp [hwhole, eq_comm]
  · rw [Frames.read_cut hmax hsent (link.delivered _) hwhole]
    simp [hwhole]

theorem readFramed_nothing {max : Nat} (link : Link) :
    readFramed (link.deliver []) max = .error .unexpectedEof := by
  have hnothing : (link.deliver []).flatten = [] := List.prefix_nil.mp (link.delivered [])
  have hnone : Frames.readExact 4 (link.deliver []) = none :=
    Frames.readExact_eq_none.mpr (by rw [hnothing]; decide)
  rw [readFramed, Frames.read, hnone]
  rfl

theorem writeFramed_eq_ok {body written : List UInt8} {max : Nat} :
    writeFramed body max = .ok written ↔ body.length ≤ max ∧ written = Frames.frame body := by
  unfold writeFramed Frames.write
  split_ifs with h
  · exact iff_of_false (by simp [Except.mapError]) fun hle => absurd hle.1 (not_le.mpr h)
  · simp [Except.mapError, not_lt.mp h, eq_comm]

/-! ## The exchange -/

theorem requestSeen_eq_some {there : Link} {request seen : List UInt8} :
    requestSeen there request = some seen ↔
      seen = request ∧ request.length ≤ MAX_REQUEST_BYTES ∧ there.Whole (Frames.frame request) := by
  unfold requestSeen
  split <;> rename_i hwrite
  · refine iff_of_false (by simp) ?_
    rintro ⟨-, hle, -⟩
    cases hwrite.symm.trans (writeFramed_eq_ok.mpr ⟨hle, rfl⟩)
  · obtain ⟨hle, rfl⟩ := writeFramed_eq_ok.mp hwrite
    have hread : readFramed (there.deliver (Frames.frame request)) MAX_REQUEST_BYTES = .ok seen ↔
        seen = request ∧ there.Whole (Frames.frame request) := readFramed_frame (by decide) hle there
    rw [and_iff_right hle, ← hread, InferenceCodec.readRequest]
    cases readFramed (there.deliver (Frames.frame request)) MAX_REQUEST_BYTES <;> simp [Except.toOption]

/-- An answer that a requester reads. -/
theorem readResponse_answered (back : Link) {answered : Option (List UInt8)} {answer : List UInt8} :
    InferenceCodec.readResponse (back.deliver ((answered.bind fun resp =>
      (InferenceCodec.writeResponse resp).toOption).getD [])) = .ok answer ↔
    answered = some answer ∧ answer.length ≤ MAX_RESPONSE_BYTES ∧ back.Whole (Frames.frame answer) := by
  have hnothing : ¬ InferenceCodec.readResponse (back.deliver []) = .ok answer := by
    rw [InferenceCodec.readResponse, readFramed_nothing]
    simp
  cases answered with
  | none => exact iff_of_false hnothing (by simp)
  | some resp =>
    rw [Option.bind_some]
    cases hwrite : InferenceCodec.writeResponse resp with
    | error e =>
      refine iff_of_false hnothing ?_
      rintro ⟨h, hle, -⟩
      cases h
      cases hwrite.symm.trans (writeFramed_eq_ok.mpr ⟨hle, rfl⟩)
    | ok written =>
      obtain ⟨hle, rfl⟩ := writeFramed_eq_ok.mp hwrite
      show InferenceCodec.readResponse (back.deliver (Frames.frame resp)) = _ ↔ _
      rw [InferenceCodec.readResponse, readFramed_frame (by decide) hle]
      constructor
      · rintro ⟨rfl, hwhole⟩
        exact ⟨rfl, hle, hwhole⟩
      · rintro ⟨h, -, hwhole⟩
        cases h
        exact ⟨rfl, hwhole⟩

theorem exchange_eq_ok {there back : Link} {respond : List UInt8 → Option (List UInt8)}
    {request answer : List UInt8} : exchange there back respond request = .ok answer ↔
      request.length ≤ MAX_REQUEST_BYTES ∧ there.Whole (Frames.frame request) ∧ respond request = some answer ∧
        answer.length ≤ MAX_RESPONSE_BYTES ∧ back.Whole (Frames.frame answer) := by
  unfold exchange
  split <;> rename_i hwrite
  · refine iff_of_false (by simp) ?_
    rintro ⟨hle, -⟩
    cases hwrite.symm.trans (writeFramed_eq_ok.mpr ⟨hle, rfl⟩)
  · have hle := (writeFramed_eq_ok.mp hwrite).1
    dsimp only
    rw [readResponse_answered, Option.bind_eq_some_iff]
    constructor
    · rintro ⟨⟨seen, hseen, hrespond⟩, hlength, hback⟩
      obtain ⟨rfl, -, hthere⟩ := requestSeen_eq_some.mp hseen
      exact ⟨hle, hthere, hrespond, hlength, hback⟩
    · rintro ⟨-, hthere, hrespond, hlength, hback⟩
      exact ⟨⟨request, requestSeen_eq_some.mpr ⟨rfl, hle, hthere⟩, hrespond⟩, hlength, hback⟩

/-! ## A compute node at the other end -/

section

variable (K : Primitives) {η σ : Type} (items : σ → List (Except InferenceError InferenceEvent))
  (node : ComputeNode η σ)

/-- What the node sends for the bytes it is handed. -/
def nodeAnswer (requestId : U64) (nowMs now : Timestamp) (data : List UInt8) : Option (List UInt8) :=
  match inboundResponses K items node ⟨requestId, data⟩ nowMs now with
  | .ok ((_, response) :: _) => some response
  | _ => none

/-- A job that the node runs for these bytes, and its events. -/
def RunsJob (nowMs now : Timestamp) (data : List UInt8) (events : List InferenceJobEvent) : Prop :=
  ∃ req modelRef stream, InferenceJobRequest.codec.encode req = some data ∧
    verifyRequest K req nowMs = .ok (.ok ()) ∧ ModelRef.parse req.modelRef = .ok modelRef ∧
    (node.runner.run K req modelRef now).1 = .ok stream ∧
    events = ((Bridge.new K).forwardAll K (computeJobId K req now) (items stream)).1

variable {K items node}

theorem nodeAnswer_eq_some {requestId : U64} {nowMs now : Timestamp} {data answer : List UInt8} :
    nodeAnswer K items node requestId nowMs now data = some answer ↔
      ∃ events, RunsJob K items node nowMs now data events ∧ encodeResponse events = some answer := by
  constructor
  · intro h
    unfold nodeAnswer at h
    split at h
    · rename_i id response rest hresponses
      cases h
      unfold inboundResponses at hresponses
      split at hresponses
      · cases hresponses
      rename_i req hdecodes
      obtain ⟨verified, hverified, hresponses⟩ := bind_eq_ok.mp hresponses
      cases verified with
      | error e => cases hresponses
      | ok u =>
        dsimp only at hresponses
        split at hresponses
        · cases hresponses
        rename_i modelRef hparse
        split at hresponses
        · cases hresponses
        rename_i stream hrun
        split at hresponses
        · cases hresponses
        rename_i hencode
        cases hresponses
        exact ⟨_, ⟨req, modelRef, stream, InferenceJobRequest.codec.fromSlice_eq_some.mp hdecodes, hverified,
          hparse, hrun, rfl⟩, hencode⟩
    · cases h
  · rintro ⟨events, ⟨req, modelRef, stream, hencodes, hverified, hparse, hrun, rfl⟩, hencode⟩
    have hdecodes := InferenceJobRequest.codec.fromSlice_encode hencodes
    have hresponses : inboundResponses K items node ⟨requestId, data⟩ nowMs now = .ok [(requestId, answer)] := by
      simp only [inboundResponses, hdecodes, hverified, ok_bind, hparse, hrun, hencode]
      rfl
    rw [nodeAnswer, hresponses]

end

/-- How a router reads an encoding, with its own texts for what it cannot read. -/
def readOr {α : Type} (c : Codec α) (what : List UInt8 → String) (bytes : List UInt8) : Except String α :=
  match c.fromSlice bytes with
  | some a => .ok a
  | none => .error (what bytes)

theorem readOr_encode {α : Type} (c : Codec α) (what : List UInt8 → String) {a : α} {bytes : List UInt8}
    (h : c.encode a = some bytes) : readOr c what bytes = .ok a := by
  rw [readOr, c.fromSlice_encode h]

/-- However the two links cut what they carry, and wherever they lose the rest of it: the node is handed the
request or nothing, the requester has the answer of a job that the node ran for that very request or an error,
and a router has the events of that job from it, as far as its channel goes. -/
theorem inference_exchange (K : Primitives) (there back : Link) (request : List UInt8) {η σ : Type}
    (items : σ → List (Except InferenceError InferenceEvent)) (node : ComputeNode η σ) (requestId : U64)
    (nowMs now : Timestamp) :
    (∀ seen, requestSeen there request = some seen ↔
      seen = request ∧ request.length ≤ MAX_REQUEST_BYTES ∧ there.Whole (Frames.frame request)) ∧
    (∀ answer, exchange there back (nodeAnswer K items node requestId nowMs now) request = .ok answer ↔
      request.length ≤ MAX_REQUEST_BYTES ∧ there.Whole (Frames.frame request) ∧
      (∃ events, RunsJob K items node nowMs now request events ∧ encodeResponse events = some answer) ∧
      answer.length ≤ MAX_RESPONSE_BYTES ∧ back.Whole (Frames.frame answer)) ∧
    (∀ answer events what what', RunsJob K items node nowMs now request events →
      exchange there back (nodeAnswer K items node requestId nowMs now) request = .ok answer →
      events.length ≤ REMOTE_BUFFER →
      remoteDispatch (fun bytes => (readOr InferenceResponse.codec what bytes).map InferenceResponse.events)
        (readOr InferenceJobEvent.codec what') (.ok answer) = .returned (.ok ⟨events, true, true⟩)) := by
  refine ⟨fun seen => requestSeen_eq_some, fun answer => ?_, fun answer events what what' hruns hok hroom => ?_⟩
  · rw [exchange_eq_ok, nodeAnswer_eq_some]
  · obtain ⟨-, -, hanswer, -⟩ := exchange_eq_ok.mp hok
    obtain ⟨events', hruns', hencode⟩ := nodeAnswer_eq_some.mp hanswer
    have hsame : events' = events := by
      obtain ⟨req, modelRef, stream, hdata, -, hparse, hrun, rfl⟩ := hruns
      obtain ⟨req', modelRef', stream', hdata', -, hparse', hrun', rfl⟩ := hruns'
      obtain rfl := InferenceJobRequest.codec.encode_injective hdata hdata'
      obtain rfl := Except.ok.inj (hparse.symm.trans hparse')
      obtain rfl := Except.ok.inj (hrun.symm.trans hrun')
      rfl
    subst hsame
    refine remoteDispatch_encoded (fun r bytes hr => ?_) (fun event bytes he => readOr_encode _ _ he) hencode hroom
    rw [readOr_encode _ _ hr]
    rfl

end Arknet.Laws
