import Arknet.Laws.Failover
import Arknet.Node.ServeInference

/-!
The two ends of a request to a remote compute node. The handler answers on one path only; the dispatcher
puts a response into a channel that nobody reads yet.
-/

namespace Arknet.Laws

open Machine Borsh Arknet.Chain Arknet.Inference Arknet.Compute Arknet.Router Arknet.Node

/-! ## The handler -/

section

variable {K : Primitives} {η σ : Type} {items : σ → List (Except InferenceError InferenceEvent)}
  {node node' : ComputeNode η σ} {inbound : InboundInferenceRequest} {nowMs now endMs : Timestamp}

/-- The response of a served job is the one that is sent. -/
theorem inboundResponses_served {req : InferenceJobRequest} {job : Option ServedJob}
    (hdata : InferenceJobRequest.codec.fromSlice inbound.data = some req)
    (h : handleInferenceRequest K items node req nowMs now endMs = .ok (job, node')) :
    inboundResponses K items node inbound nowMs now =
      .ok (job.toList.map (fun j => (inbound.requestId, j.response))) := by
  simp only [handleInferenceRequest, bind_eq_ok] at h
  obtain ⟨verified, hverified, h⟩ := h
  simp only [inboundResponses, hdata, hverified, ok_bind]
  cases verified with
  | error e =>
    cases h
    rfl
  | ok _ =>
    simp only at h ⊢
    split at h
    · cases h
      rfl
    · rename_i modelRef hmodel
      split at h
      · rename_i e runner hrun
        cases h
        rw [hrun]
        rfl
      · rename_i stream runner hrun
        rw [hrun]
        simp only
        split at h
        · cases h
          rfl
        · simp only [bind_eq_ok] at h
          obtain ⟨tokens, -, h⟩ := h
          cases h
          rfl

/-- What has to hold of the bytes and of the node for the one path that ends in a response: the bytes
decode, the request is verified and names a model, the runner takes it in, and the events can be encoded. -/
def Answerable (K : Primitives) (items : σ → List (Except InferenceError InferenceEvent))
    (node : ComputeNode η σ) (data : List UInt8) (nowMs now : Timestamp) : Prop :=
  ∃ req modelRef prompt handle,
    InferenceJobRequest.codec.fromSlice data = some req ∧ verifyRequest K req nowMs = .ok (.ok ()) ∧
    ModelRef.parse req.modelRef = .ok modelRef ∧ node.runner.admitted req now = .ok prompt ∧
    (node.runner.nonces.insert (req.billingAddress K) req.nonce).1 = true ∧
    node.runner.engine.load modelRef = .ok handle ∧
    (encodeResponse ((Bridge.new K).forwardAll K (computeJobId K req now)
      (items (node.runner.engine.infer handle (inferenceRequest req prompt)))).1).isSome = true

/-- The responses to a request that is verified. -/
theorem inboundResponses_verified {req : InferenceJobRequest}
    (hdata : InferenceJobRequest.codec.fromSlice inbound.data = some req)
    (hverified : verifyRequest K req nowMs = .ok (.ok ())) (response : List UInt8) :
    inboundResponses K items node inbound nowMs now = .ok [(inbound.requestId, response)] ↔
      ∃ modelRef stream, ModelRef.parse req.modelRef = .ok modelRef ∧
        (node.runner.run K req modelRef now).1 = .ok stream ∧
        encodeResponse ((Bridge.new K).forwardAll K (computeJobId K req now) (items stream)).1 =
          some response := by
  simp only [inboundResponses, hdata, hverified, ok_bind]
  cases ModelRef.parse req.modelRef with
  | error e => simp [pure, Except.pure]
  | ok modelRef =>
    dsimp only
    cases hrun : (node.runner.run K req modelRef now).1 with
    | error e => simp [pure, Except.pure, hrun]
    | ok stream =>
      dsimp only
      cases hencoded : encodeResponse ((Bridge.new K).forwardAll K (computeJobId K req now)
          (items stream)).1 with
      | none => simp [pure, Except.pure, hrun, hencoded]
      | some wire => simp [pure, Except.pure, hrun, hencoded]

/-- Exactly then one response goes out, under the id of the request. -/
theorem answered_once (K : Primitives) (items : σ → List (Except InferenceError InferenceEvent))
    (node : ComputeNode η σ) (inbound : InboundInferenceRequest) (nowMs now : Timestamp) :
    (∃ response, inboundResponses K items node inbound nowMs now =
        .ok [(inbound.requestId, response)]) ↔
      Answerable K items node inbound.data nowMs now := by
  constructor
  · rintro ⟨response, h⟩
    cases hdata : InferenceJobRequest.codec.fromSlice inbound.data with
    | none => simp [inboundResponses, hdata, pure, Except.pure] at h
    | some req =>
      have hverified : verifyRequest K req nowMs = .ok (.ok ()) := by
        have h' := h
        simp only [inboundResponses, hdata, bind_eq_ok] at h'
        obtain ⟨verified, hverified, h'⟩ := h'
        cases verified with
        | error e => simp [pure, Except.pure] at h'
        | ok _ => exact hverified
      obtain ⟨modelRef, stream, hmodel, hrun, hresponse⟩ :=
        (inboundResponses_verified hdata hverified response).mp h
      obtain ⟨prompt, handle, hadmitted, hnew, hload, rfl⟩ := ComputeJobRunner.run_eq_ok.mp hrun
      exact ⟨req, modelRef, prompt, handle, hdata, hverified, hmodel, hadmitted, hnew, hload, by
        rw [hresponse]
        rfl⟩
  · rintro ⟨req, modelRef, prompt, handle, hdata, hverified, hmodel, hadmitted, hnew, hload, hencoded⟩
    obtain ⟨response, hresponse⟩ := Option.isSome_iff_exists.mp hencoded
    exact ⟨response, (inboundResponses_verified hdata hverified response).mpr
      ⟨modelRef, _, hmodel, ComputeJobRunner.run_eq_ok.mpr ⟨prompt, handle, hadmitted, hnew, hload, rfl⟩,
        hresponse⟩⟩

end

/-- A node that has no models. -/
def emptyNode : ComputeNode Unit Unit := ⟨[], 0, .new ⟨fun _ => .error (.modelManager ""), fun _ _ => ()⟩⟩

/-- Bytes that are no request are not answered. -/
theorem undecodable_unanswered :
    ¬ ∃ response, inboundResponses toyPrimitives (fun _ => []) emptyNode ⟨7, []⟩ 0 0 =
      .ok [(7, response)] := by
  rintro ⟨response, h⟩
  cases h

/-! ## The dispatcher -/

/-- The call comes back, and a stream that it hands over has all the events of the response. -/
def HandsOver (decodeEvent : List UInt8 → Except String InferenceJobEvent) (raws : List (List UInt8))
    (outcome : Outcome EventStream) : Prop :=
  ∃ result, outcome = .returned result ∧ ∀ stream, result = .ok stream →
    stream.closes = true ∧ raws.map decodeEvent = stream.events.map .ok

section

variable {decodeEvent : List UInt8 → Except String InferenceJobEvent} {sent : List InferenceJobEvent}
  {raws : List (List UInt8)}

/-- The call comes back when the events fit into the channel, or when one of those that are looked at
does not decode. -/
theorem bufferEvents_returned {room : Nat} (h : sent.length + room = REMOTE_BUFFER) :
    (∃ result, bufferEvents decodeEvent sent raws = .returned result) ↔
      raws.length ≤ room ∨ ∃ raw ∈ raws.take (room + 1), ∃ e, decodeEvent raw = .error e := by
  induction raws generalizing sent room with
  | nil => exact iff_of_true ⟨_, rfl⟩ (.inl (Nat.zero_le _))
  | cons raw rest ih =>
    rw [bufferEvents, List.take_succ_cons, List.length_cons]
    cases hevent : decodeEvent raw with
    | error e => exact iff_of_true ⟨_, rfl⟩ (.inr ⟨raw, List.mem_cons_self, e, hevent⟩)
    | ok event =>
      dsimp only
      cases room with
      | zero =>
        rw [if_pos (by omega)]
        refine iff_of_false (by simp) ?_
        simp [hevent]
      | succ room =>
        have hroom : (sent ++ [event]).length + room = REMOTE_BUFFER := by
          rw [List.length_append, List.length_singleton]
          omega
        rw [if_neg (by omega), ih hroom]
        simp [hevent]

end

/-- A decoded response is handed over exactly when its events fit into the channel, or one of those that
are looked at does not decode. -/
theorem stream_handed_over (decodeResponse : List UInt8 → Except String (List (List UInt8)))
    (decodeEvent : List UInt8 → Except String InferenceJobEvent) (wireResp : List UInt8)
    (raws : List (List UInt8)) (h : decodeResponse wireResp = .ok raws) :
    HandsOver decodeEvent raws (remoteDispatch decodeResponse decodeEvent (.ok wireResp)) ↔
      raws.length ≤ REMOTE_BUFFER ∨
        ∃ raw ∈ raws.take (REMOTE_BUFFER + 1), ∃ e, decodeEvent raw = .error e := by
  rw [remoteDispatch, h,
    ← bufferEvents_returned (show [].length + REMOTE_BUFFER = REMOTE_BUFFER from Nat.zero_add _)]
  constructor
  · rintro ⟨result, hreturned, -⟩
    exact ⟨result, hreturned⟩
  · rintro ⟨result, hreturned⟩
    refine ⟨result, hreturned, ?_⟩
    rintro stream rfl
    obtain ⟨hcloses, -, events, hevents, hdecoded⟩ := bufferEvents_ok (Nat.zero_le _) hreturned
    rw [hevents]
    exact ⟨hcloses, hdecoded⟩

/-- Borsh, with one text for every failure. -/
def readEvent (raw : List UInt8) : Except String InferenceJobEvent :=
  match InferenceJobEvent.codec.fromSlice raw with
  | none => .error "Unexpected length of input"
  | some event => .ok event

def readResponse (wire : List UInt8) : Except String (List (List UInt8)) :=
  match InferenceResponse.codec.fromSlice wire with
  | none => .error "Unexpected length of input"
  | some response => .ok response.events

/-- The event that says that a node is busy. -/
def busyBytes : List UInt8 := 3 :: List.replicate 32 0

/-- A response of `n` such events. -/
def busyWire (n : Nat) : List UInt8 :=
  Borsh.leBytes 4 n ++ (List.replicate n (Borsh.leBytes 4 33 ++ busyBytes)).flatten

theorem encodeAll_busy (n : Nat) :
    Codec.bytes.encodeAll (List.replicate n busyBytes) =
      some (List.replicate n (Borsh.leBytes 4 33 ++ busyBytes)).flatten := by
  induction n with
  | zero => rfl
  | succ n ih =>
    have hone : Codec.bytes.encode busyBytes = some (Borsh.leBytes 4 33 ++ busyBytes) :=
      Codec.bytes_encode.mpr ⟨by decide, rfl⟩
    rw [List.replicate_succ, Codec.encodeAll, hone, ih]
    rfl

theorem readResponse_busy {n : Nat} (h : n < 2 ^ 32) :
    readResponse (busyWire n) = .ok (List.replicate n busyBytes) := by
  have hencoded : InferenceResponse.codec.encode ⟨List.replicate n busyBytes⟩ = some (busyWire n) := by
    have hlen : (List.replicate n busyBytes).length = n := List.length_replicate
    exact (Codec.vec_encode _).mpr ⟨hlen.trans_lt h, _, encodeAll_busy n,
      congrArg (fun k => Borsh.leBytes 4 k ++ _) hlen⟩
  rw [readResponse, Codec.fromSlice_encode _ hencoded]

theorem readEvent_busy : readEvent busyBytes = .ok (.busy 0) := by decide

theorem stream_handed_over_one :
    HandsOver readEvent [busyBytes] (remoteDispatch readResponse readEvent (.ok (busyWire 1))) :=
  (stream_handed_over readResponse readEvent (busyWire 1) [busyBytes] (readResponse_busy (by decide))).mpr
    (.inl (by decide))

/-- With one event more than the channel takes, the call waits for ever. -/
theorem long_response_waits :
    readResponse (busyWire 65) = .ok (List.replicate 65 busyBytes) ∧
      ¬ HandsOver readEvent (List.replicate 65 busyBytes)
        (remoteDispatch readResponse readEvent (.ok (busyWire 65))) := by
  have hdecoded := readResponse_busy (n := 65) (by decide)
  refine ⟨hdecoded, ?_⟩
  rintro ⟨result, hreturned, -⟩
  rw [remoteDispatch, hdecoded] at hreturned
  obtain hshort | ⟨raw, hraw, e, he⟩ :=
    (bufferEvents_returned (show [].length + 64 = REMOTE_BUFFER from rfl)).mp ⟨result, hreturned⟩
  · exact absurd hshort (by rw [List.length_replicate]; decide)
  · rw [List.eq_of_mem_replicate (List.mem_of_mem_take hraw), readEvent_busy] at he
    cases he

end Arknet.Laws
