import Arknet.Compute.Runner
import Arknet.Node.ComputeRole
import Arknet.Node.InferenceHandler
import Arknet.Router.Intake

/-!
What a compute node does with an inference request: it checks it as a router would, runs it under a job id
of its own, answers with the events and submits a receipt.
-/

namespace Arknet.Node

open Machine Arknet.Chain Arknet.Inference Arknet.Compute Arknet.Router

/-- A job that was answered: its id, its events, the response and the transaction of its receipt. -/
structure ServedJob where
  jobId : JobId
  events : List InferenceJobEvent
  response : List UInt8
  receipt : SignedTransaction

/-- `output_tokens`. Every event of the response decodes to itself. -/
def countTokens (events : List InferenceJobEvent) : Exec U32 :=
  events.foldlM (fun outputTokens ev =>
    match ev with
    | .token .. => add outputTokens 1
    | _ => pure outputTokens) 0

variable (K : Primitives)

/-- `job_id`. -/
def computeJobId (req : InferenceJobRequest) (now : Timestamp) : JobId :=
  K.blake3 (ascii "arknet-job-id-v1" ++ (req.billingAddress K).toList ++ Borsh.leBytes 8 req.nonce.val ++
    Borsh.leBytes 8 now.val)

/-- What each node is set up with: its peer id and its pool. -/
structure ComputeNode (η σ : Type) where
  localPeer : List UInt8
  poolId : PoolId
  runner : ComputeJobRunner ModelRef η σ

/-- The clock is read for the checks, before the run and at the end; `items` are those of a stream. The
receipt is submitted when the response was sent. -/
def handleInferenceRequest {η σ : Type} (items : σ → List (Except InferenceError InferenceEvent))
    (node : ComputeNode η σ) (req : InferenceJobRequest) (nowMs now endMs : Timestamp) :
    Exec (Option ServedJob × ComputeNode η σ) := do
  let verified ← verifyRequest K req nowMs
  match verified with
  | .error _ => pure (none, node)
  | .ok () =>
    match ModelRef.parse req.modelRef with
    | .error _ => pure (none, node)
    | .ok modelRef =>
      let jobId := computeJobId K req now
      match node.runner.run K req modelRef now with
      | (.error _, runner) => pure (none, { node with runner := runner })
      | (.ok stream, runner) =>
        let events := ((Bridge.new K).forwardAll K jobId (items stream)).1
        match encodeResponse events with
        | none => pure (none, { node with runner := runner })
        | some response => do
          let outputTokens ← countTokens events
          let job : FinishedJob := {
            jobId := jobId
            poolId := node.poolId
            billingAddr := req.billingAddress K
            modelHash := req.modelHash
            modelRef := modelRef
            promptLen := truncate 64 req.prompt.utf8ByteSize
            seed := req.seed
            outputTokens := outputTokens
            startMs := now
            endMs := endMs }
          pure (some ⟨jobId, events, response, submitReceipt K node.localPeer job⟩,
            { node with runner := runner })

/-- What comes from a peer over the inference protocol. -/
structure InboundInferenceRequest where
  requestId : U64
  data : List UInt8

/-- The calls of `send_inference_response` for what a peer has sent, up to the one at the end; every other
way out of the handler sends nothing. -/
def inboundResponses {η σ : Type} (items : σ → List (Except InferenceError InferenceEvent))
    (node : ComputeNode η σ) (inbound : InboundInferenceRequest) (nowMs now : Timestamp) :
    Exec (List (U64 × List UInt8)) :=
  match InferenceJobRequest.codec.fromSlice inbound.data with
  | none => pure []
  | some req => do
    let verified ← verifyRequest K req nowMs
    match verified with
    | .error _ => pure []
    | .ok () =>
      match ModelRef.parse req.modelRef with
      | .error _ => pure []
      | .ok modelRef =>
        match (node.runner.run K req modelRef now).1 with
        | .error _ => pure []
        | .ok stream =>
          match encodeResponse ((Bridge.new K).forwardAll K (computeJobId K req now) (items stream)).1 with
          | none => pure []
          | some response => pure [(inbound.requestId, response)]

end Arknet.Node
