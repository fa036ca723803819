import Arknet.Compute.Runner
import Arknet.Compute.Stream
import Arknet.Node.ComputeRole

/-!
`/v1/chat/completions`: a request is turned into a session on a model that is loaded on the node, and the
items of its stream either into chunks, one each, or into one response.
-/

namespace Arknet.Node

open Machine Arknet.Chain Arknet.Inference Arknet.Compute

/-! ## Request -/

structure ChatMessage where
  role : String
  content : String
  deriving DecidableEq, Repr

inductive StopCondition where
  | single (s : String)
  | multiple (ss : List String)
  deriving DecidableEq, Repr

def StopCondition.intoVec : StopCondition → List String
  | .single s => [s]
  | .multiple ss => ss

structure ChatCompletionRequest where
  model : String
  messages : List ChatMessage
  maxTokens : U32
  temperature : Float
  topP : Float
  stream : Bool
  stop : Option StopCondition
  preferTee : Bool

structure OpenAiError where
  status : Nat
  message : String
  errorType : String
  deriving DecidableEq, Repr

/-! ## Responses -/

structure Delta where
  role : Option String
  content : Option String
  deriving DecidableEq, Repr

structure ChunkChoice where
  index : U32
  delta : Delta
  finishReason : Option String
  deriving DecidableEq, Repr

structure ChatCompletionChunk where
  id : String
  object : String
  created : U64
  model : String
  choices : List ChunkChoice
  deriving DecidableEq, Repr

structure Choice where
  index : U32
  message : ChatMessage
  finishReason : Option String
  deriving DecidableEq, Repr

structure Usage where
  promptTokens : U32
  completionTokens : U32
  totalTokens : U32
  deriving DecidableEq, Repr

structure ChatCompletionResponse where
  id : String
  object : String
  created : U64
  model : String
  choices : List Choice
  usage : Usage
  deriving DecidableEq, Repr

/-! ## The session of a request -/

/-- What the endpoint uses of its node: the manifests by reference, the runtime that is opened for one
manifest, and what a loaded model runs on. -/
structure ChatNode (μ η σ : Type) where
  teeEnabled : Bool
  manifestFor : String → Option μ
  runtime : ModelRef → μ → Except String (ModelRef → Except InferenceError η)
  backend : η → InferenceMode → SamplingParams → Backend σ

def chatPrompt (messages : List ChatMessage) : String :=
  "\n".intercalate (messages.map fun m => m.role ++ ": " ++ m.content)

def chatSampling (req : ChatCompletionRequest) : SamplingParams :=
  { SamplingParams.default with temperature := req.temperature.toFloat32, topP := req.topP.toFloat32 }

/-- What is checked before anything is decoded, in either mode. -/
def chatSession {μ η σ : Type} (node : ChatNode μ η σ) (req : ChatCompletionRequest) :
    Except OpenAiError (Exec Session) :=
  if req.messages = [] then .error ⟨400, "messages array is empty", "invalid_request_error"⟩
  else if req.preferTee ∧ ¬ node.teeEnabled then
    .error ⟨503, "prefer_tee requested but this node has no TEE capability. " ++
      "Route through a TEE-capable gateway or remove prefer_tee.", "tee_unavailable"⟩
  else
    match ModelRef.parse req.model with
    | .error e => .error ⟨400, "invalid model: " ++ e, "invalid_request_error"⟩
    | .ok modelRef =>
      match node.manifestFor modelRef.toString with
      | none => .error ⟨404, "model not loaded: " ++ modelRef.toString ++ ". POST /v1/models/load first.",
          "model_not_found"⟩
      | some manifest =>
        match node.runtime modelRef manifest with
        | .error e => .error ⟨500, e, "server_error"⟩
        | .ok load =>
          match load modelRef with
          | .error e => .error ⟨500, "model load failed: " ++ e.toString, "server_error"⟩
          | .ok handle => .ok (Session.run (node.backend handle .serving (chatSampling req))
              ⟨chatPrompt req.messages, req.maxTokens, (req.stop.map StopCondition.intoVec).getD []⟩)

/-! ## The stream of a session -/

/-- The decode thread, the channel of the engine, and what the handler has read from it. -/
structure ChatStream where
  decoder : Decoder
  engine : Channel StreamItem ENGINE_BUFFER
  pushed : List (StreamItem × Bool)
  items : List StreamItem
  ended : Bool

inductive ChatMove where
  | push
  | exit
  | read
  | finish
  deriving DecidableEq, Repr

def ChatStream.start (session : Session) : ChatStream := ⟨.running session, .empty, [], [], false⟩

/-- A push does not wait; the handler sees the end when the sender is gone and the channel is empty. -/
def ChatStream.step (c : ChatStream) : ChatMove → Option ChatStream
  | .push => c.decoder.next.map fun (item, answered) =>
      match c.engine.trySend item with
      | some engine =>
        { c with decoder := answered true, engine := engine, pushed := c.pushed ++ [(item, true)] }
      | none => { c with decoder := answered false, pushed := c.pushed ++ [(item, false)] }
  | .exit => if c.decoder.returned then some { c with decoder := .exited } else none
  | .read => c.engine.recv.map fun (item, engine) => { c with engine := engine, items := c.items ++ [item] }
  | .finish =>
    if !c.ended && c.decoder.isExited && c.engine.queue.isEmpty then some { c with ended := true } else none

def ChatStream.Moves (c : ChatStream) (m : ChatMove) (c' : ChatStream) : Prop := c.step m = some c'

/-! ## Streaming -/

def finishReason : StopReason → String
  | .maxTokens => "length"
  | _ => "stop"

/-- The choice of a chunk, and whether the next token is still the first one. -/
def chunkChoice (first : Bool) : StreamItem → ChunkChoice × Bool
  | .ok (.token t) => (⟨0, ⟨if first then some "assistant" else none, some t.text⟩, none⟩, false)
  | .ok (.stop reason) => (⟨0, ⟨none, none⟩, some (finishReason reason)⟩, first)
  | .error e => (⟨0, ⟨none, some ("[error: " ++ e.toString ++ "]")⟩, some "stop"⟩, first)

/-- One chunk for each item; `clock` is read for each. -/
def chatChunksFrom (requestId model : String) (clock : Nat → U64) :
    Nat → Bool → List StreamItem → List ChatCompletionChunk
  | _, _, [] => []
  | i, first, item :: items =>
    ⟨requestId, "chat.completion.chunk", clock i, model, [(chunkChoice first item).1]⟩ ::
      chatChunksFrom requestId model clock (i + 1) (chunkChoice first item).2 items

def chatChunks (requestId model : String) (clock : Nat → U64) (items : List StreamItem) :
    List ChatCompletionChunk := chatChunksFrom requestId model clock 0 true items

/-! ## Collecting -/

/-- `text`, `finish` and `completion_tokens`. -/
structure Collected where
  text : String
  finish : String
  completionTokens : U32

def Collected.add (c : Collected) : InferenceEvent → Exec Collected
  | .token t => do
    let completionTokens ← Machine.add c.completionTokens 1
    pure { c with text := c.text ++ t.text, completionTokens := completionTokens }
  | .stop .maxTokens => pure { c with finish := "length" }
  | .stop _ => pure c

/-- `try_collect`, then the fold over the events. -/
def chatResponse (requestId model : String) (created : U64) (items : List StreamItem) :
    Exec (Except OpenAiError ChatCompletionResponse) :=
  match items.mapM id with
  | .error e => pure (.error ⟨500, e.toString, "server_error"⟩)
  | .ok events => do
    let c ← events.foldlM Collected.add ⟨"", "stop", 0⟩
    pure (.ok {
      id := requestId
      object := "chat.completion"
      created := created
      model := model
      choices := [⟨0, ⟨"assistant", c.text⟩, some c.finish⟩]
      usage := ⟨0, c.completionTokens, c.completionTokens⟩ })

end Arknet.Node
