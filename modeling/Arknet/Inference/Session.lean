import Arknet.Lib.Machine
import Arknet.Lib.Utf8

/-!
One decode session. The backend (context, tokenizer, sampler) is a parameter; what is modelled is the
loop around it and what it hands to its event sink. A session is the tree of its exchanges with the
sink: an event, and what follows each of the two answers.
-/

namespace Arknet.Inference

open Machine

abbrev Token := Int

inductive InferenceError where
  | modelLoad (what : String)
  | contextInit (what : String)
  | tokenize (what : String)
  | decode (code : Int)
  | cancelled
  | notImplemented (what : String)
  | checkpoint (what : String)
  | modelManager (what : String)
  | io (what : String)
  deriving DecidableEq, Repr

def InferenceError.toString : InferenceError → String
  | .modelLoad what => "model load failed: " ++ what
  | .contextInit what => "context init failed: " ++ what
  | .tokenize what => "tokenize: " ++ what
  | .decode code => "decode failed: code=" ++ ToString.toString code
  | .cancelled => "cancelled by caller"
  | .notImplemented what => "not implemented: " ++ what
  | .checkpoint what => "checkpoint: " ++ what
  | .modelManager what => "model manager: " ++ what
  | .io what => "io: " ++ what

/-! ## Events -/

structure TokenEvent where
  index : U32
  tokenId : Token
  text : String
  deriving DecidableEq, Repr

inductive StopReason where
  | maxTokens
  | endOfStream
  | stopString (s : String)
  | cancelled
  deriving DecidableEq, Repr

inductive InferenceEvent where
  | token (t : TokenEvent)
  | stop (reason : StopReason)
  deriving DecidableEq, Repr

/-! ## Text -/

/-- The bytes of a string. -/
def utf8 (s : String) : List UInt8 := s.toByteArray.data.toList

@[simp] theorem utf8_empty : utf8 "" = [] := rfl

@[simp] theorem utf8_append (s t : String) : utf8 (s ++ t) = utf8 s ++ utf8 t := by
  simp [utf8]

/-- Bytes that do not make up a whole code point yet. -/
structure PieceBuffer where
  pending : List UInt8

def PieceBuffer.new : PieceBuffer := ⟨[]⟩

/-- Take in bytes; hand out the longest valid prefix of what is pending. -/
def PieceBuffer.feed (b : PieceBuffer) (bytes : List UInt8) : String × PieceBuffer :=
  let pending := b.pending ++ bytes
  let prefixes := (List.range (pending.length + 1)).reverse.filterMap (fun n =>
    (String.fromUTF8? ⟨(pending.take n).toArray⟩).map (fun s => (s, n)))
  match prefixes.head? with
  | some (s, n) => (s, ⟨pending.drop n⟩)
  | none => ("", ⟨pending⟩)

/-- `String::from_utf8_lossy`. -/
def fromUtf8Lossy (bytes : List UInt8) : String := String.ofList (Utf8.lossy bytes)

/-- Hand out what is left. -/
def PieceBuffer.flush (b : PieceBuffer) : String × PieceBuffer := (fromUtf8Lossy b.pending, .new)

/-! ## The session -/

/-- What a session runs on; `decode` returns the status of `llama_decode`. -/
structure Backend (σ : Type) where
  start : Except InferenceError σ
  nCtx : U32
  encode : String → Except InferenceError (List Token)
  decode : σ → List Token → Int × σ
  sample : σ → Token × σ
  eos : Token
  tokenToPiece : Token → List UInt8

structure SessionRequest where
  prompt : String
  maxTokens : U32
  stop : List String

structure SessionOutcome where
  generatedTokens : List Token
  text : String
  reason : StopReason
  deriving DecidableEq, Repr

inductive Session where
  | push (event : InferenceEvent) (answered : Bool → Session)
  | done (result : Except InferenceError SessionOutcome)

/-- The end of every session that does not fail. -/
def Session.stop (outcome : SessionOutcome) : Session :=
  .push (.stop outcome.reason) (fun _ => .done (.ok outcome))

/-- What was generated so far: the tokens, the bytes that wait in the buffer, and the text. -/
structure Generated where
  tokens : List Token
  pieces : PieceBuffer
  text : String

/-- After the loop the buffer is flushed into the text. -/
def Generated.outcome (g : Generated) (reason : StopReason) : SessionOutcome :=
  ⟨g.tokens, g.text ++ g.pieces.flush.1, reason⟩

section

variable {σ : Type} (B : Backend σ) (req : SessionRequest)

/-- The decode loop over the indices that are left. -/
def generate : List U32 → σ → Generated → Session
  | [], _, g => .stop (g.outcome .maxTokens)
  | index :: rest, ctx, g =>
    let (token, ctx) := B.sample ctx
    if 0 ≤ B.eos ∧ token = B.eos then .stop (g.outcome .endOfStream)
    else
      let (fragment, pieces) := g.pieces.feed (B.tokenToPiece token)
      let g : Generated := ⟨g.tokens ++ [token], pieces, g.text ++ fragment⟩
      match req.stop.find? (fun s => (utf8 s).isSuffixOf (utf8 g.text)) with
      | some s => .push (.token ⟨index, token, fragment⟩) (fun kept =>
          .stop (g.outcome (if kept then .stopString s else .cancelled)))
      | none => .push (.token ⟨index, token, fragment⟩) (fun kept =>
          if kept then
            let (code, ctx) := B.decode ctx [token]
            if code ≠ 0 then .done (.error (.decode code)) else generate rest ctx g
          else .stop (g.outcome .cancelled))

/-- `run_sync`: the session of a request on a fresh context. -/
def Session.run : Exec Session :=
  match B.start with
  | .error e => pure (.done (.error e))
  | .ok ctx =>
    match B.encode req.prompt with
    | .error e => pure (.done (.error e))
    | .ok promptTokens =>
      if promptTokens = [] then pure (.done (.error (.tokenize "prompt tokenized to zero tokens")))
      else do
        let needed ← add (truncate 32 promptTokens.length) req.maxTokens
        if B.nCtx < needed then
          pure (.done (.error (.tokenize ("prompt (" ++ toString promptTokens.length ++
            " tokens) + max_tokens (" ++ toString req.maxTokens.val ++ ") exceed context (" ++
            toString B.nCtx.val ++ ")"))))
        else
          let (code, ctx) := B.decode ctx promptTokens
          if code ≠ 0 then pure (.done (.error (.decode code)))
          else pure (generate B req ((List.range req.maxTokens.val).map (truncate 32)) ctx
            ⟨[], .new, ""⟩)

end

end Arknet.Inference
