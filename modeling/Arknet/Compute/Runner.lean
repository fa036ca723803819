import Arknet.Compute.Wire

/-!
`ComputeJobRunner::run` up to the stream: the prompt is decrypted, the shape of the request and its nonce
are checked, and the model is loaded. The engine is a parameter, as is the decryption of a sealed prompt.
-/

namespace Arknet.Compute

open Machine Arknet.Chain Arknet.Inference

inductive ComputeError where
  | inference (e : InferenceError)
  | cancelled
  | internal (what : String)
  | signing (what : String)
  | badRequest (what : String)
  deriving DecidableEq, Repr

/-! ## Replay cache -/

def NONCE_CACHE_CAP : Nat := 8192

/-- Oldest first. -/
structure NonceCache where
  cap : Nat
  seen : List (Address × Nonce)
  deriving DecidableEq, Repr

def NonceCache.new (cap : Nat) : NonceCache := ⟨cap, []⟩

/-- `true` if the pair is new, and then it is stored. -/
def NonceCache.insert (cache : NonceCache) (addr : Address) (nonce : Nonce) : Bool × NonceCache :=
  if (addr, nonce) ∈ cache.seen then (false, cache)
  else
    let seen := if cache.seen.length ≥ cache.cap then cache.seen.tail else cache.seen
    (true, { cache with seen := seen ++ [(addr, nonce)] })

/-! ## Engine -/

inductive InferenceMode where
  | serving
  | deterministic
  deriving DecidableEq, Repr

structure SamplingParams where
  temperature : Float32
  topK : U32
  topP : Float32
  seed : U64

def SamplingParams.default : SamplingParams := ⟨0.8, 40, 0.95, 0⟩

def SamplingParams.GREEDY : SamplingParams := ⟨0.0, 1, 1.0, 0⟩

structure InferenceRequest where
  prompt : String
  maxTokens : U32
  mode : InferenceMode
  sampling : SamplingParams
  stop : List String

/-- Model references `μ`, handles `η`, streams `σ`. Loading goes through the model manager and llama.cpp;
a stream is returned before anything is decoded, so that errors of a session are items of it. -/
structure InferenceEngine (μ η σ : Type) where
  load : μ → Except InferenceError η
  infer : η → InferenceRequest → σ

/-! ## Sealed prompts -/

structure SealedPrompt where
  ephemeralPubkey : List UInt8
  nonce : List UInt8
  ciphertext : List UInt8
  deriving DecidableEq, Repr

def NONCE_LEN : Nat := 12

/-- The two conversions into arrays. -/
def EncryptedEnvelope.sealed (envelope : EncryptedEnvelope) : Except ComputeError SealedPrompt :=
  if envelope.ephemeralPubkey.length ≠ 32 then .error (.badRequest "bad ephemeral pubkey length")
  else if envelope.nonce.length ≠ NONCE_LEN then .error (.badRequest "bad nonce length")
  else .ok ⟨envelope.ephemeralPubkey, envelope.nonce, envelope.ciphertext⟩

/-- The error of the UTF-8 check, which ends its message, is left out. -/
def promptText (opened : Except String (List UInt8)) : Except ComputeError String :=
  match opened with
  | .error e => .error (.badRequest ("prompt decryption failed: " ++ e))
  | .ok plaintext =>
    match String.fromUTF8? ⟨plaintext.toArray⟩ with
    | none => .error (.badRequest "decrypted prompt not UTF-8: ")
    | some prompt => .ok prompt

/-! ## Runner -/

/-- An enclave key is what it opens. -/
structure ComputeJobRunner (μ η σ : Type) where
  engine : InferenceEngine μ η σ
  nonces : NonceCache
  enclaveKey : Option (SealedPrompt → Except String (List UInt8))

section

variable {μ η σ : Type}

def ComputeJobRunner.new (engine : InferenceEngine μ η σ) : ComputeJobRunner μ η σ :=
  ⟨engine, .new NONCE_CACHE_CAP, none⟩

/-- The prompt to run. -/
def ComputeJobRunner.prompt (runner : ComputeJobRunner μ η σ) (req : InferenceJobRequest) :
    Except ComputeError String :=
  match req.encryptedPrompt with
  | none => .ok req.prompt
  | some envelope =>
    match runner.enclaveKey with
    | none => .error (.badRequest "encrypted prompt received but node has no enclave key")
    | some openPrompt => do
      let sealed ← envelope.sealed
      promptText (openPrompt sealed)

/-- What is checked before the nonce: the prompt to run, or why there is none. -/
def ComputeJobRunner.admitted (runner : ComputeJobRunner μ η σ) (req : InferenceJobRequest)
    (nowMs : Timestamp) : Except ComputeError String := do
  let prompt ← runner.prompt req
  if prompt.isEmpty then .error (.badRequest "empty prompt")
  else if req.maxTokens = 0 then .error (.badRequest "max_tokens must be > 0")
  else if satSub nowMs req.timestampMs > REQUEST_MAX_SKEW_MS then
    .error (.badRequest "stale request (clock skew)")
  else .ok prompt

theorem ComputeJobRunner.admitted_eq_ok {runner : ComputeJobRunner μ η σ} {req : InferenceJobRequest}
    {nowMs : Timestamp} {prompt : String} :
    runner.admitted req nowMs = .ok prompt ↔
      runner.prompt req = .ok prompt ∧ prompt.isEmpty = false ∧ req.maxTokens ≠ 0 ∧
        ¬ satSub nowMs req.timestampMs > REQUEST_MAX_SKEW_MS := by
  unfold ComputeJobRunner.admitted
  cases hprompt : runner.prompt req with
  | error e => exact iff_of_false (fun h => by cases h) (fun h => by cases h.1)
  | ok prompt' =>
    change (if _ then _ else _) = _ ↔ _
    split_ifs with hempty htokens hstale
    · refine iff_of_false (by simp) ?_
      rintro ⟨⟨⟩, hprompt, -⟩
      rw [hprompt] at hempty
      cases hempty
    · exact iff_of_false (by simp) (fun h => h.2.2.1 htokens)
    · exact iff_of_false (by simp) (fun h => h.2.2.2 hstale)
    · simp only [Except.ok.injEq]
      constructor
      · rintro rfl
        exact ⟨rfl, by simpa using hempty, htokens, hstale⟩
      · exact fun h => h.1

def inferenceRequest (req : InferenceJobRequest) (prompt : String) : InferenceRequest where
  prompt := prompt
  maxTokens := req.maxTokens
  mode := if req.deterministic then .deterministic else .serving
  sampling := if req.deterministic then .GREEDY else { SamplingParams.default with seed := req.seed }
  stop := req.stopStrings

variable (K : Primitives)

/-- The stream is the engine's; the bridge from its items to job events is `Bridge`. -/
def ComputeJobRunner.run (runner : ComputeJobRunner μ η σ) (req : InferenceJobRequest) (modelRef : μ)
    (nowMs : Timestamp) : Except ComputeError σ × ComputeJobRunner μ η σ :=
  match runner.admitted req nowMs with
  | .error e => (.error e, runner)
  | .ok prompt =>
    let inserted := runner.nonces.insert (req.billingAddress K) req.nonce
    if inserted.1 = false then (.error (.badRequest "replayed nonce"), runner)
    else
      let runner := { runner with nonces := inserted.2 }
      match runner.engine.load modelRef with
      | .error e => (.error (.inference e), runner)
      | .ok handle => (.ok (runner.engine.infer handle (inferenceRequest req prompt)), runner)

/-- When a stream is handed out, and which. -/
theorem ComputeJobRunner.run_eq_ok {K : Primitives} {runner : ComputeJobRunner μ η σ}
    {req : InferenceJobRequest} {modelRef : μ} {nowMs : Timestamp} {stream : σ} :
    (runner.run K req modelRef nowMs).1 = .ok stream ↔
      ∃ prompt handle, runner.admitted req nowMs = .ok prompt ∧
        (runner.nonces.insert (req.billingAddress K) req.nonce).1 = true ∧
        runner.engine.load modelRef = .ok handle ∧
        stream = runner.engine.infer handle (inferenceRequest req prompt) := by
  unfold ComputeJobRunner.run
  cases runner.admitted req nowMs with
  | error e => simp
  | ok prompt =>
    dsimp only
    by_cases hreplayed : (runner.nonces.insert (req.billingAddress K) req.nonce).1 = false
    · rw [if_pos hreplayed]
      simp [hreplayed]
    · rw [if_neg hreplayed]
      cases runner.engine.load modelRef with
      | error e => simp
      | ok handle => simp [eq_comm, Bool.eq_true_of_not_eq_false hreplayed]

end

end Arknet.Compute
