import Arknet.Laws.RequestReplay
import Arknet.Laws.Streaming

/-!
A request on its way from the router over the runner to its session: the tokens of its prompt and those it
asks for against the context.
-/

namespace Arknet.Laws

open Machine Arknet.Chain Arknet.Compute Arknet.Router Arknet.Inference

section

variable {μ η σ : Type}

/-- The engine: a stream is the session on the backend that a handle and a request give. -/
def sessionEngine (load : μ → Except InferenceError η) (backend : η → InferenceRequest → Backend σ) :
    InferenceEngine μ η (Exec Session) :=
  ⟨load, fun handle req => Session.run (backend handle req) ⟨req.prompt, req.maxTokens, req.stop⟩⟩

def sessionRunner (load : μ → Except InferenceError η) (backend : η → InferenceRequest → Backend σ)
    (nonces : NonceCache) (enclaveKey : Option (SealedPrompt → Except String (List UInt8))) :
    ComputeJobRunner μ η (Exec Session) :=
  ⟨sessionEngine load backend, nonces, enclaveKey⟩

/-- The router and the runner let a request through, and this is its session. -/
structure LetThrough (K : Primitives) (runner : ComputeJobRunner μ η (Exec Session)) (req : InferenceJobRequest)
    (modelRef : μ) (session : Exec Session) : Prop where
  verified : ∃ nowMs, verifyRequest K req nowMs = .ok (.ok ())
  started : ∃ nowMs, (runner.run K req modelRef nowMs).1 = .ok session

/-- The session turns the request away if the tokens of its prompt and those it asks for exceed the context,
and finds out without overflow. -/
def AdmissionSafe (B : Backend σ) (req : SessionRequest) (session : Exec Session) : Prop :=
  ∃ s, session = .ok s ∧ ∀ ctx tokens, B.start = .ok ctx → B.encode req.prompt = .ok tokens →
    B.nCtx.val < tokens.length + req.maxTokens.val → ∃ what, s = .done (.error (.tokenize what))

/-- Counted in 32 bits, the tokens of the prompt and those asked for do not overflow, nor do they fit the
context if they exceed it. -/
def CountsRight (B : Backend σ) (req : SessionRequest) : Prop :=
  ∀ ctx tokens, B.start = .ok ctx → B.encode req.prompt = .ok tokens → tokens ≠ [] →
    tokens.length % 2 ^ 32 + req.maxTokens.val < 2 ^ 32 ∧
      (B.nCtx.val < tokens.length + req.maxTokens.val →
        B.nCtx.val < tokens.length % 2 ^ 32 + req.maxTokens.val)

end

section

variable {σ : Type} {B : Backend σ} {req : SessionRequest}

theorem CountsRight.fits (h : CountsRight B req) : RequestFits B req :=
  fun ctx tokens hstart hencode hne => (h ctx tokens hstart hencode hne).1

/-- Once it generates, a session has not been turned away. -/
theorem generate_ne_failed (indices : List U32) (ctx : σ) (g : Generated) (e : InferenceError) :
    generate B req indices ctx g ≠ .done (.error e) := by
  cases indices with
  | nil => exact Session.noConfusion
  | cons index rest =>
    rw [generate]
    dsimp only
    split
    · exact Session.noConfusion
    · split <;> exact Session.noConfusion

/-- A session on a fresh context that has counted: turned away, or the prompt is decoded. -/
theorem run_counted {ctx : σ} {tokens : List Token} {s : Session} (hstart : B.start = .ok ctx)
    (hencode : B.encode req.prompt = .ok tokens) (hne : tokens ≠ []) (hrun : Session.run B req = .ok s) :
    (∃ what, s = .done (.error (.tokenize what))) ↔
      B.nCtx.val < tokens.length % 2 ^ 32 + req.maxTokens.val := by
  unfold Session.run at hrun
  rw [hstart, hencode] at hrun
  dsimp only at hrun
  rw [if_neg hne] at hrun
  obtain ⟨needed, hneeded, hrun⟩ := bind_eq_ok.mp hrun
  have hval : needed.val = tokens.length % 2 ^ 32 + req.maxTokens.val := add_eq_ok.mp hneeded
  rw [← hval, ← Fin.lt_def]
  split_ifs at hrun with hlong hcode
  · cases hrun
    exact iff_of_true ⟨_, rfl⟩ hlong
  · cases hrun
    refine iff_of_false ?_ hlong
    rintro ⟨what, h⟩
    cases h
  · cases hrun
    refine iff_of_false ?_ hlong
    rintro ⟨what, h⟩
    exact generate_ne_failed _ _ _ _ h

theorem admissionSafe_iff : AdmissionSafe B req (Session.run B req) ↔ CountsRight B req := by
  constructor
  · rintro ⟨s, hrun, hturned⟩ ctx tokens hstart hencode hne
    exact ⟨run_returns_iff.mp ⟨s, hrun⟩ ctx tokens hstart hencode hne, fun hexceeds =>
      (run_counted hstart hencode hne hrun).mp (hturned ctx tokens hstart hencode hexceeds)⟩
  · intro h
    obtain ⟨s, hrun⟩ := run_returns_iff.mpr h.fits
    refine ⟨s, hrun, fun ctx tokens hstart hencode hexceeds => ?_⟩
    by_cases hnil : tokens = []
    · subst hnil
      unfold Session.run at hrun
      rw [hstart, hencode] at hrun
      cases hrun
      exact ⟨_, rfl⟩
    · exact (run_counted hstart hencode hnil hrun).mpr ((h ctx tokens hstart hencode hnil).2 hexceeds)

end

/-- The session of a request that was let through is safe exactly when its counts are right in 32 bits. -/
theorem session_admission {μ η σ : Type} {K : Primitives} (load : μ → Except InferenceError η)
    (backend : η → InferenceRequest → Backend σ) (nonces : NonceCache)
    (enclaveKey : Option (SealedPrompt → Except String (List UInt8))) {req : InferenceJobRequest} {modelRef : μ}
    {session : Exec Session}
    (h : LetThrough K (sessionRunner load backend nonces enclaveKey) req modelRef session) :
    ∃ prompt handle, load modelRef = .ok handle ∧
      (sessionRunner load backend nonces enclaveKey).prompt req = .ok prompt ∧
      (AdmissionSafe (backend handle (inferenceRequest req prompt)) ⟨prompt, req.maxTokens, req.stopStrings⟩
          session ↔
        CountsRight (backend handle (inferenceRequest req prompt))
          ⟨prompt, req.maxTokens, req.stopStrings⟩) := by
  obtain ⟨nowMs, hstarted⟩ := h.started
  obtain ⟨prompt, handle, hadmitted, -, hload, rfl⟩ := ComputeJobRunner.run_eq_ok.mp hstarted
  exact ⟨prompt, handle, hload, (ComputeJobRunner.admitted_eq_ok.mp hadmitted).1, admissionSafe_iff⟩

/-! ## The largest limit -/

/-- What each request gets from one backend. -/
def backendRunner (B : Backend Unit) : ComputeJobRunner Unit Unit (Exec Session) :=
  sessionRunner (fun _ => .ok ()) (fun _ _ => B) (.new NONCE_CACHE_CAP) none

def limitRequest (maxTokens : U32) : InferenceJobRequest := { futureRequest 0 with maxTokens := maxTokens }

theorem limitRequest_verified {maxTokens : U32} (h : maxTokens ≠ 0) :
    verifyRequest toyPrimitives (limitRequest maxTokens) 0 = .ok (.ok ()) :=
  verifyRequest_plain rfl rfl h (futureRequest_timely 0 (Nat.zero_le _)) rfl rfl rfl rfl

theorem limitRequest_letThrough (B : Backend Unit) {maxTokens : U32} (h : maxTokens ≠ 0) :
    LetThrough toyPrimitives (backendRunner B) (limitRequest maxTokens) ()
      (Session.run B ⟨"hi", maxTokens, []⟩) where
  verified := ⟨0, limitRequest_verified h⟩
  started := ⟨0, ComputeJobRunner.run_eq_ok.mpr ⟨"hi", (), ComputeJobRunner.admitted_eq_ok.mpr
    ⟨rfl, by decide, h, futureRequest_timely 0 (Nat.zero_le _)⟩, rfl, rfl, rfl⟩⟩

theorem session_admission_one :
    AdmissionSafe hiBackend ⟨"hi", 1, []⟩ (Session.run hiBackend ⟨"hi", 1, []⟩) := by
  obtain ⟨prompt, handle, -, hprompt, hiff⟩ := session_admission (fun _ => .ok ()) (fun _ _ => hiBackend)
    (.new NONCE_CACHE_CAP) none (limitRequest_letThrough hiBackend (show (1 : U32) ≠ 0 by decide))
  obtain rfl := Except.ok.inj hprompt
  refine hiff.mpr ?_
  rintro _ _ ⟨⟩ ⟨⟩ -
  exact ⟨by decide, fun h => h⟩

/-- The largest limit there is passes both, and its session overflows. -/
theorem limit_overflows :
    LetThrough toyPrimitives (backendRunner hiBackend) (limitRequest (truncate 32 (2 ^ 32 - 1))) ()
      (.error .addOverflow) ∧
    ¬ AdmissionSafe hiBackend ⟨"hi", truncate 32 (2 ^ 32 - 1), []⟩ (.error .addOverflow) := by
  have hmax : truncate 32 (2 ^ 32 - 1) ≠ 0 := by decide
  refine ⟨limitRequest_letThrough hiBackend hmax, ?_⟩
  rintro ⟨s, hs, -⟩
  cases hs

end Arknet.Laws
