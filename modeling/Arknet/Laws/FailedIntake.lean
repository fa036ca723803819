import Arknet.Compute.Runner
import Arknet.Router.Accept

/-!
What a failed intake leaves behind. A router counts the job before it looks for a candidate, and a compute
node remembers the nonce before it loads the model; what fails earlier leaves no trace (`failed_intake`).
-/

namespace Arknet.Laws

open Machine Arknet.Chain Arknet.Inference Arknet.Compute Arknet.Router

variable {K : Primitives} {req : InferenceJobRequest} {now : Timestamp}

/-! ## The router -/

section

variable {r r' : RouterService} {policy : QuotaPolicy} {out : Outcome (JobId × EventStream)}

/-- The quota is enforced, and the request gets past the breaker, the checks and the quota. -/
structure Charged (K : Primitives) (r : RouterService) (req : InferenceJobRequest) (now : Timestamp)
    (policy : QuotaPolicy) : Prop where
  enforced : policy = .enforce
  running : r.circuitBreaker.isPaused = false
  verified : verifyRequest K req now = .ok (.ok ())
  hourly : r.quotas.hourly (req.billingAddress K) (bucketIndices now).1 < r.cfg.hourlyLimit
  daily : r.quotas.daily (req.billingAddress K) (bucketIndices now).2 < r.cfg.dailyLimit

/-- One more job of the wallet, in the current buckets. -/
def counted (quotas : FreeTierTracker) (wallet : Address) (now : Timestamp) : FreeTierTracker :=
  ⟨quotas.hourly.add wallet (bucketIndices now).1 1, quotas.daily.add wallet (bucketIndices now).2 1⟩

/-- No candidate is ranked, or every one that is fails. -/
def Unserved (r : RouterService) (req : InferenceJobRequest) (now : Timestamp) (e : RouterError) : Prop :=
  r.ranked req now = .error e ∨
    ∃ ranked jobId, r.ranked req now = .ok ranked ∧
      dispatchWithFailover jobId ranked req = .returned (.error e)

theorem Outcome.map_eq_error {α β : Type} {f : α → β} {out : Outcome α} {e : RouterError}
    (h : out.map f = .returned (.error e)) : out = .returned (.error e) := by
  cases out with
  | pending => cases h
  | returned result =>
    cases result with
    | ok a => cases h
    | error e' =>
      cases h
      rfl

theorem dispatch_frame (r : RouterService) (req : InferenceJobRequest) (now : Timestamp) :
    (r.dispatch K req now).2.quotas = r.quotas ∧
      ∀ e, (r.dispatch K req now).1 = .returned (.error e) → Unserved r req now e := by
  have hranked : (r.mintJobId K (req.billingAddress K) now).2.ranked req now = r.ranked req now := rfl
  simp only [RouterService.dispatch, hranked]
  cases hr : r.ranked req now with
  | error e =>
    refine ⟨rfl, fun e' he => .inl ?_⟩
    cases he
    exact hr
  | ok ranked =>
    refine ⟨rfl, fun e he => .inr ⟨ranked, (r.mintJobId K (req.billingAddress K) now).1, hr, ?_⟩⟩
    exact Outcome.map_eq_error he

/-- Under enforcement the gate charges what it lets through. -/
theorem gate_ok (req : InferenceJobRequest) {wallet : Address} {refused : Option RouterError}
    (h : r.gate policy wallet now = .ok (refused, r')) :
    (∀ e, Unserved r' req now e → Unserved r req now e) ∧
    ((policy = .enforce ∧ refused = none ∧ r'.quotas = counted r.quotas wallet now ∧
        r.quotas.hourly wallet (bucketIndices now).1 < r.cfg.hourlyLimit ∧
        r.quotas.daily wallet (bucketIndices now).2 < r.cfg.dailyLimit) ∨
      (r'.quotas = r.quotas ∧ ¬ (policy = .enforce ∧
        r.quotas.hourly wallet (bucketIndices now).1 < r.cfg.hourlyLimit ∧
        r.quotas.daily wallet (bucketIndices now).2 < r.cfg.dailyLimit))) := by
  unfold RouterService.gate at h
  cases policy with
  | skip =>
    rw [pure_eq_ok, Prod.mk.injEq] at h
    obtain ⟨-, rfl⟩ := h
    refine ⟨fun e he => he, .inr ⟨rfl, ?_⟩⟩
    rintro ⟨hpolicy, -⟩
    cases hpolicy
  | enforce =>
    obtain ⟨⟨outcome, quotas⟩, hconsume, h⟩ := bind_eq_ok.mp h
    rw [pure_eq_ok, Prod.mk.injEq] at h
    obtain ⟨rfl, rfl⟩ := h
    refine ⟨fun e he => he, ?_⟩
    rcases FreeTierTracker.consume_ok hconsume with ⟨hallowed, hhour, hday, hquotas⟩ | ⟨hnot, hquotas⟩
    · refine .inl ⟨rfl, ?_, hquotas, hhour, hday⟩
      cases outcome with
      | allowed hr dr => rfl
      | hourlyExceeded ms => cases hallowed
      | dailyExceeded ms => cases hallowed
    · refine .inr ⟨hquotas, ?_⟩
      rintro ⟨-, hhour, hday⟩
      obtain ⟨outcome', hallowed, hyes⟩ := FreeTierTracker.consume_allowed hhour hday
      rw [hconsume] at hallowed
      cases hallowed
      rw [hnot] at hyes
      cases hyes

/-- The counters after an intake depend on how far it got, not on how it ended. -/
theorem accept_quotas (h : r.accept K req now policy = .ok (out, r')) :
    (r'.quotas = r.quotas ∧ ¬ Charged K r req now policy) ∨
      (r'.quotas = counted r.quotas (req.billingAddress K) now ∧ Charged K r req now policy ∧
        ∀ e, out = .returned (.error e) → Unserved r req now e) := by
  unfold RouterService.accept at h
  by_cases hpaused : r.circuitBreaker.isPaused = true
  · rw [if_pos hpaused, pure_eq_ok, Prod.mk.injEq] at h
    obtain ⟨-, rfl⟩ := h
    refine .inl ⟨rfl, fun hc => ?_⟩
    rw [hc.running] at hpaused
    cases hpaused
  rw [if_neg hpaused] at h
  obtain ⟨verified, hverified, h⟩ := bind_eq_ok.mp h
  cases verified with
  | error e =>
    rw [pure_eq_ok, Prod.mk.injEq] at h
    obtain ⟨-, rfl⟩ := h
    refine .inl ⟨rfl, fun hc => ?_⟩
    rw [hc.verified] at hverified
    cases hverified
  | ok u =>
    obtain ⟨⟨refused, r₁⟩, hgate, h⟩ := bind_eq_ok.mp h
    have hframe := dispatch_frame (K := K) r₁ req now
    obtain ⟨hunserved, hgated⟩ := gate_ok req hgate
    cases refused with
    | some e =>
      rw [pure_eq_ok, Prod.mk.injEq] at h
      obtain ⟨-, rfl⟩ := h
      rcases hgated with ⟨-, hnone, -⟩ | ⟨hquotas, hnot⟩
      · cases hnone
      · exact .inl ⟨hquotas, fun hc => hnot ⟨hc.enforced, hc.hourly, hc.daily⟩⟩
    | none =>
      have hdispatch : r₁.dispatch K req now = (out, r') := by
        simpa only [pure_eq_ok] using h
      rw [hdispatch] at hframe
      rcases hgated with ⟨hpolicy, -, hquotas, hhour, hday⟩ | ⟨hquotas, hnot⟩
      · refine .inr ⟨hframe.1.trans hquotas, ⟨hpolicy, by simpa using hpaused, hverified, hhour, hday⟩, ?_⟩
        exact fun e he => hunserved e (hframe.2 e he)
      · exact .inl ⟨hframe.1.trans hquotas, fun hc => hnot ⟨hc.enforced, hc.hourly, hc.daily⟩⟩

end

/-! ## The compute node -/

section

variable {μ η σ : Type} {runner runner' : ComputeJobRunner μ η σ} {modelRef : μ} {e : ComputeError}

/-- The only errors are bad requests. -/
def BadRequestOnly {α : Type} (x : Except ComputeError α) : Prop :=
  ∀ e, x = .error e → ∃ what, e = .badRequest what

theorem badRequestOnly_ok {α : Type} (a : α) : BadRequestOnly (.ok a) := by
  intro e h
  cases h

theorem badRequestOnly_error {α : Type} (what : String) :
    BadRequestOnly (α := α) (.error (.badRequest what)) := by
  intro e h
  cases h
  exact ⟨what, rfl⟩

theorem BadRequestOnly.bind {α β : Type} {x : Except ComputeError α} {f : α → Except ComputeError β}
    (hx : BadRequestOnly x) (hf : ∀ a, BadRequestOnly (f a)) : BadRequestOnly (x >>= f) := by
  intro e h
  cases x with
  | error e' =>
    cases h
    exact hx e rfl
  | ok a => exact hf a e h

theorem sealed_badRequest (envelope : EncryptedEnvelope) : BadRequestOnly envelope.sealed := by
  unfold EncryptedEnvelope.sealed
  split_ifs
  · exact badRequestOnly_error _
  · exact badRequestOnly_error _
  · exact badRequestOnly_ok _

theorem promptText_badRequest (opened : Except String (List UInt8)) :
    BadRequestOnly (promptText opened) := by
  unfold promptText
  split
  · exact badRequestOnly_error _
  · split
    · exact badRequestOnly_error _
    · exact badRequestOnly_ok _

theorem prompt_badRequest (runner : ComputeJobRunner μ η σ) (req : InferenceJobRequest) :
    BadRequestOnly (runner.prompt req) := by
  unfold ComputeJobRunner.prompt
  split
  · exact badRequestOnly_ok _
  · split
    · exact badRequestOnly_error _
    · exact (sealed_badRequest _).bind fun sealed => promptText_badRequest _

theorem admitted_badRequest (runner : ComputeJobRunner μ η σ) (req : InferenceJobRequest) (now : Timestamp) :
    BadRequestOnly (runner.admitted req now) := by
  refine (prompt_badRequest runner req).bind fun prompt => ?_
  split_ifs
  · exact badRequestOnly_error _
  · exact badRequestOnly_error _
  · exact badRequestOnly_error _
  · exact badRequestOnly_ok _

theorem insert_eq_false {cache : NonceCache} {addr : Address} {nonce : Nonce} :
    (cache.insert addr nonce).1 = false ↔ (addr, nonce) ∈ cache.seen := by
  unfold NonceCache.insert
  split_ifs with hseen
  · simp [hseen]
  · simp [hseen]

theorem insert_remembers {cache : NonceCache} {addr : Address} {nonce : Nonce} :
    (addr, nonce) ∈ (cache.insert addr nonce).2.seen := by
  unfold NonceCache.insert
  by_cases hseen : (addr, nonce) ∈ cache.seen
  · rw [if_pos hseen]
    exact hseen
  · rw [if_neg hseen]
    exact List.mem_append_right _ (List.mem_singleton.mpr rfl)

/-- Whatever else it is given, the node refuses a request whose nonce it remembers. -/
theorem run_remembered (runner : ComputeJobRunner μ η σ)
    (hseen : (req.billingAddress K, req.nonce) ∈ runner.nonces.seen) (modelRef : μ) (now : Timestamp) :
    ∃ what, (runner.run K req modelRef now).1 = .error (.badRequest what) := by
  unfold ComputeJobRunner.run
  cases hprompt : runner.admitted req now with
  | error e =>
    obtain ⟨what, rfl⟩ := admitted_badRequest runner req now e hprompt
    exact ⟨what, rfl⟩
  | ok prompt =>
    simp only [insert_eq_false.mpr hseen, ↓reduceIte]
    exact ⟨_, rfl⟩

/-- A run that fails is a bad request and leaves the node as it was, or the model does not load and the
nonce stays used. -/
theorem run_error (h : runner.run K req modelRef now = (.error e, runner')) :
    ((∃ what, e = .badRequest what) ∧ runner' = runner) ∨
    ((∃ failure, e = .inference failure ∧ runner.engine.load modelRef = .error failure) ∧
      (req.billingAddress K, req.nonce) ∉ runner.nonces.seen ∧
      runner' = { runner with nonces := (runner.nonces.insert (req.billingAddress K) req.nonce).2 }) := by
  unfold ComputeJobRunner.run at h
  cases hprompt : runner.admitted req now with
  | error e' =>
    rw [hprompt, Prod.mk.injEq] at h
    obtain ⟨he, rfl⟩ := h
    cases he
    exact .inl ⟨admitted_badRequest runner req now e hprompt, rfl⟩
  | ok prompt =>
    simp only [hprompt] at h
    split_ifs at h with hreplayed
    · obtain ⟨he, rfl⟩ := Prod.mk.inj h
      cases he
      exact .inl ⟨⟨_, rfl⟩, rfl⟩
    · cases hload : runner.engine.load modelRef with
      | ok handle =>
        rw [hload] at h
        cases h
      | error failure =>
        rw [hload] at h
        cases h
        exact .inr ⟨⟨failure, rfl, rfl⟩, fun hseen => hreplayed (insert_eq_false.mpr hseen), rfl⟩

end

/-- A failed intake leaves the counters of every wallet alone unless the request was charged, and then one
job of the payer is counted; a failed run leaves the nonces alone unless the model did not load, and then
the request is refused from there on for as long as its nonce is remembered. -/
theorem failed_intake (K : Primitives) {μ η σ : Type} :
    (∀ (r r' : RouterService) req now policy e, r.accept K req now policy = .ok (.returned (.error e), r') →
      (¬ Charged K r req now policy ∧ r'.quotas = r.quotas) ∨
      (Charged K r req now policy ∧ Unserved r req now e ∧
        r'.quotas = counted r.quotas (req.billingAddress K) now)) ∧
    (∀ (runner runner' : ComputeJobRunner μ η σ) req modelRef now e,
      runner.run K req modelRef now = (.error e, runner') →
      ((∃ what, e = .badRequest what) ∧ runner'.nonces = runner.nonces) ∨
      ((∃ failure, e = .inference failure ∧ runner.engine.load modelRef = .error failure) ∧
        (req.billingAddress K, req.nonce) ∉ runner.nonces.seen ∧
        (req.billingAddress K, req.nonce) ∈ runner'.nonces.seen)) ∧
    ∀ (runner : ComputeJobRunner μ η σ) req modelRef now,
      (req.billingAddress K, req.nonce) ∈ runner.nonces.seen →
      ∃ what, (runner.run K req modelRef now).1 = .error (.badRequest what) := by
  refine ⟨?_, ?_, fun runner req modelRef now hseen => run_remembered runner hseen modelRef now⟩
  · intro r r' req now policy e h
    rcases accept_quotas h with ⟨hquotas, hnot⟩ | ⟨hquotas, hcharged, hunserved⟩
    · exact .inl ⟨hnot, hquotas⟩
    · exact .inr ⟨hcharged, hunserved e rfl, hquotas⟩
  · intro runner runner' req modelRef now e h
    rcases run_error h with ⟨hbad, rfl⟩ | ⟨hload, hnew, rfl⟩
    · exact .inl ⟨hbad, rfl⟩
    · exact .inr ⟨hload, hnew, insert_remembers⟩

/-! ## A request that fails late -/

/-- No candidate has announced itself. -/
def loneRouter : RouterService := ⟨⟨[]⟩, .default, .new, 0, .genesis⟩

def plainKey : Bytes 32 := ⟨⟨3 * 256 ^ 31, by decide⟩⟩

def plainRequest : InferenceJobRequest where
  modelRef := "m"
  modelHash := 0
  prompt := "p"
  maxTokens := 1
  seed := 0
  deterministic := false
  stopStrings := []
  nonce := 5
  timestampMs := 0
  userPubkey := PubKey.ed25519 plainKey
  signature := ⟨.ed25519, plainKey.toList ++ plainKey.toList⟩
  preferTee := false
  encryptedPrompt := none
  delegation := none

/-- An engine whose model file is there, or is not. -/
def fileEngine (present : Bool) : InferenceEngine Unit Unit Unit where
  load _ := if present then .ok () else .error (.io "no such file")
  infer _ _ := ()

theorem loneRouter_rejects : ∃ r', loneRouter.accept toyPrimitives plainRequest 3 .enforce =
      .ok (.returned (.error .noCandidate), r') ∧
    ((¬ Charged toyPrimitives loneRouter plainRequest 3 .enforce ∧ r'.quotas = loneRouter.quotas) ∨
      (Charged toyPrimitives loneRouter plainRequest 3 .enforce ∧
        Unserved loneRouter plainRequest 3 .noCandidate ∧
        r'.quotas = counted loneRouter.quotas (plainRequest.billingAddress toyPrimitives) 3)) :=
  ⟨_, rfl, (failed_intake toyPrimitives (μ := Unit) (η := Unit) (σ := Unit)).1 loneRouter _ plainRequest 3
    .enforce .noCandidate rfl⟩

/-- The wallet is charged for an answer that no candidate is known, and the same request, sent again once
the model file is there, is taken for a replay, though it would have run. -/
theorem failure_is_charged :
    (∃ r', loneRouter.accept toyPrimitives plainRequest 3 .enforce =
        .ok (.returned (.error .noCandidate), r') ∧
      loneRouter.quotas.hourly (plainRequest.billingAddress toyPrimitives) 0 = 0 ∧
      r'.quotas.hourly (plainRequest.billingAddress toyPrimitives) 0 = 1) ∧
    ∃ runner', (ComputeJobRunner.new (fileEngine false)).run toyPrimitives plainRequest () 3 =
        (.error (.inference (.io "no such file")), runner') ∧
      ({ runner' with engine := fileEngine true }.run toyPrimitives plainRequest () 3).1 =
        .error (.badRequest "replayed nonce") ∧
      ((ComputeJobRunner.new (fileEngine true)).run toyPrimitives plainRequest () 3).1 = .ok () :=
  ⟨⟨_, rfl, rfl, rfl⟩, _, rfl, rfl, rfl⟩

end Arknet.Laws
