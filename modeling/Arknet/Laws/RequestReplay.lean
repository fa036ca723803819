import Arknet.Compute.Runner
import Arknet.Router.Intake
import Arknet.Lib.Dedup

/-!
Replays at a compute node. A request is refused when its payer and nonce are among the last pairs that
were taken in, from whomever; how long it stays fresh is up to its own timestamp. So a request is run
again as soon as enough newer ones have pushed its pair out.
-/

namespace Arknet.Laws

open Machine Borsh Arknet.Chain Arknet.Inference Arknet.Compute Arknet.Router Dedup

/-- A call of `run`. -/
structure Arrival (μ : Type) where
  req : InferenceJobRequest
  modelRef : μ
  nowMs : Timestamp

section

variable {μ η σ : Type} (K : Primitives) (runner : ComputeJobRunner μ η σ)

/-- The runner after some calls. -/
def afterCalls (past : List (Arrival μ)) : ComputeJobRunner μ η σ :=
  past.foldl (fun r a => (r.run K a.req a.modelRef a.nowMs).2) runner

/-- The call hands out a stream. -/
def Starts (past : List (Arrival μ)) (a : Arrival μ) : Prop :=
  ∃ stream, ((afterCalls K runner past).run K a.req a.modelRef a.nowMs).1 = .ok stream

/-- No request is started by two of the calls. -/
def NeverTwice (history : List (Arrival μ)) : Prop :=
  ∀ past a between b rest, history = past ++ a :: (between ++ b :: rest) → a.req = b.req →
    Starts K runner past a → ¬ Starts K runner (past ++ a :: between) b

def noncePair (req : InferenceJobRequest) : Address × Nonce := (req.billingAddress K, req.nonce)

/-- The call gets as far as its nonce. -/
def Fresh (a : Arrival μ) : Prop := ∃ prompt, runner.admitted a.req a.nowMs = .ok prompt

instance (a : Arrival μ) : Decidable (Fresh runner a) :=
  match h : runner.admitted a.req a.nowMs with
  | .ok prompt => .isTrue ⟨prompt, h⟩
  | .error _ => .isFalse (fun ⟨_, hp⟩ => by rw [hp] at h; cases h)

/-- The pairs that the calls have put before the cache. -/
def offered (past : List (Arrival μ)) : List (Address × Nonce) :=
  (past.filter (fun a => Fresh runner a)).map (fun a => noncePair K a.req)

/-- The pairs that are remembered after the calls. -/
def heldPairs (cap : Nat) (past : List (Arrival μ)) : List (Address × Nonce) :=
  lastN cap (recorded cap (offered K runner past))

/-- The call is fresh, its pair is not remembered and its model loads. -/
def TakenIn (past : List (Arrival μ)) (a : Arrival μ) : Prop :=
  Fresh runner a ∧ noncePair K a.req ∉ heldPairs K runner NONCE_CACHE_CAP past ∧
    ∃ handle, runner.engine.load a.modelRef = .ok handle

end

/-! ## One call -/

section

variable {μ η σ : Type} {K : Primitives} {runner : ComputeJobRunner μ η σ} {cap : Nat}

/-- A queue at its capacity forgets its oldest pair. -/
theorem insert_lastN (hcap : 0 < cap) {taken : List (Address × Nonce)} {addr : Address} {nonce : Nonce}
    (hnew : (addr, nonce) ∉ lastN cap taken) :
    NonceCache.insert ⟨cap, lastN cap taken⟩ addr nonce =
      (true, ⟨cap, lastN cap (taken ++ [(addr, nonce)])⟩) := by
  rw [NonceCache.insert, if_neg hnew, lastN_snoc hcap]

/-- What is checked before the nonce does not look at the cache. -/
theorem fresh_nonces (nonces : NonceCache) (a : Arrival μ) :
    Fresh { runner with nonces := nonces } a ↔ Fresh runner a := Iff.rfl

/-- A call that is stale leaves the runner as it is. -/
theorem run_stale (K : Primitives) (runner : ComputeJobRunner μ η σ) {a : Arrival μ}
    (h : ¬ Fresh runner a) :
    ∃ e, runner.run K a.req a.modelRef a.nowMs = (.error e, runner) := by
  cases hadmitted : runner.admitted a.req a.nowMs with
  | error e => exact ⟨e, by rw [ComputeJobRunner.run, hadmitted]⟩
  | ok prompt => exact absurd ⟨prompt, hadmitted⟩ h

/-- So does one whose pair is remembered. -/
theorem run_known (K : Primitives) (runner : ComputeJobRunner μ η σ) {a : Arrival μ}
    (h : noncePair K a.req ∈ runner.nonces.seen) :
    ∃ e, runner.run K a.req a.modelRef a.nowMs = (.error e, runner) := by
  cases hadmitted : runner.admitted a.req a.nowMs with
  | error e => exact ⟨e, by rw [ComputeJobRunner.run, hadmitted]⟩
  | ok prompt =>
    have hinsert : runner.nonces.insert (a.req.billingAddress K) a.req.nonce = (false, runner.nonces) := by
      exact if_pos h
    exact ⟨.badRequest "replayed nonce", by simp only [ComputeJobRunner.run, hadmitted, hinsert, if_true]⟩

/-- A call that is fresh and new puts its pair into the cache, and it hands out a stream if its model
loads. -/
theorem run_new {a : Arrival μ} (hfresh : Fresh runner a) (hnew : noncePair K a.req ∉ runner.nonces.seen) :
    ((∃ stream, (runner.run K a.req a.modelRef a.nowMs).1 = .ok stream) ↔
      ∃ handle, runner.engine.load a.modelRef = .ok handle) ∧
    (runner.run K a.req a.modelRef a.nowMs).2 =
      { runner with nonces := (runner.nonces.insert (a.req.billingAddress K) a.req.nonce).2 } := by
  obtain ⟨prompt, hadmitted⟩ := hfresh
  have hunseen : (a.req.billingAddress K, a.req.nonce) ∉ runner.nonces.seen := hnew
  have hinsert : (runner.nonces.insert (a.req.billingAddress K) a.req.nonce).1 = true := by
    rw [NonceCache.insert, if_neg hunseen]
  rw [ComputeJobRunner.run, hadmitted]
  dsimp only
  rw [if_neg (by rw [hinsert]; decide)]
  cases hload : runner.engine.load a.modelRef with
  | error e => exact ⟨iff_of_false (by simp) (by simp), rfl⟩
  | ok handle => exact ⟨iff_of_true ⟨_, rfl⟩ ⟨handle, rfl⟩, rfl⟩

/-- A call hands out a stream when it is fresh, its pair is not remembered and its model loads. -/
theorem run_starts (a : Arrival μ) :
    (∃ stream, (runner.run K a.req a.modelRef a.nowMs).1 = .ok stream) ↔
      Fresh runner a ∧ noncePair K a.req ∉ runner.nonces.seen ∧
        ∃ handle, runner.engine.load a.modelRef = .ok handle := by
  by_cases hfresh : Fresh runner a
  · by_cases hknown : noncePair K a.req ∈ runner.nonces.seen
    · obtain ⟨e, he⟩ := run_known K runner hknown
      rw [he]
      exact iff_of_false (by simp) (fun h => h.2.1 hknown)
    · rw [(run_new hfresh hknown).1]
      exact ⟨fun h => ⟨hfresh, hknown, h⟩, fun h => h.2.2⟩
  · obtain ⟨e, he⟩ := run_stale K runner hfresh
    rw [he]
    exact iff_of_false (by simp) (fun h => hfresh h.1)

/-! ## Many calls -/

theorem offered_snoc (past : List (Arrival μ)) (a : Arrival μ) :
    offered K runner (past ++ [a]) =
      offered K runner past ++ if Fresh runner a then [noncePair K a.req] else [] := by
  by_cases hfresh : Fresh runner a
  · simp [offered, hfresh]
  · simp [offered, hfresh]

/-- After any calls the cache holds the last pairs that were taken in. -/
theorem afterCalls_eq (hcap : 0 < cap) (hempty : runner.nonces = .new cap) (past : List (Arrival μ)) :
    afterCalls K runner past = { runner with nonces := ⟨cap, heldPairs K runner cap past⟩ } := by
  induction past using List.reverseRecOn with
  | nil =>
    have hnone : heldPairs K runner cap [] = [] := by simp [heldPairs, offered, recorded, lastN]
    rw [hnone, ← NonceCache.new, ← hempty]
    rfl
  | append_singleton past a ih =>
    rw [afterCalls, List.foldl_append, List.foldl_cons, List.foldl_nil]
    rw [afterCalls] at ih
    rw [ih, heldPairs, heldPairs, offered_snoc]
    by_cases hfresh : Fresh runner a
    · rw [if_pos hfresh, recorded_snoc]
      by_cases hknown : noncePair K a.req ∈ lastN cap (recorded cap (offered K runner past))
      · rw [if_pos hknown]
        obtain ⟨e, he⟩ := run_known K
          { runner with nonces := ⟨cap, lastN cap (recorded cap (offered K runner past))⟩ } hknown
        rw [he]
      · rw [if_neg hknown, (run_new ((fresh_nonces _ a).mpr hfresh) hknown).2]
        simp only [insert_lastN hcap hknown]
        rfl
    · rw [if_neg hfresh, List.append_nil]
      obtain ⟨e, he⟩ := run_stale K
        { runner with nonces := ⟨cap, lastN cap (recorded cap (offered K runner past))⟩ }
        (fun h => hfresh ((fresh_nonces _ a).mp h))
      rw [he]

theorem starts_iff (K : Primitives) {runner : ComputeJobRunner μ η σ} (hcap : 0 < cap)
    (hempty : runner.nonces = .new cap) (past : List (Arrival μ)) (a : Arrival μ) :
    Starts K runner past a ↔
      Fresh runner a ∧ noncePair K a.req ∉ heldPairs K runner cap past ∧
        ∃ handle, runner.engine.load a.modelRef = .ok handle := by
  rw [Starts, afterCalls_eq hcap hempty, run_starts, fresh_nonces]

/-- Over all calls of a runner no request is started twice exactly when, however often a request comes
again after it was taken in, its pair is by then still among the last ones taken in. -/
theorem started_once (K : Primitives) (engine : InferenceEngine μ η σ)
    (key : Option (SealedPrompt → Except String (List UInt8))) (history : List (Arrival μ)) :
    NeverTwice K (⟨engine, .new NONCE_CACHE_CAP, key⟩ : ComputeJobRunner μ η σ) history ↔
      ∀ past a between b rest, history = past ++ a :: (between ++ b :: rest) → a.req = b.req →
        TakenIn K (⟨engine, .new NONCE_CACHE_CAP, key⟩ : ComputeJobRunner μ η σ) past a →
        Fresh (⟨engine, .new NONCE_CACHE_CAP, key⟩ : ComputeJobRunner μ η σ) b →
        (∃ handle, engine.load b.modelRef = .ok handle) →
          noncePair K b.req ∈ heldPairs K (⟨engine, .new NONCE_CACHE_CAP, key⟩ : ComputeJobRunner μ η σ)
            NONCE_CACHE_CAP (past ++ a :: between) := by
  let runner : ComputeJobRunner μ η σ := ⟨engine, .new NONCE_CACHE_CAP, key⟩
  have hstarts := starts_iff K (show 0 < NONCE_CACHE_CAP by decide) (show runner.nonces = _ from rfl)
  constructor
  · intro hnever past a between b rest hsplit hsame htaken hfresh hload
    by_contra hforgotten
    exact hnever past a between b rest hsplit hsame ((hstarts _ a).mpr htaken)
      ((hstarts _ b).mpr ⟨hfresh, hforgotten, hload⟩)
  · intro hheld past a between b rest hsplit hsame hstarted hagain
    obtain ⟨hfresh, hforgotten, hload⟩ := (hstarts _ b).mp hagain
    exact hforgotten (hheld past a between b rest hsplit hsame ((hstarts _ a).mp hstarted) hfresh hload)

end

/-! ## A request that comes back -/

def openRunner : ComputeJobRunner Unit Unit Unit := .new ⟨fun _ => .ok (), fun _ _ => ()⟩

def userKey : Bytes 32 := 0

/-- A request from the year 2286. -/
def futureRequest (nonce : Nonce) : InferenceJobRequest where
  modelRef := "local/tiny-F16"
  modelHash := 0
  prompt := "hi"
  maxTokens := 1
  seed := 0
  deterministic := true
  stopStrings := []
  nonce := nonce
  timestampMs := 10000000000000
  userPubkey := PubKey.ed25519 userKey
  signature := ⟨.ed25519, userKey.toList ++ userKey.toList⟩
  preferTee := false
  encryptedPrompt := none
  delegation := none

theorem futureRequest_timely (nonce : Nonce) {nowMs : Timestamp} (h : nowMs.val ≤ 10000000000000) :
    ¬ satSub nowMs (futureRequest nonce).timestampMs > REQUEST_MAX_SKEW_MS := by
  have htimestamp : (futureRequest nonce).timestampMs.val = 10000000000000 := rfl
  have hskew : REQUEST_MAX_SKEW_MS.val = 30000 := rfl
  rw [gt_iff_lt, Fin.lt_def, satSub_val]
  omega

/-- What is signed names what it is. -/
theorem signingBytes_domain {req : InferenceJobRequest} {bytes : List UInt8}
    (h : req.signingBytes = .ok bytes) : INFERENCE_REQUEST_DOMAIN <:+: bytes := by
  have hbody := expectEncoded_eq_ok.mp h
  rw [InferenceRequestSigningBody.codec, Codec.map_encode] at hbody
  obtain ⟨e, he, f, -, rfl⟩ := (Codec.prod_encode _ _).mp hbody
  obtain ⟨-, rfl⟩ := Codec.bytes_encode.mp he
  exact ⟨_, f, rfl⟩

/-- A request for some tokens that is signed passes every check of the router. -/
theorem verifyRequest_plain {K : Primitives} {req : InferenceJobRequest} {nowMs : Timestamp} {bytes : List UInt8}
    (hprompt : req.prompt.isEmpty = false) (htee : req.preferTee = false) (htokens : req.maxTokens ≠ 0)
    (htimely : ¬ satSub nowMs req.timestampMs > REQUEST_MAX_SKEW_MS) (hscheme : req.userPubkey.scheme = .ed25519)
    (hbytes : req.signingBytes = .ok bytes) (hsigned : verify K req.userPubkey bytes req.signature = true)
    (hdelegation : req.delegation = none) : verifyRequest K req nowMs = .ok (.ok ()) := by
  unfold verifyRequest verifyDelegated
  rw [if_neg (by simp [hprompt]), if_neg (by simp [htee]), if_neg htokens, if_neg htimely,
    if_neg (not_not_intro hscheme), hbytes, ok_bind, if_neg (by simp [hsigned]),
    if_neg (not_not_intro (signingBytes_domain hbytes)), hdelegation]

theorem futureRequest_verified (nonce : Nonce) {nowMs : Timestamp} (h : nowMs.val ≤ 10000000000000) :
    verifyRequest toyPrimitives (futureRequest nonce) nowMs = .ok (.ok ()) :=
  have htokens : (futureRequest nonce).maxTokens ≠ 0 := show (1 : U32) ≠ 0 by decide
  verifyRequest_plain rfl rfl htokens (futureRequest_timely nonce h) rfl rfl rfl rfl

theorem futureRequest_fresh (nonce : Nonce) {nowMs : Timestamp} (h : nowMs.val ≤ 10000000000000) :
    Fresh openRunner ⟨futureRequest nonce, (), nowMs⟩ := by
  have hprompt : openRunner.prompt (futureRequest nonce) = .ok "hi" := rfl
  have htokens : (futureRequest nonce).maxTokens ≠ 0 := show (1 : U32) ≠ 0 by decide
  exact ⟨"hi", ComputeJobRunner.admitted_eq_ok.mpr
    ⟨hprompt, by decide, htokens, futureRequest_timely nonce h⟩⟩

/-- The `i`th of many requests. -/
def ithRequest (nowMs : Timestamp) (i : Nat) : Arrival Unit := ⟨futureRequest (truncate 64 i), (), nowMs⟩

/-- As many other requests as are remembered. -/
def newerRequests (n : Nat) : List (Arrival Unit) := (List.range n).map (fun i => ithRequest 0 (i + 1))

/-- A first request, the newer ones, and the first one an hour later. -/
def replayHistory : List (Arrival Unit) :=
  ithRequest 0 0 :: (newerRequests NONCE_CACHE_CAP ++ [ithRequest 3600000 0])

theorem replayHistory_verified {a : Arrival Unit} (h : a ∈ replayHistory) :
    verifyRequest toyPrimitives a.req a.nowMs = .ok (.ok ()) := by
  obtain rfl | h := List.mem_cons.mp h
  · exact futureRequest_verified _ (Nat.zero_le _)
  · obtain h | h := List.mem_append.mp h
    · obtain ⟨i, -, rfl⟩ := List.mem_map.mp h
      exact futureRequest_verified _ (Nat.zero_le _)
    · rw [List.mem_singleton.mp h]
      exact futureRequest_verified _ (by decide)

theorem replayHistory_clock : replayHistory.Pairwise (fun a b => a.nowMs ≤ b.nowMs) := by
  refine List.pairwise_cons.mpr ⟨fun b _ => Fin.zero_le _, List.pairwise_append.mpr ⟨?_, ?_, ?_⟩⟩
  · rw [newerRequests, List.pairwise_map]
    exact List.pairwise_of_forall fun _ _ => le_refl _
  · exact List.pairwise_singleton _ _
  · intro a ha b _
    obtain ⟨i, -, rfl⟩ := List.mem_map.mp ha
    exact Fin.zero_le _

theorem newer_fresh (n : Nat) : ∀ a ∈ ithRequest 0 0 :: newerRequests n, decide (Fresh openRunner a) = true := by
  intro a ha
  obtain rfl | ha := List.mem_cons.mp ha
  · exact decide_eq_true (futureRequest_fresh _ (Nat.zero_le _))
  · obtain ⟨i, -, rfl⟩ := List.mem_map.mp ha
    exact decide_eq_true (futureRequest_fresh _ (Nat.zero_le _))

theorem ithRequest_pair {s t : Timestamp} {i j : Nat} (hi : i ≤ NONCE_CACHE_CAP) (hj : j ≤ NONCE_CACHE_CAP)
    (h : noncePair toyPrimitives (ithRequest s i).req = noncePair toyPrimitives (ithRequest t j).req) :
    i = j := by
  have hcap : NONCE_CACHE_CAP = 8192 := rfl
  have hnonce : i % 2 ^ 64 = j % 2 ^ 64 := congrArg (fun p => p.2.val) h
  omega

/-- None of the newer requests has the pair of another, nor that of the first. -/
theorem newer_pairs {n : Nat} (hn : n ≤ NONCE_CACHE_CAP) :
    (noncePair toyPrimitives (ithRequest 0 0).req ::
      (newerRequests n).map (fun a => noncePair toyPrimitives a.req)).Nodup := by
  rw [newerRequests, List.map_map, List.nodup_cons]
  constructor
  · intro hmem
    obtain ⟨i, hi, hpair⟩ := List.mem_map.mp hmem
    have hlt := List.mem_range.mp hi
    exact absurd (ithRequest_pair (by omega) (Nat.zero_le _) hpair) (Nat.succ_ne_zero i)
  · refine List.Nodup.map_on ?_ List.nodup_range
    intro i hi j hj hpair
    have hi := List.mem_range.mp hi
    have hj := List.mem_range.mp hj
    exact Nat.succ_injective (ithRequest_pair (by omega) (by omega) hpair)

/-- The newer requests are what is remembered. -/
theorem heldPairs_newer {n : Nat} (hn : n ≤ NONCE_CACHE_CAP) :
    heldPairs toyPrimitives openRunner n (ithRequest 0 0 :: newerRequests n) =
      (newerRequests n).map (fun a => noncePair toyPrimitives a.req) := by
  rw [heldPairs, offered, List.filter_eq_self.mpr (newer_fresh n), List.map_cons]
  exact lastN_recorded_cons (newer_pairs hn) (by simp [newerRequests])

theorem started_twice :
    (∀ a ∈ replayHistory, verifyRequest toyPrimitives a.req a.nowMs = .ok (.ok ())) ∧
      replayHistory.Pairwise (fun a b => a.nowMs ≤ b.nowMs) ∧
      ¬ NeverTwice toyPrimitives openRunner replayHistory := by
  have hstarts := starts_iff toyPrimitives (show 0 < NONCE_CACHE_CAP by decide)
    (show openRunner.nonces = _ from rfl)
  refine ⟨fun a => replayHistory_verified, replayHistory_clock, fun hnever => ?_⟩
  have hfirst : Starts toyPrimitives openRunner [] (ithRequest 0 0) := by
    refine (hstarts _ _).mpr ⟨futureRequest_fresh _ (Nat.zero_le _), ?_, (), rfl⟩
    simp [heldPairs, offered, recorded, lastN]
  have hagain : Starts toyPrimitives openRunner (ithRequest 0 0 :: newerRequests NONCE_CACHE_CAP)
      (ithRequest 3600000 0) := by
    refine (hstarts _ _).mpr ⟨futureRequest_fresh _ (by decide), ?_, (), rfl⟩
    rw [heldPairs_newer (le_refl _)]
    exact (List.nodup_cons.mp (newer_pairs (le_refl _))).1
  exact hnever [] _ _ _ [] rfl rfl hfirst hagain

end Arknet.Laws
