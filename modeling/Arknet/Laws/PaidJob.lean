import Arknet.Laws.Escrow
import Arknet.Laws.FailedIntake
import Arknet.Laws.HonestCompute
import Arknet.Node.ServeInference
import Arknet.Router.Accept
import Arknet.Sdk.Client

/-!
One paid job at the client, the router, the compute node and the chain. Each derives a job id from numbers of
its own, and the escrow lock carries the request's nonce as the account's; they agree exactly when the clocks,
the salt and the nonces happen to (`paid_job_agreement`). Collisions of blake3 are excluded on the three
strings that are hashed.
-/

namespace Arknet.Laws

open Machine Store Arknet.Chain Arknet.Inference Arknet.Compute Arknet.Router Arknet.Node Arknet.Sdk

/-! ## What has to agree -/

def lockedJob : Transaction → Option JobId
  | .escrowLock _ jobId .. => some jobId
  | _ => none

def receiptedJobs : Transaction → List JobId
  | .receiptBatch batch => batch.receipts.map InferenceReceipt.jobId
  | _ => []

/-- The lock is applied, under the id that the router dispatches and the compute node serves and receipts. -/
structure PaidJobAgrees (K : Primitives) (ctx : BlockCtx) (lock : SignedTransaction) (dispatched : JobId)
    (served : ServedJob) : Prop where
  applied : ∃ ctx' gas, applyTx K ctx lock = .ok (ctx', .applied gas)
  routed : lockedJob lock.tx = some dispatched
  computed : lockedJob lock.tx = some served.jobId
  receipted : (lockedJob lock.tx).toList = receiptedJobs served.receipt.tx

/-- The account is at the request's nonce, the job is not locked yet, the router's clock shows the nonce and
its salt the request's time, and the compute node's clock shows that time too. -/
structure InStep (K : Primitives) (ctx : BlockCtx) (req : InferenceJobRequest) (amount : Amount)
    (r : RouterService) (routerMs computeMs : Timestamp) : Prop where
  positive : amount ≠ 0
  unlocked : ctx.getEscrow (escrowJobId K req) = none
  nonce : (ctx.account (req.billingAddress K)).nonce = req.nonce
  room : req.nonce.val < 2 ^ 64 - 1
  router : routerMs = req.nonce
  salt : satAdd r.nextJobSalt 1 = req.timestampMs
  compute : computeMs = req.timestampMs

/-! ## Job ids -/

section

variable {K : Primitives} {req : InferenceJobRequest}

/-- What is hashed for a job id. -/
def jobIdInput (user : Address) (a b : U64) : List UInt8 :=
  ascii "arknet-job-id-v1" ++ user.toList ++ Borsh.leBytes 8 a.val ++ Borsh.leBytes 8 b.val

theorem jobIdInput_inj {user : Address} {a b a' b' : U64} :
    jobIdInput user a b = jobIdInput user a' b' ↔ a = a' ∧ b = b' := by
  constructor
  · intro h
    obtain ⟨hleft, hright⟩ := List.append_inj' h (by simp)
    obtain ⟨-, hmid⟩ := List.append_inj' hleft (by simp)
    exact ⟨Fin.ext (Borsh.leBytes_inj a.isLt a'.isLt hmid), Fin.ext (Borsh.leBytes_inj b.isLt b'.isLt hright)⟩
  · rintro ⟨rfl, rfl⟩
    rfl

/-- The strings that the client, the router and the compute node hash for one request. -/
def jobIdInputs (K : Primitives) (req : InferenceJobRequest) (r : RouterService)
    (routerMs computeMs : Timestamp) : List (List UInt8) :=
  [jobIdInput (req.billingAddress K) req.nonce req.timestampMs,
    jobIdInput (req.billingAddress K) routerMs (satAdd r.nextJobSalt 1),
    jobIdInput (req.billingAddress K) req.nonce computeMs]

/-! ## Each party -/

theorem submitEscrow_lock {wallet : Option Wallet} {amount : Amount} {lock : SignedTransaction}
    (h : submitEscrow K wallet req amount = .ok lock) :
    lock.tx = .escrowLock (req.billingAddress K) (escrowJobId K req) amount req.nonce ESCROW_FEE := by
  unfold submitEscrow at h
  cases wallet with
  | none => cases h
  | some w =>
    cases h
    rfl

/-- With the balance for it, a lock is applied when it carries the account's nonce and a job that has none. -/
theorem escrowLock_applies_iff {ctx : BlockCtx} {sender : Address} {jobId : JobId} {amount : Amount}
    {nonce : Nonce} {fee : Gas} {height : Height}
    (hbalance : amount.val + fee.val ≤ (ctx.account sender).balance.val) :
    (∃ ctx' gas, applyEscrowLock ctx sender jobId amount nonce fee height = .ok (ctx', .applied gas)) ↔
      amount ≠ 0 ∧ ctx.getEscrow jobId = none ∧ (ctx.account sender).nonce = nonce ∧
        nonce.val < 2 ^ 64 - 1 := by
  constructor
  · rintro ⟨ctx', gas, h⟩
    obtain ⟨⟨hpositive, hnonce, -⟩, hnone⟩ := (lock_applied_iff h).mp rfl
    rcases applyEscrowLock_ok h with ⟨-, hkept⟩ | ⟨-, -, -, -, balance, next, -, hnext, -⟩
    · cases hkept
    · have hroom := next.isLt
      exact ⟨hpositive, hnone, hnonce, by omega⟩
  · rintro ⟨hpositive, hnone, hnonce, hroom⟩
    have htotal : satAdd amount (asAmount fee) ≤ (ctx.account sender).balance :=
      Fin.le_def.mpr (Nat.le_trans (satAdd_le _ _) hbalance)
    obtain ⟨balance, hsub⟩ := sub_isOk htotal
    obtain ⟨next, hadd⟩ : ∃ next, add (ctx.account sender).nonce 1 = .ok next := by
      refine add_isOk ?_
      rw [hnonce]
      show nonce.val + 1 < 2 ^ 64
      omega
    have hnew : ¬ (ctx.getEscrow jobId).isSome = true := by simp [hnone]
    simp only [applyEscrowLock, if_neg hpositive, if_neg hnew, hnonce, ne_eq, not_true_eq_false,
      ↓reduceIte, if_neg (not_lt.mpr htotal), hsub, ok_bind]
    rw [← hnonce, hadd]
    exact ⟨_, _, rfl⟩

theorem gate_salt {r r' : RouterService} {nowMs : Timestamp} {policy : QuotaPolicy} {wallet : Address}
    {refused : Option RouterError} (h : r.gate policy wallet nowMs = .ok (refused, r')) :
    r'.nextJobSalt = r.nextJobSalt := by
  unfold RouterService.gate at h
  cases policy with
  | skip =>
    rw [pure_eq_ok, Prod.mk.injEq] at h
    rw [← h.2]
  | enforce =>
    obtain ⟨consumed, -, h⟩ := bind_eq_ok.mp h
    rw [pure_eq_ok, Prod.mk.injEq] at h
    rw [← h.2]

theorem dispatch_minted {r r' : RouterService} {nowMs : Timestamp} {dispatched : JobId}
    {stream : EventStream} (h : r.dispatch K req nowMs = (.returned (.ok (dispatched, stream)), r')) :
    dispatched = (r.mintJobId K (req.billingAddress K) nowMs).1 := by
  simp only [RouterService.dispatch] at h
  split at h
  · cases h
  · rename_i ranked _
    obtain ⟨hout, -⟩ := Prod.mk.inj h
    cases hfailover : dispatchWithFailover (r.mintJobId K (req.billingAddress K) nowMs).1 ranked req with
    | pending =>
      rw [hfailover] at hout
      cases hout
    | returned result =>
      rw [hfailover] at hout
      cases result with
      | error e => cases hout
      | ok stream' =>
        cases hout
        rfl

theorem accept_dispatched {r r' : RouterService} {nowMs : Timestamp} {policy : QuotaPolicy}
    {dispatched : JobId} {stream : EventStream}
    (h : r.accept K req nowMs policy = .ok (.returned (.ok (dispatched, stream)), r')) :
    dispatched = K.blake3 (jobIdInput (req.billingAddress K) nowMs (satAdd r.nextJobSalt 1)) := by
  unfold RouterService.accept at h
  split at h
  · cases h
  · obtain ⟨verified, -, h⟩ := bind_eq_ok.mp h
    cases verified with
    | error e => cases h
    | ok u =>
      obtain ⟨⟨refused, r₁⟩, hgate, h⟩ := bind_eq_ok.mp h
      cases refused with
      | some e => cases h
      | none =>
        rw [← gate_salt hgate]
        exact dispatch_minted (pure_eq_ok.mp h)

theorem handle_served {η σ : Type} {items : σ → List (Except InferenceError InferenceEvent)}
    {node node' : ComputeNode η σ} {nowMs now endMs : Timestamp} {served : ServedJob}
    (h : handleInferenceRequest K items node req nowMs now endMs = .ok (some served, node')) :
    served.jobId = K.blake3 (jobIdInput (req.billingAddress K) req.nonce now) ∧
      receiptedJobs served.receipt.tx = [served.jobId] := by
  unfold handleInferenceRequest at h
  obtain ⟨verified, -, h⟩ := bind_eq_ok.mp h
  cases verified with
  | error e => cases h
  | ok u =>
    simp only at h
    split at h
    · cases h
    · split at h
      · cases h
      · split at h
        · cases h
        · obtain ⟨outputTokens, -, h⟩ := bind_eq_ok.mp h
          cases h
          exact ⟨rfl, rfl⟩

end

/-! ## The law -/

/-- A request whose escrow was published, that the router dispatched and the compute node served: with the
balance for it the lock is applied under the job's id everywhere exactly when the parties are in step. -/
theorem paid_job_agreement {K : Primitives} {η σ : Type}
    {items : σ → List (Except InferenceError InferenceEvent)} {req : InferenceJobRequest} {amount : Amount}
    {wallet : Option Wallet} {lock : SignedTransaction} {ctx : BlockCtx} {r r' : RouterService}
    {routerMs nowMs computeMs endMs : Timestamp} {policy : QuotaPolicy} {dispatched : JobId}
    {stream : EventStream} {node node' : ComputeNode η σ} {served : ServedJob}
    (hpublished : submitEscrow K wallet req amount = .ok lock)
    (hbalance : amount.val + ESCROW_FEE.val ≤ (ctx.account (req.billingAddress K)).balance.val)
    (haccepted : r.accept K req routerMs policy = .ok (.returned (.ok (dispatched, stream)), r'))
    (hserved : handleInferenceRequest K items node req nowMs computeMs endMs = .ok (some served, node'))
    (hno : NoCollision K (jobIdInputs K req r routerMs computeMs)) :
    PaidJobAgrees K ctx lock dispatched served ↔ InStep K ctx req amount r routerMs computeMs := by
  have hlock := submitEscrow_lock hpublished
  have hrouter := accept_dispatched haccepted
  obtain ⟨hcompute, hreceipt⟩ := handle_served hserved
  have happlies : (∃ ctx' gas, applyTx K ctx lock = .ok (ctx', .applied gas)) ↔ amount ≠ 0 ∧
      ctx.getEscrow (escrowJobId K req) = none ∧ (ctx.account (req.billingAddress K)).nonce = req.nonce ∧
        req.nonce.val < 2 ^ 64 - 1 := by
    simp only [applyTx, hlock]
    exact escrowLock_applies_iff hbalance
  have hjob : lockedJob lock.tx = some (escrowJobId K req) := by rw [hlock]; rfl
  have hclient : escrowJobId K req =
      K.blake3 (jobIdInput (req.billingAddress K) req.nonce req.timestampMs) := rfl
  constructor
  · intro h
    obtain ⟨hpositive, hunlocked, hnonce, hroom⟩ := happlies.mp h.applied
    have hrouted := Option.some.inj (hjob.symm.trans h.routed)
    have hcomputed := Option.some.inj (hjob.symm.trans h.computed)
    rw [hrouter, hclient] at hrouted
    rw [hcompute, hclient] at hcomputed
    obtain ⟨hnow, hsalt⟩ := jobIdInput_inj.mp
      (hno _ (by simp [jobIdInputs]) _ (by simp [jobIdInputs]) hrouted)
    obtain ⟨-, htime⟩ := jobIdInput_inj.mp
      (hno _ (by simp [jobIdInputs]) _ (by simp [jobIdInputs]) hcomputed)
    exact ⟨hpositive, hunlocked, hnonce, hroom, hnow.symm, hsalt.symm, htime.symm⟩
  · intro h
    have hserves : served.jobId = escrowJobId K req := by rw [hcompute, h.compute]; rfl
    refine ⟨happlies.mpr ⟨h.positive, h.unlocked, h.nonce, h.room⟩, ?_, ?_, ?_⟩
    · rw [hjob, hrouter, h.router, h.salt]
      rfl
    · rw [hjob, hserves]
    · rw [hjob, hreceipt, hserves]
      rfl

/-! ## One job -/

def pricedRequest (nonce : Nonce) (timestampMs : Timestamp) : InferenceJobRequest :=
  { plainRequest with modelRef := "m/m-Q8_0", nonce := nonce, timestampMs := timestampMs }

/-- One candidate, which ends at once. -/
def oneCandidate : RouterService :=
  { loneRouter with registry := ⟨[{
      nodeId := 1
      dispatcher := fun _ => .returned (.ok ⟨[.stop 0 .endOfStream], true, true⟩)
      totalStake := 1
      modelRefs := ["m/m-Q8_0"]
      lastSeenMs := 0
      supportsTee := false }]⟩ }

/-- Every model loads, and no token comes. -/
def silentNode : ComputeNode Unit Unit := ⟨[], 0, .new { load := fun _ => .ok (), infer := fun _ _ => () }⟩

def silence : Unit → List (Except InferenceError InferenceEvent) := fun _ => [.ok (.stop .endOfStream)]

def openWallet : Wallet := ⟨PubKey.ed25519 plainKey, fun _ => ⟨.ed25519, []⟩⟩

/-- The payer's account holds what a lock of a thousand takes. -/
def payerState : State :=
  { State.empty with accounts := Column.empty.insert (plainRequest.billingAddress toyPrimitives) ⟨22000, 0⟩ }

set_option maxRecDepth 8000 in
/-- The first request of an account whose clock shows one, at a router whose clock shows zero. -/
theorem paid_job_agreement_first : ∃ lock dispatched stream r' served node',
    submitEscrow toyPrimitives (some openWallet) (pricedRequest 0 1) 1000 = .ok lock ∧
    oneCandidate.accept toyPrimitives (pricedRequest 0 1) 0 .enforce =
      .ok (.returned (.ok (dispatched, stream)), r') ∧
    handleInferenceRequest toyPrimitives silence silentNode (pricedRequest 0 1) 1 1 2 =
      .ok (some served, node') ∧ PaidJobAgrees toyPrimitives payerState.beginBlock lock dispatched served := by
  have haccepted : ∃ dispatched stream r', oneCandidate.accept toyPrimitives (pricedRequest 0 1) 0 .enforce =
    .ok (.returned (.ok (dispatched, stream)), r') := ⟨_, _, _, rfl⟩
  have hserved : ∃ served node', handleInferenceRequest toyPrimitives silence silentNode
    (pricedRequest 0 1) 1 1 2 = .ok (some served, node') := ⟨_, _, rfl⟩
  obtain ⟨dispatched, stream, r', haccepted⟩ := haccepted
  obtain ⟨served, node', hserved⟩ := hserved
  have hpublished : ∃ lock, submitEscrow toyPrimitives (some openWallet) (pricedRequest 0 1) 1000 =
    .ok lock := ⟨_, rfl⟩
  obtain ⟨lock, hpublished⟩ := hpublished
  have hstep : InStep toyPrimitives payerState.beginBlock (pricedRequest 0 1) 1000 oneCandidate 0 1 :=
    ⟨by decide, rfl, rfl, by decide, rfl, rfl, rfl⟩
  exact ⟨lock, dispatched, stream, r', served, node', hpublished, haccepted, hserved,
    (paid_job_agreement hpublished (by decide) haccepted hserved (by decide)).mpr hstep⟩

set_option maxRecDepth 8000 in
/-- A client that takes the time for the nonce, and a compute node that looks at its own clock. -/
theorem three_job_ids : ∃ lock dispatched stream r' served node',
    submitEscrow toyPrimitives (some openWallet) (pricedRequest 3 3) 1000 = .ok lock ∧
    oneCandidate.accept toyPrimitives (pricedRequest 3 3) 4 .enforce =
      .ok (.returned (.ok (dispatched, stream)), r') ∧
    handleInferenceRequest toyPrimitives silence silentNode (pricedRequest 3 3) 5 5 6 =
      .ok (some served, node') ∧
    (applyTx toyPrimitives payerState.beginBlock lock).map Prod.snd =
      .ok (.rejected (.nonceMismatch 0 3)) ∧
    lockedJob lock.tx ≠ some dispatched ∧ lockedJob lock.tx ≠ some served.jobId ∧
    dispatched ≠ served.jobId := by
  have haccepted : ∃ dispatched stream r', oneCandidate.accept toyPrimitives (pricedRequest 3 3) 4 .enforce =
    .ok (.returned (.ok (dispatched, stream)), r') := ⟨_, _, _, rfl⟩
  have hserved : ∃ served node', handleInferenceRequest toyPrimitives silence silentNode
    (pricedRequest 3 3) 5 5 6 = .ok (some served, node') := ⟨_, _, rfl⟩
  obtain ⟨dispatched, stream, r', haccepted⟩ := haccepted
  obtain ⟨served, node', hserved⟩ := hserved
  refine ⟨_, dispatched, stream, r', served, node', rfl, haccepted, hserved, rfl, ?_⟩
  rw [accept_dispatched haccepted, (handle_served hserved).1]
  decide

end Arknet.Laws
