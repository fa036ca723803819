import Arknet.Node.VerifierRole
import Arknet.Consensus.Run
import Arknet.Laws.ClientRequests

/-!
The verifier role over the blocks that are finalized while it runs. It looks at a block only when it was
waiting for one, disputes exactly the sampled receipts that its backend contradicts, and with the backend
it is built with it disputes nothing.
-/

namespace Arknet.Laws

open Machine Arknet.Chain Arknet.Consensus Arknet.Verifier Arknet.Node

/-- The blocks that find the role waiting. -/
def seenBlocks : List RoleEvent → List Block
  | [] => []
  | .waits :: .finalized block :: rest => block :: seenBlocks rest
  | _ :: rest => seenBlocks rest

def finalizedBlocks (events : List RoleEvent) : List Block :=
  events.filterMap fun e =>
    match e with
    | .finalized block => some block
    | .waits => none

def waitCount (events : List RoleEvent) : Nat :=
  events.countP fun e => e matches .waits

section

variable {K : Primitives} {backend : Reexecutor} {role : VerifierIdentity}

theorem run_from (s : VerifierRole) (events : List RoleEvent) :
    (events.foldl (VerifierRole.step K backend role) s).submitted = s.submitted ++
      (seenBlocks (if s.subscribed then .waits :: events else events)).flatMap (inspectBlock K backend role) := by
  induction events generalizing s with
  | nil => cases hs : s.subscribed <;> simp [seenBlocks]
  | cons e rest ih =>
    rw [List.foldl_cons, ih]
    cases e with
    | waits => cases hs : s.subscribed <;> simp [VerifierRole.step, seenBlocks]
    | finalized block =>
      cases hs : s.subscribed <;> simp [VerifierRole.step, hs, seenBlocks]

theorem seenBlocks_sublist (events : List RoleEvent) : (seenBlocks events).Sublist (finalizedBlocks events) := by
  fun_induction seenBlocks events with
  | case1 => exact .slnil
  | case2 block rest ih => exact ih.cons_cons block
  | case3 e rest _ ih =>
    cases e with
    | waits => exact ih
    | finalized block => exact ih.cons block

theorem seenBlocks_length (events : List RoleEvent) : (seenBlocks events).length ≤ waitCount events := by
  fun_induction seenBlocks events with
  | case1 => exact Nat.zero_le _
  | case2 block rest ih =>
    simp only [waitCount, List.length_cons, List.countP_cons] at ih ⊢
    simpa using ih
  | case3 e rest _ ih =>
    simp only [waitCount, List.countP_cons] at ih ⊢
    omega

/-- What contradicts a receipt: the head over the text that the backend gave. -/
theorem verifyReceipt_diverged {receipt : InferenceReceipt} {head : Hash256} {proof : ComputeProof} :
    verifyReceipt K backend receipt = .ok (.diverged head proof) ↔
      (∃ links, receipt.computeProof = .hashChain links) ∧ ∃ text, backend receipt = .ok text ∧
        head = rederivedHead K receipt.jobId text ∧ head ≠ receipt.outputHash ∧
        proof = .hashChain (rebuildHashChain K receipt.jobId text) := by
  unfold verifyReceipt
  cases hproof : receipt.computeProof with
  | hashChain links =>
    cases hback : backend receipt with
    | error e => exact iff_of_false (fun h => by cases h) (by simp)
    | ok text =>
      change (if rederivedHead K receipt.jobId text = receipt.outputHash then _ else _) = _ ↔ _
      split_ifs with hsame
      · refine iff_of_false (by simp) ?_
        rintro ⟨-, text', htext, rfl, hne, -⟩
        obtain rfl := Except.ok.inj htext
        exact hne hsame
      · simp only [Except.ok.injEq, Verdict.diverged.injEq]
        constructor
        · rintro ⟨rfl, rfl⟩
          exact ⟨⟨links, rfl⟩, text, rfl, rfl, hsame, rfl⟩
        · rintro ⟨-, text', rfl, rfl, -, rfl⟩
          exact ⟨rfl, rfl⟩
  | _ => exact iff_of_false (fun h => by cases h) (by simp)

/-- The dispute that the role files over a receipt in a block. -/
structure Disputes (K : Primitives) (backend : Reexecutor) (role : VerifierIdentity) (blockHash : BlockHash)
    (receipt : InferenceReceipt) (stx : SignedTransaction) : Prop where
  selected : (selectVerifier K role.sk receipt.jobId blockHash DEFAULT_SAMPLING_RATE).selected = true
  hashChain : ∃ links, receipt.computeProof = .hashChain links
  /-- The backend's text leads to another head, which the dispute names beside the claimed one. -/
  contradicted : ∃ text, backend receipt = .ok text ∧ rederivedHead K receipt.jobId text ≠ receipt.outputHash ∧
    stx.tx = .dispute {
      jobId := receipt.jobId
      computeNode := receipt.computeNode
      claimedOutputHash := receipt.outputHash
      reexecOutputHash := rederivedHead K receipt.jobId text
      verifier := role.nodeId
      reporter := role.reporter
      vrfProof := (selectVerifier K role.sk receipt.jobId blockHash DEFAULT_SAMPLING_RATE).proof.signature.bytes
      reexecProof := .hashChain (rebuildHashChain K receipt.jobId text) }
  signer : stx.signer = role.sk.toPubkey
  signature : stx.signature = sign role.sk (stx.tx.hash K).toList

theorem inspectReceipt_eq_some {blockHash : BlockHash} {receipt : InferenceReceipt} {stx : SignedTransaction} :
    inspectReceipt K backend role blockHash receipt = some stx ↔
      Disputes K backend role blockHash receipt stx := by
  obtain ⟨tx, signer, signature⟩ := stx
  simp only [inspectReceipt]
  cases hsel : (selectVerifier K role.sk receipt.jobId blockHash DEFAULT_SAMPLING_RATE).selected with
  | false => exact iff_of_false (by simp) fun h => by simpa [hsel] using h.selected
  | true =>
    simp only [Bool.not_true, Bool.false_eq_true, if_false]
    constructor
    · intro h
      split at h
      · cases h
      · cases h
      · rename_i head proof hverdict
        obtain ⟨hchain, text, htext, rfl, hne, rfl⟩ := verifyReceipt_diverged.mp hverdict
        rw [buildAndSignDispute, buildDispute, if_neg (Ne.symm hne)] at h
        obtain ⟨rfl, rfl, rfl⟩ := SignedTransaction.mk.inj (Option.some.inj h)
        exact ⟨hsel, hchain, ⟨text, htext, hne, rfl⟩, rfl, rfl⟩
    · rintro ⟨-, hchain, ⟨text, htext, hne, rfl⟩, rfl, hsignature⟩
      dsimp only at hsignature
      subst hsignature
      rw [verifyReceipt_diverged.mpr ⟨hchain, text, htext, rfl, hne, rfl⟩]
      dsimp only
      rw [buildAndSignDispute, buildDispute, if_neg (Ne.symm hne)]
      rfl

/-- The backend of the role never gives a text. -/
theorem engineReexecutor_fails (load : ModelRef → Except String Hash256) (receipt : InferenceReceipt) :
    ∃ what, engineReexecutor load receipt = .error (.reexecFailed what) := by
  unfold engineReexecutor
  cases ModelRef.parse receipt.modelId with
  | error e => exact ⟨_, rfl⟩
  | ok modelRef =>
    cases hload : load modelRef with
    | error e => exact ⟨"model load: " ++ e, by simp [hload]⟩
    | ok loadedHash =>
      dsimp only
      rw [hload]
      dsimp only
      split_ifs <;> exact ⟨_, rfl⟩

/-- The role over any finalized blocks, whenever it waits for one. -/
theorem verifier_role_disputes (hkey : SoundKey K role.sk) (events : List RoleEvent) :
    (seenBlocks events).Sublist (finalizedBlocks events) ∧
    (seenBlocks events).length ≤ waitCount events ∧
    (∀ stx, stx ∈ (VerifierRole.run K backend role events).submitted ↔
      ∃ block ∈ seenBlocks events, ∃ receipt ∈ blockReceipts block,
        Disputes K backend role (block.hash K) receipt stx) ∧
    (VerifierRole.run K backend role events).submitted.length ≤
      ((seenBlocks events).flatMap blockReceipts).length ∧
    (∀ stx ∈ (VerifierRole.run K backend role events).submitted, stx.verifies K = true) ∧
    ∀ load, (VerifierRole.run K (engineReexecutor load) role events).submitted = [] := by
  have hrun : ∀ b : Reexecutor, (VerifierRole.run K b role events).submitted =
      (seenBlocks events).flatMap (inspectBlock K b role) := fun b => by
    rw [VerifierRole.run, run_from]
    rfl
  have hmem : ∀ b : Reexecutor, ∀ stx, stx ∈ (VerifierRole.run K b role events).submitted ↔
      ∃ block ∈ seenBlocks events, ∃ receipt ∈ blockReceipts block,
        Disputes K b role (block.hash K) receipt stx := fun b stx => by
    simp only [hrun, List.mem_flatMap, inspectBlock, List.mem_filterMap, inspectReceipt_eq_some]
  refine ⟨seenBlocks_sublist events, seenBlocks_length events, hmem backend, ?_, ?_, ?_⟩
  · rw [hrun, List.length_flatMap, List.length_flatMap]
    exact List.sum_le_sum fun block _ => List.length_filterMap_le _ _
  · intro stx hstx
    obtain ⟨block, -, receipt, -, hdispute⟩ := (hmem backend stx).mp hstx
    rw [SignedTransaction.verifies, hdispute.signer, hdispute.signature]
    exact verify_sign hkey _
  · intro load
    refine List.eq_nil_iff_forall_not_mem.mpr fun stx hstx => ?_
    obtain ⟨block, -, receipt, -, hdispute⟩ := (hmem _ stx).mp hstx
    obtain ⟨text, htext, -⟩ := hdispute.contradicted
    obtain ⟨what, hfails⟩ := engineReexecutor_fails load receipt
    rw [hfails] at htext
    cases htext

end

/-- Of two blocks finalized in a row one is looked at. -/
theorem verifier_role_disputes_two :
    seenBlocks [.waits, .finalized (bodyAt 1 []), .finalized (bodyAt 2 [])] = [bodyAt 1 []] ∧
    (VerifierRole.run toyPrimitives (engineReexecutor fun _ => .error "not loaded") ⟨0, 0, nullKey⟩
      [.waits, .finalized (bodyAt 1 []), .finalized (bodyAt 2 [])]).submitted = [] :=
  ⟨rfl, (@verifier_role_disputes toyPrimitives (engineReexecutor fun _ => .error "not loaded") _
    nullKey_sound _).2.2.2.2.2 _⟩

end Arknet.Laws
