import Arknet.Compute.Job
import Arknet.Node.ComputeRole
import Arknet.Verifier.Reexec
import Arknet.Laws.ReceiptPipeline

/-!
What an honest node commits to and what a verifier recomputes. The node's receipt commits to the
number of tokens, its hash chain to every token by itself and to no job; the verifier hashes the whole
text once under the job. Collisions of blake3 are excluded on the strings the two sides hash.
-/

namespace Arknet.Laws

open Machine Arknet.Chain Arknet.Inference Arknet.Compute Arknet.Verifier Arknet.Node

/-- blake3 tells these inputs apart. -/
def NoCollision (K : Primitives) (inputs : List (List UInt8)) : Prop :=
  ∀ x ∈ inputs, ∀ y ∈ inputs, K.blake3 x = K.blake3 y → x = y

instance (K : Primitives) (inputs : List (List UInt8)) : Decidable (NoCollision K inputs) :=
  inferInstanceAs (Decidable (∀ x ∈ inputs, ∀ y ∈ inputs, K.blake3 x = K.blake3 y → x = y))

theorem NoCollision.mono {K : Primitives} {inputs more : List (List UInt8)} (h : NoCollision K more)
    (hsub : inputs ⊆ more) : NoCollision K inputs :=
  fun x hx y hy => h x (hsub hx) y (hsub hy)

/-! ## The node's side -/

section

variable (K : Primitives)

/-- The texts of the tokens of a stream. -/
def tokenTexts (items : List (Except InferenceError InferenceEvent)) : List String :=
  items.filterMap (fun item =>
    match item with
    | .ok (.token tok) => some tok.text
    | _ => none)

def absorbAll (b : HashChainBuilder) (texts : List String) : HashChainBuilder :=
  texts.foldl (fun b text => b.absorbToken K text) b

/-- The chain of a stream is its texts absorbed one by one. -/
theorem forwardAll_chain (jobId : JobId) (b : Bridge)
    (items : List (Except InferenceError InferenceEvent)) :
    (b.forwardAll K jobId items).2.chain = absorbAll K b.chain (tokenTexts items) := by
  induction items generalizing b with
  | nil => rfl
  | cons item rest ih =>
    show ((b.forward K jobId item).2.forwardAll K jobId rest).2.chain = _
    rw [ih]
    cases item with
    | error e => rfl
    | ok event =>
      cases event with
      | token tok => rfl
      | stop reason => rfl

/-- What absorbing the texts hashes, in order. -/
def absorbed (b : HashChainBuilder) : List String → List (List UInt8)
  | [] => []
  | text :: rest =>
    (Compute.DOMAIN_HASHCHAIN ++ b.current.toList ++ utf8 text) :: absorbed (b.absorbToken K text) rest

theorem absorbAll_snoc (b : HashChainBuilder) (texts : List String) (text : String) :
    absorbAll K b (texts ++ [text]) = (absorbAll K b texts).absorbToken K text := by
  simp [absorbAll]

theorem absorbed_snoc (b : HashChainBuilder) (texts : List String) (text : String) :
    absorbed K b (texts ++ [text]) = absorbed K b texts ++
      [Compute.DOMAIN_HASHCHAIN ++ (absorbAll K b texts).current.toList ++ utf8 text] := by
  induction texts generalizing b with
  | nil => rfl
  | cons t texts ih =>
    show _ :: absorbed K (b.absorbToken K t) (texts ++ [text]) = _
    rw [ih]
    rfl

/-- Everything the bridge hashes for these texts. -/
def chainInputs (texts : List String) : List (List UInt8) :=
  Compute.DOMAIN_HASHCHAIN :: absorbed K (.new K) texts

/-- The two strings a verifier hashes. -/
def rebuildInputs (jobId : JobId) (text : String) : List (List UInt8) :=
  [Verifier.DOMAIN_HASHCHAIN ++ jobId.toList,
    Verifier.DOMAIN_HASHCHAIN ++ (K.blake3 (Verifier.DOMAIN_HASHCHAIN ++ jobId.toList)).toList ++ utf8 text]

/-- The string behind a submitted receipt's `output_hash`. -/
def countInput (job : FinishedJob) : List UInt8 := leBytes 4 job.outputTokens.val

/-- Every token but the last is empty, and the job's id is where the chain stands one token before
the last of the empty ones. -/
def OnceAndSeeded (jobId : JobId) (texts : List String) : Prop :=
  ∃ m text, texts = List.replicate (m + 1) "" ++ [text] ∧
    jobId = (absorbAll K (.new K) (List.replicate m "")).head

end

section

variable {K : Primitives}

/-! ## Strings of different shapes -/

private theorem domain_length : Verifier.DOMAIN_HASHCHAIN.length = 19 := by decide

private theorem append_hash_inj {d d' : List UInt8} {h h' : Hash256} {t t' : List UInt8} (hd : d = d')
    (heq : d ++ h.toList ++ t = d' ++ h'.toList ++ t') : h = h' ∧ t = t' := by
  subst hd
  rw [List.append_assoc, List.append_assoc, List.append_cancel_left_eq] at heq
  obtain ⟨hh, ht⟩ := List.append_inj heq (by simp)
  exact ⟨Bytes.toList_injective hh, ht⟩

theorem utf8_eq_nil {s : String} (h : utf8 s = []) : s = "" := by
  have hinj : utf8 s = utf8 "" := h
  exact String.toByteArray_inj.mp (ByteArray.ext (Array.toList_inj.mp hinj))

theorem utf8_join (texts : List String) : utf8 (String.join texts) = texts.flatMap utf8 := by
  induction texts with
  | nil => rfl
  | cons text texts ih => rw [String.join_cons, utf8_append, ih, List.flatMap_cons]

/-! ## When the two agree -/

/-- Texts whose last one is all of the output are empty before it. -/
theorem replicate_of_join {texts : List String} {text : String}
    (h : utf8 text = utf8 (String.join (texts ++ [text]))) : texts = List.replicate texts.length "" := by
  rw [utf8_join, List.flatMap_append, List.flatMap_singleton] at h
  have hnil : texts.flatMap utf8 = [] := List.self_eq_append_left.mp h
  refine List.eq_replicate_iff.mpr ⟨rfl, fun t ht => ?_⟩
  exact utf8_eq_nil (List.flatMap_eq_nil_iff.mp hnil t ht)

theorem join_replicate_empty (m : Nat) (text : String) :
    String.join (List.replicate m "" ++ [text]) = text := by
  induction m with
  | zero => simp
  | succ m ih => rw [List.replicate_succ, List.cons_append, String.join_cons, ih, String.empty_append]

/-- What a chain hashes last, and where it then stands. -/
theorem absorbAll_last (texts : List String) (text : String) :
    (absorbAll K (.new K) (texts ++ [text])).current = K.blake3 (Compute.DOMAIN_HASHCHAIN ++
        (absorbAll K (.new K) texts).current.toList ++ utf8 text) ∧
      Compute.DOMAIN_HASHCHAIN ++ (absorbAll K (.new K) texts).current.toList ++ utf8 text ∈
        chainInputs K (texts ++ [text]) := by
  rw [absorbAll_snoc, chainInputs, absorbed_snoc]
  exact ⟨rfl, by simp⟩

theorem chainInputs_snoc (texts : List String) (text : String) :
    chainInputs K texts ⊆ chainInputs K (texts ++ [text]) := by
  rw [chainInputs, chainInputs, absorbed_snoc, ← List.cons_append]
  exact List.subset_append_left _ _

/-- The bridge's chain ends where the verifier's does for such outputs only. -/
theorem chain_head_iff {jobId : JobId} {texts : List String}
    (hno : NoCollision K (chainInputs K texts ++ rebuildInputs K jobId (String.join texts))) :
    (absorbAll K (.new K) texts).head = rederivedHead K jobId (String.join texts) ↔
      OnceAndSeeded K jobId texts := by
  constructor
  · intro heq
    have hseed : Verifier.DOMAIN_HASHCHAIN ++ jobId.toList ∈
        rebuildInputs K jobId (String.join texts) := by simp [rebuildInputs]
    have hrebuilt : Verifier.DOMAIN_HASHCHAIN ++
        (K.blake3 (Verifier.DOMAIN_HASHCHAIN ++ jobId.toList)).toList ++ utf8 (String.join texts) ∈
          rebuildInputs K jobId (String.join texts) := by simp [rebuildInputs]
    -- The last hash of the chain is the verifier's last one, so their strings are one.
    rcases List.eq_nil_or_concat texts with rfl | ⟨init, last, rfl⟩
    · have hstring := hno _ (List.mem_append_left _ (List.mem_cons_self ..)) _
        (List.mem_append_right _ hrebuilt) heq
      have hlength := congrArg List.length hstring
      simp only [List.length_append, Bytes.length_toList] at hlength
      have : Compute.DOMAIN_HASHCHAIN.length = Verifier.DOMAIN_HASHCHAIN.length := rfl
      omega
    · rw [List.concat_eq_append] at *
      obtain ⟨hhead, hmem⟩ := absorbAll_last (K := K) init last
      have hstring := hno _ (List.mem_append_left _ hmem) _ (List.mem_append_right _ hrebuilt)
        (hhead.symm.trans heq)
      obtain ⟨hcurrent, hlast⟩ := append_hash_inj rfl hstring
      have hempty := replicate_of_join hlast
      -- The hash before it is the verifier's seed.
      cases hlen : init.length with
      | zero =>
        obtain rfl : init = [] := List.length_eq_zero_iff.mp hlen
        have hdomain := hno _ (List.mem_append_left _ (List.mem_cons_self ..)) _
          (List.mem_append_right _ hseed) hcurrent
        have hlength := congrArg List.length hdomain
        simp only [List.length_append, Bytes.length_toList] at hlength
        have : Compute.DOMAIN_HASHCHAIN.length = Verifier.DOMAIN_HASHCHAIN.length := rfl
        omega
      | succ m =>
        rw [hlen] at hempty
        subst hempty
        refine ⟨m, last, rfl, ?_⟩
        rw [List.replicate_succ'] at hcurrent hno
        obtain ⟨hhead', hmem'⟩ := absorbAll_last (K := K) (List.replicate m "") ""
        have hseeded := hno _ (List.mem_append_left _ (chainInputs_snoc _ _ hmem')) _
          (List.mem_append_right _ (by
            rw [List.replicate_succ'] at hseed
            exact hseed)) (hhead'.symm.trans hcurrent)
        rw [utf8_empty, List.append_nil] at hseeded
        exact (Bytes.toList_injective (List.append_cancel_left hseeded)).symm
  · rintro ⟨m, text, rfl, rfl⟩
    obtain ⟨hhead, -⟩ := absorbAll_last (K := K) (List.replicate (m + 1) "") text
    obtain ⟨hseed, -⟩ := absorbAll_last (K := K) (List.replicate m "") ""
    rw [← List.replicate_succ', utf8_empty, List.append_nil] at hseed
    show (absorbAll K (.new K) _).current = _
    rw [hhead, hseed, join_replicate_empty]
    rfl

/-! ## The verdict -/

/-- The verdict on a hash-chain receipt, by what the backend's text hashes to. -/
theorem verifyReceipt_eq {backend : Reexecutor} {receipt : InferenceReceipt} {links : List Hash256}
    {text : String} (hproof : receipt.computeProof = .hashChain links)
    (hbackend : backend receipt = .ok text) : verifyReceipt K backend receipt =
      if rederivedHead K receipt.jobId text = receipt.outputHash then .ok .verified
      else .ok (.diverged (rederivedHead K receipt.jobId text)
        (.hashChain (rebuildHashChain K receipt.jobId text))) := by
  rw [verifyReceipt, hproof]
  simp only [hbackend]
  rfl

/-- A count is shorter than anything the verifier hashes. -/
theorem count_ne_rebuilt (job : FinishedJob) {jobId : JobId} {text : String}
    (hno : NoCollision K (countInput job :: rebuildInputs K jobId text)) :
    rederivedHead K jobId text ≠ K.blake3 (countInput job) := by
  intro heq
  have hrebuilt : Verifier.DOMAIN_HASHCHAIN ++
      (K.blake3 (Verifier.DOMAIN_HASHCHAIN ++ jobId.toList)).toList ++ utf8 text ∈
        rebuildInputs K jobId text := by simp [rebuildInputs]
  have hstring := hno _ (List.mem_cons_of_mem _ hrebuilt) _ (List.mem_cons_self ..) heq
  have hlength := congrArg List.length hstring
  have hcount : (countInput job).length = 4 := rfl
  simp only [List.length_append, Bytes.length_toList, domain_length, hcount] at hlength
  omega

/-- For every job, every stream of its output and every backend that reproduces the text: the receipt
the node submits diverges. A receipt that carried the bridge's chain would be verified exactly when
the output comes in one piece after empty tokens and the chain of these is the job's id. -/
theorem honest_output (K : Primitives) (localPeer : List UInt8) (job : FinishedJob)
    (items : List (Except InferenceError InferenceEvent)) (backend : Reexecutor)
    (hno : NoCollision K (countInput job :: (chainInputs K (tokenTexts items) ++
      rebuildInputs K job.jobId (String.join (tokenTexts items)))))
    (hfaithful : ∀ receipt : InferenceReceipt, receipt.jobId = job.jobId →
      backend receipt = .ok (String.join (tokenTexts items))) :
    (jobReceipt K localPeer job).outputHash ≠
        rederivedHead K job.jobId (String.join (tokenTexts items)) ∧
      verifyReceipt K backend (jobReceipt K localPeer job) =
        .ok (.diverged (rederivedHead K job.jobId (String.join (tokenTexts items)))
          (.hashChain (rebuildHashChain K job.jobId (String.join (tokenTexts items))))) ∧
      ∀ receipt : InferenceReceipt, receipt.jobId = job.jobId →
        receipt.computeProof = ((Bridge.new K).forwardAll K job.jobId items).2.chain.finish →
        receipt.outputHash = ((Bridge.new K).forwardAll K job.jobId items).2.chain.head →
        (receipt.outputHash = rederivedHead K job.jobId (String.join (tokenTexts items)) ↔
          OnceAndSeeded K job.jobId (tokenTexts items)) ∧
        (verifyReceipt K backend receipt = .ok .verified ↔
          OnceAndSeeded K job.jobId (tokenTexts items)) := by
  have hchain : ((Bridge.new K).forwardAll K job.jobId items).2.chain =
      absorbAll K (.new K) (tokenTexts items) := forwardAll_chain K job.jobId _ items
  have hcount := count_ne_rebuilt job (hno.mono (List.cons_subset_cons _ (List.subset_append_right _ _)))
  refine ⟨fun h => hcount h.symm, ?_, fun receipt hjob hproof houtput => ?_⟩
  · rw [verifyReceipt_eq rfl (hfaithful _ rfl), if_neg]
    · rfl
    · exact hcount
  · rw [hchain] at hproof houtput
    have hiff := chain_head_iff (hno.mono (List.subset_cons_self _ _))
    rw [← houtput] at hiff
    refine ⟨hiff, ?_⟩
    rw [verifyReceipt_eq hproof (hfaithful receipt hjob), hjob, ← hiff]
    constructor
    · intro h
      split at h
      · rename_i heq
        exact heq.symm
      · cases h
    · intro h
      rw [if_pos h.symm]

end

/-! ## An honest job of one token -/

def helloItems : List (Except InferenceError InferenceEvent) :=
  [.ok (.token ⟨0, 1, "hello"⟩), .ok (.stop .endOfStream)]

def helloBackend : Reexecutor := fun _ => .ok "hello"

theorem hello_noCollision : NoCollision toyPrimitives (countInput servedJob ::
    (chainInputs toyPrimitives (tokenTexts helloItems) ++
      rebuildInputs toyPrimitives servedJob.jobId (String.join (tokenTexts helloItems)))) := by
  decide

/-- Its receipt diverges, and so would one with the bridge's chain. -/
theorem honest_output_hello :
    (∃ head proof, verifyReceipt toyPrimitives helloBackend
      (jobReceipt toyPrimitives [1, 2] servedJob) = .ok (.diverged head proof)) ∧
    ∀ receipt : InferenceReceipt, receipt.jobId = servedJob.jobId →
      receipt.computeProof =
        ((Bridge.new toyPrimitives).forwardAll toyPrimitives servedJob.jobId helloItems).2.chain.finish →
      receipt.outputHash =
        ((Bridge.new toyPrimitives).forwardAll toyPrimitives servedJob.jobId helloItems).2.chain.head →
      verifyReceipt toyPrimitives helloBackend receipt ≠ .ok .verified := by
  obtain ⟨-, hdiverged, hchain⟩ := honest_output toyPrimitives [1, 2] servedJob helloItems helloBackend
    hello_noCollision (fun _ _ => rfl)
  refine ⟨⟨_, _, hdiverged⟩, fun receipt hjob hproof houtput hverified => ?_⟩
  obtain ⟨m, text, htexts, -⟩ := (hchain receipt hjob hproof houtput).2.mp hverified
  have hlength := congrArg List.length htexts
  have hone : (tokenTexts helloItems).length = 1 := by decide
  simp only [hone, List.length_append, List.length_replicate, List.length_singleton] at hlength
  omega

/-- Neither commitment of the job is what the verifier recomputes from its text. -/
theorem honest_output_diverges :
    NoCollision toyPrimitives (countInput servedJob ::
      (chainInputs toyPrimitives ["hello"] ++ rebuildInputs toyPrimitives servedJob.jobId "hello")) ∧
    (jobReceipt toyPrimitives [1, 2] servedJob).outputHash ≠
      rederivedHead toyPrimitives servedJob.jobId "hello" ∧
    ((Bridge.new toyPrimitives).forwardAll toyPrimitives servedJob.jobId helloItems).2.chain.head ≠
      rederivedHead toyPrimitives servedJob.jobId "hello" := by
  refine ⟨?_, ?_, ?_⟩ <;> decide

end Arknet.Laws
