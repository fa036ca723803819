import Arknet.Chain.StakeApply
import Arknet.Chain.Crypto

/-!
Application of one signed transaction to the block context. Invalid transactions are rejected
without effect on the block, with one exception: a receipt batch that meets an anchored job keeps
the marks it made before it met it.
-/

namespace Arknet.Chain

open Machine

def BASE_TRANSFER_GAS : Gas := 21000
def RECEIPT_ANCHOR_GAS_PER_RECEIPT : Gas := 20000
def DISPUTE_GAS : Gas := 100000
def ESCROW_LOCK_GAS : Gas := 50000
def ESCROW_SETTLE_GAS : Gas := 50000
def REWARD_MINT_GAS : Gas := 30000
def REGISTER_MODEL_GAS : Gas := 200000
def MODEL_DEPOSIT : Amount := 10000 * 1000000000
def REGISTER_TEE_GAS : Gas := 200000
def MIN_TEE_QUOTE_BYTES : Nat := 128
def REGISTER_GATEWAY_GAS : Gas := 100000
def UNREGISTER_GATEWAY_GAS : Gas := 50000
def GOV_PROPOSAL_GAS : Gas := 500000
def GOV_VOTE_GAS : Gas := 30000
def PROPOSAL_DEPOSIT : Amount := 10000 * 1000000000

def epochOf (height : Height) : U64 := height / EPOCH_LENGTH_BLOCKS

/-! ## Transfers -/

def applyTransfer (ctx : BlockCtx) (src dst : Address) (amount : Amount) (nonce : Nonce) (fee : Gas) :
    Exec (BlockCtx × TxOutcome) :=
  let acct := ctx.account src
  let feeCost := satMul (asAmount fee) ctx.state.baseFee
  if src = dst then reject ctx .selfTransfer
  else if fee < BASE_TRANSFER_GAS then reject ctx (.feeTooLow BASE_TRANSFER_GAS fee)
  else if acct.nonce ≠ nonce then reject ctx (.nonceMismatch acct.nonce nonce)
  else
    match add amount feeCost with
    | .error _ => reject ctx (.insufficientBalance acct.balance (Fin.last _))
    | .ok total =>
      if acct.balance < total then reject ctx (.insufficientBalance acct.balance total)
      else do
        let balance ← sub acct.balance total
        let next ← add acct.nonce 1
        let toAcct := ctx.account dst
        let ctx := ctx.setAccount src ⟨balance, next⟩
        applied (ctx.setAccount dst { toAcct with balance := satAdd toAcct.balance amount }) fee

/-! ## Receipts and disputes -/

/-- The check and the mark of each receipt; the flag says which job was already there. -/
def markReceipts (ctx : BlockCtx) (height : Height) :
    List InferenceReceipt → BlockCtx × Option JobId
  | [] => (ctx, none)
  | r :: rs =>
    if ctx.isReceiptSeen r.jobId then (ctx, some r.jobId)
    else markReceipts (ctx.markReceiptSeen r.jobId height) height rs

section

variable (K : Primitives)

def bootstrapReward (height : Height) (r : InferenceReceipt) : PendingReward where
  jobId := r.jobId
  outputTokens := r.outputTokenCount
  userPayment := 0
  epoch := epochOf height
  computeAddr := nodeIdToAddress K r.computeNode
  verifierAddr := bootstrapTreasuryAddress K
  routerAddr := nodeIdToAddress K r.routerNode
  treasuryAddr := bootstrapTreasuryAddress K
  teeMultiplierBps := if r.verificationTier = .tee then TEE_MULTIPLIER_TEE else TEE_MULTIPLIER_NONE
  httpsMultiplierBps := HTTP_MULTIPLIER_BPS

def applyReceiptBatch (ctx : BlockCtx) (batch : ReceiptBatch) (height : Height) :
    Exec (BlockCtx × TxOutcome) :=
  if batch.receipts = [] then reject ctx .emptyReceiptBatch
  else if receiptMerkleRoot K batch.receipts ≠ batch.merkleRoot then reject ctx .receiptMerkleMismatch
  else
    match markReceipts ctx height batch.receipts with
    | (ctx, some job) => reject ctx (.receiptDoubleAnchor job.hexEncode)
    | (ctx, none) =>
      let ctx :=
        if inBootstrapEpoch height ctx.state.validatorCount then
          batch.receipts.foldl (fun ctx r => ctx.setPendingReward r.jobId (bootstrapReward K height r)) ctx
        else ctx
      applied ctx (satMul RECEIPT_ANCHOR_GAS_PER_RECEIPT (truncate 64 batch.receipts.length))

end

def applyDispute (ctx : BlockCtx) (d : Dispute) : Exec (BlockCtx × TxOutcome) :=
  if d.claimedOutputHash = d.reexecOutputHash then reject ctx .disputeOutputMatches
  else if !ctx.isReceiptSeen d.jobId then reject ctx .disputeReceiptNotFound
  else applied ctx DISPUTE_GAS

/-! ## Escrow and rewards -/

/-- The five shares of a payment; the burned one is credited to nobody. -/
structure RewardSplit where
  compute : Amount
  verifier : Amount
  burned : Amount
  delegators : Amount
  treasury : Amount
  deriving DecidableEq, Repr

def percentOf (total : Amount) (percent : Amount) : Exec Amount := do
  let product ← mul total percent
  div product 100

def rewardSplit (total : Amount) : Exec RewardSplit := do
  let compute ← percentOf total 80
  let verifier ← percentOf total 7
  let burned ← percentOf total 3
  let delegators ← percentOf total 5
  let rest ← sub total compute
  let rest ← sub rest verifier
  let rest ← sub rest burned
  let treasury ← sub rest delegators
  pure ⟨compute, verifier, burned, delegators, treasury⟩

def creditRewardSplit (ctx : BlockCtx) (total : Amount)
    (computeAddr verifierAddr treasuryAddr : Address) : Exec BlockCtx := do
  let split ← rewardSplit total
  let computeTotal ← add split.compute split.delegators
  let ctx := ctx.creditPositive computeAddr computeTotal
  let ctx := ctx.creditPositive verifierAddr split.verifier
  pure (ctx.creditPositive treasuryAddr split.treasury)

def applyEscrowLock (ctx : BlockCtx) (sender : Address) (jobId : JobId) (amount : Amount)
    (nonce : Nonce) (fee : Gas) (height : Height) : Exec (BlockCtx × TxOutcome) :=
  let acct := ctx.account sender
  let total := satAdd amount (asAmount fee)
  if amount = 0 then reject ctx (.notYetImplemented "zero-amount escrow")
  else if (ctx.getEscrow jobId).isSome then reject ctx (.receiptDoubleAnchor jobId.hexEncode)
  else if acct.nonce ≠ nonce then reject ctx (.nonceMismatch acct.nonce nonce)
  else if acct.balance < total then reject ctx (.insufficientBalance acct.balance total)
  else do
    let balance ← sub acct.balance total
    let next ← add acct.nonce 1
    let ctx := ctx.setAccount sender ⟨balance, next⟩
    applied (ctx.setEscrow jobId ⟨jobId, sender, amount, height, .locked⟩) ESCROW_LOCK_GAS

def settlementReward (jobId : JobId) (amount : Amount)
    (computeAddr verifierAddr routerAddr treasuryAddr : Address) (height : Height) :
    PendingReward where
  jobId := jobId
  outputTokens := 0
  userPayment := amount
  epoch := epochOf height
  computeAddr := computeAddr
  verifierAddr := verifierAddr
  routerAddr := routerAddr
  treasuryAddr := treasuryAddr
  teeMultiplierBps := TEE_MULTIPLIER_NONE
  httpsMultiplierBps := HTTP_MULTIPLIER_BPS

def applyEscrowSettle (ctx : BlockCtx) (jobId : JobId)
    (computeAddr verifierAddr routerAddr treasuryAddr : Address) (height : Height) :
    Exec (BlockCtx × TxOutcome) :=
  match ctx.getEscrow jobId with
  | none => reject ctx (.notYetImplemented "escrow not found for settle")
  | some entry =>
    if entry.state ≠ .locked then reject ctx (.notYetImplemented "escrow not in Locked state")
    else do
      let ctx ← creditRewardSplit ctx entry.amount computeAddr verifierAddr treasuryAddr
      let ctx := ctx.setPendingReward jobId
        (settlementReward jobId entry.amount computeAddr verifierAddr routerAddr treasuryAddr height)
      applied (ctx.setEscrow jobId { entry with state := .settled }) ESCROW_SETTLE_GAS

def applyRewardMint (ctx : BlockCtx) (totalReward : Amount)
    (computeAddr verifierAddr treasuryAddr : Address) : Exec (BlockCtx × TxOutcome) :=
  if totalReward = 0 then applied ctx REWARD_MINT_GAS
  else do
    let ctx ← creditRewardSplit ctx totalReward computeAddr verifierAddr treasuryAddr
    let gasUsed ← mul REWARD_MINT_GAS 6
    applied ctx gasUsed

/-! ## Registries -/

def applyRegisterModel (ctx : BlockCtx) (manifest : OnChainModelManifest) (registrar : Address)
    (deposit : Amount) : Exec (BlockCtx × TxOutcome) :=
  let acct := ctx.account registrar
  if deposit < MODEL_DEPOSIT then
    reject ctx (.feeTooLow (truncate 64 MODEL_DEPOSIT.val) (truncate 64 deposit.val))
  else if manifest.modelId = "" then reject ctx (.notYetImplemented "empty model_id")
  else if (ctx.getModel manifest.modelId).isSome then
    reject ctx (.notYetImplemented "model already registered")
  else if acct.balance < deposit then reject ctx (.insufficientBalance acct.balance deposit)
  else do
    let balance ← sub acct.balance deposit
    let ctx := ctx.setAccount registrar { acct with balance := balance }
    applied (ctx.setModel manifest.modelId manifest) REGISTER_MODEL_GAS

/-- The text of the first structural check a quote fails. -/
def validateTeeQuoteStructure (platform : TeePlatform) (quote : List UInt8) : Except String Unit :=
  if quote.length < MIN_TEE_QUOTE_BYTES then .error "TEE quote too short"
  else if MAX_TEE_QUOTE_BYTES < quote.length then .error "TEE quote exceeds size limit"
  else
    match platform with
    | .intelTdx =>
      if quote.length < 4 || quote.getD 0 0 ≠ 4 || quote.getD 1 0 ≠ 0 then
        .error "Intel TDX quote: invalid version header"
      else .ok ()
    | .amdSevSnp =>
      if quote.length < 4 || (quote.getD 0 0 ≠ 2 && quote.getD 0 0 ≠ 3) then
        .error "AMD SEV-SNP report: invalid version byte"
      else .ok ()
    | .armCca => .ok ()

def applyRegisterTee (ctx : BlockCtx) (nodeId : NodeId) (capability : TeeCapability) :
    Exec (BlockCtx × TxOutcome) :=
  if capability.quote = [] then reject ctx (.notYetImplemented "empty TEE attestation quote")
  else
    match validateTeeQuoteStructure capability.platform capability.quote with
    | .error reason => reject ctx (.notYetImplemented reason)
    | .ok () =>
      if !capability.enclavePubkey.scheme.isActive then
        reject ctx (.notYetImplemented "enclave pubkey uses inactive scheme")
      else applied (ctx.setTeeCapability nodeId capability) REGISTER_TEE_GAS

def applyRegisterGateway (ctx : BlockCtx) (nodeId : NodeId) (operator : Address) (url : String)
    (https : Bool) (height : Height) : Exec (BlockCtx × TxOutcome) :=
  if url = "" then reject ctx (.notYetImplemented "empty gateway URL")
  else if MAX_GATEWAY_URL_LEN < url.utf8ByteSize then
    reject ctx (.notYetImplemented "gateway URL too long")
  else if https && !"https://".toList.isPrefixOf url.toList then
    reject ctx (.notYetImplemented "https flag set but URL does not start with https://")
  else applied (ctx.setGateway nodeId ⟨nodeId, operator, url, https, height⟩) REGISTER_GATEWAY_GAS

def applyUnregisterGateway (ctx : BlockCtx) (nodeId : NodeId) : Exec (BlockCtx × TxOutcome) :=
  applied (ctx.deleteGateway nodeId) UNREGISTER_GATEWAY_GAS

/-! ## Governance -/

def applyGovProposal (ctx : BlockCtx) (sender : Address) (proposal : Proposal) (height : Height) :
    Exec (BlockCtx × TxOutcome) :=
  let acct := ctx.account sender
  if proposal.deposit < PROPOSAL_DEPOSIT then reject ctx (.notYetImplemented "deposit below minimum")
  else if acct.balance < proposal.deposit then
    reject ctx (.insufficientBalance acct.balance proposal.deposit)
  else do
    let balance ← sub acct.balance proposal.deposit
    let ctx := ctx.setAccount sender { acct with balance := balance }
    let id := ctx.state.nextProposalId
    let ctx := ctx.setProposal id ⟨proposal, .discussion, height⟩
    let next ← add id 1
    applied (ctx.setNextProposalId next) GOV_PROPOSAL_GAS

def applyGovVote (ctx : BlockCtx) (proposalId : U64) (voter : Address) (choice : VoteChoice) :
    Exec (BlockCtx × TxOutcome) :=
  match ctx.getProposal proposalId with
  | none => reject ctx (.notYetImplemented "proposal not found")
  | some record =>
    if record.phase ≠ .voting then reject ctx (.notYetImplemented "proposal not in voting phase")
    else if (ctx.getVote ⟨proposalId, voter⟩).isSome then
      reject ctx (.notYetImplemented "duplicate vote")
    else applied (ctx.setVote ⟨proposalId, voter⟩ choice) GOV_VOTE_GAS

/-! ## Dispatch -/

def applyTx (K : Primitives) (ctx : BlockCtx) (stx : SignedTransaction) : Exec (BlockCtx × TxOutcome) :=
  let height := ctx.currentHeight.getD 0
  match stx.tx with
  | .transfer src dst amount nonce fee => applyTransfer ctx src dst amount nonce fee
  | .stakeOp op => applyStakeOp ctx op (deriveAddressFromSigner K stx.signer) height
  | .receiptBatch batch => applyReceiptBatch K ctx batch height
  | .dispute d => applyDispute ctx d
  | .escrowLock src jobId amount nonce fee => applyEscrowLock ctx src jobId amount nonce fee height
  | .escrowSettle jobId _ computeAddr verifierAddr routerAddr treasuryAddr =>
    applyEscrowSettle ctx jobId computeAddr verifierAddr routerAddr treasuryAddr height
  | .rewardMint _ totalReward computeAddr verifierAddr _ treasuryAddr _ =>
    applyRewardMint ctx totalReward computeAddr verifierAddr treasuryAddr
  | .registerModel manifest registrar deposit => applyRegisterModel ctx manifest registrar deposit
  | .govProposal p => applyGovProposal ctx (deriveAddressFromSigner K stx.signer) p height
  | .govVote proposalId voter choice => applyGovVote ctx proposalId voter choice
  | .registerTeeCapability nodeId _ capability => applyRegisterTee ctx nodeId capability
  | .registerGateway nodeId operator url https =>
    applyRegisterGateway ctx nodeId operator url https height
  | .unregisterGateway nodeId _ => applyUnregisterGateway ctx nodeId

/-- Apply transactions in order to one context. -/
def applyTxs (K : Primitives) (ctx : BlockCtx) : List SignedTransaction →
    Exec (BlockCtx × List TxOutcome)
  | [] => pure (ctx, [])
  | stx :: rest => do
    let (ctx, outcome) ← applyTx K ctx stx
    let (ctx, outcomes) ← applyTxs K ctx rest
    pure (ctx, outcome :: outcomes)

end Arknet.Chain
