import Arknet.Lib.Machine
import Arknet.Lib.Column

/-!
The on-chain vocabulary: identifiers, accounts, stake and escrow records, the thirteen
transactions, blocks. Byte arrays of fixed length are read as big-endian numbers, so that the order
on identifiers is the byte order of the store.
-/

namespace Arknet.Chain

open Machine

theorem byteStrings_pos (n : Nat) : 0 < 256 ^ n := Nat.pow_pos (by omega)

/-- A byte array of length `n`. -/
structure Bytes (n : Nat) where
  val : Fin (256 ^ n)
  deriving DecidableEq, Repr

theorem Bytes.val_injective {n : Nat} : Function.Injective (Bytes.val (n := n)) := by
  rintro ⟨a⟩ ⟨b⟩ h
  exact congrArg Bytes.mk h

instance (n : Nat) : LinearOrder (Bytes n) := Store.liftOrder (·.val.val) (fun _ _ h =>
  Bytes.val_injective (Fin.ext h))

instance (n k : Nat) : OfNat (Bytes n) k := ⟨⟨⟨k % 256 ^ n, Nat.mod_lt _ (byteStrings_pos n)⟩⟩⟩

instance (n : Nat) : Inhabited (Bytes n) := ⟨0⟩

/-- The bytes, most significant first. -/
def Bytes.toList {n : Nat} (b : Bytes n) : List UInt8 :=
  (List.range n).map (fun i => UInt8.ofNat (b.val.val / 256 ^ (n - 1 - i)))

@[simp] theorem Bytes.length_toList {n : Nat} (b : Bytes n) : b.toList.length = n := by
  simp [Bytes.toList]

private theorem mod_pow_of_digits {n a b : Nat} (h : ∀ j < n, a / 256 ^ j % 256 = b / 256 ^ j % 256) :
    a % 256 ^ n = b % 256 ^ n := by
  induction n with
  | zero => simp [Nat.mod_one]
  | succ n ih =>
    rw [Nat.mod_pow_succ, Nat.mod_pow_succ, ih (fun j hj => h j (by omega)), h n (by omega)]

theorem Bytes.toList_injective {n : Nat} : Function.Injective (Bytes.toList (n := n)) := by
  intro a b h
  have hdigit : ∀ j < n, a.val.val / 256 ^ j % 256 = b.val.val / 256 ^ j % 256 := by
    intro j hj
    have hbyte := congrArg (fun l => l[n - 1 - j]?) h
    simp only [Bytes.toList, List.getElem?_map, List.getElem?_range (show n - 1 - j < n by omega),
      Option.map_some, Option.some.injEq, show n - 1 - (n - 1 - j) = j by omega] at hbyte
    simpa using congrArg UInt8.toNat hbyte
  have hmod := mod_pow_of_digits hdigit
  rw [Nat.mod_eq_of_lt a.val.isLt, Nat.mod_eq_of_lt b.val.isLt] at hmod
  exact Bytes.val_injective (Fin.ext hmod)

/-- The first `m` bytes. -/
def Bytes.take {n : Nat} (m : Nat) (h : m ≤ n) (b : Bytes n) : Bytes m :=
  ⟨⟨b.val.val / 256 ^ (n - m), by
    rw [Nat.div_lt_iff_lt_mul (Nat.pow_pos (by omega)), ← Nat.pow_add, Nat.add_sub_cancel' h]
    exact b.val.isLt⟩⟩

def hexDigit (d : Nat) : Char := "0123456789abcdef".toList.getD d '0'

/-- `hex::encode`. -/
def Bytes.hexEncode {n : Nat} (b : Bytes n) : String :=
  String.ofList (b.toList.flatMap (fun c => [hexDigit (c.toNat / 16), hexDigit (c.toNat % 16)]))

abbrev Hash256 := Bytes 32
abbrev Address := Bytes 20
abbrev NodeId := Bytes 32
abbrev JobId := Bytes 32
abbrev PoolId := Bytes 16
abbrev TxHash := Hash256
abbrev BlockHash := Hash256
abbrev StateRoot := Hash256

abbrev Amount := U128
abbrev Height := U64
abbrev Timestamp := U64
abbrev Nonce := U64
abbrev Gas := U64

/-- `x as Amount`. -/
def asAmount (x : U64) : Amount := widen width64_le_128 x

@[simp] theorem asAmount_val (x : U64) : (asAmount x).val = x.val := rfl

def ATOMS_PER_ARK : Amount := 1000000000

/-! ## Keys and signatures -/

inductive SignatureScheme where
  | ed25519 | dilithium | falcon | sphincs | hybridEd25519Dilithium
  deriving DecidableEq, Repr

def SignatureScheme.isActive : SignatureScheme → Bool
  | .ed25519 => true
  | _ => false

structure PubKey where
  scheme : SignatureScheme
  bytes : List UInt8
  deriving DecidableEq, Repr

structure Signature where
  scheme : SignatureScheme
  bytes : List UInt8
  deriving DecidableEq, Repr

inductive TeePlatform where
  | intelTdx | amdSevSnp | armCca
  deriving DecidableEq, Repr

structure TeeCapability where
  platform : TeePlatform
  quote : List UInt8
  enclavePubkey : PubKey
  deriving DecidableEq, Repr

def MAX_TEE_QUOTE_BYTES : Nat := 16 * 1024

/-! ## Accounts -/

structure Account where
  balance : Amount
  nonce : Nonce
  deriving DecidableEq, Repr

/-- `Account::default()`, also `Account::ZERO`. -/
def Account.zero : Account := ⟨0, 0⟩

def Account.isEmpty (a : Account) : Bool := a.balance = 0 && a.nonce = 0

/-! ## Stakes and unbondings -/

inductive StakeRole where
  | validator | router | verifier | compute
  deriving DecidableEq, Repr

/-- The role's discriminant byte. -/
def StakeRole.toNat : StakeRole → Nat
  | .validator => 1
  | .router => 2
  | .verifier => 3
  | .compute => 4

theorem StakeRole.toNat_injective : Function.Injective StakeRole.toNat := by
  intro a b h
  cases a <;> cases b <;> simp_all [StakeRole.toNat]

instance : LinearOrder StakeRole := Store.liftOrder StakeRole.toNat StakeRole.toNat_injective

structure StakeEntry where
  nodeId : NodeId
  role : StakeRole
  poolId : Option PoolId
  delegator : Option Address
  amount : Amount
  bondedAt : Height
  deriving DecidableEq, Repr

def StakeEntry.isEmpty (e : StakeEntry) : Bool := e.amount = 0

structure UnbondingEntry where
  unbondId : U64
  nodeId : NodeId
  role : StakeRole
  poolId : Option PoolId
  delegator : Option Address
  amount : Amount
  startedAt : Height
  completesAt : Height
  deriving DecidableEq, Repr

def UnbondingEntry.isComplete (e : UnbondingEntry) (currentHeight : Height) : Bool :=
  e.completesAt ≤ currentHeight

inductive StakeOp where
  | deposit (nodeId : NodeId) (role : StakeRole) (poolId : Option PoolId) (amount : Amount)
      (delegator : Option Address)
  | withdraw (nodeId : NodeId) (role : StakeRole) (poolId : Option PoolId) (amount : Amount)
  | complete (nodeId : NodeId) (role : StakeRole) (poolId : Option PoolId) (unbondId : U64)
  | redelegate (src dst : NodeId) (role : StakeRole) (amount : Amount)
  deriving DecidableEq, Repr

structure ValidatorInfo where
  nodeId : NodeId
  consensusKey : PubKey
  operator : Address
  bondedStake : Amount
  votingPower : U64
  isGenesis : Bool
  jailed : Bool
  deriving DecidableEq, Repr

/-! ## Escrows and rewards -/

inductive EscrowState where
  | locked | settled | refunded
  deriving DecidableEq, Repr

structure EscrowEntry where
  jobId : JobId
  user : Address
  amount : Amount
  createdAt : Height
  state : EscrowState
  deriving DecidableEq, Repr

def ESCROW_TIMEOUT_BLOCKS : Height := 7200

structure PendingReward where
  jobId : JobId
  outputTokens : U32
  userPayment : Amount
  epoch : U64
  computeAddr : Address
  verifierAddr : Address
  routerAddr : Address
  treasuryAddr : Address
  teeMultiplierBps : U32
  httpsMultiplierBps : U32
  deriving DecidableEq, Repr

def TEE_MULTIPLIER_NONE : U32 := 10000
def TEE_MULTIPLIER_TEE : U32 := 15000
def HTTP_MULTIPLIER_BPS : U32 := 10000

/-! ## Gateways and models -/

def MAX_GATEWAY_URL_LEN : Nat := 512

structure GatewayEntry where
  nodeId : NodeId
  operator : Address
  url : String
  https : Bool
  registeredAt : U64
  deriving DecidableEq, Repr

structure OnChainModelManifest where
  modelId : String
  sha256 : Hash256
  sizeBytes : U64
  mirrors : List String
  license : String
  deriving DecidableEq, Repr

/-! ## Governance -/

inductive VoteChoice where
  | yes | no | abstain | noWithVeto
  deriving DecidableEq, Repr

structure Proposal where
  proposalId : U64
  proposer : Address
  deposit : Amount
  title : String
  body : String
  discussionEnds : Timestamp
  votingEnds : Timestamp
  activation : Option Height
  deriving DecidableEq, Repr

inductive ProposalPhase where
  | discussion | voting | passed | rejected | rejectedWithVeto | executed
  deriving DecidableEq, Repr

structure ProposalRecord where
  proposal : Proposal
  phase : ProposalPhase
  submittedAt : Height
  deriving DecidableEq, Repr

/-! ## Receipts -/

inductive Quantization where
  | f32 | f16 | bf16 | q8_0 | q6_K | q5_K_M | q4_K_M | q3_K_M | q2_K
  deriving DecidableEq, Repr

inductive ComputeProof where
  | hashChain (links : List Hash256)
  | teeQuote (bytes : List UInt8)
  | zkProof (bytes : List UInt8)
  deriving DecidableEq, Repr

inductive DaLayer where
  | inlined | celestia | eigenDa
  deriving DecidableEq, Repr

structure DaReference where
  layer : DaLayer
  commitment : Hash256
  height : U64
  deriving DecidableEq, Repr

structure TeeAttestation where
  quote : List UInt8
  deriving DecidableEq, Repr

inductive VerificationTier where
  | optimistic | deterministic | tee
  deriving DecidableEq, Repr

structure InferenceReceipt where
  jobId : JobId
  poolId : PoolId
  modelId : String
  modelHash : Hash256
  quantization : Quantization
  userAddress : Address
  routerNode : NodeId
  computeNode : NodeId
  backupNode : Option NodeId
  inputHash : Hash256
  outputHash : Hash256
  daReference : Option DaReference
  inputTokenCount : U32
  outputTokenCount : U32
  latencyMs : U32
  totalTimeMs : U32
  seed : U64
  computeProof : ComputeProof
  teeAttestation : Option TeeAttestation
  verificationTier : VerificationTier
  promptEncrypted : Bool
  timestampStart : Timestamp
  timestampEnd : Timestamp
  computeSignature : Signature
  userSignature : Signature
  deriving DecidableEq, Repr

structure ReceiptBatch where
  batchId : Hash256
  receipts : List InferenceReceipt
  merkleRoot : Hash256
  aggregator : NodeId
  signature : Signature
  deriving DecidableEq, Repr

structure Dispute where
  jobId : JobId
  computeNode : NodeId
  claimedOutputHash : Hash256
  reexecOutputHash : Hash256
  verifier : NodeId
  reporter : Address
  vrfProof : List UInt8
  reexecProof : ComputeProof
  deriving DecidableEq, Repr

/-! ## Transactions -/

inductive Transaction where
  | transfer (src dst : Address) (amount : Amount) (nonce : Nonce) (fee : Gas)
  | stakeOp (op : StakeOp)
  | receiptBatch (batch : ReceiptBatch)
  | registerModel (manifest : OnChainModelManifest) (registrar : Address) (deposit : Amount)
  | govProposal (proposal : Proposal)
  | govVote (proposalId : U64) (voter : Address) (choice : VoteChoice)
  | dispute (d : Dispute)
  | escrowLock (src : Address) (jobId : JobId) (amount : Amount) (nonce : Nonce) (fee : Gas)
  | escrowSettle (jobId : JobId) (batchId : Hash256)
      (computeAddr verifierAddr routerAddr treasuryAddr : Address)
  | rewardMint (jobId : JobId) (totalReward : Amount)
      (computeAddr verifierAddr routerAddr treasuryAddr : Address) (outputTokens : U32)
  | registerTeeCapability (nodeId : NodeId) (operator : Address) (capability : TeeCapability)
  | registerGateway (nodeId : NodeId) (operator : Address) (url : String) (https : Bool)
  | unregisterGateway (nodeId : NodeId) (operator : Address)
  deriving DecidableEq, Repr

structure SignedTransaction where
  tx : Transaction
  signer : PubKey
  signature : Signature
  deriving DecidableEq, Repr

/-! ## Outcomes -/

inductive RejectReason where
  | insufficientBalance (have_ need : Amount)
  | nonceMismatch (expected got : Nonce)
  | feeTooLow (min got : Gas)
  | selfTransfer
  | stakeNotFound
  | stakeExceeded (requested available : Amount)
  | unbondingNotComplete (current completesAt : Height)
  | unbondingNotFound
  | redelegateCooldown (blocksRemaining : Height)
  | thirdPartyDelegation
  | redelegateSameNode
  | emptyReceiptBatch
  | receiptMerkleMismatch
  | receiptDoubleAnchor (jobIdHex : String)
  | disputeOutputMatches
  | disputeReceiptNotFound
  | notYetImplemented (text : String)
  deriving DecidableEq, Repr

inductive TxOutcome where
  | applied (gasUsed : Gas)
  | rejected (reason : RejectReason)
  deriving DecidableEq, Repr

def TxOutcome.isApplied : TxOutcome → Bool
  | .applied _ => true
  | .rejected _ => false

/-! ## Blocks -/

structure BlockHeader where
  version : U32
  chainId : String
  height : Height
  timestampMs : Timestamp
  parentHash : BlockHash
  stateRoot : StateRoot
  txRoot : Hash256
  receiptRoot : Hash256
  proposer : NodeId
  validatorSetHash : Hash256
  baseFee : Amount
  genesisMessage : String
  deriving DecidableEq, Repr

structure Block where
  header : BlockHeader
  txs : List SignedTransaction
  receipts : List InferenceReceipt
  deriving DecidableEq, Repr

/-! ## Keys of the composite columns -/

/-- `node_id | role | pool? | delegator?`. An absent part sorts first. -/
structure StakeKey where
  nodeId : NodeId
  role : StakeRole
  poolId : Option PoolId
  delegator : Option Address
  deriving DecidableEq, Repr

/-- The key an entry belongs under. -/
def StakeEntry.key (e : StakeEntry) : StakeKey := ⟨e.nodeId, e.role, e.poolId, e.delegator⟩

def StakeKey.ordered (k : StakeKey) :
    NodeId ×ₗ StakeRole ×ₗ WithBot PoolId ×ₗ WithBot Address :=
  toLex (k.nodeId, toLex (k.role, toLex ((k.poolId : WithBot PoolId), (k.delegator : WithBot Address))))

theorem StakeKey.ordered_injective : Function.Injective StakeKey.ordered := by
  rintro ⟨n, r, p, d⟩ ⟨n', r', p', d'⟩ h
  simp only [StakeKey.ordered, EmbeddingLike.apply_eq_iff_eq, Prod.mk.injEq] at h
  obtain ⟨rfl, rfl, rfl, rfl⟩ := h
  rfl

instance : LinearOrder StakeKey := Store.liftOrder StakeKey.ordered StakeKey.ordered_injective

theorem StakeKey.nodeId_monotone : Monotone StakeKey.nodeId := by
  intro j k h
  have h' : StakeKey.ordered j ≤ StakeKey.ordered k := h
  rcases Prod.Lex.le_iff.mp h' with hlt | ⟨heq, _⟩
  · exact hlt.le
  · exact heq.le

/-- `node_id | unbond_id`. -/
structure UnbondKey where
  nodeId : NodeId
  unbondId : U64
  deriving DecidableEq, Repr

def UnbondKey.ordered (k : UnbondKey) : NodeId ×ₗ ℕ := toLex (k.nodeId, k.unbondId.val)

theorem UnbondKey.ordered_injective : Function.Injective UnbondKey.ordered := by
  rintro ⟨n, u⟩ ⟨n', u'⟩ h
  simp only [UnbondKey.ordered, EmbeddingLike.apply_eq_iff_eq, Prod.mk.injEq] at h
  obtain ⟨rfl, hu⟩ := h
  rw [Fin.ext hu]

instance : LinearOrder UnbondKey := Store.liftOrder UnbondKey.ordered UnbondKey.ordered_injective

theorem UnbondKey.nodeId_monotone : Monotone UnbondKey.nodeId := by
  intro j k h
  have h' : UnbondKey.ordered j ≤ UnbondKey.ordered k := h
  rcases Prod.Lex.le_iff.mp h' with hlt | ⟨heq, _⟩
  · exact hlt.le
  · exact heq.le

/-- `proposal_id | voter`. -/
structure VoteKey where
  proposalId : U64
  voter : Address
  deriving DecidableEq, Repr

def VoteKey.ordered (k : VoteKey) : ℕ ×ₗ Address := toLex (k.proposalId.val, k.voter)

theorem VoteKey.ordered_injective : Function.Injective VoteKey.ordered := by
  rintro ⟨p, v⟩ ⟨p', v'⟩ h
  simp only [VoteKey.ordered, EmbeddingLike.apply_eq_iff_eq, Prod.mk.injEq] at h
  obtain ⟨hp, rfl⟩ := h
  rw [Fin.ext hp]

instance : LinearOrder VoteKey := Store.liftOrder VoteKey.ordered VoteKey.ordered_injective

theorem VoteKey.proposalId_monotone : Monotone (fun k : VoteKey => k.proposalId.val) := by
  intro j k h
  have h' : VoteKey.ordered j ≤ VoteKey.ordered k := h
  rcases Prod.Lex.le_iff.mp h' with hlt | ⟨heq, _⟩
  · exact hlt.le
  · exact heq.le

end Arknet.Chain
