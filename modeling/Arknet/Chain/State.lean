import Arknet.Chain.Types
import Arknet.Lib.Overlay

/-!
Committed chain state and the block context that buffers one block's writes. Every setter of the
source pushes its write on the batch and, for the columns that have one, on the overlay; one buffer
per column stands for both. The reads differ: accounts, stakes, unbondings, receipt marks and two
counters are read through the buffer, everything else from the committed store.

`BlockCtx.commit` is the store the buffered writes lead to. The theorems speak of a context through
the pair `ctx.state` (what was committed) and `ctx.commit` (what would be).
-/

namespace Arknet.Chain

open Store

structure State where
  accounts : Column Address Account
  stakes : Column StakeKey StakeEntry
  validators : Column NodeId ValidatorInfo
  unbondings : Column UnbondKey UnbondingEntry
  receiptsSeen : Column JobId Height
  escrows : Column JobId EscrowEntry
  pendingRewards : Column JobId PendingReward
  proposals : Column Machine.U64 ProposalRecord
  votes : Column VoteKey VoteChoice
  models : Column String OnChainModelManifest
  tee : Column NodeId TeeCapability
  gateways : Column NodeId GatewayEntry
  blocks : Column Height Block
  txIndex : Column TxHash Height
  metaUnbondId : Option Machine.U64
  metaHeight : Option Height
  metaBaseFee : Option Amount
  metaProposalId : Option Machine.U64

namespace State

/-- A database that was just created. -/
def empty : State where
  accounts := .empty
  stakes := .empty
  validators := .empty
  unbondings := .empty
  receiptsSeen := .empty
  escrows := .empty
  pendingRewards := .empty
  proposals := .empty
  votes := .empty
  models := .empty
  tee := .empty
  gateways := .empty
  blocks := .empty
  txIndex := .empty
  metaUnbondId := none
  metaHeight := none
  metaBaseFee := none
  metaProposalId := none

/-! ## Reads -/

def baseFee (s : State) : Amount := s.metaBaseFee.getD 1

def nextProposalId (s : State) : Machine.U64 := s.metaProposalId.getD 0

def iterStakesForNode (s : State) (node : NodeId) : List StakeEntry :=
  (s.stakes.scan StakeKey.nodeId node).map Prod.snd

def iterUnbondingsForNode (s : State) (node : NodeId) : List UnbondingEntry :=
  (s.unbondings.scan UnbondKey.nodeId node).map Prod.snd

def iterValidators (s : State) : List ValidatorInfo := s.validators.values

def iterPendingRewardsForEpoch (s : State) (targetEpoch : Machine.U64) : List PendingReward :=
  s.pendingRewards.values.filter (fun pr => pr.epoch = targetEpoch)

def iterEscrows (s : State) : List (JobId × EscrowEntry) := s.escrows.entries

def iterProposals (s : State) : List (Machine.U64 × ProposalRecord) := s.proposals.entries

def iterVotesForProposal (s : State) (id : Machine.U64) : List (Address × VoteChoice) :=
  (s.votes.scan (fun k => k.proposalId.val) id.val).map (fun e => (e.1.voter, e.2))

def totalBondedStake (s : State) : Amount :=
  s.stakes.values.foldl (fun total e => Machine.satAdd total e.amount) 0

/-- `iter_validators().map(|v| v.len() as u32)`. -/
def validatorCount (s : State) : Machine.U32 := Machine.truncate 32 s.iterValidators.length

/-! ## Blocks and the transaction index -/

def storeBlock (s : State) (txHash : SignedTransaction → TxHash) (height : Height) (b : Block) :
    State :=
  { s with
    blocks := s.blocks.insert height b
    txIndex := b.txs.foldl (fun idx tx => idx.insert (txHash tx) height) s.txIndex }

def pruneBlocksBefore (s : State) (txHash : SignedTransaction → TxHash) (keepFrom : Height) :
    State :=
  (s.blocks.entries.takeWhile (fun e => e.1 < keepFrom)).foldl
    (fun s e =>
      { s with
        blocks := s.blocks.erase e.1
        txIndex := e.2.txs.foldl (fun idx tx => idx.erase (txHash tx)) s.txIndex })
    s

def getBlock (s : State) (height : Height) : Option Block := s.blocks.get height

def getTxHeight (s : State) (txHash : TxHash) : Option Height := s.txIndex.get txHash

end State

/-- One column's write buffer for each column, over the committed store. -/
structure BlockCtx where
  accounts : Overlay Address Account
  stakes : Overlay StakeKey StakeEntry
  validators : Overlay NodeId ValidatorInfo
  unbondings : Overlay UnbondKey UnbondingEntry
  receiptsSeen : Overlay JobId Height
  escrows : Overlay JobId EscrowEntry
  pendingRewards : Overlay JobId PendingReward
  proposals : Overlay Machine.U64 ProposalRecord
  votes : Overlay VoteKey VoteChoice
  models : Overlay String OnChainModelManifest
  tee : Overlay NodeId TeeCapability
  gateways : Overlay NodeId GatewayEntry
  blocks : Column Height Block
  txIndex : Column TxHash Height
  metaUnbondId : Cell Machine.U64
  metaHeight : Cell Height
  metaBaseFee : Cell Amount
  metaProposalId : Cell Machine.U64

def State.beginBlock (s : State) : BlockCtx where
  accounts := .fresh s.accounts
  stakes := .fresh s.stakes
  validators := .fresh s.validators
  unbondings := .fresh s.unbondings
  receiptsSeen := .fresh s.receiptsSeen
  escrows := .fresh s.escrows
  pendingRewards := .fresh s.pendingRewards
  proposals := .fresh s.proposals
  votes := .fresh s.votes
  models := .fresh s.models
  tee := .fresh s.tee
  gateways := .fresh s.gateways
  blocks := s.blocks
  txIndex := s.txIndex
  metaUnbondId := .fresh s.metaUnbondId
  metaHeight := .fresh s.metaHeight
  metaBaseFee := .fresh s.metaBaseFee
  metaProposalId := .fresh s.metaProposalId

namespace BlockCtx

/-- The committed store under the context. -/
def state (ctx : BlockCtx) : State where
  accounts := ctx.accounts.base
  stakes := ctx.stakes.base
  validators := ctx.validators.base
  unbondings := ctx.unbondings.base
  receiptsSeen := ctx.receiptsSeen.base
  escrows := ctx.escrows.base
  pendingRewards := ctx.pendingRewards.base
  proposals := ctx.proposals.base
  votes := ctx.votes.base
  models := ctx.models.base
  tee := ctx.tee.base
  gateways := ctx.gateways.base
  blocks := ctx.blocks
  txIndex := ctx.txIndex
  metaUnbondId := ctx.metaUnbondId.base
  metaHeight := ctx.metaHeight.base
  metaBaseFee := ctx.metaBaseFee.base
  metaProposalId := ctx.metaProposalId.base

/-- The store after the batch is written. -/
def commit (ctx : BlockCtx) : State where
  accounts := ctx.accounts.view
  stakes := ctx.stakes.view
  validators := ctx.validators.view
  unbondings := ctx.unbondings.view
  receiptsSeen := ctx.receiptsSeen.view
  escrows := ctx.escrows.view
  pendingRewards := ctx.pendingRewards.view
  proposals := ctx.proposals.view
  votes := ctx.votes.view
  models := ctx.models.view
  tee := ctx.tee.view
  gateways := ctx.gateways.view
  blocks := ctx.blocks
  txIndex := ctx.txIndex
  metaUnbondId := ctx.metaUnbondId.view
  metaHeight := ctx.metaHeight.view
  metaBaseFee := ctx.metaBaseFee.view
  metaProposalId := ctx.metaProposalId.view

/-! ## Setters -/

def setAccount (ctx : BlockCtx) (addr : Address) (acct : Account) : BlockCtx :=
  { ctx with accounts := ctx.accounts.write addr (if acct.isEmpty then none else some acct) }

def setStake (ctx : BlockCtx) (k : StakeKey) (entry : StakeEntry) : BlockCtx :=
  { ctx with stakes := ctx.stakes.write k (if entry.isEmpty then none else some entry) }

def setUnbonding (ctx : BlockCtx) (node : NodeId) (entry : UnbondingEntry) : BlockCtx :=
  { ctx with unbondings := ctx.unbondings.put ⟨node, entry.unbondId⟩ entry }

def deleteUnbonding (ctx : BlockCtx) (node : NodeId) (unbondId : Machine.U64) : BlockCtx :=
  { ctx with unbondings := ctx.unbondings.delete ⟨node, unbondId⟩ }

def setNextUnbondId (ctx : BlockCtx) (next : Machine.U64) : BlockCtx :=
  { ctx with metaUnbondId := ctx.metaUnbondId.set next }

def setCurrentHeight (ctx : BlockCtx) (height : Height) : BlockCtx :=
  { ctx with metaHeight := ctx.metaHeight.set height }

def setBaseFee (ctx : BlockCtx) (fee : Amount) : BlockCtx :=
  { ctx with metaBaseFee := ctx.metaBaseFee.set fee }

def markReceiptSeen (ctx : BlockCtx) (job : JobId) (height : Height) : BlockCtx :=
  { ctx with receiptsSeen := ctx.receiptsSeen.put job height }

def setEscrow (ctx : BlockCtx) (job : JobId) (entry : EscrowEntry) : BlockCtx :=
  { ctx with escrows := ctx.escrows.put job entry }

def deleteEscrow (ctx : BlockCtx) (job : JobId) : BlockCtx :=
  { ctx with escrows := ctx.escrows.delete job }

def setPendingReward (ctx : BlockCtx) (job : JobId) (pr : PendingReward) : BlockCtx :=
  { ctx with pendingRewards := ctx.pendingRewards.put job pr }

def deletePendingReward (ctx : BlockCtx) (job : JobId) : BlockCtx :=
  { ctx with pendingRewards := ctx.pendingRewards.delete job }

def setProposal (ctx : BlockCtx) (id : Machine.U64) (record : ProposalRecord) : BlockCtx :=
  { ctx with proposals := ctx.proposals.put id record }

def setVote (ctx : BlockCtx) (k : VoteKey) (choice : VoteChoice) : BlockCtx :=
  { ctx with votes := ctx.votes.put k choice }

def setNextProposalId (ctx : BlockCtx) (next : Machine.U64) : BlockCtx :=
  { ctx with metaProposalId := ctx.metaProposalId.set next }

def setTeeCapability (ctx : BlockCtx) (node : NodeId) (capability : TeeCapability) : BlockCtx :=
  { ctx with tee := ctx.tee.put node capability }

def setGateway (ctx : BlockCtx) (node : NodeId) (entry : GatewayEntry) : BlockCtx :=
  { ctx with gateways := ctx.gateways.put node entry }

def deleteGateway (ctx : BlockCtx) (node : NodeId) : BlockCtx :=
  { ctx with gateways := ctx.gateways.delete node }

def setModel (ctx : BlockCtx) (modelId : String) (manifest : OnChainModelManifest) : BlockCtx :=
  { ctx with models := ctx.models.put modelId manifest }

def setValidator (ctx : BlockCtx) (node : NodeId) (info : ValidatorInfo) : BlockCtx :=
  { ctx with validators := ctx.validators.put node info }

def deleteValidator (ctx : BlockCtx) (node : NodeId) : BlockCtx :=
  { ctx with validators := ctx.validators.delete node }

/-! ## Reads through the buffer -/

def getAccount (ctx : BlockCtx) (addr : Address) : Option Account := ctx.accounts.get addr

def getStake (ctx : BlockCtx) (k : StakeKey) : Option StakeEntry := ctx.stakes.get k

def getUnbonding (ctx : BlockCtx) (node : NodeId) (unbondId : Machine.U64) :
    Option UnbondingEntry := ctx.unbondings.get ⟨node, unbondId⟩

def nextUnbondId (ctx : BlockCtx) : Machine.U64 := ctx.metaUnbondId.view.getD 0

def currentHeight (ctx : BlockCtx) : Option Height := ctx.metaHeight.view

def isReceiptSeen (ctx : BlockCtx) (job : JobId) : Bool := (ctx.receiptsSeen.get job).isSome

/-- `get_account(addr)?.unwrap_or_default()`. -/
def account (ctx : BlockCtx) (addr : Address) : Account := (ctx.getAccount addr).getD .zero

/-- Read an account, saturating-add to its balance, write it back. -/
def creditAddress (ctx : BlockCtx) (addr : Address) (amount : Amount) : BlockCtx :=
  let acct := ctx.account addr
  ctx.setAccount addr { acct with balance := Machine.satAdd acct.balance amount }

/-- A credit that is skipped when there is nothing to credit. -/
def creditPositive (ctx : BlockCtx) (addr : Address) (amount : Amount) : BlockCtx :=
  if 0 < amount then ctx.creditAddress addr amount else ctx

/-! ## Reads of the committed store -/

def getEscrow (ctx : BlockCtx) (job : JobId) : Option EscrowEntry := ctx.state.escrows.get job

def getProposal (ctx : BlockCtx) (id : Machine.U64) : Option ProposalRecord :=
  ctx.state.proposals.get id

def getVote (ctx : BlockCtx) (k : VoteKey) : Option VoteChoice := ctx.state.votes.get k

def getModel (ctx : BlockCtx) (modelId : String) : Option OnChainModelManifest :=
  ctx.state.models.get modelId

end BlockCtx

/-! ## A context as committed store and would-be store -/

/-- What `set_account` stores: an empty account is deleted. -/
def Account.stored (a : Account) : Option Account := if a.isEmpty then none else some a

def StakeEntry.stored (e : StakeEntry) : Option StakeEntry := if e.isEmpty then none else some e

theorem Account.stored_getD (a : Account) : a.stored.getD Account.zero = a := by
  obtain ⟨b, n⟩ := a
  unfold Account.stored Account.isEmpty
  split
  · rename_i h
    simp only [Bool.and_eq_true, decide_eq_true_eq] at h
    rw [h.1, h.2]
    rfl
  · rfl

@[simp] theorem State.beginBlock_state (s : State) : s.beginBlock.state = s := rfl

@[simp] theorem State.beginBlock_commit (s : State) : s.beginBlock.commit = s := rfl

namespace BlockCtx

variable (ctx : BlockCtx)

@[simp] theorem setAccount_state (a : Address) (x : Account) : (ctx.setAccount a x).state = ctx.state := rfl
@[simp] theorem setStake_state (k : StakeKey) (e : StakeEntry) : (ctx.setStake k e).state = ctx.state := rfl
@[simp] theorem setUnbonding_state (n : NodeId) (e : UnbondingEntry) :
    (ctx.setUnbonding n e).state = ctx.state := rfl
@[simp] theorem deleteUnbonding_state (n : NodeId) (u : Machine.U64) :
    (ctx.deleteUnbonding n u).state = ctx.state := rfl
@[simp] theorem setNextUnbondId_state (u : Machine.U64) : (ctx.setNextUnbondId u).state = ctx.state := rfl
@[simp] theorem setCurrentHeight_state (h : Height) : (ctx.setCurrentHeight h).state = ctx.state := rfl
@[simp] theorem setBaseFee_state (f : Amount) : (ctx.setBaseFee f).state = ctx.state := rfl
@[simp] theorem markReceiptSeen_state (j : JobId) (h : Height) :
    (ctx.markReceiptSeen j h).state = ctx.state := rfl
@[simp] theorem setEscrow_state (j : JobId) (e : EscrowEntry) : (ctx.setEscrow j e).state = ctx.state := rfl
@[simp] theorem deleteEscrow_state (j : JobId) : (ctx.deleteEscrow j).state = ctx.state := rfl
@[simp] theorem setPendingReward_state (j : JobId) (p : PendingReward) :
    (ctx.setPendingReward j p).state = ctx.state := rfl
@[simp] theorem deletePendingReward_state (j : JobId) : (ctx.deletePendingReward j).state = ctx.state := rfl
@[simp] theorem setProposal_state (i : Machine.U64) (r : ProposalRecord) :
    (ctx.setProposal i r).state = ctx.state := rfl
@[simp] theorem setVote_state (k : VoteKey) (v : VoteChoice) : (ctx.setVote k v).state = ctx.state := rfl
@[simp] theorem setNextProposalId_state (i : Machine.U64) : (ctx.setNextProposalId i).state = ctx.state := rfl
@[simp] theorem setTeeCapability_state (n : NodeId) (t : TeeCapability) :
    (ctx.setTeeCapability n t).state = ctx.state := rfl
@[simp] theorem setGateway_state (n : NodeId) (g : GatewayEntry) : (ctx.setGateway n g).state = ctx.state := rfl
@[simp] theorem deleteGateway_state (n : NodeId) : (ctx.deleteGateway n).state = ctx.state := rfl
@[simp] theorem setModel_state (m : String) (x : OnChainModelManifest) : (ctx.setModel m x).state = ctx.state := rfl
@[simp] theorem setValidator_state (n : NodeId) (v : ValidatorInfo) : (ctx.setValidator n v).state = ctx.state := rfl
@[simp] theorem deleteValidator_state (n : NodeId) : (ctx.deleteValidator n).state = ctx.state := rfl

@[simp] theorem setAccount_commit (a : Address) (x : Account) : (ctx.setAccount a x).commit =
    { ctx.commit with accounts := ctx.commit.accounts.write a x.stored } := rfl
@[simp] theorem setStake_commit (k : StakeKey) (e : StakeEntry) : (ctx.setStake k e).commit =
    { ctx.commit with stakes := ctx.commit.stakes.write k e.stored } := rfl
@[simp] theorem setUnbonding_commit (n : NodeId) (e : UnbondingEntry) : (ctx.setUnbonding n e).commit =
    { ctx.commit with unbondings := ctx.commit.unbondings.write ⟨n, e.unbondId⟩ (some e) } := rfl
@[simp] theorem deleteUnbonding_commit (n : NodeId) (u : Machine.U64) : (ctx.deleteUnbonding n u).commit =
    { ctx.commit with unbondings := ctx.commit.unbondings.write ⟨n, u⟩ none } := rfl
@[simp] theorem setNextUnbondId_commit (u : Machine.U64) : (ctx.setNextUnbondId u).commit =
    { ctx.commit with metaUnbondId := some u } := rfl
@[simp] theorem setCurrentHeight_commit (h : Height) : (ctx.setCurrentHeight h).commit =
    { ctx.commit with metaHeight := some h } := rfl
@[simp] theorem setBaseFee_commit (f : Amount) : (ctx.setBaseFee f).commit =
    { ctx.commit with metaBaseFee := some f } := rfl
@[simp] theorem markReceiptSeen_commit (j : JobId) (h : Height) : (ctx.markReceiptSeen j h).commit =
    { ctx.commit with receiptsSeen := ctx.commit.receiptsSeen.write j (some h) } := rfl
@[simp] theorem setEscrow_commit (j : JobId) (e : EscrowEntry) : (ctx.setEscrow j e).commit =
    { ctx.commit with escrows := ctx.commit.escrows.write j (some e) } := rfl
@[simp] theorem deleteEscrow_commit (j : JobId) : (ctx.deleteEscrow j).commit =
    { ctx.commit with escrows := ctx.commit.escrows.write j none } := rfl
@[simp] theorem setPendingReward_commit (j : JobId) (p : PendingReward) : (ctx.setPendingReward j p).commit =
    { ctx.commit with pendingRewards := ctx.commit.pendingRewards.write j (some p) } := rfl
@[simp] theorem deletePendingReward_commit (j : JobId) : (ctx.deletePendingReward j).commit =
    { ctx.commit with pendingRewards := ctx.commit.pendingRewards.write j none } := rfl
@[simp] theorem setProposal_commit (i : Machine.U64) (r : ProposalRecord) : (ctx.setProposal i r).commit =
    { ctx.commit with proposals := ctx.commit.proposals.write i (some r) } := rfl
@[simp] theorem setVote_commit (k : VoteKey) (v : VoteChoice) : (ctx.setVote k v).commit =
    { ctx.commit with votes := ctx.commit.votes.write k (some v) } := rfl
@[simp] theorem setNextProposalId_commit (i : Machine.U64) : (ctx.setNextProposalId i).commit =
    { ctx.commit with metaProposalId := some i } := rfl
@[simp] theorem setTeeCapability_commit (n : NodeId) (t : TeeCapability) :
    (ctx.setTeeCapability n t).commit =
    { ctx.commit with tee := ctx.commit.tee.write n (some t) } := rfl
@[simp] theorem setGateway_commit (n : NodeId) (g : GatewayEntry) : (ctx.setGateway n g).commit =
    { ctx.commit with gateways := ctx.commit.gateways.write n (some g) } := rfl
@[simp] theorem deleteGateway_commit (n : NodeId) : (ctx.deleteGateway n).commit =
    { ctx.commit with gateways := ctx.commit.gateways.write n none } := rfl
@[simp] theorem setModel_commit (m : String) (x : OnChainModelManifest) : (ctx.setModel m x).commit =
    { ctx.commit with models := ctx.commit.models.write m (some x) } := rfl
@[simp] theorem setValidator_commit (n : NodeId) (v : ValidatorInfo) : (ctx.setValidator n v).commit =
    { ctx.commit with validators := ctx.commit.validators.write n (some v) } := rfl
@[simp] theorem deleteValidator_commit (n : NodeId) : (ctx.deleteValidator n).commit =
    { ctx.commit with validators := ctx.commit.validators.write n none } := rfl

theorem getAccount_eq (a : Address) : ctx.getAccount a = ctx.commit.accounts.get a := Overlay.get_eq _ _
theorem getStake_eq (k : StakeKey) : ctx.getStake k = ctx.commit.stakes.get k := Overlay.get_eq _ _
theorem getUnbonding_eq (n : NodeId) (u : Machine.U64) :
    ctx.getUnbonding n u = ctx.commit.unbondings.get ⟨n, u⟩ := Overlay.get_eq _ _
theorem getAccount_setAccount (a b : Address) (x : Account) :
    (ctx.setAccount a x).getAccount b = if a = b then x.stored else ctx.getAccount b := by
  rw [getAccount_eq, getAccount_eq, setAccount_commit]
  exact Column.get_write _ _ _ _
theorem getStake_setStake (k j : StakeKey) (e : StakeEntry) :
    (ctx.setStake k e).getStake j = if k = j then e.stored else ctx.getStake j := by
  rw [getStake_eq, getStake_eq, setStake_commit]
  exact Column.get_write _ _ _ _
theorem isReceiptSeen_eq (j : JobId) :
    ctx.isReceiptSeen j = (ctx.commit.receiptsSeen.get j).isSome := by
  rw [isReceiptSeen, Overlay.get_eq]
  rfl
theorem nextUnbondId_eq : ctx.nextUnbondId = ctx.commit.metaUnbondId.getD 0 := rfl
theorem currentHeight_eq : ctx.currentHeight = ctx.commit.metaHeight := rfl

end BlockCtx

end Arknet.Chain
