import Arknet.Chain.Crypto
import Arknet.Lib.Borsh
import Arknet.Lib.LeafMap

/-!
The open chain state: the database and, in memory, the sparse Merkle tree over its accounts column. A
block context logs every account write twice, in the batch and in the list of pending tree updates.
The tree crate is known by its leaf map; its root is some function of it.
-/

namespace Arknet.Chain

open Store

/-- The address, padded with zero bytes to the width of a tree key. -/
def smtKeyForAccount (addr : Address) : Bytes 32 :=
  ⟨⟨addr.val.val * 256 ^ 12, by
    have h := addr.val.isLt
    calc addr.val.val * 256 ^ 12 < 256 ^ 20 * 256 ^ 12 := Nat.mul_lt_mul_of_pos_right h (by decide)
      _ = 256 ^ 32 := by rw [← Nat.pow_add]⟩⟩

theorem smtKeyForAccount_injective : Function.Injective smtKeyForAccount := by
  intro a b h
  have hval : a.val.val * 256 ^ 12 = b.val.val * 256 ^ 12 :=
    congrArg (fun k : Bytes 32 => k.val.val) h
  have heq := Nat.eq_of_mul_eq_mul_right (by decide) hval
  exact Bytes.val_injective (Fin.ext heq)

/-- The borsh encoding of an account: its two words. -/
def Account.borsh (a : Account) : List UInt8 :=
  Borsh.leBytes 16 a.balance.val ++ Borsh.leBytes 8 a.nonce.val

section

variable (K : Primitives)

/-- `AccountLeaf::to_h256`. -/
def leafToH256 (a : Account) : Hash256 := if a.isEmpty then 0 else K.blake3 a.borsh

def accountZeros : Zeros Account where
  isZero a := leafToH256 K a = 0
  zero := .zero
  isZero_zero := rfl

abbrev AccountSmt : Type := LeafMap (Bytes 32) (accountZeros K)

structure OpenState where
  db : State
  smt : AccountSmt K

/-- `State::open`: the tree is rebuilt from the accounts on disk. -/
def openState (db : State) : OpenState K where
  db := db
  smt := LeafMap.empty.updateAll (db.accounts.entries.map (fun e => (smtKeyForAccount e.1, e.2)))

end

/-! ## Contexts with their tree updates -/

/-- The contexts that `begin_block` and the setters build, with the tree updates they have pending. -/
inductive Written : BlockCtx → List (Bytes 32 × Account) → Prop where
  | begin (s : State) : Written s.beginBlock []
  | account {ctx : BlockCtx} {updates : List (Bytes 32 × Account)} (h : Written ctx updates)
      (addr : Address) (acct : Account) :
      Written (ctx.setAccount addr acct) (updates ++ [(smtKeyForAccount addr, acct)])
  | other {ctx ctx' : BlockCtx} {updates : List (Bytes 32 × Account)} (h : Written ctx updates)
      (same : ctx'.accounts = ctx.accounts) : Written ctx' updates

structure TreeCtx where
  ctx : BlockCtx
  pendingSmtUpdates : List (Bytes 32 × Account)
  written : Written ctx pendingSmtUpdates

namespace TreeCtx

def begin (s : State) : TreeCtx := ⟨s.beginBlock, [], .begin s⟩

def setAccount (c : TreeCtx) (addr : Address) (acct : Account) : TreeCtx :=
  ⟨c.ctx.setAccount addr acct, c.pendingSmtUpdates ++ [(smtKeyForAccount addr, acct)],
    c.written.account addr acct⟩

/-- A write to another column. -/
def setOther (c : TreeCtx) (ctx : BlockCtx) (same : ctx.accounts = c.ctx.accounts) : TreeCtx :=
  ⟨ctx, c.pendingSmtUpdates, c.written.other same⟩

end TreeCtx

/-- The batch of a context over another store. -/
def BlockCtx.rebase (ctx : BlockCtx) (s : State) : BlockCtx where
  accounts := ⟨s.accounts, ctx.accounts.writes⟩
  stakes := ⟨s.stakes, ctx.stakes.writes⟩
  validators := ⟨s.validators, ctx.validators.writes⟩
  unbondings := ⟨s.unbondings, ctx.unbondings.writes⟩
  receiptsSeen := ⟨s.receiptsSeen, ctx.receiptsSeen.writes⟩
  escrows := ⟨s.escrows, ctx.escrows.writes⟩
  pendingRewards := ⟨s.pendingRewards, ctx.pendingRewards.writes⟩
  proposals := ⟨s.proposals, ctx.proposals.writes⟩
  votes := ⟨s.votes, ctx.votes.writes⟩
  models := ⟨s.models, ctx.models.writes⟩
  tee := ⟨s.tee, ctx.tee.writes⟩
  gateways := ⟨s.gateways, ctx.gateways.writes⟩
  blocks := s.blocks
  txIndex := s.txIndex
  metaUnbondId := ⟨s.metaUnbondId, ctx.metaUnbondId.pending⟩
  metaHeight := ⟨s.metaHeight, ctx.metaHeight.pending⟩
  metaBaseFee := ⟨s.metaBaseFee, ctx.metaBaseFee.pending⟩
  metaProposalId := ⟨s.metaProposalId, ctx.metaProposalId.pending⟩

@[simp] theorem BlockCtx.rebase_self (ctx : BlockCtx) : ctx.rebase ctx.state = ctx := rfl

/-- The account writes of a context, as the tree got them and as the column will. -/
theorem Written.accounts {ctx : BlockCtx} {updates : List (Bytes 32 × Account)}
    (h : Written ctx updates) : ∃ ws : List (Address × Account),
      updates = ws.map (fun w => (smtKeyForAccount w.1, w.2)) ∧
      ∀ s, (ctx.rebase s).commit.accounts = s.accounts.writeAll (ws.map (fun w => (w.1, w.2.stored))) := by
  induction h with
  | begin s => exact ⟨[], rfl, fun _ => rfl⟩
  | account h addr acct ih =>
    obtain ⟨ws, hupdates, haccounts⟩ := ih
    refine ⟨ws ++ [(addr, acct)], by rw [hupdates, List.map_append]; rfl, fun s => ?_⟩
    rw [List.map_append]
    -- the newest write is the last of the batch
    refine Eq.trans (congrArg (fun c => c.write addr acct.stored) (haccounts s)) ?_
    simp only [Column.writeAll, List.foldl_append, List.map_cons, List.map_nil, List.foldl_cons,
      List.foldl_nil]
  | other h same ih =>
    obtain ⟨ws, hupdates, haccounts⟩ := ih
    refine ⟨ws, hupdates, fun s => ?_⟩
    rw [← haccounts s]
    simp only [BlockCtx.commit, BlockCtx.rebase, same]

section

variable {K : Primitives} (smtRootOf : Column (Bytes 32) Account → StateRoot)

/-! ## Roots, preview and commit -/

namespace OpenState

def stateRoot (h : OpenState K) : StateRoot := smtRootOf h.smt.leaves

/-- Apply the pending updates, read the root, write the stashed leaves back in reverse. -/
def previewStateRoot (h : OpenState K) (c : TreeCtx) : StateRoot × OpenState K :=
  let stashed := h.smt.stash c.pendingSmtUpdates
  let smt := h.smt.updateAll c.pendingSmtUpdates
  let root := smtRootOf smt.leaves
  (root, { h with smt := smt.updateAll stashed.reverse })

/-- Write the batch, then update the tree. -/
def commit (h : OpenState K) (c : TreeCtx) : StateRoot × OpenState K :=
  let smt := h.smt.updateAll c.pendingSmtUpdates
  (smtRootOf smt.leaves, ⟨(c.ctx.rebase h.db).commit, smt⟩)

end OpenState

end

end Arknet.Chain
