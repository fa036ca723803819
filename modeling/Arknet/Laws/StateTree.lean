import Arknet.Chain.StateTree
import Arknet.Consensus.Run

/-!
The state tree mirrors the accounts column: over any history of contexts that were committed or
dropped, of previews and of restarts, the tree in memory is the one that would be rebuilt from disk.
-/

namespace Arknet.Laws

open Machine Store Arknet.Chain

/-! ## Histories of an open state -/

/-- What can happen to an open state. -/
inductive TreeOp where
  | commit (c : TreeCtx)
  | drop (c : TreeCtx)
  | preview (c : TreeCtx)
  | storeBlock (txHash : SignedTransaction → TxHash) (height : Height) (b : Block)
  | pruneBlocksBefore (txHash : SignedTransaction → TxHash) (keepFrom : Height)
  | reopen

section

variable {K : Primitives} (smtRootOf : Column (Bytes 32) Account → StateRoot)

/-- A dropped context leaves nothing behind; a restart opens the database again. -/
def applyOp (h : OpenState K) : TreeOp → OpenState K
  | .commit c => (h.commit smtRootOf c).2
  | .drop _ => h
  | .preview c => (h.previewStateRoot smtRootOf c).2
  | .storeBlock txHash height b => { h with db := h.db.storeBlock txHash height b }
  | .pruneBlocksBefore txHash keepFrom => { h with db := h.db.pruneBlocksBefore txHash keepFrom }
  | .reopen => openState K h.db

def runOps (h : OpenState K) (ops : List TreeOp) : OpenState K := ops.foldl (applyOp smtRootOf) h

end

/-- The tree's leaves are the accounts that are not zero to it. -/
def TreeMirrors {K : Primitives} (h : OpenState K) : Prop :=
  LeafMap.Mirrors smtKeyForAccount h.smt h.db.accounts

theorem openState_mirrors (K : Primitives) (db : State) : TreeMirrors (openState K db) :=
  LeafMap.mirrors_rebuilt smtKeyForAccount_injective db.accounts

section

variable {K : Primitives} (smtRootOf : Column (Bytes 32) Account → StateRoot) {h : OpenState K}

/-- The tree in memory is the one a restart would rebuild. -/
theorem TreeMirrors.reopened (hm : TreeMirrors h) : openState K h.db = h := by
  have hsmt : (openState K h.db).smt = h.smt := LeafMap.Mirrors.unique (openState_mirrors K h.db) hm
  cases h
  exact congrArg (OpenState.mk _) hsmt

/-- The column deletes empty accounts, and an empty account is zero to the tree. -/
theorem stored_or_zero (K : Primitives) (a : Account) :
    a.stored = some a ∨ (a.stored = none ∧ (accountZeros K).isZero a = true) := by
  unfold Account.stored
  split
  · rename_i hempty
    refine .inr ⟨rfl, ?_⟩
    apply decide_eq_true
    rw [leafToH256, if_pos hempty]
  · exact .inl rfl

theorem TreeMirrors.commit (hm : TreeMirrors h) (c : TreeCtx) :
    TreeMirrors (h.commit smtRootOf c).2 := by
  obtain ⟨ws, hupdates, haccounts⟩ := c.written.accounts
  have hall := LeafMap.Mirrors.updateAll smtKeyForAccount_injective hm Account.stored
    (stored_or_zero K) ws
  unfold TreeMirrors OpenState.commit
  rw [hupdates, haccounts h.db]
  exact hall

theorem previewStateRoot_unchanged (h : OpenState K) (c : TreeCtx) :
    (h.previewStateRoot smtRootOf c).2 = h :=
  congrArg (OpenState.mk h.db) (LeafMap.rollback h.smt c.pendingSmtUpdates)

theorem pruneBlocksBefore_accounts (s : State) (txHash : SignedTransaction → TxHash)
    (keepFrom : Height) : (s.pruneBlocksBefore txHash keepFrom).accounts = s.accounts := by
  unfold State.pruneBlocksBefore
  generalize s.blocks.entries.takeWhile (fun e => e.1 < keepFrom) = es
  induction es generalizing s with
  | nil => rfl
  | cons e es ih => exact ih _

/-- Whatever happens to an open state keeps the mirror. -/
theorem TreeMirrors.applyOp (hm : TreeMirrors h) (op : TreeOp) :
    TreeMirrors (applyOp smtRootOf h op) := by
  cases op with
  | commit c => exact hm.commit smtRootOf c
  | drop c => exact hm
  | preview c =>
    show TreeMirrors (h.previewStateRoot smtRootOf c).2
    rw [previewStateRoot_unchanged]
    exact hm
  | storeBlock txHash height b => exact hm
  | pruneBlocksBefore txHash keepFrom =>
    show LeafMap.Mirrors smtKeyForAccount h.smt (h.db.pruneBlocksBefore txHash keepFrom).accounts
    rw [pruneBlocksBefore_accounts]
    exact hm
  | reopen => exact openState_mirrors K h.db

theorem TreeMirrors.runOps (hm : TreeMirrors h) (ops : List TreeOp) :
    TreeMirrors (runOps smtRootOf h ops) := by
  induction ops generalizing h with
  | nil => exact hm
  | cons op ops ih => exact ih (hm.applyOp smtRootOf op)

end

/-! ## Agreement -/

/-- No account encodes to an input that hashes to zero. -/
def NoZeroDigest (K : Primitives) : Prop := ∀ a : Account, K.blake3 a.borsh ≠ 0

/-- The tree in memory, the tree a preview makes and the tree a restart makes agree. -/
structure TreeAgrees {K : Primitives} (smtRootOf : Column (Bytes 32) Account → StateRoot)
    (h : OpenState K) : Prop where
  leaves : ∀ key leaf, h.smt.leaves.get key = some leaf ↔ ∃ addr, smtKeyForAccount addr = key ∧
    h.db.accounts.get addr = some leaf ∧ leafToH256 K leaf ≠ 0
  nonEmpty : NoZeroDigest K → ∀ key leaf, h.smt.leaves.get key = some leaf ↔
    ∃ addr, smtKeyForAccount addr = key ∧ h.db.accounts.get addr = some leaf ∧ leaf.isEmpty = false
  reopened : openState K h.db = h
  previewed : ∀ c, (h.previewStateRoot smtRootOf c).1 = (h.commit smtRootOf c).1
  unchanged : ∀ c, (h.previewStateRoot smtRootOf c).2 = h
  repeated : ∀ c, (h.previewStateRoot smtRootOf c).2.previewStateRoot smtRootOf c =
    h.previewStateRoot smtRootOf c
  restarted : ∀ c, (openState K (h.commit smtRootOf c).2.db).stateRoot smtRootOf =
    (h.commit smtRootOf c).1

section

variable {K : Primitives} (smtRootOf : Column (Bytes 32) Account → StateRoot) {h : OpenState K}

theorem leafToH256_ne_zero (hz : NoZeroDigest K) (a : Account) :
    leafToH256 K a ≠ 0 ↔ a.isEmpty = false := by
  unfold leafToH256
  split
  · rename_i hempty
    simp [hempty]
  · rename_i hsome
    simp only [hz a, ne_eq, not_false_iff, true_iff]
    simpa using hsome

theorem TreeMirrors.leaves (hm : TreeMirrors h) (key : Bytes 32) (leaf : Account) :
    h.smt.leaves.get key = some leaf ↔ ∃ addr, smtKeyForAccount addr = key ∧
      h.db.accounts.get addr = some leaf ∧ leafToH256 K leaf ≠ 0 := by
  rw [hm key leaf]
  apply exists_congr
  intro addr
  simp only [accountZeros, decide_eq_false_iff_not, ne_eq]

/-- After any history of contexts committed or dropped, of previews and of restarts, the tree's leaves
are the accounts, a restart rebuilds it, and a preview returns the root a commit would, leaves
everything as it is and can be repeated. -/
theorem tree_mirrors_accounts (K : Primitives) (db : State) (ops : List TreeOp) :
    TreeAgrees smtRootOf (runOps smtRootOf (openState K db) ops) := by
  have hm := TreeMirrors.runOps smtRootOf (openState_mirrors K db) ops
  constructor
  · exact hm.leaves
  · intro hz key leaf
    rw [hm.leaves]
    simp only [leafToH256_ne_zero hz]
  · exact hm.reopened
  · intro c
    rfl
  · exact previewStateRoot_unchanged smtRootOf _
  · intro c
    rw [previewStateRoot_unchanged]
  · intro c
    rw [(hm.commit smtRootOf c).reopened]
    rfl

/-- Where the root of a column is the root of the tree that mirrors it, the preview of a context begun
on the open state is the preview of the commit path. -/
theorem previewStateRoot_refines (hm : TreeMirrors h)
    (hroot : ∀ accounts, K.smtRoot accounts =
      (openState K { State.empty with accounts := accounts }).stateRoot smtRootOf)
    {c : TreeCtx} (hc : c.ctx.state = h.db) :
    (h.previewStateRoot smtRootOf c).1 = Consensus.previewStateRoot K c.ctx := by
  have hcommit : (h.commit smtRootOf c).2.db = c.ctx.commit := by
    show (c.ctx.rebase h.db).commit = c.ctx.commit
    rw [← hc, BlockCtx.rebase_self]
  have hopen := (hm.commit smtRootOf c).reopened
  rw [Consensus.previewStateRoot, hroot, ← hcommit]
  exact (congrArg (OpenState.stateRoot smtRootOf) hopen).symm

end

/-! ### A digest that is never zero -/

theorem numeral_bound (bs : List UInt8) (acc : Nat) :
    acc + bs.length ≤ bs.foldl (fun acc b => acc * 257 + b.toNat + 1) acc ∧
      bs.foldl (fun acc b => acc * 257 + b.toNat + 1) acc + 1 ≤ (acc + 1) * 257 ^ bs.length := by
  induction bs generalizing acc with
  | nil => simp
  | cons b bs ih =>
    obtain ⟨hlow, hhigh⟩ := ih (acc * 257 + b.toNat + 1)
    have hb := b.toNat_lt
    rw [List.foldl_cons, List.length_cons]
    refine ⟨by omega, hhigh.trans ?_⟩
    rw [pow_succ, mul_comm (257 ^ bs.length), ← mul_assoc]
    apply Nat.mul_le_mul_right
    omega

theorem toy_noZeroDigest : NoZeroDigest toyPrimitives := by
  intro a hzero
  have hlen : a.borsh.length = 24 := by
    simp only [Account.borsh, List.length_append, Borsh.length_leBytes]
  obtain ⟨hlow, hhigh⟩ := numeral_bound a.borsh 0
  rw [hlen] at hlow hhigh
  have hval := congrArg (fun d : Bytes 32 => d.val.val) hzero
  have hlt : a.borsh.foldl (fun acc b => acc * 257 + b.toNat + 1) 0 < 256 ^ 32 := by
    refine lt_of_lt_of_le hhigh ?_
    decide
  simp only [toyPrimitives, numeral, Nat.mod_eq_of_lt hlt] at hval
  have hz : ((0 : Bytes 32).val.val) = 0 := rfl
  omega

end Arknet.Laws
