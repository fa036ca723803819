import Arknet.Laws.Invariants

/-!
Whose stake is whose. A position under a delegator's key belongs to that delegator: over every run
of stake operations, slashes and block boundaries, what a delegator was paid back, holds staked and
has unbonding is covered by what it deposited under its own key, and nobody else's operation lowers
it (`stake_ownership`).
-/

namespace Arknet.Laws

open Machine Store Arknet.Chain Arknet.Staking Arknet.Payments Arknet.Governance Arknet.Consensus

/-! ## Holdings of a delegator -/

def stakeOf (a : Address) (k : StakeKey) (e : StakeEntry) : Nat :=
  if k.delegator = some a then e.amount.val else 0

def unbondingOf (a : Address) (u : UnbondingEntry) : Nat :=
  if u.delegator = some a then u.amount.val else 0

def delegatedStake (c : Column StakeKey StakeEntry) (a : Address) : Nat := c.total (stakeOf a)

def delegatedUnbonding (c : Column UnbondKey UnbondingEntry) (a : Address) : Nat :=
  c.total (fun _ u => unbondingOf a u)

/-- What an entry, or its absence, holds. -/
def held (o : Option StakeEntry) : Nat := o.elim 0 (fun e => e.amount.val)

theorem part_stakeOf (a : Address) (k : StakeKey) (o : Option StakeEntry) :
    Column.part (stakeOf a) k o = if k.delegator = some a then held o else 0 := by
  cases o with
  | none => simp [held]
  | some e => rfl

theorem delegatedStake_write (c : Column StakeKey StakeEntry) (k : StakeKey) (e : StakeEntry)
    (a : Address) :
    delegatedStake (c.write k e.stored) a + (if k.delegator = some a then held (c.get k) else 0) =
      delegatedStake c a + (if k.delegator = some a then e.amount.val else 0) := by
  have h := Column.total_write c (stakeOf a) k e.stored
  have hstored : held e.stored = e.amount.val := stored_amount e
  rw [part_stakeOf, part_stakeOf, hstored] at h
  exact h

theorem delegatedUnbonding_write (c : Column UnbondKey UnbondingEntry) (k : UnbondKey)
    (o : Option UnbondingEntry) (a : Address) :
    delegatedUnbonding (c.write k o) a + (c.get k).elim 0 (unbondingOf a) =
      delegatedUnbonding c a + o.elim 0 (unbondingOf a) := by
  have h := Column.total_write c (fun _ u => unbondingOf a u) k o
  have hpart : ∀ x : Option UnbondingEntry, Column.part (fun _ u => unbondingOf a u) k x =
      x.elim 0 (unbondingOf a) := fun x => by cases x <;> rfl
  rw [hpart, hpart] at h
  exact h

/-! ## One operation -/

/-- What an applied deposit adds to the positions of `a`. -/
def depositedBy (a : Address) (op : StakeOp) (sender : Address) (o : TxOutcome) : Nat :=
  match op with
  | .deposit _ _ _ amount (some _) => if o.isApplied = true ∧ sender = a then amount.val else 0
  | _ => 0

/-- What an applied completion pays out of an unbonding entry of `a`. -/
def returnedTo (a : Address) (ctx : BlockCtx) (op : StakeOp) (o : TxOutcome) : Nat :=
  match op with
  | .complete nodeId _ _ unbondId =>
    if o.isApplied = true then (ctx.getUnbonding nodeId unbondId).elim 0 (unbondingOf a) else 0
  | _ => 0

theorem held_getStake {ctx : BlockCtx} {k : StakeKey} {e : StakeEntry} (h : ctx.getStake k = some e) :
    held (ctx.commit.stakes.get k) = e.amount.val := by
  rw [BlockCtx.getStake_eq] at h
  rw [h]
  rfl

/-- The next unbonding id names no entry. -/
theorem next_unbonding_fresh {ctx : BlockCtx} (hids : UnbondIdsBelow ctx.commit) (node : NodeId) :
    ctx.commit.unbondings.get ⟨node, ctx.nextUnbondId⟩ = none := by
  cases hget : ctx.commit.unbondings.get ⟨node, ctx.nextUnbondId⟩ with
  | none => rfl
  | some u => exact absurd (hids _ _ hget) (Nat.lt_irrefl _)

/-- An operation pays a delegator and leaves it holding no more than it held and deposited. -/
theorem applyStakeOp_holdings {ctx ctx' : BlockCtx} {op : StakeOp} {sender : Address} {height : Height}
    {o : TxOutcome} (hids : UnbondIdsBelow ctx.commit)
    (h : applyStakeOp ctx op sender height = .ok (ctx', o)) (a : Address) :
    returnedTo a ctx op o + delegatedStake ctx'.commit.stakes a +
        delegatedUnbonding ctx'.commit.unbondings a ≤
      delegatedStake ctx.commit.stakes a + delegatedUnbonding ctx.commit.unbondings a +
        depositedBy a op sender o := by
  cases op with
  | deposit nodeId role poolId amount delegator =>
    rcases applyDeposit_ok h with ⟨rfl, ho⟩ | ⟨rfl, hd, balance, -, rfl⟩
    · simp only [returnedTo]
      omega
    · have hset := delegatedStake_write ctx.commit.stakes ⟨nodeId, role, poolId, delegator⟩
        (depositEntry (ctx.getStake ⟨nodeId, role, poolId, delegator⟩) ⟨nodeId, role, poolId, delegator⟩
          amount height) a
      have hle : _ ≤ held (ctx.commit.stakes.get ⟨nodeId, role, poolId, delegator⟩) + amount.val :=
        depositEntry_le ctx ⟨nodeId, role, poolId, delegator⟩ amount height
      simp only [BlockCtx.setStake_commit, BlockCtx.setAccount_commit]
      rcases hd with rfl | rfl
      · simp only [returnedTo, depositedBy, reduceCtorEq, ↓reduceIte] at hset ⊢
        omega
      · simp only [returnedTo, depositedBy, TxOutcome.isApplied, true_and, Option.some.injEq] at hset ⊢
        by_cases hs : sender = a
        · simp only [if_pos hs] at hset ⊢
          omega
        · simp only [if_neg hs] at hset ⊢
          omega
  | withdraw nodeId role poolId amount =>
    rcases applyWithdraw_ok h with ⟨rfl, -⟩ | ⟨-, d, entry, rest, completesAt, next, hdrawn, hrest, -, -, rfl⟩
    · simp only [returnedTo, depositedBy]
      omega
    · have hset := delegatedStake_write ctx.commit.stakes ⟨nodeId, role, poolId, d⟩
        { entry with amount := rest } a
      have hun := delegatedUnbonding_write ctx.commit.unbondings ⟨nodeId, ctx.nextUnbondId⟩
        (some ⟨ctx.nextUnbondId, nodeId, role, poolId, d, amount, height, completesAt⟩) a
      rw [next_unbonding_fresh hids] at hun
      rw [held_getStake (drawnEntry_eq_some hdrawn).1] at hset
      simp only [BlockCtx.setNextUnbondId_commit, BlockCtx.setUnbonding_commit, BlockCtx.setStake_commit,
        returnedTo, depositedBy]
      simp only [Option.elim_none, Option.elim_some, unbondingOf] at hset hun
      by_cases hd : d = some a
      · simp only [if_pos hd] at hset hun
        omega
      · simp only [if_neg hd] at hset hun
        omega
  | complete nodeId role poolId unbondId =>
    rcases applyComplete_ok h with ⟨rfl, ho⟩ | ⟨rfl, entry, hget, -, -, rfl⟩
    · simp only [returnedTo, ho, depositedBy]
      simp
    · have hun := delegatedUnbonding_write ctx.commit.unbondings ⟨nodeId, unbondId⟩ none a
      have hget' := hget
      rw [BlockCtx.getUnbonding_eq] at hget'
      rw [hget'] at hun
      simp only [BlockCtx.deleteUnbonding_commit, BlockCtx.creditAddress, BlockCtx.setAccount_commit,
        returnedTo, depositedBy, hget, TxOutcome.isApplied, ↓reduceIte, Option.elim_some,
        Option.elim_none] at hun ⊢
      omega
  | redelegate src dst role amount =>
    rcases applyRedelegate_ok h with ⟨rfl, -⟩ | ⟨-, hne, d, entry, rest, hdrawn, hrest, rfl⟩
    · simp only [returnedTo, depositedBy]
      omega
    · have hsrc := delegatedStake_write ctx.commit.stakes ⟨src, role, none, d⟩
        { entry with amount := rest } a
      have hdst := delegatedStake_write (ctx.commit.stakes.write ⟨src, role, none, d⟩
        (StakeEntry.stored { entry with amount := rest })) ⟨dst, role, none, d⟩
        (depositEntry (ctx.getStake ⟨dst, role, none, d⟩) ⟨dst, role, none, d⟩ amount height) a
      have hle : _ ≤ held (ctx.commit.stakes.get ⟨dst, role, none, d⟩) + amount.val :=
        depositEntry_le ctx ⟨dst, role, none, d⟩ amount height
      have hkey : (⟨src, role, none, d⟩ : StakeKey) ≠ ⟨dst, role, none, d⟩ := by simpa using hne
      rw [Column.get_write_ne _ hkey] at hdst
      rw [held_getStake (drawnEntry_eq_some hdrawn).1] at hsrc
      simp only [BlockCtx.setStake_commit, returnedTo, depositedBy]
      by_cases hd : d = some a
      · simp only [if_pos hd] at hsrc hdst
        omega
      · simp only [if_neg hd] at hsrc hdst
        omega

/-- Nobody else's operation changes an unbonding entry of a delegator. -/
theorem applyStakeOp_unbonding_kept {ctx ctx' : BlockCtx} {op : StakeOp} {sender : Address}
    {height : Height} {o : TxOutcome} (hids : UnbondIdsBelow ctx.commit)
    (h : applyStakeOp ctx op sender height = .ok (ctx', o)) {a : Address} (hne : a ≠ sender)
    {k : UnbondKey} {u : UnbondingEntry} (hd : u.delegator = some a)
    (hu : ctx.commit.unbondings.get k = some u) : ctx'.commit.unbondings.get k = some u := by
  cases op with
  | deposit nodeId role poolId amount delegator =>
    rcases applyDeposit_ok h with ⟨rfl, -⟩ | ⟨-, -, balance, -, rfl⟩ <;> exact hu
  | withdraw nodeId role poolId amount =>
    rcases applyWithdraw_ok h with ⟨rfl, -⟩ | ⟨-, d, entry, rest, completesAt, next, -, -, -, -, rfl⟩
    · exact hu
    · have hkey : (⟨nodeId, ctx.nextUnbondId⟩ : UnbondKey) ≠ k := by
        rintro rfl
        rw [next_unbonding_fresh hids] at hu
        cases hu
      simp only [BlockCtx.setNextUnbondId_commit, BlockCtx.setUnbonding_commit, BlockCtx.setStake_commit]
      rw [Column.get_write_ne _ hkey]
      exact hu
  | complete nodeId role poolId unbondId =>
    rcases applyComplete_ok h with ⟨rfl, -⟩ | ⟨-, entry, hget, howner, -, rfl⟩
    · exact hu
    · have hkey : (⟨nodeId, unbondId⟩ : UnbondKey) ≠ k := by
        rintro rfl
        rw [BlockCtx.getUnbonding_eq, hu] at hget
        obtain rfl := Option.some.inj hget
        rw [hd] at howner
        rcases howner with hn | hs
        · cases hn
        · exact hne (Option.some.inj hs)
      simp only [BlockCtx.deleteUnbonding_commit, BlockCtx.creditAddress, BlockCtx.setAccount_commit]
      rw [Column.get_write_ne _ hkey]
      exact hu
  | redelegate src dst role amount =>
    rcases applyRedelegate_ok h with ⟨rfl, -⟩ | ⟨-, -, d, entry, rest, -, -, rfl⟩ <;> exact hu

/-! ## Slashes -/

/-- No entry a slash writes back is above what the context still holds there. -/
structure SlashFresh (ctx : BlockCtx) (node : NodeId) (role : StakeRole) (o : Offense) : Prop where
  stakes : ∀ e ∈ slashedStakes ctx.state node role o, (keeps o e.amount).val ≤ stakeAmount ctx.commit e.key
  unbondings : ∀ u ∈ slashedUnbondings ctx.state node role o,
    (keeps o u.amount).val ≤ unbondingAmount ctx.commit ⟨node, u.unbondId⟩

/-- An unbonding entry is in the same hands in the buffer as in the committed store. -/
def SameHolders (ctx : BlockCtx) : Prop :=
  ∀ k u u', ctx.state.unbondings.get k = some u → ctx.commit.unbondings.get k = some u' →
    u'.delegator = u.delegator

section

variable {ctx ctx' : BlockCtx} {node : NodeId} {role : StakeRole} {offense : Offense}
  {reporter treasury : Address} {report : SlashReport}

/-- A fresh slash leaves every delegator with no more than it had. -/
theorem applySlash_holdings (hk : Keyed ctx.state) (hl : SameHolders ctx)
    (hf : SlashFresh ctx node role offense)
    (h : applySlash ctx node role offense reporter treasury = .ok (ctx', report)) (a : Address) :
    delegatedStake ctx'.commit.stakes a ≤ delegatedStake ctx.commit.stakes a ∧
      delegatedUnbonding ctx'.commit.unbondings a ≤ delegatedUnbonding ctx.commit.unbondings a := by
  constructor
  · refine Column.total_le_total _ _ _ (fun k => ?_)
    rw [part_stakeOf, part_stakeOf]
    rcases stakes_applySlash hk h k with ⟨e, he, rfl, hget⟩ | ⟨-, hget⟩
    · have hle : _ ≤ held (ctx.commit.stakes.get e.key) := hf.stakes e he
      have hstored : held (StakeEntry.stored { e with amount := keeps offense e.amount }) =
          (keeps offense e.amount).val := stored_amount _
      rw [hget, hstored]
      split
      · exact hle
      · exact Nat.le_refl _
    · rw [hget]
  · refine Column.total_le_total _ _ _ (fun k => ?_)
    rcases unbondings_applySlash hk h k with ⟨u, hu, rfl, hget⟩ | ⟨-, hget⟩
    · have hle := hf.unbondings u hu
      rw [hget]
      simp only [Column.part_some, unbondingOf, unbondingAmount] at hle ⊢
      cases hc : ctx.commit.unbondings.get ⟨node, u.unbondId⟩ with
      | none =>
        rw [hc] at hle
        split
        · exact hle
        · exact Nat.zero_le _
      | some u' =>
        rw [hc] at hle
        have hsame := hl _ _ _ (mem_slashedUnbondings hk hu).1 hc
        simp only [Option.elim_some] at hle
        simp only [Column.part_some, hsame]
        split
        · exact hle
        · exact Nat.zero_le _
    · rw [hget]

theorem applySlash_sameHolders (hk : Keyed ctx.state) (hl : SameHolders ctx)
    (h : applySlash ctx node role offense reporter treasury = .ok (ctx', report)) :
    SameHolders ctx' := by
  intro k u u' hbase hview
  rw [(applySlash_frame h).state] at hbase
  rcases unbondings_applySlash hk h k with ⟨v, hv, rfl, hget⟩ | ⟨-, hget⟩
  · rw [hget] at hview
    rw [(mem_slashedUnbondings hk hv).1] at hbase
    rw [← Option.some.inj hview, ← Option.some.inj hbase]
  · exact hl k u u' hbase (hget ▸ hview)

end

theorem applyStakeOp_sameHolders {ctx ctx' : BlockCtx} {op : StakeOp} {sender : Address}
    {height : Height} {o : TxOutcome} (hbase : UnbondIdsBelow ctx.state)
    (hm : (ctx.state.metaUnbondId.getD 0).val ≤ (ctx.commit.metaUnbondId.getD 0).val)
    (hl : SameHolders ctx) (h : applyStakeOp ctx op sender height = .ok (ctx', o)) :
    SameHolders ctx' := by
  intro k u u' hb hv
  rw [applyStakeOp_state h] at hb
  cases op with
  | deposit nodeId role poolId amount delegator =>
    rcases applyDeposit_ok h with ⟨rfl, -⟩ | ⟨-, -, balance, -, rfl⟩ <;> exact hl k u u' hb hv
  | withdraw nodeId role poolId amount =>
    rcases applyWithdraw_ok h with ⟨rfl, -⟩ | ⟨-, d, entry, rest, completesAt, next, -, -, -, -, rfl⟩
    · exact hl k u u' hb hv
    · -- The committed store holds no entry under an id that was not drawn yet.
      have hkey : (⟨nodeId, ctx.nextUnbondId⟩ : UnbondKey) ≠ k := by
        rintro rfl
        have := hbase _ _ hb
        have hnext : ctx.nextUnbondId = ctx.commit.metaUnbondId.getD 0 := rfl
        simp only [hnext] at this
        omega
      simp only [BlockCtx.setNextUnbondId_commit, BlockCtx.setUnbonding_commit,
        BlockCtx.setStake_commit] at hv
      rw [Column.get_write_ne _ hkey] at hv
      exact hl k u u' hb hv
  | complete nodeId role poolId unbondId =>
    rcases applyComplete_ok h with ⟨rfl, -⟩ | ⟨-, entry, hget, howner, -, rfl⟩
    · exact hl k u u' hb hv
    · simp only [BlockCtx.deleteUnbonding_commit, BlockCtx.creditAddress, BlockCtx.setAccount_commit,
        Column.get_write] at hv
      split at hv
      · cases hv
      · exact hl k u u' hb hv
  | redelegate src dst role amount =>
    rcases applyRedelegate_ok h with ⟨rfl, -⟩ | ⟨-, -, d, entry, rest, -, -, rfl⟩ <;>
      exact hl k u u' hb hv

/-! ## Runs -/

/-- What each address has deposited under its own key and been paid back so far. -/
structure Flows where
  deposited : Address → Nat
  returned : Address → Nat

/-- Equal stake columns, in the committed store and in the buffer. -/
structure SameStakes (ctx ctx' : BlockCtx) : Prop where
  baseStakes : ctx'.state.stakes = ctx.state.stakes
  baseUnbondings : ctx'.state.unbondings = ctx.state.unbondings
  baseCounter : ctx'.state.metaUnbondId = ctx.state.metaUnbondId
  stakes : ctx'.commit.stakes = ctx.commit.stakes
  unbondings : ctx'.commit.unbondings = ctx.commit.unbondings
  counter : ctx'.commit.metaUnbondId = ctx.commit.metaUnbondId

/-- Runs of stake operations by any sender at any height, fresh slashes, steps that leave the stake
columns alone, and block boundaries, from a store without stake. -/
inductive StakeRun : Flows → BlockCtx → Prop where
  | start {s : State} (hs : s.stakes = .empty) (hu : s.unbondings = .empty) :
      StakeRun ⟨fun _ => 0, fun _ => 0⟩ s.beginBlock
  | op {f : Flows} {ctx ctx' : BlockCtx} {o : TxOutcome} (run : StakeRun f ctx) (op : StakeOp)
      (sender : Address) (height : Height) (step : applyStakeOp ctx op sender height = .ok (ctx', o)) :
      StakeRun ⟨fun a => f.deposited a + depositedBy a op sender o,
        fun a => f.returned a + returnedTo a ctx op o⟩ ctx'
  | slash {f : Flows} {ctx ctx' : BlockCtx} {node : NodeId} {role : StakeRole} {offense : Offense}
      {reporter treasury : Address} {report : SlashReport} (run : StakeRun f ctx)
      (fresh : SlashFresh ctx node role offense)
      (step : applySlash ctx node role offense reporter treasury = .ok (ctx', report)) : StakeRun f ctx'
  | other {f : Flows} {ctx ctx' : BlockCtx} (run : StakeRun f ctx) (step : SameStakes ctx ctx') :
      StakeRun f ctx'
  | commit {f : Flows} {ctx : BlockCtx} {s : State} (run : StakeRun f ctx)
      (hs : s.stakes = ctx.commit.stakes) (hu : s.unbondings = ctx.commit.unbondings)
      (hm : s.metaUnbondId = ctx.commit.metaUnbondId) : StakeRun f s.beginBlock

/-- What every state of a run satisfies. -/
structure OwnershipInv (f : Flows) (ctx : BlockCtx) : Prop where
  covered : ∀ a, f.returned a + delegatedStake ctx.commit.stakes a +
    delegatedUnbonding ctx.commit.unbondings a ≤ f.deposited a
  base : Keyed ctx.state
  baseIds : UnbondIdsBelow ctx.state
  keyed : Keyed ctx.commit
  ids : UnbondIdsBelow ctx.commit
  counter : (ctx.state.metaUnbondId.getD 0).val ≤ (ctx.commit.metaUnbondId.getD 0).val
  holders : SameHolders ctx

theorem stakeRun_inv {f : Flows} {ctx : BlockCtx} (run : StakeRun f ctx) : OwnershipInv f ctx := by
  induction run with
  | @start s hs hu =>
    have hk : Keyed s := wellFormed_empty.keyed.congr hs hu
    have hi : UnbondIdsBelow s := by
      unfold UnbondIdsBelow
      rw [hu]
      exact fun _ _ h => nomatch h
    refine ⟨fun a => ?_, hk, hi, hk, hi, Nat.le_refl _, ?_⟩
    · have h₁ : delegatedStake s.beginBlock.commit.stakes a = 0 := by
        rw [State.beginBlock_commit, hs]
        rfl
      have h₂ : delegatedUnbonding s.beginBlock.commit.unbondings a = 0 := by
        rw [State.beginBlock_commit, hu]
        rfl
      simp only
      omega
    · intro k u u' hb hv
      rw [State.beginBlock_state] at hb
      rw [State.beginBlock_commit, hb] at hv
      rw [Option.some.inj hv]
  | op run op sender height step ih =>
    have hstate := applyStakeOp_state step
    refine ⟨fun a => ?_, by rw [hstate]; exact ih.base, by rw [hstate]; exact ih.baseIds,
      applyStakeOp_keyed ih.keyed step, applyStakeOp_unbondIds ih.ids step, ?_,
      applyStakeOp_sameHolders ih.baseIds ih.counter ih.holders step⟩
    · have h₁ := ih.covered a
      have h₂ := applyStakeOp_holdings ih.ids step a
      simp only
      omega
    · rw [hstate]
      exact Nat.le_trans ih.counter (applyStakeOp_counter step)
  | slash run fresh step ih =>
    have hframe := applySlash_frame step
    refine ⟨fun a => ?_, by rw [hframe.state]; exact ih.base, by rw [hframe.state]; exact ih.baseIds,
      applySlash_keyed ih.base ih.keyed step,
      applySlash_unbondIds ih.base ih.baseIds ih.counter ih.ids step, ?_,
      applySlash_sameHolders ih.base ih.holders step⟩
    · have h₁ := ih.covered a
      have h₂ := applySlash_holdings ih.base ih.holders fresh step a
      omega
    · rw [hframe.state, hframe.metaUnbondId]
      exact ih.counter
  | other run step ih =>
    obtain ⟨bs, bu, bc, vs, vu, vc⟩ := step
    refine ⟨by rw [vs, vu]; exact ih.covered, ih.base.congr bs bu, ih.baseIds.congr bu bc,
      ih.keyed.congr vs vu, ih.ids.congr vu vc, by rw [bc, vc]; exact ih.counter, ?_⟩
    unfold SameHolders
    rw [bu, vu]
    exact ih.holders
  | @commit f ctx s run hs hu hm ih =>
    have hk : Keyed s := ih.keyed.congr hs hu
    have hi : UnbondIdsBelow s := ih.ids.congr hu hm
    refine ⟨?_, hk, hi, hk, hi, Nat.le_refl _, ?_⟩
    · rw [State.beginBlock_commit, hs, hu]
      exact ih.covered
    · intro k u u' hb hv
      rw [State.beginBlock_state] at hb
      rw [State.beginBlock_commit, hb] at hv
      rw [Option.some.inj hv]

/-! ## Blocks are such runs -/

section

variable {K : Primitives} {f : Flows} {ctx ctx' : BlockCtx}

theorem applyTx_stakeRun {stx : SignedTransaction} {o : TxOutcome} (run : StakeRun f ctx)
    (h : applyTx K ctx stx = .ok (ctx', o)) : ∃ f', StakeRun f' ctx' := by
  have hstate := applyTx_state h
  cases htx : stx.tx with
  | stakeOp op =>
    simp only [applyTx, htx] at h
    exact ⟨_, .op run _ _ _ h⟩
  | _ =>
    obtain ⟨hs, hu, hm⟩ := (applyTx_frame h).stakes (by simp [htx])
    exact ⟨f, .other run ⟨by rw [hstate], by rw [hstate], by rw [hstate], hs, hu, hm⟩⟩

/-- Each slash that is dispatched is fresh where it runs. -/
def DispatchFresh (K : Primitives) : BlockCtx → List SignedTransaction → Prop :=
  Each (dispatchSlash K) (fun ctx stx => ∀ d, stx.tx = .dispute d →
    SlashFresh ctx d.computeNode .compute .failedDeterministicVerification)

theorem dispatch_stakeRun {txs : List SignedTransaction} (run : StakeRun f ctx)
    (hf : DispatchFresh K ctx txs) (h : txs.foldlM (dispatchSlash K) ctx = .ok ctx') :
    StakeRun f ctx' := by
  refine foldlM_each (StakeRun f) ?_ hf run h
  intro c c' stx hfresh hc hstep
  rcases dispatchSlash_ok hstep with rfl | ⟨d, report, hd, -, hs⟩
  · exact hc
  · exact .slash hc (hfresh d hd) hs

/-- A committed block whose slashes are fresh continues a run. -/
theorem commits_stakeRun {s s' : State} {b : Block} {r : Replay} (run : StakeRun f s.beginBlock)
    (h : Commits K s b r s')
    (hf : ∀ ctx os, applyTxs K s.beginBlock b.txs = .ok (ctx, os) → DispatchFresh K ctx b.txs) :
    ∃ f', StakeRun f' s'.beginBlock := by
  obtain ⟨ctx₁, ctx₂, ctx₃, fee, h₁, h₂, h₃, hr⟩ := replayBlock_ok h.replay
  obtain ⟨blocks, idx, hp⟩ := persist_columns (K := K) r.ctx b
  obtain ⟨-, f₁, run₁⟩ := applyTxs_invariant (P := fun c => ∃ f', StakeRun f' c)
    (fun c c' t o _ _ ⟨g, hg⟩ hstep => applyTx_stakeRun hg hstep) rfl ⟨f, run⟩ h₁
  have run₂ := dispatch_stakeRun run₁ (hf ctx₁ r.outcomes h₁) h₂
  obtain ⟨_, _, _, _, hc⟩ := epochHooks_commit h₃
  have hs : s' = { r.ctx.commit with blocks := blocks, txIndex := idx } := h.stored.trans hp
  refine ⟨f₁, .commit run₂ ?_ ?_ ?_⟩ <;> rw [hs, hr] <;>
    simp only [BlockCtx.setBaseFee_commit, BlockCtx.setCurrentHeight_commit, hc]

end

/-! ## The law -/

/-- What one operation may do to the positions of a delegator. -/
structure RespectsOwner (ctx ctx' : BlockCtx) (op : StakeOp) (o : TxOutcome) (sender a : Address) : Prop where
  stakes : a ≠ sender → ∀ k, k.delegator = some a → stakeAmount ctx.commit k ≤ stakeAmount ctx'.commit k
  unbondings : a ≠ sender → ∀ k u, u.delegator = some a → ctx.commit.unbondings.get k = some u →
    ctx'.commit.unbondings.get k = some u
  moved : ∀ src dst role amount, op = .redelegate src dst role amount → a = sender →
    ctx.getStake ⟨src, role, none, some a⟩ ≠ none → o.isApplied = true →
    amount.val ≤ stakeAmount ctx.commit ⟨src, role, none, some a⟩

/-- In every state of every run: what a delegator was paid back, holds staked and has unbonding is
covered by its own deposits; and the next operation, whoever sends it, lowers no position or unbonding
entry of another delegator and redelegates no more than the sender's own position holds. -/
theorem stake_ownership {f : Flows} {ctx : BlockCtx} (run : StakeRun f ctx) :
    (∀ a, f.returned a + delegatedStake ctx.commit.stakes a +
      delegatedUnbonding ctx.commit.unbondings a ≤ f.deposited a) ∧
    ∀ op sender height ctx' o, applyStakeOp ctx op sender height = .ok (ctx', o) →
      ∀ a, RespectsOwner ctx ctx' op o sender a := by
  have hinv := stakeRun_inv run
  refine ⟨hinv.covered, fun op sender height ctx' o step a => ⟨?_, ?_, ?_⟩⟩
  · intro hne k hd
    by_contra hlt
    exact hne (applyStakeOp_lowered step hd (Nat.not_le.mp hlt)).2.1.symm
  · intro hne k u hd hu
    exact applyStakeOp_unbonding_kept hinv.ids step hne hd hu
  · rintro src dst role amount rfl rfl hown happlied
    rcases applyRedelegate_ok step with ⟨-, ho⟩ | ⟨-, -, d, entry, rest, hdrawn, hrest, -⟩
    · rw [ho] at happlied
      cases happlied
    · obtain rfl := drawnEntry_own hdrawn hown
      rw [stakeAmount_of_getStake (drawnEntry_eq_some hdrawn).1]
      omega

/-- Deposit under the own key, withdrawal, completion. -/
theorem stake_ownership_round_trip : ∃ f ctx, StakeRun f ctx ∧ f.returned 7 = 1000 ∧
    f.returned 7 + delegatedStake ctx.commit.stakes 7 + delegatedUnbonding ctx.commit.unbondings 7 ≤
      f.deposited 7 := by
  have start : StakeRun _ soleHolder.beginBlock := .start rfl rfl
  have deposit := start.op (.deposit 1 .compute none 1000 (some 7)) 7 0 rfl
  have withdraw := deposit.op (.withdraw 1 .compute none 1000) 7 10 rfl
  have complete := withdraw.op (.complete 1 .compute none 0) 7 1209610 rfl
  exact ⟨_, _, complete, by decide, (stake_ownership complete).1 7⟩

/-- Applied operations, one after the other. -/
def AppliesTo : BlockCtx → List (StakeOp × Address × Height) → BlockCtx → Prop
  | ctx, [], ctx' => ctx' = ctx
  | ctx, (op, sender, height) :: rest, ctx' => ∃ mid gas,
      applyStakeOp ctx op sender height = .ok (mid, .applied gas) ∧ AppliesTo mid rest ctx'

/-- A thousand deposited, then a thousand moved and a thousand paid back; and a stranger who deposits
nothing is paid the thousand that address 7 staked without a delegator key. -/
theorem moved_and_paid :
    (∃ ctx, AppliesTo soleHolder.beginBlock
      [(.deposit 1 .compute none 1000 (some 7), 7, 0), (.redelegate 1 2 .compute 1000, 7, 86400),
        (.withdraw 2 .compute none 1000, 7, 86400), (.complete 2 .compute none 0, 7, 1296000)] ctx ∧
      (ctx.account 7).balance = 1000) ∧
    (∃ ctx, AppliesTo soleHolder.beginBlock
      [(.deposit 1 .compute none 1000 none, 7, 0), (.withdraw 1 .compute none 1000, 9, 1),
        (.complete 1 .compute none 0, 9, 1209601)] ctx ∧
      (ctx.account 7).balance = 0 ∧ (ctx.account 9).balance = 1000) :=
  ⟨⟨_, ⟨_, _, rfl, _, _, rfl, _, _, rfl, _, _, rfl, rfl⟩, by decide⟩,
    ⟨_, ⟨_, _, rfl, _, _, rfl, _, _, rfl, rfl⟩, by decide, by decide⟩⟩

end Arknet.Laws
