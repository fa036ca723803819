import Arknet.Laws.StakeOwnership
import Arknet.Laws.Supply
import Arknet.Lib.Runs

/-!
Stake operations move value between accounts, stakes and unbonding entries and touch nothing else of them
(`stake_operations_conserve`); the unbonding entries that a run creates have one id each, and each is paid
out at most once.
-/

namespace Arknet.Laws

open Machine Store Runs Arknet.Chain Arknet.Consensus

/-! ## One operation -/

/-- No unbonding entry stands where a withdrawal puts its own. -/
def DrawsFreshId (ctx : BlockCtx) : StakeOp → Prop
  | .withdraw nodeId .. => ctx.getUnbonding nodeId ctx.nextUnbondId = none
  | _ => True

/-- No sum that the operation forms saturates. -/
def SumsFit (ctx : BlockCtx) (sender : Address) : StakeOp → Prop
  | .deposit nodeId role poolId amount delegator =>
    held (ctx.getStake ⟨nodeId, role, poolId, delegator⟩) + amount.val < 2 ^ 128
  | .withdraw .. => True
  | .complete nodeId _ _ unbondId => ∀ e, ctx.getUnbonding nodeId unbondId = some e →
    (ctx.account (e.delegator.getD sender)).balance.val + e.amount.val < 2 ^ 128
  | .redelegate src dst role amount => ∀ d e, drawnEntry ctx src role none sender = some (d, e) →
    held (ctx.getStake ⟨dst, role, none, d⟩) + amount.val < 2 ^ 128

def namedNodes : StakeOp → List NodeId
  | .deposit nodeId .. => [nodeId]
  | .withdraw nodeId .. => [nodeId]
  | .complete nodeId .. => [nodeId]
  | .redelegate src dst .. => [src, dst]

/-- Only entries of the operation's nodes, the sender's account and the next unbonding id change. -/
structure TouchesOnly (ctx ctx' : BlockCtx) (op : StakeOp) (sender : Address) : Prop where
  stakes : ∀ k, k.nodeId ∉ namedNodes op → ctx'.getStake k = ctx.getStake k
  unbondings : ∀ node id, node ∉ namedNodes op → ctx'.getUnbonding node id = ctx.getUnbonding node id
  accounts : ∀ a, a ≠ sender → ctx'.getAccount a = ctx.getAccount a
  rest : ∃ accounts stakes unbondings next, ctx'.commit = { ctx.commit with
    accounts := accounts, stakes := stakes, unbondings := unbondings, metaUnbondId := next }

section

variable {ctx ctx' : BlockCtx} {op : StakeOp} {sender : Address} {height : Height} {o : TxOutcome}

theorem spill_of_lt {n : Nat} (h : n < 2 ^ 128) : spill n = 0 := by
  have hadd := capped_add_spill n
  omega

theorem lostBy_of_fits (hfresh : DrawsFreshId ctx op) (hfit : SumsFit ctx sender op) :
    lostBy ctx op sender = 0 := by
  cases op with
  | deposit nodeId role poolId amount delegator => exact spill_of_lt hfit
  | withdraw nodeId role poolId amount =>
    have hnone : ctx.getUnbonding nodeId ctx.nextUnbondId = none := hfresh
    simp only [lostBy, hnone, Option.elim_none]
  | complete nodeId role poolId unbondId =>
    cases hget : ctx.getUnbonding nodeId unbondId with
    | none => simp only [lostBy, hget, Option.elim_none]
    | some e =>
      simp only [lostBy, hget, Option.elim_some]
      exact spill_of_lt (hfit e hget)
  | redelegate src dst role amount =>
    cases hdrawn : drawnEntry ctx src role none sender with
    | none => simp only [lostBy, hdrawn, Option.elim_none]
    | some p =>
      simp only [lostBy, hdrawn, Option.elim_some]
      exact spill_of_lt (hfit p.1 p.2 hdrawn)

theorem applyStakeOp_stakes (h : applyStakeOp ctx op sender height = .ok (ctx', o)) {k : StakeKey}
    (hk : k.nodeId ∉ namedNodes op) : ctx'.getStake k = ctx.getStake k := by
  cases op with
  | deposit nodeId role poolId amount delegator =>
    rcases applyDeposit_ok h with ⟨rfl, -⟩ | ⟨-, -, balance, -, rfl⟩
    · rfl
    · rw [BlockCtx.getStake_setStake, if_neg]
      · rfl
      · rintro rfl
        exact hk List.mem_cons_self
  | withdraw nodeId role poolId amount =>
    rcases applyWithdraw_ok h with ⟨rfl, -⟩ | ⟨-, d, entry, rest, completesAt, next, -, -, -, -, rfl⟩
    · rfl
    · show (ctx.setStake ⟨nodeId, role, poolId, d⟩ { entry with amount := rest }).getStake k = _
      rw [BlockCtx.getStake_setStake, if_neg]
      rintro rfl
      exact hk List.mem_cons_self
  | complete nodeId role poolId unbondId =>
    rcases applyComplete_ok h with ⟨rfl, -⟩ | ⟨-, entry, -, -, -, rfl⟩
    · rfl
    · rfl
  | redelegate src dst role amount =>
    rcases applyRedelegate_ok h with ⟨rfl, -⟩ | ⟨-, -, d, entry, rest, -, -, rfl⟩
    · rfl
    · rw [BlockCtx.getStake_setStake, if_neg, BlockCtx.getStake_setStake, if_neg]
      · rintro rfl
        exact hk List.mem_cons_self
      · rintro rfl
        exact hk (List.mem_cons_of_mem _ List.mem_cons_self)

theorem getUnbonding_write (k : UnbondKey) (v : Option UnbondingEntry) {node : NodeId} {id : U64}
    (hne : node ≠ k.nodeId) (hwrite : ctx'.commit.unbondings = ctx.commit.unbondings.write k v) :
    ctx'.getUnbonding node id = ctx.getUnbonding node id := by
  rw [BlockCtx.getUnbonding_eq, BlockCtx.getUnbonding_eq, hwrite]
  refine Column.get_write_ne _ ?_ _
  intro h
  rw [h] at hne
  exact hne rfl

theorem applyStakeOp_unbondings (h : applyStakeOp ctx op sender height = .ok (ctx', o)) {node : NodeId}
    {id : U64} (hnode : node ∉ namedNodes op) : ctx'.getUnbonding node id = ctx.getUnbonding node id := by
  cases op with
  | deposit nodeId role poolId amount delegator =>
    rcases applyDeposit_ok h with ⟨rfl, -⟩ | ⟨-, -, balance, -, rfl⟩
    · rfl
    · rfl
  | withdraw nodeId role poolId amount =>
    rcases applyWithdraw_ok h with ⟨rfl, -⟩ | ⟨-, d, entry, rest, completesAt, next, -, -, -, -, rfl⟩
    · rfl
    · exact getUnbonding_write ⟨nodeId, ctx.nextUnbondId⟩ (some ⟨ctx.nextUnbondId, nodeId, role, poolId, d,
        amount, height, completesAt⟩) (List.ne_of_not_mem_cons hnode) rfl
  | complete nodeId role poolId unbondId =>
    rcases applyComplete_ok h with ⟨rfl, -⟩ | ⟨-, entry, -, -, -, rfl⟩
    · rfl
    · exact getUnbonding_write ⟨nodeId, unbondId⟩ none (List.ne_of_not_mem_cons hnode) rfl
  | redelegate src dst role amount =>
    rcases applyRedelegate_ok h with ⟨rfl, -⟩ | ⟨-, -, d, entry, rest, -, -, rfl⟩
    · rfl
    · rfl

/-- A completion pays the entry's delegator, who sent it, or whoever sent it. -/
theorem applyStakeOp_accounts (h : applyStakeOp ctx op sender height = .ok (ctx', o)) {a : Address}
    (ha : a ≠ sender) : ctx'.getAccount a = ctx.getAccount a := by
  cases op with
  | deposit nodeId role poolId amount delegator =>
    rcases applyDeposit_ok h with ⟨rfl, -⟩ | ⟨-, -, balance, -, rfl⟩
    · rfl
    · show (ctx.setAccount sender { ctx.account sender with balance := balance }).getAccount a = _
      rw [BlockCtx.getAccount_setAccount, if_neg (Ne.symm ha)]
  | withdraw nodeId role poolId amount =>
    rcases applyWithdraw_ok h with ⟨rfl, -⟩ | ⟨-, d, entry, rest, completesAt, next, -, -, -, -, rfl⟩
    · rfl
    · rfl
  | complete nodeId role poolId unbondId =>
    rcases applyComplete_ok h with ⟨rfl, -⟩ | ⟨-, entry, -, howner, -, rfl⟩
    · rfl
    · have hpayee : entry.delegator.getD sender = sender := by
        rcases howner with hnone | hown
        · rw [hnone]
          rfl
        · rw [hown]
          rfl
      rw [hpayee]
      show (ctx.creditAddress sender entry.amount).getAccount a = _
      rw [BlockCtx.creditAddress, BlockCtx.getAccount_setAccount, if_neg (Ne.symm ha)]
  | redelegate src dst role amount =>
    rcases applyRedelegate_ok h with ⟨rfl, -⟩ | ⟨-, -, d, entry, rest, -, -, rfl⟩
    · rfl
    · rfl

theorem applyStakeOp_touches (h : applyStakeOp ctx op sender height = .ok (ctx', o)) :
    TouchesOnly ctx ctx' op sender :=
  ⟨fun _ hk => applyStakeOp_stakes h hk, fun _ _ hnode => applyStakeOp_unbondings h hnode,
    fun _ ha => applyStakeOp_accounts h ha, applyStakeOp_columns h⟩

end

/-! ## Runs -/

/-- The unbonding entries a run has created and those it has paid out, each in order. -/
structure Unbonds where
  ctx : BlockCtx
  created : List UnbondingEntry
  paid : List UnbondingEntry

def Unbonds.start (s : State) : Unbonds := ⟨s.beginBlock, [], []⟩

inductive UnbondEvent where
  | op (op : StakeOp) (sender : Address) (height : Height) (outcome : TxOutcome)
  /-- The end of a block, or whatever else leaves the unbonding entries and their counter alone. -/
  | other

/-- The entry that an applied withdrawal leaves under the id it drew. -/
def createdBy (ctx ctx' : BlockCtx) (op : StakeOp) (outcome : TxOutcome) : List UnbondingEntry :=
  match op with
  | .withdraw nodeId .. =>
    if outcome.isApplied then (ctx'.getUnbonding nodeId ctx.nextUnbondId).toList else []
  | _ => []

/-- The entry that an applied completion found. -/
def paidBy (ctx : BlockCtx) (op : StakeOp) (outcome : TxOutcome) : List UnbondingEntry :=
  match op with
  | .complete nodeId _ _ unbondId =>
    if outcome.isApplied then (ctx.getUnbonding nodeId unbondId).toList else []
  | _ => []

def UnbondStep (u : Unbonds) : UnbondEvent → Unbonds → Prop
  | .op op sender height outcome, u' =>
    applyStakeOp u.ctx op sender height = .ok (u'.ctx, outcome) ∧
    u'.created = u.created ++ createdBy u.ctx u'.ctx op outcome ∧
    u'.paid = u.paid ++ paidBy u.ctx op outcome
  | .other, u' =>
    u'.ctx.commit.unbondings = u.ctx.commit.unbondings ∧
    u'.ctx.commit.metaUnbondId = u.ctx.commit.metaUnbondId ∧
    u'.created = u.created ∧ u'.paid = u.paid

theorem unbondStep_of_apply {u : Unbonds} {ctx' : BlockCtx} {o : TxOutcome} (op : StakeOp)
    (sender : Address) (height : Height) (h : applyStakeOp u.ctx op sender height = .ok (ctx', o)) :
    UnbondStep u (.op op sender height o)
      ⟨ctx', u.created ++ createdBy u.ctx ctx' op o, u.paid ++ paidBy u.ctx op o⟩ := ⟨h, rfl, rfl⟩

theorem unbondStep_boundary (u : Unbonds) :
    UnbondStep u .other { u with ctx := u.ctx.commit.beginBlock } := ⟨rfl, rfl, rfl, rfl⟩

/-- What is stored was created under its own key and not paid; ids are drawn upwards, and what was paid
was created. -/
structure Unbonds.Sound (u : Unbonds) : Prop where
  live : ∀ k e, u.ctx.commit.unbondings.get k = some e →
    k = ⟨e.nodeId, e.unbondId⟩ ∧ e ∈ u.created ∧ e ∉ u.paid
  below : ∀ e ∈ u.created, e.unbondId.val < u.ctx.nextUnbondId.val
  distinct : (u.created.map UnbondingEntry.unbondId).Nodup
  once : u.paid.Nodup
  known : u.paid ⊆ u.created

section

variable {u u' : Unbonds} {e : UnbondingEntry}

theorem Unbonds.Sound.start {s : State} (hs : s.unbondings = .empty) : (Unbonds.start s).Sound where
  live k e h := by
    rw [show (Unbonds.start s).ctx.commit.unbondings = s.unbondings from rfl, hs] at h
    cases h
  below := fun _ he => nomatch he
  distinct := .nil
  once := .nil
  known := fun _ he => nomatch he

theorem Unbonds.Sound.congr (hs : u.Sound)
    (hunbondings : u'.ctx.commit.unbondings = u.ctx.commit.unbondings)
    (hnext : u'.ctx.nextUnbondId = u.ctx.nextUnbondId) (hcreated : u'.created = u.created)
    (hpaid : u'.paid = u.paid) : u'.Sound := by
  refine ⟨?_, ?_, ?_, ?_, ?_⟩
  · rw [hunbondings, hcreated, hpaid]
    exact hs.live
  · rw [hcreated, hnext]
    exact hs.below
  · rw [hcreated]
    exact hs.distinct
  · rw [hpaid]
    exact hs.once
  · rw [hpaid, hcreated]
    exact hs.known

/-- The next id is above those of all entries. -/
theorem Unbonds.Sound.fresh (hs : u.Sound) (node : NodeId) :
    u.ctx.getUnbonding node u.ctx.nextUnbondId = none := by
  cases hget : u.ctx.getUnbonding node u.ctx.nextUnbondId with
  | none => rfl
  | some e =>
    rw [BlockCtx.getUnbonding_eq] at hget
    obtain ⟨hkey, hcreated, -⟩ := hs.live _ _ hget
    have hid : u.ctx.nextUnbondId = e.unbondId := congrArg UnbondKey.unbondId hkey
    have hlt := hs.below e hcreated
    rw [hid] at hlt
    exact absurd hlt (lt_irrefl _)

theorem Unbonds.Sound.drawsFreshId (hs : u.Sound) (op : StakeOp) : DrawsFreshId u.ctx op := by
  cases op with
  | deposit nodeId role poolId amount delegator => exact trivial
  | withdraw nodeId role poolId amount => exact hs.fresh nodeId
  | complete nodeId role poolId unbondId => exact trivial
  | redelegate src dst role amount => exact trivial

/-- A withdrawal: one more entry, under the next id. -/
theorem Unbonds.Sound.draw (hs : u.Sound) (hid : e.unbondId = u.ctx.nextUnbondId)
    (hunbondings : u'.ctx.commit.unbondings =
      u.ctx.commit.unbondings.write ⟨e.nodeId, e.unbondId⟩ (some e))
    (hnext : u'.ctx.nextUnbondId.val = u.ctx.nextUnbondId.val + 1)
    (hcreated : u'.created = u.created ++ [e]) (hpaid : u'.paid = u.paid) : u'.Sound := by
  have hnew : ∀ d ∈ u.created, d.unbondId ≠ e.unbondId := by
    intro d hd heq
    have hlt := hs.below d hd
    rw [heq, hid] at hlt
    exact absurd hlt (lt_irrefl _)
  refine ⟨fun k d hget => ?_, fun d hd => ?_, ?_, ?_, ?_⟩
  · rw [hunbondings, Column.get_write] at hget
    rw [hcreated, hpaid]
    split_ifs at hget with hkey
    · obtain rfl := Option.some.inj hget
      exact ⟨hkey.symm, by simp, fun hin => hnew e (hs.known hin) rfl⟩
    · obtain ⟨hk, hin, hout⟩ := hs.live k d hget
      exact ⟨hk, List.mem_append_left _ hin, hout⟩
  · rw [hcreated] at hd
    rw [hnext]
    rcases List.mem_append.mp hd with hd | hd
    · have hlt := hs.below d hd
      omega
    · rw [List.mem_singleton.mp hd, hid]
      omega
  · rw [hcreated, List.map_append]
    refine List.nodup_append.mpr ⟨hs.distinct, List.nodup_singleton _, ?_⟩
    intro i hi i' hi' heq
    obtain ⟨d, hd, rfl⟩ := List.mem_map.mp hi
    exact hnew d hd (heq.trans (List.mem_singleton.mp hi'))
  · rw [hpaid]
    exact hs.once
  · rw [hpaid, hcreated]
    exact fun d hd => List.mem_append_left _ (hs.known hd)

/-- A completion: the entry it found is gone and paid. -/
theorem Unbonds.Sound.payOut {k : UnbondKey} (hs : u.Sound)
    (hget : u.ctx.commit.unbondings.get k = some e)
    (hunbondings : u'.ctx.commit.unbondings = u.ctx.commit.unbondings.write k none)
    (hnext : u'.ctx.nextUnbondId = u.ctx.nextUnbondId) (hcreated : u'.created = u.created)
    (hpaid : u'.paid = u.paid ++ [e]) : u'.Sound := by
  obtain ⟨hkey, hin, hout⟩ := hs.live k e hget
  refine ⟨fun k' d hd => ?_, ?_, ?_, ?_, ?_⟩
  · rw [hunbondings, Column.get_write] at hd
    split_ifs at hd with hsame
    obtain ⟨hk', hin', hout'⟩ := hs.live k' d hd
    rw [hcreated, hpaid]
    refine ⟨hk', hin', fun hmem => ?_⟩
    rcases List.mem_append.mp hmem with hmem | hmem
    · exact hout' hmem
    · rw [List.mem_singleton.mp hmem] at hk'
      exact hsame (hkey.trans hk'.symm)
  · rw [hcreated, hnext]
    exact hs.below
  · rw [hcreated]
    exact hs.distinct
  · rw [hpaid]
    refine List.nodup_append.mpr ⟨hs.once, List.nodup_singleton _, ?_⟩
    intro d hd d' hd' heq
    rw [heq, List.mem_singleton.mp hd'] at hd
    exact hout hd
  · rw [hpaid, hcreated]
    intro d hd
    rcases List.mem_append.mp hd with hd | hd
    · exact hs.known hd
    · rw [List.mem_singleton.mp hd]
      exact hin

theorem createdBy_withdraw (ctx : BlockCtx) (d : Option Address) (entry : StakeEntry) (rest : Amount)
    (completesAt : Height) (next : U64) (role : StakeRole) (poolId : Option PoolId) (nodeId : NodeId)
    (amount : Amount) (height : Height) :
    createdBy ctx (((ctx.setStake ⟨nodeId, role, poolId, d⟩ { entry with amount := rest }).setUnbonding
        nodeId ⟨ctx.nextUnbondId, nodeId, role, poolId, d, amount, height, completesAt⟩).setNextUnbondId next)
      (.withdraw nodeId role poolId amount) (.applied STAKE_OP_GAS) =
      [⟨ctx.nextUnbondId, nodeId, role, poolId, d, amount, height, completesAt⟩] := by
  simp only [createdBy, TxOutcome.isApplied, ↓reduceIte, BlockCtx.getUnbonding_eq,
    BlockCtx.setNextUnbondId_commit, BlockCtx.setUnbonding_commit, Column.get_write_self,
    Option.toList_some]

theorem Unbonds.Sound.step {event : UnbondEvent} (hs : u.Sound) (h : UnbondStep u event u') : u'.Sound := by
  cases event with
  | other =>
    obtain ⟨hunbondings, hcounter, hcreated, hpaid⟩ := h
    refine hs.congr hunbondings ?_ hcreated hpaid
    rw [BlockCtx.nextUnbondId_eq, BlockCtx.nextUnbondId_eq, hcounter]
  | op op sender height outcome =>
    obtain ⟨happly, hcreated, hpaid⟩ := h
    obtain ⟨ctx', created', paid'⟩ := u'
    cases op with
    | deposit nodeId role poolId amount delegator =>
      have hsame : created' = u.created ∧ paid' = u.paid := by
        simpa only [createdBy, paidBy, List.append_nil] using And.intro hcreated hpaid
      rcases applyDeposit_ok happly with ⟨rfl, -⟩ | ⟨-, -, balance, -, rfl⟩
      · exact hs.congr rfl rfl hsame.1 hsame.2
      · exact hs.congr rfl rfl hsame.1 hsame.2
    | withdraw nodeId role poolId amount =>
      have hsame : paid' = u.paid := by simpa only [paidBy, List.append_nil] using hpaid
      rcases applyWithdraw_ok happly with ⟨rfl, ho⟩ | ⟨rfl, d, entry, rest, at', next, -, -, -, hnext, rfl⟩
      · refine hs.congr rfl rfl ?_ hsame
        simpa only [createdBy, ho, Bool.false_eq_true, ↓reduceIte, List.append_nil] using hcreated
      · have hnew := createdBy_withdraw u.ctx d entry rest at' next role poolId nodeId amount height
        exact hs.draw rfl rfl hnext (hcreated.trans (congrArg (u.created ++ ·) hnew)) hsame
    | complete nodeId role poolId unbondId =>
      have hsame : created' = u.created := by simpa only [createdBy, List.append_nil] using hcreated
      rcases applyComplete_ok happly with ⟨rfl, ho⟩ | ⟨rfl, entry, hget, -, -, rfl⟩
      · refine hs.congr rfl rfl hsame ?_
        simpa only [paidBy, ho, Bool.false_eq_true, ↓reduceIte, List.append_nil] using hpaid
      · have hgone : paid' = u.paid ++ [entry] := by
          simpa only [paidBy, TxOutcome.isApplied, ↓reduceIte, hget, Option.toList_some] using hpaid
        rw [BlockCtx.getUnbonding_eq] at hget
        exact hs.payOut hget rfl rfl hsame hgone
    | redelegate src dst role amount =>
      have hsame : created' = u.created ∧ paid' = u.paid := by
        simpa only [createdBy, paidBy, List.append_nil] using And.intro hcreated hpaid
      rcases applyRedelegate_ok happly with ⟨rfl, -⟩ | ⟨-, -, d, entry, rest, -, -, rfl⟩
      · exact hs.congr rfl rfl hsame.1 hsame.2
      · exact hs.congr rfl rfl hsame.1 hsame.2

end

/-! ## The law -/

/-- An applied operation touches only what it names, and where a withdrawal finds nothing under the next
id and no sum saturates it keeps what accounts, stakes and unbonding entries hold together; in every run
from a store without unbonding entries a withdrawal finds nothing there, the created entries have one id
each, and each is paid at most once. -/
theorem stake_operations_conserve :
    (∀ ctx ctx' op sender height gas, applyStakeOp ctx op sender height = .ok (ctx', .applied gas) →
      TouchesOnly ctx ctx' op sender ∧
        (DrawsFreshId ctx op → SumsFit ctx sender op → stakeSupply ctx' = stakeSupply ctx)) ∧
    ∀ s hist u, s.unbondings = .empty → Steps UnbondStep (Unbonds.start s) hist u →
      (∀ op, DrawsFreshId u.ctx op) ∧ (u.created.map UnbondingEntry.unbondId).Nodup ∧
        u.paid.Nodup ∧ u.paid ⊆ u.created := by
  constructor
  · intro ctx ctx' op sender height gas h
    refine ⟨applyStakeOp_touches h, fun hfresh hfit => ?_⟩
    have hsum := applyStakeOp_stakeSupply h
    rw [lostBy_of_fits hfresh hfit] at hsum
    exact hsum
  · intro s hist u hs run
    have hsound : u.Sound :=
      run.invariant Unbonds.Sound (.start hs) fun _ _ _ hsound hstep => hsound.step hstep
    exact ⟨hsound.drawsFreshId, hsound.distinct, hsound.once, hsound.known⟩

/-- A deposit, a withdrawal and, in a later block, its completion. -/
theorem stake_operations_conserve_round_trip :
    (∃ ctx gas, applyStakeOp soleHolder.beginBlock (.deposit 1 .compute none 1000 (some 7)) 7 0 =
        .ok (ctx, .applied gas) ∧ stakeSupply ctx = stakeSupply soleHolder.beginBlock) ∧
      ∃ hist u, hist.length = 4 ∧ Steps UnbondStep (Unbonds.start soleHolder) hist u ∧
        u.created.length = 1 ∧ u.paid.Nodup ∧ u.paid ⊆ u.created := by
  constructor
  · have happly : ∃ ctx gas, applyStakeOp soleHolder.beginBlock (.deposit 1 .compute none 1000 (some 7)) 7 0 =
        .ok (ctx, .applied gas) := ⟨_, _, rfl⟩
    obtain ⟨ctx, gas, h⟩ := happly
    have hfit : held (soleHolder.beginBlock.getStake ⟨1, .compute, none, some 7⟩) +
      (1000 : Amount).val < 2 ^ 128 := by decide
    exact ⟨ctx, gas, h, (stake_operations_conserve.1 _ _ _ _ _ _ h).2 trivial hfit⟩
  · have deposited := Steps.nil.snoc (unbondStep_of_apply (u := Unbonds.start soleHolder)
      (.deposit 1 .compute none 1000 (some 7)) 7 0 rfl)
    have withdrawn := deposited.snoc (unbondStep_of_apply (.withdraw 1 .compute none 1000) 7 10 rfl)
    have committed := withdrawn.snoc (unbondStep_boundary _)
    have run := committed.snoc (unbondStep_of_apply (.complete 1 .compute none 0) 7 1209610 rfl)
    have hlaw := stake_operations_conserve.2 soleHolder _ _ rfl run
    exact ⟨_, _, rfl, run, rfl, hlaw.2.2.1, hlaw.2.2.2⟩

/-- A store in which the counter lags behind an entry. -/
def laggingState : State :=
  { State.empty with
    stakes := Column.empty.insert ⟨1, .compute, none, none⟩ ⟨1, .compute, none, none, 10, 0⟩
    unbondings := Column.empty.insert ⟨1, 0⟩ ⟨0, 1, .compute, none, none, 5, 0, 0⟩ }

/-- The new entry takes the place of the other one, whose five atoms are gone. -/
theorem withdrawal_replaces : ¬ ∀ ctx ctx' op sender height gas,
    applyStakeOp ctx op sender height = .ok (ctx', .applied gas) → SumsFit ctx sender op →
      stakeSupply ctx' = stakeSupply ctx := by
  intro h
  have hsum := h laggingState.beginBlock _ (.withdraw 1 .compute none 10) 7 0 _ rfl trivial
  exact absurd hsum (by decide)

end Arknet.Laws
