import Arknet.Consensus.Run

/-!
The law of a slash. `applySlash_eq_ok` is the whole function as one equation: when it returns, what
it writes, what it reports. The entries come from the committed store, so the sum read through the
context falls by the reported total exactly when the context still agrees with the store on them:
`slash_law_iff`.
-/

namespace Arknet.Laws

open Machine Store Arknet.Chain Arknet.Staking Arknet.Consensus

/-- Every stored entry lies under its own key. -/
structure Keyed (s : State) : Prop where
  stakes : ∀ k e, s.stakes.get k = some e → e.key = k
  unbondings : ∀ k u, s.unbondings.get k = some u → u.unbondId = k.unbondId

theorem penaltyPercent_le (o : Offense) : o.penaltyPercent.val ≤ 100 := by
  cases o <;> decide

/-! ## The two loops -/

/-- The part of an amount that an offense takes. -/
def slashOf (o : Offense) (amount : Amount) : Amount :=
  ⟨amount.val * o.penaltyPercent.val / 100, by
    have h := Nat.mul_le_mul_left amount.val (penaltyPercent_le o)
    have := amount.isLt
    omega⟩

theorem slashOf_le (o : Offense) (amount : Amount) : (slashOf o amount).val ≤ amount.val := by
  have h := Nat.mul_le_mul_left amount.val (penaltyPercent_le o)
  simp only [slashOf]
  omega

/-- The amount an entry keeps. -/
def keeps (o : Offense) (amount : Amount) : Amount := satSub amount (slashOf o amount)

theorem keeps_val (o : Offense) (amount : Amount) :
    (keeps o amount).val + (slashOf o amount).val = amount.val := by
  have := slashOf_le o amount
  simp only [keeps, satSub_val]
  omega

def stakeSlashed (o : Offense) (acc : SlashAcc) (e : StakeEntry) : SlashAcc :=
  if slashOf o e.amount = 0 then acc
  else ⟨acc.ctx.setStake e.key { e with amount := keeps o e.amount },
    satAdd acc.total (slashOf o e.amount), acc.affected + 1⟩

def unbondingSlashed (node : NodeId) (o : Offense) (acc : SlashAcc) (u : UnbondingEntry) : SlashAcc :=
  if slashOf o u.amount = 0 then acc
  else ⟨acc.ctx.setUnbonding node { u with amount := keeps o u.amount },
    satAdd acc.total (slashOf o u.amount), acc.affected + 1⟩

/-- The multiplication by the percentage fits. -/
def Fits (o : Offense) (amount : Amount) : Prop := amount.val * o.penaltyPercent.val < 2 ^ 128

private theorem slash_steps {o : Offense} {amount product slash : Amount}
    (hp : product.val = amount.val * o.penaltyPercent.val) (hs : slash.val = product.val / 100) :
    Fits o amount ∧ slash = slashOf o amount := by
  refine ⟨by have := product.isLt; unfold Fits; omega, Fin.ext ?_⟩
  rw [hs, hp]
  rfl

private theorem keeps_unique {o : Offense} {amount rest : Amount} :
    rest.val + (slashOf o amount).val = amount.val ↔ rest = keeps o amount := by
  have h := keeps_val o amount
  rw [Fin.ext_iff]
  omega

theorem slashStake_eq_ok {o : Offense} (acc : SlashAcc) (e : StakeEntry) (acc' : SlashAcc) :
    slashStake o.penaltyPercent acc e = .ok acc' ↔ Fits o e.amount ∧ acc' = stakeSlashed o acc e := by
  have h100 : (100 : Amount).val = 100 := rfl
  simp only [slashStake, bind_eq_ok, mul_eq_ok, div_eq_ok, h100]
  constructor
  · rintro ⟨p, hp, sl, ⟨-, hs⟩, h⟩
    obtain ⟨hfit, rfl⟩ := slash_steps hp hs
    refine ⟨hfit, ?_⟩
    unfold stakeSlashed
    split at h
    · rename_i hz
      rw [if_pos hz]
      exact (pure_eq_ok.mp h).symm
    · rename_i hz
      simp only [bind_eq_ok, sub_eq_ok, pure_eq_ok] at h
      obtain ⟨rest, hrest, rfl⟩ := h
      rw [if_neg hz, keeps_unique.mp hrest]
  · rintro ⟨hfit, rfl⟩
    refine ⟨⟨_, hfit⟩, rfl, slashOf o e.amount, ⟨by decide, rfl⟩, ?_⟩
    unfold stakeSlashed
    split
    · rfl
    · simp only [bind_eq_ok, sub_eq_ok, pure_eq_ok]
      exact ⟨keeps o e.amount, keeps_val o e.amount, rfl⟩

theorem slashUnbonding_eq_ok (node : NodeId) {o : Offense} (acc : SlashAcc) (u : UnbondingEntry)
    (acc' : SlashAcc) : slashUnbonding node o.penaltyPercent acc u = .ok acc' ↔
      Fits o u.amount ∧ acc' = unbondingSlashed node o acc u := by
  have h100 : (100 : Amount).val = 100 := rfl
  simp only [slashUnbonding, bind_eq_ok, mul_eq_ok, div_eq_ok, h100]
  constructor
  · rintro ⟨p, hp, sl, ⟨-, hs⟩, h⟩
    obtain ⟨hfit, rfl⟩ := slash_steps hp hs
    refine ⟨hfit, ?_⟩
    unfold unbondingSlashed
    split at h
    · rename_i hz
      rw [if_pos hz]
      exact (pure_eq_ok.mp h).symm
    · rename_i hz
      simp only [bind_eq_ok, sub_eq_ok, pure_eq_ok] at h
      obtain ⟨rest, hrest, rfl⟩ := h
      rw [if_neg hz, keeps_unique.mp hrest]
  · rintro ⟨hfit, rfl⟩
    refine ⟨⟨_, hfit⟩, rfl, slashOf o u.amount, ⟨by decide, rfl⟩, ?_⟩
    unfold unbondingSlashed
    split
    · rfl
    · simp only [bind_eq_ok, sub_eq_ok, pure_eq_ok]
      exact ⟨keeps o u.amount, keeps_val o u.amount, rfl⟩

/-! ## What the loops write -/

section

variable (s : State) (node : NodeId) (role : StakeRole) (o : Offense)

/-- The committed stake entries a slash takes something from. -/
def slashedStakes : List StakeEntry :=
  (slashableStakes s node role).filter (fun e => slashOf o e.amount ≠ 0)

def slashedUnbondings : List UnbondingEntry :=
  (slashableUnbondings s node role).filter (fun u => slashOf o u.amount ≠ 0)

def stakeWrites : List (StakeKey × Option StakeEntry) :=
  (slashedStakes s node role o).map (fun e =>
    (e.key, StakeEntry.stored { e with amount := keeps o e.amount }))

def unbondingWrites : List (UnbondKey × Option UnbondingEntry) :=
  (slashedUnbondings s node role o).map (fun u =>
    (⟨node, u.unbondId⟩, some { u with amount := keeps o u.amount }))

/-- What a slash takes in all. -/
def slashTotal : Nat :=
  ((slashedStakes s node role o).map (fun e => (slashOf o e.amount).val)).sum +
    ((slashedUnbondings s node role o).map (fun u => (slashOf o u.amount).val)).sum

/-- No product overflows. -/
structure SlashFits : Prop where
  stakes : ∀ e ∈ slashableStakes s node role, Fits o e.amount
  unbondings : ∀ u ∈ slashableUnbondings s node role, Fits o u.amount
  total : slashTotal s node role o * 90 < 2 ^ 128

end

private theorem stakes_loop (o : Offense) (es : List StakeEntry) (acc : SlashAcc) :
    (es.foldl (stakeSlashed o) acc).ctx.commit = { acc.ctx.commit with
      stakes := acc.ctx.commit.stakes.writeAll ((es.filter (fun e => slashOf o e.amount ≠ 0)).map
        (fun e => (e.key, StakeEntry.stored { e with amount := keeps o e.amount }))) } ∧
    (es.foldl (stakeSlashed o) acc).total.val = min (acc.total.val +
      ((es.filter (fun e => slashOf o e.amount ≠ 0)).map
        (fun e => (slashOf o e.amount).val)).sum) (2 ^ 128 - 1) ∧
    (es.foldl (stakeSlashed o) acc).affected =
      acc.affected + (es.filter (fun e => slashOf o e.amount ≠ 0)).length := by
  induction es generalizing acc with
  | nil =>
    have := acc.total.isLt
    refine ⟨rfl, ?_, rfl⟩
    simp only [List.foldl_nil, List.filter_nil, List.map_nil, List.sum_nil]
    omega
  | cons e es ih =>
    obtain ⟨h₁, h₂, h₃⟩ := ih (stakeSlashed o acc e)
    rw [List.foldl_cons, h₁, h₂, h₃]
    by_cases hz : slashOf o e.amount = 0
    · have hacc : stakeSlashed o acc e = acc := by simp [stakeSlashed, hz]
      rw [hacc, List.filter_cons_of_neg (by simp [hz])]
      exact ⟨rfl, rfl, rfl⟩
    · have hacc : stakeSlashed o acc e = ⟨acc.ctx.setStake e.key { e with amount := keeps o e.amount },
          satAdd acc.total (slashOf o e.amount), acc.affected + 1⟩ := by simp [stakeSlashed, hz]
      rw [hacc, List.filter_cons_of_pos (by simp [hz])]
      simp only [List.map_cons, List.sum_cons, List.length_cons, Column.writeAll_cons,
        BlockCtx.setStake_commit, satAdd_val]
      exact ⟨trivial, by omega, by omega⟩

private theorem unbondings_loop (node : NodeId) (o : Offense) (us : List UnbondingEntry)
    (acc : SlashAcc) :
    (us.foldl (unbondingSlashed node o) acc).ctx.commit = { acc.ctx.commit with
      unbondings := acc.ctx.commit.unbondings.writeAll ((us.filter (fun u => slashOf o u.amount ≠ 0)).map
        (fun u => (⟨node, u.unbondId⟩, some { u with amount := keeps o u.amount }))) } ∧
    (us.foldl (unbondingSlashed node o) acc).total.val = min (acc.total.val +
      ((us.filter (fun u => slashOf o u.amount ≠ 0)).map
        (fun u => (slashOf o u.amount).val)).sum) (2 ^ 128 - 1) ∧
    (us.foldl (unbondingSlashed node o) acc).affected =
      acc.affected + (us.filter (fun u => slashOf o u.amount ≠ 0)).length := by
  induction us generalizing acc with
  | nil =>
    have := acc.total.isLt
    refine ⟨rfl, ?_, rfl⟩
    simp only [List.foldl_nil, List.filter_nil, List.map_nil, List.sum_nil]
    omega
  | cons u us ih =>
    obtain ⟨h₁, h₂, h₃⟩ := ih (unbondingSlashed node o acc u)
    rw [List.foldl_cons, h₁, h₂, h₃]
    by_cases hz : slashOf o u.amount = 0
    · have hacc : unbondingSlashed node o acc u = acc := by simp [unbondingSlashed, hz]
      rw [hacc, List.filter_cons_of_neg (by simp [hz])]
      exact ⟨rfl, rfl, rfl⟩
    · have hacc : unbondingSlashed node o acc u =
          ⟨acc.ctx.setUnbonding node { u with amount := keeps o u.amount },
            satAdd acc.total (slashOf o u.amount), acc.affected + 1⟩ := by simp [unbondingSlashed, hz]
      rw [hacc, List.filter_cons_of_pos (by simp [hz])]
      simp only [List.map_cons, List.sum_cons, List.length_cons, Column.writeAll_cons,
        BlockCtx.setUnbonding_commit, satAdd_val]
      exact ⟨trivial, by omega, by omega⟩

/-- The context after the two loops of a slash. -/
def slashLoops (ctx : BlockCtx) (node : NodeId) (role : StakeRole) (o : Offense) : SlashAcc :=
  (slashableUnbondings ctx.state node role).foldl (unbondingSlashed node o)
    ((slashableStakes ctx.state node role).foldl (stakeSlashed o) ⟨ctx, 0, 0⟩)

section

variable (ctx : BlockCtx) (node : NodeId) (role : StakeRole) (o : Offense)

theorem slashLoops_commit : (slashLoops ctx node role o).ctx.commit = { ctx.commit with
    stakes := ctx.commit.stakes.writeAll (stakeWrites ctx.state node role o)
    unbondings := ctx.commit.unbondings.writeAll (unbondingWrites ctx.state node role o) } := by
  unfold slashLoops
  rw [(unbondings_loop node o _ _).1, (stakes_loop o _ _).1]
  rfl

theorem slashLoops_total :
    (slashLoops ctx node role o).total.val = min (slashTotal ctx.state node role o) (2 ^ 128 - 1) := by
  unfold slashLoops
  rw [(unbondings_loop node o _ _).2.1, (stakes_loop o _ _).2.1]
  have hzero : (0 : Amount).val = 0 := rfl
  simp only [slashTotal, slashedStakes, slashedUnbondings, hzero]
  omega

/-- The two credits, as numbers. -/
def reporterShare (total : Nat) : Nat := total * 5 / 100

def treasuryShare (total : Nat) : Nat := total - total * 90 / 100 - total * 5 / 100

/-- A slash returns exactly when its products fit, and then does this. -/
theorem applySlash_eq_ok (reporter treasury : Address) (ctx' : BlockCtx) (report : SlashReport) :
    applySlash ctx node role o reporter treasury = .ok (ctx', report) ↔
      SlashFits ctx.state node role o ∧
      report.totalSlashed.val = slashTotal ctx.state node role o ∧
      report.burned.val = slashTotal ctx.state node role o * 90 / 100 ∧
      report.toReporter.val = reporterShare (slashTotal ctx.state node role o) ∧
      report.toTreasury.val = treasuryShare (slashTotal ctx.state node role o) ∧
      report.entriesAffected = (slashLoops ctx node role o).affected ∧
      ctx' = ((slashLoops ctx node role o).ctx.creditPositive reporter report.toReporter).creditPositive
        treasury report.toTreasury := by
  have htotal := slashLoops_total ctx node role o
  have h90 : BURN_PERCENT.val = 90 := rfl
  have h5 : REPORTER_PERCENT.val = 5 := rfl
  have h100 : (100 : Amount).val = 100 := rfl
  simp only [applySlash, bind_eq_ok, foldlM_eq_ok slashStake_eq_ok,
    foldlM_eq_ok (slashUnbonding_eq_ok node)]
  constructor
  · rintro ⟨acc₁, ⟨hs, rfl⟩, acc, ⟨hu, hacc⟩, h⟩
    obtain rfl : acc = slashLoops ctx node role o := hacc
    simp only [mul_eq_ok, div_eq_ok, add_eq_ok, pure_eq_ok, Prod.mk.injEq, h90, h5, h100] at h
    obtain ⟨p, hp, b, ⟨-, hb⟩, q, hq, r, ⟨-, hr⟩, out, hout, rfl, rfl⟩ := h
    have hlt := p.isLt
    have hT : (slashLoops ctx node role o).total.val = slashTotal ctx.state node role o := by omega
    refine ⟨⟨hs, hu, by omega⟩, hT, ?_, ?_, ?_, rfl, rfl⟩
    · simp only
      omega
    · simp only [reporterShare]
      omega
    · simp only [satSub_val, treasuryShare]
      omega
  · rintro ⟨⟨hs, hu, hfit⟩, hrep, hb, hr, ht, haff, rfl⟩
    refine ⟨_, ⟨hs, rfl⟩, slashLoops ctx node role o, ⟨hu, rfl⟩, ?_⟩
    have hT : (slashLoops ctx node role o).total.val = slashTotal ctx.state node role o := by omega
    simp only [mul_eq_ok, div_eq_ok, add_eq_ok, pure_eq_ok, Prod.mk.injEq, h90, h5, h100]
    simp only [reporterShare] at hr
    simp only [treasuryShare] at ht
    refine ⟨⟨_, hfit⟩, by simp only [hT], report.burned, ⟨by decide, hb⟩,
      ⟨slashTotal ctx.state node role o * 5, by omega⟩, by simp only [hT],
      report.toReporter, ⟨by decide, hr⟩,
      ⟨report.burned.val + report.toReporter.val, by omega⟩, rfl, ?_, ?_⟩
    · have htre : satSub (slashLoops ctx node role o).total
          ⟨report.burned.val + report.toReporter.val, by omega⟩ = report.toTreasury := by
        apply Fin.ext
        simp only [satSub_val]
        omega
      rw [htre]
    · obtain ⟨tot, bur, rep, tre, aff⟩ := report
      simp only at hrep hb hr ht haff ⊢
      congr 1
      · exact Fin.ext (by omega)
      · apply Fin.ext
        simp only [satSub_val]
        omega
      · exact haff.symm

end

/-! ## The entries of a node -/

section

variable {s : State} {node : NodeId} {role : StakeRole} {o : Offense}

theorem mem_slashableStakes (hk : Keyed s) {e : StakeEntry} (h : e ∈ slashableStakes s node role) :
    s.stakes.get e.key = some e ∧ e.nodeId = node ∧ e.role = role := by
  simp only [slashableStakes, State.iterStakesForNode, List.mem_filter, List.mem_map,
    decide_eq_true_eq] at h
  obtain ⟨⟨⟨k, e'⟩, hmem, rfl⟩, hrole⟩ := h
  obtain ⟨hget, hnode⟩ := (Column.mem_scan StakeKey.nodeId_monotone).mp hmem
  have hkey := hk.stakes k e' hget
  simp only
  rw [hkey]
  exact ⟨hget, by rw [← hnode, ← hkey]; rfl, hrole⟩

theorem mem_slashableUnbondings (hk : Keyed s) {u : UnbondingEntry}
    (h : u ∈ slashableUnbondings s node role) :
    s.unbondings.get ⟨node, u.unbondId⟩ = some u ∧ u.role = role := by
  simp only [slashableUnbondings, State.iterUnbondingsForNode, List.mem_filter, List.mem_map,
    Bool.and_eq_true, decide_eq_true_eq] at h
  obtain ⟨⟨⟨k, u'⟩, hmem, rfl⟩, hrole, -⟩ := h
  obtain ⟨hget, hnode⟩ := (Column.mem_scan UnbondKey.nodeId_monotone).mp hmem
  have hid := hk.unbondings k u' hget
  simp only
  rw [hid, ← hnode]
  exact ⟨hget, hrole⟩

theorem stakeWrites_distinct (node : NodeId) (role : StakeRole) (o : Offense) (hk : Keyed s) :
    (stakeWrites s node role o).Pairwise (fun a b => a.1 ≠ b.1) := by
  unfold stakeWrites slashedStakes slashableStakes State.iterStakesForNode
  rw [Column.scan_eq_filter _ StakeKey.nodeId_monotone, List.pairwise_map]
  refine List.Pairwise.filter _ (List.Pairwise.filter _ ?_)
  rw [List.pairwise_map]
  refine List.Pairwise.imp_of_mem (fun {a b} ha hb hlt => ?_) (s.stakes.sorted.filter _)
  have hkey : ∀ c ∈ s.stakes.entries, c.2.key = c.1 :=
    fun c hc => hk.stakes c.1 c.2 (Column.get_eq_some.mpr hc)
  rw [hkey a (List.mem_filter.mp ha).1, hkey b (List.mem_filter.mp hb).1]
  exact ne_of_lt hlt

theorem unbondingWrites_distinct (node : NodeId) (role : StakeRole) (o : Offense) (hk : Keyed s) :
    (unbondingWrites s node role o).Pairwise (fun a b => a.1 ≠ b.1) := by
  unfold unbondingWrites slashedUnbondings slashableUnbondings State.iterUnbondingsForNode
  rw [Column.scan_eq_filter _ UnbondKey.nodeId_monotone, List.pairwise_map]
  refine List.Pairwise.filter _ (List.Pairwise.filter _ ?_)
  rw [List.pairwise_map]
  refine List.Pairwise.imp_of_mem (fun {a b} ha hb hlt => ?_) (s.unbondings.sorted.filter _)
  have hkey : ∀ c ∈ s.unbondings.entries, c.1.nodeId = node →
      (⟨node, c.2.unbondId⟩ : UnbondKey) = c.1 := by
    intro c hc hnode
    rw [hk.unbondings c.1 c.2 (Column.get_eq_some.mpr hc), ← hnode]
  obtain ⟨ha, hna⟩ := List.mem_filter.mp ha
  obtain ⟨hb, hnb⟩ := List.mem_filter.mp hb
  rw [hkey a ha (of_decide_eq_true hna), hkey b hb (of_decide_eq_true hnb)]
  exact ne_of_lt hlt

theorem mem_slashedStakes (hk : Keyed s) {e : StakeEntry} (h : e ∈ slashedStakes s node role o) :
    s.stakes.get e.key = some e ∧ e.nodeId = node ∧ e.role = role :=
  mem_slashableStakes hk (List.mem_filter.mp h).1

theorem mem_slashedUnbondings (hk : Keyed s) {u : UnbondingEntry}
    (h : u ∈ slashedUnbondings s node role o) :
    s.unbondings.get ⟨node, u.unbondId⟩ = some u ∧ u.role = role :=
  mem_slashableUnbondings hk (List.mem_filter.mp h).1

end

private theorem sum_keeps {α : Type} (o : Offense) (amount : α → Amount) (xs : List α) :
    (xs.map (fun x => (keeps o (amount x)).val)).sum + (xs.map (fun x => (slashOf o (amount x)).val)).sum =
      (xs.map (fun x => (amount x).val)).sum := by
  induction xs with
  | nil => rfl
  | cons x xs ih =>
    have := keeps_val o (amount x)
    simp only [List.map_cons, List.sum_cons]
    omega

/-! ## Holdings of a node and role -/

def stakeAmount (s : State) (k : StakeKey) : Nat := (s.stakes.get k).elim 0 (fun e => e.amount.val)

def unbondingAmount (s : State) (k : UnbondKey) : Nat :=
  (s.unbondings.get k).elim 0 (fun u => u.amount.val)

/-- What an unbonding record counts for a role. -/
def rolePart (role : StakeRole) (u : UnbondingEntry) : Nat := if u.role = role then u.amount.val else 0

def stakeHolding (s : State) (node : NodeId) (role : StakeRole) : Nat :=
  s.stakes.total (fun k e => if k.nodeId = node ∧ k.role = role then e.amount.val else 0)

def unbondingHolding (s : State) (node : NodeId) (role : StakeRole) : Nat :=
  s.unbondings.total (fun k u => if k.nodeId = node then rolePart role u else 0)

/-- The stake and unbonding entries of a node under a role, summed. -/
def nodeHoldings (s : State) (node : NodeId) (role : StakeRole) : Nat :=
  stakeHolding s node role + unbondingHolding s node role

section

variable {ctx : BlockCtx} {node : NodeId} {role : StakeRole} {o : Offense}

theorem stakeHolding_slashLoops (node : NodeId) (role : StakeRole) (o : Offense) (hk : Keyed ctx.state) :
    stakeHolding (slashLoops ctx node role o).ctx.commit node role +
        ((slashedStakes ctx.state node role o).map (fun e => stakeAmount ctx.commit e.key)).sum =
      stakeHolding ctx.commit node role +
        ((slashedStakes ctx.state node role o).map (fun e => (keeps o e.amount).val)).sum := by
  have h := Column.total_writeAll ctx.commit.stakes
    (fun k e => if k.nodeId = node ∧ k.role = role then e.amount.val else 0)
    (stakeWrites_distinct node role o hk)
  simp only [stakeWrites, List.map_map] at h
  have hold : (slashedStakes ctx.state node role o).map ((fun w : StakeKey × Option StakeEntry =>
      Column.part (fun k (e : StakeEntry) => if k.nodeId = node ∧ k.role = role then e.amount.val else 0)
        w.1 (ctx.commit.stakes.get w.1)) ∘
        fun e => (e.key, StakeEntry.stored { e with amount := keeps o e.amount })) =
      (slashedStakes ctx.state node role o).map (fun e => stakeAmount ctx.commit e.key) := by
    refine List.map_congr_left (fun e he => ?_)
    obtain ⟨-, hnode, hrole⟩ := mem_slashedStakes hk he
    simp only [Function.comp_apply, stakeAmount]
    cases ctx.commit.stakes.get e.key with
    | none => rfl
    | some b => simp [StakeEntry.key, hnode, hrole]
  have hnew : (slashedStakes ctx.state node role o).map ((fun w : StakeKey × Option StakeEntry =>
      Column.part (fun k (e : StakeEntry) => if k.nodeId = node ∧ k.role = role then e.amount.val else 0)
        w.1 w.2) ∘ fun e => (e.key, StakeEntry.stored { e with amount := keeps o e.amount })) =
      (slashedStakes ctx.state node role o).map (fun e => (keeps o e.amount).val) := by
    refine List.map_congr_left (fun e he => ?_)
    obtain ⟨-, hnode, hrole⟩ := mem_slashedStakes hk he
    by_cases hz : keeps o e.amount = 0
    · simp [StakeEntry.stored, StakeEntry.isEmpty, hz]
    · simp [StakeEntry.stored, StakeEntry.isEmpty, hz, StakeEntry.key, hnode, hrole]
  rw [hold, hnew] at h
  unfold stakeHolding
  rw [slashLoops_commit]
  exact h

theorem unbondingHolding_slashLoops (node : NodeId) (role : StakeRole) (o : Offense)
    (hk : Keyed ctx.state) :
    unbondingHolding (slashLoops ctx node role o).ctx.commit node role +
        ((slashedUnbondings ctx.state node role o).map (fun u =>
          (ctx.commit.unbondings.get ⟨node, u.unbondId⟩).elim 0 (rolePart role))).sum =
      unbondingHolding ctx.commit node role +
        ((slashedUnbondings ctx.state node role o).map (fun u => (keeps o u.amount).val)).sum := by
  have h := Column.total_writeAll ctx.commit.unbondings
    (fun k u => if k.nodeId = node then rolePart role u else 0)
    (unbondingWrites_distinct node role o hk)
  simp only [unbondingWrites, List.map_map] at h
  have hold : (slashedUnbondings ctx.state node role o).map ((fun w : UnbondKey × Option UnbondingEntry =>
      Column.part (fun k u => if k.nodeId = node then rolePart role u else 0) w.1
        (ctx.commit.unbondings.get w.1)) ∘
        fun u => (⟨node, u.unbondId⟩, some { u with amount := keeps o u.amount })) =
      (slashedUnbondings ctx.state node role o).map (fun u =>
        (ctx.commit.unbondings.get ⟨node, u.unbondId⟩).elim 0 (rolePart role)) := by
    refine List.map_congr_left (fun u _ => ?_)
    simp only [Function.comp_apply]
    cases ctx.commit.unbondings.get ⟨node, u.unbondId⟩ with
    | none => rfl
    | some b => simp
  have hnew : (slashedUnbondings ctx.state node role o).map ((fun w : UnbondKey × Option UnbondingEntry =>
      Column.part (fun k u => if k.nodeId = node then rolePart role u else 0) w.1 w.2) ∘
        fun u => (⟨node, u.unbondId⟩, some { u with amount := keeps o u.amount })) =
      (slashedUnbondings ctx.state node role o).map (fun u => (keeps o u.amount).val) := by
    refine List.map_congr_left (fun u hu => ?_)
    obtain ⟨-, hrole⟩ := mem_slashedUnbondings hk hu
    simp [rolePart, hrole]
  rw [hold, hnew] at h
  unfold unbondingHolding
  rw [slashLoops_commit]
  exact h

/-- The credits leave stakes and unbondings alone. -/
theorem applySlash_columns {reporter treasury : Address} {ctx' : BlockCtx} {report : SlashReport}
    (h : applySlash ctx node role o reporter treasury = .ok (ctx', report)) :
    ctx'.commit.stakes = ctx.commit.stakes.writeAll (stakeWrites ctx.state node role o) ∧
      ctx'.commit.unbondings =
        ctx.commit.unbondings.writeAll (unbondingWrites ctx.state node role o) := by
  obtain ⟨-, -, -, -, -, -, rfl⟩ := (applySlash_eq_ok ctx node role o reporter treasury _ _).mp h
  obtain ⟨a₁, h₁⟩ := (slashLoops ctx node role o).ctx.creditPositive_commit reporter report.toReporter
  obtain ⟨a₂, h₂⟩ := ((slashLoops ctx node role o).ctx.creditPositive reporter
    report.toReporter).creditPositive_commit treasury report.toTreasury
  rw [h₂, h₁, slashLoops_commit]
  exact ⟨rfl, rfl⟩

/-! ## The law -/

/-- Read through the context, the entries that are slashed still hold their committed amounts in
all, and each at least what the slash leaves of it. -/
structure Current (ctx : BlockCtx) (node : NodeId) (role : StakeRole) (o : Offense) : Prop where
  stakes : ∀ e ∈ slashedStakes ctx.state node role o,
    (keeps o e.amount).val ≤ stakeAmount ctx.commit e.key
  unbondings : ∀ u ∈ slashedUnbondings ctx.state node role o,
    ∃ b, ctx.commit.unbondings.get ⟨node, u.unbondId⟩ = some b ∧ (keeps o u.amount).val ≤ b.amount.val
  total : ((slashedStakes ctx.state node role o).map (fun e => stakeAmount ctx.commit e.key)).sum +
      ((slashedUnbondings ctx.state node role o).map (fun u =>
        (ctx.commit.unbondings.get ⟨node, u.unbondId⟩).elim 0 (rolePart role))).sum =
    ((slashedStakes ctx.state node role o).map (fun e => e.amount.val)).sum +
      ((slashedUnbondings ctx.state node role o).map (fun u => u.amount.val)).sum

/-- What the two shares add to an account. -/
def slashCredit (reporter treasury : Address) (total : Nat) (a : Address) : Nat :=
  (if reporter = a then reporterShare total else 0) + (if treasury = a then treasuryShare total else 0)

/-- The two credited balances stay within the word. -/
def CreditsFit (ctx : BlockCtx) (reporter treasury : Address) (total : Nat) : Prop :=
  ∀ a, (ctx.account a).balance.val + slashCredit reporter treasury total a < 2 ^ 128

instance (o : Offense) (amount : Amount) : Decidable (Fits o amount) :=
  inferInstanceAs (Decidable (_ < _))

/-- What a slash promises. -/
structure SlashLaw (ctx ctx' : BlockCtx) (node : NodeId) (role : StakeRole)
    (reporter treasury : Address) (report : SlashReport) : Prop where
  total : nodeHoldings ctx'.commit node role + report.totalSlashed.val =
    nodeHoldings ctx.commit node role
  stakes : ∀ k, stakeAmount ctx'.commit k ≤ stakeAmount ctx.commit k ∧
    (ctx.commit.stakes.get k = none → ctx'.commit.stakes.get k = none)
  unbondings : ∀ k, unbondingAmount ctx'.commit k ≤ unbondingAmount ctx.commit k ∧
    (ctx.commit.unbondings.get k = none → ctx'.commit.unbondings.get k = none)
  split : report.burned.val + report.toReporter.val + report.toTreasury.val = report.totalSlashed.val
  credits : ∀ a, (ctx'.account a).balance.val = (ctx.account a).balance.val +
    (if reporter = a then report.toReporter.val else 0) +
    (if treasury = a then report.toTreasury.val else 0) ∧ (ctx'.account a).nonce = (ctx.account a).nonce

theorem account_creditPositive (ctx : BlockCtx) (a : Address) (amount : Amount) (b : Address) :
    ((ctx.creditPositive a amount).account b).balance.val =
        min ((ctx.account b).balance.val + if a = b then amount.val else 0) (2 ^ 128 - 1) ∧
      ((ctx.creditPositive a amount).account b).nonce = (ctx.account b).nonce := by
  have hlt := (ctx.account b).balance.isLt
  unfold BlockCtx.creditPositive
  split
  · rw [BlockCtx.account_creditAddress]
    split
    · rename_i h
      subst h
      exact ⟨rfl, rfl⟩
    · exact ⟨by omega, rfl⟩
  · rename_i hz
    have hz' : amount.val = 0 := by
      have := not_lt.mp hz
      exact Nat.le_zero.mp this
    refine ⟨?_, rfl⟩
    split <;> omega

theorem account_slashLoops (ctx : BlockCtx) (node : NodeId) (role : StakeRole) (o : Offense)
    (a : Address) : (slashLoops ctx node role o).ctx.account a = ctx.account a := by
  rw [BlockCtx.account_eq, BlockCtx.account_eq, slashLoops_commit]

theorem account_applySlash {reporter treasury : Address} {ctx' : BlockCtx} {report : SlashReport}
    (h : applySlash ctx node role o reporter treasury = .ok (ctx', report)) (a : Address) :
    (ctx'.account a).balance.val = min ((ctx.account a).balance.val +
        (if reporter = a then report.toReporter.val else 0) +
        (if treasury = a then report.toTreasury.val else 0)) (2 ^ 128 - 1) ∧
      (ctx'.account a).nonce = (ctx.account a).nonce := by
  obtain ⟨-, -, -, -, -, -, rfl⟩ := (applySlash_eq_ok ctx node role o reporter treasury _ _).mp h
  obtain ⟨hb₂, hn₂⟩ := account_creditPositive ((slashLoops ctx node role o).ctx.creditPositive reporter
    report.toReporter) treasury report.toTreasury a
  obtain ⟨hb₁, hn₁⟩ := account_creditPositive (slashLoops ctx node role o).ctx reporter
    report.toReporter a
  rw [account_slashLoops] at hb₁ hn₁
  exact ⟨by omega, hn₂.trans hn₁⟩

theorem nodeHoldings_applySlash (hk : Keyed ctx.state) {reporter treasury : Address}
    {ctx' : BlockCtx} {report : SlashReport}
    (h : applySlash ctx node role o reporter treasury = .ok (ctx', report)) :
    nodeHoldings ctx'.commit node role + report.totalSlashed.val +
        (((slashedStakes ctx.state node role o).map (fun e => stakeAmount ctx.commit e.key)).sum +
          ((slashedUnbondings ctx.state node role o).map (fun u =>
            (ctx.commit.unbondings.get ⟨node, u.unbondId⟩).elim 0 (rolePart role))).sum) =
      nodeHoldings ctx.commit node role +
        (((slashedStakes ctx.state node role o).map (fun e => e.amount.val)).sum +
          ((slashedUnbondings ctx.state node role o).map (fun u => u.amount.val)).sum) := by
  obtain ⟨-, htotal, -⟩ := (applySlash_eq_ok ctx node role o reporter treasury _ _).mp h
  obtain ⟨hst, hun⟩ := applySlash_columns h
  have h₁ := stakeHolding_slashLoops node role o hk
  have h₂ := unbondingHolding_slashLoops node role o hk
  have h₃ := sum_keeps o StakeEntry.amount (slashedStakes ctx.state node role o)
  have h₄ := sum_keeps o UnbondingEntry.amount (slashedUnbondings ctx.state node role o)
  have e₁ : stakeHolding ctx'.commit node role =
      stakeHolding (slashLoops ctx node role o).ctx.commit node role := by
    unfold stakeHolding
    rw [hst, slashLoops_commit]
  have e₂ : unbondingHolding ctx'.commit node role =
      unbondingHolding (slashLoops ctx node role o).ctx.commit node role := by
    unfold unbondingHolding
    rw [hun, slashLoops_commit]
  simp only [nodeHoldings, slashTotal] at htotal ⊢
  omega

/-- Each stake entry after a slash: written when it was slashed, else as before. -/
theorem stakes_applySlash (hk : Keyed ctx.state) {reporter treasury : Address}
    {ctx' : BlockCtx} {report : SlashReport}
    (h : applySlash ctx node role o reporter treasury = .ok (ctx', report)) (k : StakeKey) :
    (∃ e ∈ slashedStakes ctx.state node role o, e.key = k ∧
      ctx'.commit.stakes.get k = StakeEntry.stored { e with amount := keeps o e.amount }) ∨
    ((∀ e ∈ slashedStakes ctx.state node role o, e.key ≠ k) ∧
      ctx'.commit.stakes.get k = ctx.commit.stakes.get k) := by
  obtain ⟨hst, -⟩ := applySlash_columns h
  by_cases hmem : ∃ e ∈ slashedStakes ctx.state node role o, e.key = k
  · obtain ⟨e, he, rfl⟩ := hmem
    refine .inl ⟨e, he, rfl, ?_⟩
    rw [hst]
    exact Column.get_writeAll_of_mem _ (stakeWrites_distinct node role o hk) (List.mem_map.mpr ⟨e, he, rfl⟩)
  · have hne : ∀ e ∈ slashedStakes ctx.state node role o, e.key ≠ k :=
      fun e he hek => hmem ⟨e, he, hek⟩
    refine .inr ⟨hne, ?_⟩
    rw [hst]
    refine Column.get_writeAll_of_notMem _ (fun w hw => ?_)
    obtain ⟨e, he, rfl⟩ := List.mem_map.mp hw
    exact hne e he

theorem unbondings_applySlash (hk : Keyed ctx.state) {reporter treasury : Address}
    {ctx' : BlockCtx} {report : SlashReport}
    (h : applySlash ctx node role o reporter treasury = .ok (ctx', report)) (k : UnbondKey) :
    (∃ u ∈ slashedUnbondings ctx.state node role o, ⟨node, u.unbondId⟩ = k ∧
      ctx'.commit.unbondings.get k = some { u with amount := keeps o u.amount }) ∨
    ((∀ u ∈ slashedUnbondings ctx.state node role o, ⟨node, u.unbondId⟩ ≠ k) ∧
      ctx'.commit.unbondings.get k = ctx.commit.unbondings.get k) := by
  obtain ⟨-, hun⟩ := applySlash_columns h
  by_cases hmem : ∃ u ∈ slashedUnbondings ctx.state node role o, (⟨node, u.unbondId⟩ : UnbondKey) = k
  · obtain ⟨u, hu, rfl⟩ := hmem
    refine .inl ⟨u, hu, rfl, ?_⟩
    rw [hun]
    exact Column.get_writeAll_of_mem _ (unbondingWrites_distinct node role o hk) (List.mem_map.mpr ⟨u, hu, rfl⟩)
  · have hne : ∀ u ∈ slashedUnbondings ctx.state node role o, (⟨node, u.unbondId⟩ : UnbondKey) ≠ k :=
      fun u hu huk => hmem ⟨u, hu, huk⟩
    refine .inr ⟨hne, ?_⟩
    rw [hun]
    refine Column.get_writeAll_of_notMem _ (fun w hw => ?_)
    obtain ⟨u, hu, rfl⟩ := List.mem_map.mp hw
    exact hne u hu

theorem stored_amount (e : StakeEntry) : e.stored.elim 0 (fun e => e.amount.val) = e.amount.val := by
  unfold StakeEntry.stored StakeEntry.isEmpty
  split
  · rename_i hz
    simp only [decide_eq_true_eq] at hz
    rw [hz]
    rfl
  · rfl

/-- A slash that obeys its law ran on a current context. -/
theorem current_of_law (hk : Keyed ctx.state) {reporter treasury : Address}
    {ctx' : BlockCtx} {report : SlashReport}
    (h : applySlash ctx node role o reporter treasury = .ok (ctx', report))
    (law : SlashLaw ctx ctx' node role reporter treasury report) : Current ctx node role o where
  stakes := by
    intro e he
    have hle := (law.stakes e.key).1
    rcases stakes_applySlash hk h e.key with ⟨e', he', hkey, hget⟩ | ⟨hne, -⟩
    · have heq : e' = e := by
        have h₁ := (mem_slashedStakes hk he').1
        rw [hkey, (mem_slashedStakes hk he).1] at h₁
        exact (Option.some.inj h₁).symm
      rw [stakeAmount, hget, stored_amount, heq] at hle
      exact hle
    · exact absurd rfl (hne e he)
  unbondings := by
    intro u hu
    obtain ⟨hle, hnone⟩ := law.unbondings ⟨node, u.unbondId⟩
    rcases unbondings_applySlash hk h ⟨node, u.unbondId⟩ with ⟨u', hu', hkey, hget⟩ | ⟨hne, -⟩
    · have heq : u' = u := by
        have h₁ := (mem_slashedUnbondings hk hu').1
        rw [hkey, (mem_slashedUnbondings hk hu).1] at h₁
        exact (Option.some.inj h₁).symm
      cases hb : ctx.commit.unbondings.get ⟨node, u.unbondId⟩ with
      | none =>
        rw [hnone hb] at hget
        cases hget
      | some b =>
        rw [unbondingAmount, unbondingAmount, hget, hb, heq] at hle
        exact ⟨b, rfl, hle⟩
    · exact absurd rfl (hne u hu)
  total := by
    have h₁ := nodeHoldings_applySlash hk h
    have h₂ := law.total
    omega

/-- For every context over a keyed store, the law of a slash holds exactly when the slash's products
and credits fit the word and the context is current on the entries that are slashed. -/
theorem slash_law_iff (hk : Keyed ctx.state) (reporter treasury : Address) :
    (∃ ctx' report, applySlash ctx node role o reporter treasury = .ok (ctx', report) ∧
      SlashLaw ctx ctx' node role reporter treasury report) ↔
    SlashFits ctx.state node role o ∧ Current ctx node role o ∧
      CreditsFit ctx reporter treasury (slashTotal ctx.state node role o) := by
  constructor
  · rintro ⟨ctx', report, h, law⟩
    obtain ⟨hfit, -, -, hr, ht, -, -⟩ := (applySlash_eq_ok ctx node role o reporter treasury _ _).mp h
    refine ⟨hfit, current_of_law hk h law, fun a => ?_⟩
    have hbal := (law.credits a).1
    have hlt := (ctx'.account a).balance.isLt
    rw [hr, ht] at hbal
    unfold slashCredit
    omega
  · rintro ⟨hfit, hcur, hcredit⟩
    let report : SlashReport :=
      ⟨⟨slashTotal ctx.state node role o, by have := hfit.total; omega⟩,
        ⟨slashTotal ctx.state node role o * 90 / 100, by have := hfit.total; omega⟩,
        ⟨reporterShare (slashTotal ctx.state node role o), by
          have := hfit.total
          unfold reporterShare
          omega⟩,
        ⟨treasuryShare (slashTotal ctx.state node role o), by
          have := hfit.total
          unfold treasuryShare
          omega⟩,
        (slashLoops ctx node role o).affected⟩
    have h : applySlash ctx node role o reporter treasury =
        .ok (((slashLoops ctx node role o).ctx.creditPositive reporter report.toReporter).creditPositive
          treasury report.toTreasury, report) :=
      (applySlash_eq_ok ctx node role o reporter treasury _ _).mpr
        ⟨hfit, rfl, rfl, rfl, rfl, rfl, rfl⟩
    refine ⟨_, report, h, ⟨?_, ?_, ?_, ?_, ?_⟩⟩
    · have h₁ := nodeHoldings_applySlash hk h
      have h₂ := hcur.total
      omega
    · intro k
      rcases stakes_applySlash hk h k with ⟨e, he, rfl, hget⟩ | ⟨-, hget⟩
      · have hle := hcur.stakes e he
        constructor
        · rw [stakeAmount, hget, stored_amount]
          exact hle
        · intro hnone
          have hz : (keeps o e.amount).val = 0 := by
            rw [stakeAmount, hnone] at hle
            exact Nat.le_zero.mp hle
          rw [hget]
          simp [StakeEntry.stored, StakeEntry.isEmpty, Fin.ext_iff, hz]
      · rw [stakeAmount, hget]
        exact ⟨Nat.le_refl _, fun hnone => hnone⟩
    · intro k
      rcases unbondings_applySlash hk h k with ⟨u, hu, rfl, hget⟩ | ⟨-, hget⟩
      · obtain ⟨b, hb, hle⟩ := hcur.unbondings u hu
        rw [unbondingAmount, unbondingAmount, hget, hb]
        exact ⟨hle, fun hnone => by cases hnone⟩
      · rw [unbondingAmount, hget]
        exact ⟨Nat.le_refl _, fun hnone => hnone⟩
    · simp only [report, reporterShare, treasuryShare]
      omega
    · intro a
      obtain ⟨hbal, hnonce⟩ := account_applySlash h a
      have hc := hcredit a
      have hr : report.toReporter.val = reporterShare (slashTotal ctx.state node role o) := rfl
      have ht : report.toTreasury.val = treasuryShare (slashTotal ctx.state node role o) := rfl
      refine ⟨?_, hnonce⟩
      rw [hr, ht] at hbal ⊢
      unfold slashCredit at hc
      omega

end

/-- A delegated compute position of a thousand atoms. -/
def delegatedPosition : StakeEntry := ⟨1, .compute, none, some 7, 1000, 0⟩

def delegatedState : State :=
  { State.empty with stakes := Column.empty.insert delegatedPosition.key delegatedPosition }

theorem delegatedState_keyed : Keyed delegatedState where
  stakes := by
    intro k e h
    simp only [delegatedState, Column.get_insert, Column.get_empty] at h
    split at h
    · rename_i hk
      rw [← Option.some.inj h]
      exact hk
    · cases h
  unbondings := by
    intro k u h
    cases h

/-- A slash of the untouched position obeys the law. -/
theorem slash_law_delegated : ∃ ctx' report,
    applySlash delegatedState.beginBlock 1 .compute .failedDeterministicVerification 8 9 =
      .ok (ctx', report) ∧
    SlashLaw delegatedState.beginBlock ctx' 1 .compute 8 9 report := by
  refine (@slash_law_iff delegatedState.beginBlock 1 .compute .failedDeterministicVerification
    delegatedState_keyed 8 9).mpr ⟨⟨by decide, by decide, by decide⟩, ⟨by decide, ?_, by decide⟩, ?_⟩
  · intro u hu
    cases hu
  · intro a
    have hzero : ((delegatedState.beginBlock).account a).balance.val = 0 := rfl
    have htotal : slashTotal delegatedState.beginBlock.state 1 .compute
        .failedDeterministicVerification = 50 := by decide
    rw [hzero, htotal]
    simp only [slashCredit, reporterShare, treasuryShare]
    split <;> split <;> omega

/-- Withdrawn and slashed in one block, the position comes back. -/
theorem slash_after_withdraw : ∃ ctx outcome,
    applyStakeOp delegatedState.beginBlock (.withdraw 1 .compute none 1000) 7 10 = .ok (ctx, outcome) ∧
    outcome.isApplied = true ∧ Keyed ctx.state ∧
    ∃ ctx' report,
      applySlash ctx 1 .compute .failedDeterministicVerification 8 9 = .ok (ctx', report) ∧
      ctx.getStake delegatedPosition.key = none ∧
      ctx'.getStake delegatedPosition.key = some { delegatedPosition with amount := 950 } ∧
      ¬ SlashLaw ctx ctx' 1 .compute 8 9 report := by
  refine ⟨_, _, rfl, rfl, delegatedState_keyed, _, _, rfl, rfl, rfl, fun law => ?_⟩
  have h := (law.stakes delegatedPosition.key).2 rfl
  cases h

end Arknet.Laws
