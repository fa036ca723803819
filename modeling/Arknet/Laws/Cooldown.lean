import Arknet.Laws.StakeOwnership
import Arknet.Lib.Lots
import Arknet.Lib.Runs

/-!
The redelegation cooldown. An entry has one bonding height, and stake that is added to it later takes that
height over, so that it can be moved on at once. Where nothing is added to an older entry, no unit is moved
before its time (`redelegation_cooldown`).
-/

namespace Arknet.Laws

open Machine Store Runs Lots Arknet.Chain Arknet.Consensus

/-! ## Runs with their units -/

/-- A context, the units of every entry by the height at which they came in, and the units that were
redelegated, each with its height and that of the redelegation. -/
structure Bonded where
  ctx : BlockCtx
  lots : StakeKey → Height →₀ ℕ
  moved : Set (Height × Height)

/-- What is there at the start came in when the entries say. -/
noncomputable def Bonded.start (ctx : BlockCtx) : Bonded where
  ctx := ctx
  lots k := (ctx.getStake k).elim 0 fun e => Finsupp.single e.bondedAt e.amount.val
  moved := ∅

inductive BondStep where
  | op (op : StakeOp) (sender : Address) (height : Height) (outcome : TxOutcome)
  /-- Whatever adds no stake: slashes, other transactions, block boundaries. -/
  | other

/-- The entry keeps its bonding height and gains nothing, or is gone. -/
def Lowers (o o' : Option StakeEntry) : Prop :=
  ∀ e', o' = some e' → ∃ e, o = some e ∧ e'.amount ≤ e.amount ∧ e'.bondedAt = e.bondedAt

/-- What an operation takes out of entries is moved when it is a redelegation. -/
def movedBy (op : StakeOp) (outcome : TxOutcome) (height : Height) (lots lots' : StakeKey → Height →₀ ℕ) :
    Set (Height × Height) :=
  match op with
  | .redelegate .. => {m | outcome.isApplied = true ∧ m.2 = height ∧ ∃ k, lots' k m.1 < lots k m.1}
  | _ => ∅

/-- Each entry's units move with its amount, and those that leave are any. -/
def BondedStep (u : Bonded) : BondStep → Bonded → Prop
  | .op op sender height outcome, u' =>
    applyStakeOp u.ctx op sender height = .ok (u'.ctx, outcome) ∧
    (∀ k, Moves height (held (u.ctx.getStake k)) (held (u'.ctx.getStake k)) (u.lots k) (u'.lots k)) ∧
    u'.moved = u.moved ∪ movedBy op outcome height u.lots u'.lots
  | .other, u' =>
    (∀ k, Lowers (u.ctx.getStake k) (u'.ctx.getStake k)) ∧
    (∀ k, Moves 0 (held (u.ctx.getStake k)) (held (u'.ctx.getStake k)) (u.lots k) (u'.lots k)) ∧
    u'.moved = u.moved

/-! ## The law -/

/-- No unit was moved within the cooldown of the height at which it came in. -/
def Cooled (u : Bonded) : Prop := ∀ m ∈ u.moved, m.1.val + REDELEGATE_COOLDOWN_BLOCKS.val ≤ m.2.val

/-- Stake that comes in does not meet an older entry. -/
def MeetsNoOlder (ctx : BlockCtx) (k : StakeKey) (amount : Amount) (height : Height) : Prop :=
  ∀ e, ctx.getStake k = some e → k.poolId = none → 0 < amount.val → height ≤ e.bondedAt

/-- An applied operation adds nothing to an older entry, and none redelegates at the last height of all. -/
def BondsApart (u : Bonded) : BondStep → Prop
  | .op (.deposit nodeId role poolId amount delegator) _ height outcome =>
    outcome.isApplied = true → MeetsNoOlder u.ctx ⟨nodeId, role, poolId, delegator⟩ amount height
  | .op (.redelegate src dst role amount) sender height outcome => outcome.isApplied = true →
    height.val < 2 ^ 64 - 1 ∧ ∀ d entry, drawnEntry u.ctx src role none sender = some (d, entry) →
      MeetsNoOlder u.ctx ⟨dst, role, none, d⟩ amount height
  | _ => True

def ApartStep (u : Bonded) (step : BondStep) (u' : Bonded) : Prop := BondedStep u step u' ∧ BondsApart u step

/-! ## What an operation does to one entry -/

inductive EntryMove (height : Height) (k : StakeKey) (o : Option StakeEntry) : Option StakeEntry → Prop where
  | lowered {o' : Option StakeEntry} (h : Lowers o o') : EntryMove height k o o'
  | raised (amount : Amount) (apart : ∀ e, o = some e → k.poolId = none → 0 < amount.val →
      height ≤ e.bondedAt) : EntryMove height k o (depositEntry o k amount height).stored

section

variable {ctx ctx' : BlockCtx} {sender : Address} {height : Height} {outcome : TxOutcome} {k : StakeKey}
  {o o' : Option StakeEntry}

theorem Lowers.refl (o : Option StakeEntry) : Lowers o o := fun e he => ⟨e, he, le_rfl, rfl⟩

theorem lowers_rest {e : StakeEntry} {rest amount : Amount} (hrest : rest.val + amount.val = e.amount.val) :
    Lowers (some e) (StakeEntry.stored { e with amount := rest }) := by
  intro e' he'
  rw [stored_eq_some he']
  refine ⟨e, rfl, Fin.le_def.mpr ?_, rfl⟩
  show rest.val ≤ e.amount.val
  omega

/-- The entry under `k` after a write under `j`. -/
theorem entryMove_setStake {j : StakeKey} {e : StakeEntry}
    (hwrite : EntryMove height j (ctx.getStake j) e.stored) (hctx : ctx'.getStake = (ctx.setStake j e).getStake) :
    EntryMove height k (ctx.getStake k) (ctx'.getStake k) := by
  rw [hctx, BlockCtx.getStake_setStake]
  split_ifs with hjk
  · subst hjk
    exact hwrite
  · exact .lowered (.refl _)

theorem applyRedelegate_cooled {src dst : NodeId} {role : StakeRole} {amount : Amount}
    (h : applyRedelegate ctx sender src dst role amount height = .ok (ctx', outcome))
    (happlied : outcome.isApplied = true) {d : Option Address} {entry : StakeEntry}
    (hdrawn : drawnEntry ctx src role none sender = some (d, entry)) :
    satAdd entry.bondedAt REDELEGATE_COOLDOWN_BLOCKS ≤ height := by
  simp only [applyRedelegate, hdrawn] at h
  split_ifs at h with hsame hmore hcooling
  · rw [(of_reject h).2] at happlied
    cases happlied
  · rw [(of_reject h).2] at happlied
    cases happlied
  · rw [(of_reject h).2] at happlied
    cases happlied
  · exact not_lt.mp hcooling

/-- Every entry is lowered, or raised where that is allowed. -/
theorem applyStakeOp_entryMove {u : Bonded} {op : StakeOp}
    (h : applyStakeOp u.ctx op sender height = .ok (ctx', outcome))
    (hapart : BondsApart u (.op op sender height outcome)) (k : StakeKey) :
    EntryMove height k (u.ctx.getStake k) (ctx'.getStake k) := by
  cases op with
  | deposit nodeId role poolId amount delegator =>
    rcases applyDeposit_ok h with ⟨rfl, -⟩ | ⟨rfl, -, balance, -, rfl⟩
    · exact .lowered (.refl _)
    · exact entryMove_setStake (.raised amount (hapart rfl)) rfl
  | withdraw nodeId role poolId amount =>
    rcases applyWithdraw_ok h with ⟨rfl, -⟩ | ⟨-, d, entry, rest, completesAt, next, hdrawn, hrest, -, -, rfl⟩
    · exact .lowered (.refl _)
    · refine entryMove_setStake (.lowered ?_) rfl
      rw [(drawnEntry_eq_some hdrawn).1]
      exact lowers_rest hrest
  | complete nodeId role poolId unbondId =>
    rcases applyComplete_ok h with ⟨rfl, -⟩ | ⟨-, entry, -, -, -, rfl⟩
    · exact .lowered (.refl _)
    · exact .lowered (.refl _)
  | redelegate src dst role amount =>
    rcases applyRedelegate_ok h with ⟨rfl, -⟩ | ⟨rfl, hne, d, entry, rest, hdrawn, hrest, rfl⟩
    · exact .lowered (.refl _)
    · rw [BlockCtx.getStake_setStake]
      split_ifs with hdst
      · subst hdst
        exact .raised amount ((hapart rfl).2 d entry hdrawn)
      · refine entryMove_setStake (.lowered ?_) rfl
        rw [(drawnEntry_eq_some hdrawn).1]
        exact lowers_rest hrest

/-- What a redelegation lowers is the entry it draws on, and that has cooled down. -/
theorem redelegate_source {src dst : NodeId} {role : StakeRole} {amount : Amount}
    (h : applyRedelegate ctx sender src dst role amount height = .ok (ctx', outcome))
    (happlied : outcome.isApplied = true) (hless : held (ctx'.getStake k) < held (ctx.getStake k)) :
    k.poolId = none ∧ ∃ e, ctx.getStake k = some e ∧
      satAdd e.bondedAt REDELEGATE_COOLDOWN_BLOCKS ≤ height := by
  rcases applyRedelegate_ok h with ⟨-, hkept⟩ | ⟨-, hne, d, entry, rest, hdrawn, hrest, rfl⟩
  · rw [hkept] at happlied
    cases happlied
  · have hcooled := applyRedelegate_cooled h happlied hdrawn
    rw [BlockCtx.getStake_setStake] at hless
    split_ifs at hless with hdst
    · subst hdst
      refine absurd hless (not_lt.mpr ?_)
      rw [show held (StakeEntry.stored _) = _ from stored_amount _]
      cases hget : ctx.getStake ⟨dst, role, none, d⟩ with
      | none => exact Nat.zero_le _
      | some e => exact le_satAdd e.amount amount
    · rw [BlockCtx.getStake_setStake] at hless
      split_ifs at hless with hsrc
      · subst hsrc
        exact ⟨rfl, entry, (drawnEntry_eq_some hdrawn).1, hcooled⟩
      · exact absurd hless (lt_irrefl _)

/-! ## What holds all along -/

/-- The units are the amounts, none came in later than its entry says, and none was moved too early. -/
structure Bonded.Sound (u : Bonded) : Prop where
  exact : ∀ k, (u.lots k).degree = held (u.ctx.getStake k)
  bonded : ∀ k e h, k.poolId = none → u.ctx.getStake k = some e → 0 < u.lots k h → h ≤ e.bondedAt
  cooled : Cooled u

theorem Bonded.Sound.start (ctx : BlockCtx) : (Bonded.start ctx).Sound where
  exact k := by
    show ((ctx.getStake k).elim 0 _ : Height →₀ ℕ).degree = held (ctx.getStake k)
    cases ctx.getStake k with
    | none => exact map_zero Finsupp.degree
    | some e => exact Finsupp.degree_single _ _
  bonded k e h _ hget hpos := by
    have hlots : (Bonded.start ctx).lots k = Finsupp.single e.bondedAt e.amount.val := by
      show (ctx.getStake k).elim 0 _ = _
      rw [show ctx.getStake k = some e from hget]
      rfl
    rw [hlots] at hpos
    by_cases hat : h = e.bondedAt
    · exact le_of_eq hat
    · rw [Finsupp.single_eq_of_ne hat] at hpos
      exact absurd hpos (lt_irrefl 0)
  cooled := fun m hm => hm.elim

/-- The units of an entry stay no younger than it says. -/
theorem EntryMove.bonded {tag : Height} {lots lots' : Height →₀ ℕ} (hmove : EntryMove height k o o')
    (hmoves : Moves tag (held o) (held o') lots lots') (htag : held o < held o' → tag = height)
    (hexact : lots.degree = held o) (hpool : k.poolId = none)
    (hbonded : ∀ e h, o = some e → 0 < lots h → h ≤ e.bondedAt) :
    ∀ e' h, o' = some e' → 0 < lots' h → h ≤ e'.bondedAt := by
  intro e' h he' hpos
  cases hmove with
  | lowered hlowers =>
    obtain ⟨e, rfl, hle, hsame⟩ := hlowers e' he'
    rw [hsame]
    rcases hmoves.pos hpos with hold | ⟨-, hmore⟩
    · exact hbonded e h rfl hold
    · subst he'
      exact absurd hmore (not_lt.mpr hle)
  | raised amount hapart =>
    have hamount := stored_amount (depositEntry o k amount height)
    rw [stored_eq_some he']
    cases o with
    | none =>
      have hzero : lots = 0 := eq_zero_of_degree hexact
      rcases hmoves.pos hpos with hold | ⟨hnew, hmore⟩
      · rw [hzero] at hold
        exact absurd hold (lt_irrefl 0)
      · rw [hnew, htag hmore]
        exact le_rfl
    | some e =>
      show h ≤ e.bondedAt
      rcases hmoves.pos hpos with hold | ⟨hnew, hmore⟩
      · exact hbonded e h rfl hold
      · have hpositive : 0 < amount.val := by
          have hle := satAdd_le e.amount amount
          have hheld : held (depositEntry (some e) k amount height).stored = (satAdd e.amount amount).val :=
            hamount
          rw [hheld] at hmore
          have hbefore : held (some e) = e.amount.val := rfl
          omega
        rw [hnew, htag hmore]
        exact hapart e rfl hpool hpositive

theorem Bonded.Sound.step {u u' : Bonded} {step : BondStep} (hs : u.Sound) (h : ApartStep u step u') :
    u'.Sound := by
  obtain ⟨hstep, hapart⟩ := h
  cases step with
  | other =>
    obtain ⟨hlowers, hmoves, hmoved⟩ := hstep
    refine ⟨fun k => (hmoves k).degree (hs.exact k), fun k e h hpool hget hpos => ?_, ?_⟩
    · have hmove : EntryMove 0 k (u.ctx.getStake k) (u'.ctx.getStake k) := .lowered (hlowers k)
      exact hmove.bonded (hmoves k) (fun _ => rfl) (hs.exact k) hpool
        (fun e h => hs.bonded k e h hpool) e h hget hpos
    · intro m hm
      rw [hmoved] at hm
      exact hs.cooled m hm
  | op op sender height outcome =>
    obtain ⟨happly, hmoves, hmoved⟩ := hstep
    refine ⟨fun k => (hmoves k).degree (hs.exact k), fun k e h hpool hget hpos => ?_, ?_⟩
    · exact (applyStakeOp_entryMove happly hapart k).bonded (hmoves k) (fun _ => rfl) (hs.exact k) hpool
        (fun e h => hs.bonded k e h hpool) e h hget hpos
    · intro m hm
      rw [hmoved] at hm
      rcases hm with hm | hm
      · exact hs.cooled m hm
      · cases op with
        | redelegate src dst role amount =>
          obtain ⟨happlied, hheight, k, hlost⟩ := hm
          obtain ⟨hpool, e, hget, hcooled⟩ := redelegate_source happly happlied ((hmoves k).lost hlost)
          have hbond := hs.bonded k e m.1 hpool hget (by omega)
          have hlast := (hapart happlied).1
          rw [Fin.le_def, satAdd_val] at hcooled
          rw [Fin.le_def] at hbond
          rw [hheight]
          omega
        | deposit nodeId role poolId amount delegator => exact hm.elim
        | withdraw nodeId role poolId amount => exact hm.elim
        | complete nodeId role poolId unbondId => exact hm.elim

end

/-- In every run whose steps add nothing to an older entry no unit is redelegated within the cooldown of
the height at which it came in, by a deposit or by a redelegation. -/
theorem redelegation_cooldown {ctx : BlockCtx} {hist : List BondStep} {u : Bonded}
    (run : Steps ApartStep (Bonded.start ctx) hist u) : Cooled u :=
  (run.invariant Bonded.Sound (.start ctx) fun _ _ _ hs hstep => hs.step hstep).cooled

/-! ## Runs with a deposit -/

/-- The units of every operation can be told apart in some way. -/
theorem exists_bondedStep {u : Bonded} (hexact : ∀ k, (u.lots k).degree = held (u.ctx.getStake k))
    (op : StakeOp) (sender : Address) (height : Height) {ctx' : BlockCtx} {outcome : TxOutcome}
    (h : applyStakeOp u.ctx op sender height = .ok (ctx', outcome)) :
    ∃ u', u'.ctx = ctx' ∧ BondedStep u (.op op sender height outcome) u' ∧
      ∀ k, (u'.lots k).degree = held (u'.ctx.getStake k) := by
  choose lots' hlots' using fun k => exists_moves height (hexact k) (held (ctx'.getStake k))
  exact ⟨⟨ctx', lots', u.moved ∪ movedBy op outcome height u.lots lots'⟩, rfl, ⟨h, hlots', rfl⟩,
    fun k => (hlots' k).degree (hexact k)⟩

/-- A deposit, and a redelegation of all of it a day later. -/
theorem redelegation_cooldown_day : ∃ hist u, hist.length = 2 ∧
    Steps ApartStep (Bonded.start soleHolder.beginBlock) hist u ∧ Cooled u := by
  obtain ⟨u₁, hctx₁, hstep₁, hexact₁⟩ := exists_bondedStep (Bonded.Sound.start soleHolder.beginBlock).exact
    (.deposit 1 .compute none 1000 (some 7)) 7 0 rfl
  obtain ⟨u₂, -, hstep₂, -⟩ := exists_bondedStep hexact₁ (.redelegate 1 2 .compute 1000) 7 86400
    (by rw [hctx₁]; rfl)
  have hnone₀ : soleHolder.beginBlock.getStake ⟨1, .compute, none, some 7⟩ = none := rfl
  have hapart₁ : BondsApart (Bonded.start soleHolder.beginBlock)
      (.op (.deposit 1 .compute none 1000 (some 7)) 7 0 (.applied STAKE_OP_GAS)) := by
    intro _ e he
    cases hnone₀.symm.trans he
  have hapart₂ : BondsApart u₁ (.op (.redelegate 1 2 .compute 1000) 7 86400 (.applied STAKE_OP_GAS)) := by
    refine fun _ => ⟨by decide, ?_⟩
    intro d entry hdrawn e he
    rw [hctx₁] at hdrawn he
    cases hdrawn
    cases he
  have run : Steps ApartStep (Bonded.start soleHolder.beginBlock) _ u₂ :=
    (Steps.nil.snoc ⟨hstep₁, hapart₁⟩).snoc ⟨hstep₂, hapart₂⟩
  exact ⟨_, u₂, rfl, run, redelegation_cooldown run⟩

/-- A single atom a day old takes 999 more along: they are redelegated in the block they came in. -/
theorem joins_an_older_bond : ∃ hist u,
    Steps BondedStep (Bonded.start soleHolder.beginBlock) hist u ∧ ¬ Cooled u := by
  obtain ⟨u₁, hctx₁, hstep₁, hexact₁⟩ := exists_bondedStep (Bonded.Sound.start soleHolder.beginBlock).exact
    (.deposit 1 .compute none 1 (some 7)) 7 0 rfl
  obtain ⟨u₂, hctx₂, hstep₂, hexact₂⟩ := exists_bondedStep hexact₁
    (.deposit 1 .compute none 999 (some 7)) 7 86400 (by rw [hctx₁]; rfl)
  obtain ⟨u₃, hctx₃, hstep₃, hexact₃⟩ := exists_bondedStep hexact₂
    (.redelegate 1 2 .compute 1000) 7 86400 (by rw [hctx₂]; rfl)
  refine ⟨_, u₃, ((Steps.nil.snoc hstep₁).snoc hstep₂).snoc hstep₃, fun hcooled => ?_⟩
  let k : StakeKey := ⟨1, .compute, none, some 7⟩
  have hnew : 0 < u₂.lots k 86400 := by
    have hmoves := hstep₂.2.1 k
    have hbefore : held (u₁.ctx.getStake k) = 1 := by rw [hctx₁]; rfl
    have hafter : held (u₂.ctx.getStake k) = 1000 := by rw [hctx₂]; rfl
    rw [hbefore, hafter] at hmoves
    rw [hmoves.gained (by decide), Finsupp.add_apply, Finsupp.single_eq_same]
    omega
  have hgone : u₃.lots k = 0 := by
    refine eq_zero_of_degree ((hexact₃ k).trans ?_)
    rw [hctx₃]
    rfl
  have hmem : ((86400, 86400) : Height × Height) ∈ u₃.moved := by
    rw [hstep₃.2.2]
    refine .inr ⟨rfl, rfl, k, ?_⟩
    rw [hgone]
    exact hnew
  exact absurd (hcooled _ hmem) (by decide)

end Arknet.Laws
