import Mathlib.Data.List.Induction

/-!
Runs of a labelled transition relation. A run is the list of its labels, oldest first, with the state
they lead to. A law is a property of what has happened so far and of the state it led to.
-/

namespace Runs

variable {σ ℓ : Type} {R : σ → ℓ → σ → Prop} {s t : σ} {hist : List ℓ}

inductive Steps (R : σ → ℓ → σ → Prop) (s : σ) : List ℓ → σ → Prop where
  | nil : Steps R s [] s
  | snoc {hist : List ℓ} {t t' : σ} {l : ℓ} (run : Steps R s hist t) (step : R t l t') :
      Steps R s (hist ++ [l]) t'

theorem Steps.snoc_inv {l : ℓ} (run : Steps R s (hist ++ [l]) t) : ∃ u, Steps R s hist u ∧ R u l t := by
  generalize hh : hist ++ [l] = whole at run
  cases run with
  | nil => simp at hh
  | snoc run step =>
    obtain ⟨rfl, rfl⟩ := List.append_singleton_inj.mp hh
    exact ⟨_, run, step⟩

theorem Steps.cons {l : ℓ} {s' : σ} (step : R s l s') (run : Steps R s' hist t) :
    Steps R s (l :: hist) t := by
  induction run with
  | nil => exact Steps.nil.snoc step
  | snoc run last ih => exact ih.snoc last

theorem Steps.nil_inv (run : Steps R s [] t) : t = s := by
  generalize hh : ([] : List ℓ) = whole at run
  cases run with
  | nil => rfl
  | snoc run step => simp at hh

theorem Steps.cons_inv {l : ℓ} (run : Steps R s (l :: hist) t) : ∃ s', R s l s' ∧ Steps R s' hist t := by
  induction hist using List.reverseRecOn generalizing t with
  | nil =>
    obtain ⟨u, hu, step⟩ : ∃ u, Steps R s [] u ∧ R u l t := run.snoc_inv
    rw [hu.nil_inv] at step
    exact ⟨t, step, .nil⟩
  | append_singleton init last ih =>
    obtain ⟨u, hu, step⟩ : ∃ u, Steps R s (l :: init) u ∧ R u last t := run.snoc_inv
    obtain ⟨s', hfirst, hrest⟩ := ih hu
    exact ⟨s', hfirst, hrest.snoc step⟩

/-- The run of a step function. -/
theorem steps_of_foldlM {next : σ → ℓ → Option σ} (h : hist.foldlM next s = some t) :
    Steps (fun u l u' => next u l = some u') s hist t := by
  induction hist generalizing s with
  | nil =>
    obtain rfl := Option.some.inj h
    exact .nil
  | cons l hist ih =>
    obtain ⟨u, hu, hrest⟩ := Option.bind_eq_some_iff.mp h
    exact (ih hrest).cons hu

/-- A property that every step keeps holds wherever a run leads. -/
theorem Steps.invariant (I : σ → Prop) (h0 : I s) (step : ∀ u l u', I u → R u l u' → I u')
    (run : Steps R s hist t) : I t := by
  induction run with
  | nil => exact h0
  | snoc run last ih => exact step _ _ _ ih last

/-- `L` holds of what happened so far and where it led, at every point of the run. -/
def Throughout (R : σ → ℓ → σ → Prop) (s : σ) (L : List ℓ → σ → Prop) (hist : List ℓ) : Prop :=
  ∀ past rest u, hist = past ++ rest → Steps R s past u → L past u

/-- A law that each step keeps exactly under a condition, given that the steps before it met theirs,
holds throughout a run exactly when every step meets the condition. -/
theorem throughout_iff {L : List ℓ → σ → Prop} {C : List ℓ → ℓ → Prop} (h0 : L [] s)
    (step : ∀ past u l u' rest, hist = past ++ l :: rest → Steps R s past u →
      (∀ before l' after, past = before ++ l' :: after → C before l') → L past u → R u l u' →
      (L (past ++ [l]) u' ↔ C past l)) (run : Steps R s hist t) :
    Throughout R s L hist ↔ ∀ past l rest, hist = past ++ l :: rest → C past l := by
  constructor
  · intro h
    have hall : ∀ past u, Steps R s past u → ∀ rest, hist = past ++ rest →
        ∀ before l after, past = before ++ l :: after → C before l := by
      intro past u hu
      induction hu with
      | nil => simp
      | snoc hu hstep ih =>
        rename_i past u u' l
        intro rest heq before l' after hsplit
        have hpast : hist = past ++ l :: rest := by
          rw [heq, List.append_assoc, List.singleton_append]
        rcases List.eq_nil_or_concat after with rfl | ⟨init, last, rfl⟩
        · obtain ⟨rfl, rfl⟩ := List.append_singleton_inj.mp hsplit
          exact (step past u l u' _ hpast hu (ih _ hpast) (h past _ u hpast hu) hstep).mp
            (h _ rest u' heq (hu.snoc hstep))
        · rw [List.concat_eq_append, ← List.cons_append, ← List.append_assoc] at hsplit
          exact ih _ hpast before l' init (List.append_singleton_inj.mp hsplit).1
    intro past l rest heq
    exact hall hist t run [] (List.append_nil _).symm past l rest heq
  · intro h past rest u heq hu
    induction hu generalizing rest with
    | nil => exact h0
    | snoc hu hstep ih =>
      rename_i past u u' l
      rw [List.append_assoc, List.singleton_append] at heq
      refine (step past u l u' _ heq hu (fun before l' after hsplit => ?_) (ih _ heq) hstep).mpr
        (h _ _ rest heq)
      refine h before l' (after ++ l :: rest) ?_
      rw [heq, hsplit, List.append_assoc, List.cons_append]

/-! ## A condition along a run -/

section Along

variable {C : σ → ℓ → Prop}

/-- Every step of the run is taken from a state that meets the condition for it. -/
def Along (R : σ → ℓ → σ → Prop) (s : σ) (C : σ → ℓ → Prop) (hist : List ℓ) : Prop :=
  ∀ past l rest u, hist = past ++ l :: rest → Steps R s past u → C u l

theorem along_nil : Along R s C [] := by
  intro past l rest u heq
  simp at heq

/-- A property that every step meeting the condition keeps holds wherever a run leads that meets it
all along. -/
theorem Steps.invariant_along (I : σ → Prop) (h0 : I s) (step : ∀ u l u', I u → C u l → R u l u' → I u')
    (run : Steps R s hist t) (along : Along R s C hist) : I t := by
  induction run with
  | nil => exact h0
  | snoc run last ih =>
    refine step _ _ _ (ih ?_) (along _ _ [] _ rfl run) last
    intro past l rest u heq hu
    exact along past l (rest ++ [_]) u (by rw [heq, List.append_assoc, List.cons_append]) hu

/-- A label decides where a step leads. -/
def Deterministic (R : σ → ℓ → σ → Prop) : Prop := ∀ u l u₁ u₂, R u l u₁ → R u l u₂ → u₁ = u₂

theorem Steps.unique (det : Deterministic R) (run : Steps R s hist t)
    {t' : σ} (run' : Steps R s hist t') : t' = t := by
  induction run generalizing t' with
  | nil => exact run'.nil_inv
  | snoc run step ih =>
    obtain ⟨u, hu, hstep⟩ := run'.snoc_inv
    rw [ih hu] at hstep
    exact det _ _ _ _ hstep step

theorem along_snoc (det : Deterministic R) (run : Steps R s hist t) {l : ℓ} :
    Along R s C (hist ++ [l]) ↔ Along R s C hist ∧ C t l := by
  constructor
  · intro h
    refine ⟨fun past l' rest u heq => h past l' (rest ++ [l]) u ?_, h hist l [] t rfl run⟩
    rw [heq, List.append_assoc, List.cons_append]
  · rintro ⟨hpast, hlast⟩ past l' rest u heq hu
    rcases List.eq_nil_or_concat rest with rfl | ⟨init, last, rfl⟩
    · obtain ⟨rfl, rfl⟩ := List.append_singleton_inj.mp heq
      rw [run.unique det hu]
      exact hlast
    · rw [List.concat_eq_append, ← List.cons_append, ← List.append_assoc] at heq
      exact hpast past l' init u (List.append_singleton_inj.mp heq).1 hu

theorem along_cons (det : Deterministic R) {l : ℓ} {s' : σ} (step : R s l s') (hfirst : C s l)
    (hrest : Along R s' C hist) : Along R s C (l :: hist) := by
  intro past l' rest u heq hu
  cases past with
  | nil =>
    obtain ⟨rfl, -⟩ := List.cons.inj heq
    rw [hu.nil_inv]
    exact hfirst
  | cons a past =>
    obtain ⟨rfl, htail⟩ := List.cons.inj heq
    obtain ⟨s'', hstep, hrun⟩ := hu.cons_inv
    rw [det _ _ _ _ hstep step] at hrun
    exact hrest past l' rest u htail hrun

/-- A law of the states that each step keeps exactly under a condition holds throughout a run exactly
when the condition holds along it. -/
theorem throughout_iff_along {L : σ → Prop} (det : Deterministic R) (h0 : L s)
    (step : ∀ past u l u', Steps R s past u → L u → R u l u' → (L u' ↔ C u l)) (run : Steps R s hist t) :
    Throughout R s (fun _ u => L u) hist ↔ Along R s C hist := by
  rw [throughout_iff (C := fun past l => ∀ u, Steps R s past u → C u l) h0 ?_ run]
  · exact ⟨fun h past l rest u heq => h past l rest heq u, fun h past l rest heq u => h past l rest u heq⟩
  · intro past u l u' rest heq hu hpast hlaw hstep
    rw [step past u l u' hu hlaw hstep]
    constructor
    · intro h u₂ hu₂
      rw [hu.unique det hu₂]
      exact h
    · intro h
      exact h u hu

/-- Where steps that meet the condition keep a clean state clean, and a step that does not leaves a
flaw that stays, a run is clean or flawed according to whether the condition holds along it. -/
theorem Steps.clean_or_flawed {I clean flawed : σ → Prop}
    (det : Deterministic R) (invariant : ∀ past u, Steps R s past u → I u)
    (h0 : clean s) (keeps : ∀ u l u', I u → clean u → R u l u' → C u l → clean u')
    (breaks : ∀ u l u', I u → R u l u' → ¬ C u l → flawed u')
    (stays : ∀ u l u', I u → flawed u → R u l u' → flawed u') (run : Steps R s hist t) :
    (Along R s C hist ∧ clean t) ∨ (¬ Along R s C hist ∧ flawed t) := by
  induction run with
  | nil => exact .inl ⟨along_nil, h0⟩
  | snoc run last ih =>
    rename_i past u u' l
    have hI := invariant _ _ run
    rw [along_snoc det run]
    rcases ih with ⟨halong, hclean⟩ | ⟨hbroken, hflawed⟩
    · by_cases hC : C u l
      · exact .inl ⟨⟨halong, hC⟩, keeps _ _ _ hI hclean last hC⟩
      · exact .inr ⟨fun h => hC h.2, breaks _ _ _ hI last hC⟩
    · exact .inr ⟨fun h => hbroken h.1, stays _ _ _ hI hflawed last⟩

end Along

/-! ## A slot

A value that some steps write and some only clear: it holds what the last step that touched it wrote. -/

section Slot

variable {α : Type} (touches : ℓ → Prop) (writes : ℓ → α → Prop)

/-- The last label that touches the slot writes `x`. -/
def LastWrite (hist : List ℓ) (x : α) : Prop :=
  ∃ past l rest, hist = past ++ l :: rest ∧ writes l x ∧ ∀ l' ∈ rest, ¬ touches l'

variable {touches writes}

theorem lastWrite_snoc {l : ℓ} {x : α} :
    LastWrite touches writes (hist ++ [l]) x ↔
      writes l x ∨ ¬ touches l ∧ LastWrite touches writes hist x := by
  constructor
  · rintro ⟨past, l', rest, heq, hw, hrest⟩
    rcases List.eq_nil_or_concat rest with rfl | ⟨init, last, rfl⟩
    · obtain ⟨-, rfl⟩ := List.append_singleton_inj.mp heq
      exact .inl hw
    · rw [List.concat_eq_append, ← List.cons_append, ← List.append_assoc] at heq
      obtain ⟨rfl, rfl⟩ := List.append_singleton_inj.mp heq
      exact .inr ⟨hrest l (by simp), past, l', init, rfl, hw, fun x hx => hrest x (by simp [hx])⟩
  · rintro (hw | ⟨hquiet, past, l', rest, rfl, hw, hrest⟩)
    · exact ⟨hist, l, [], rfl, hw, by simp⟩
    · refine ⟨past, l', rest ++ [l], by simp, hw, fun x hx => ?_⟩
      rcases List.mem_append.mp hx with hx | hx
      · exact hrest x hx
      · rw [List.mem_singleton.mp hx]
        exact hquiet

/-- When every step treats the slot this way, it holds the last write along every run. -/
theorem Steps.slot_eq {slot : σ → Option α} (h0 : slot s = none)
    (step : ∀ u l u' x, R u l u' → (slot u' = some x ↔ writes l x ∨ ¬ touches l ∧ slot u = some x))
    (run : Steps R s hist t) (x : α) : slot t = some x ↔ LastWrite touches writes hist x := by
  induction run with
  | nil =>
    rw [h0]
    refine iff_of_false (by simp) ?_
    rintro ⟨past, l, rest, heq, -⟩
    simp at heq
  | snoc run last ih => rw [lastWrite_snoc, step _ _ _ x last, ih]

end Slot

end Runs
