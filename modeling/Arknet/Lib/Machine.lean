import Mathlib

/-!
Fixed-width unsigned arithmetic of a program compiled with overflow checks: the saturating
operations are total, the plain ones are checked and abort with a `Panic`. A computation that may
abort is an `Exec`; the inversion lemmas below say what a computation that returned has done.
-/

namespace Machine

abbrev U32 := Fin (2 ^ 32)
abbrev U64 := Fin (2 ^ 64)
abbrev U128 := Fin (2 ^ 128)

instance neZeroU32 : NeZero (2 ^ 32) := ⟨by decide⟩
instance neZeroU64 : NeZero (2 ^ 64) := ⟨by decide⟩
instance neZeroU128 : NeZero (2 ^ 128) := ⟨by decide⟩

theorem width32_le_64 : 32 ≤ 64 := by decide
theorem width32_le_128 : 32 ≤ 128 := by decide
theorem width64_le_128 : 64 ≤ 128 := by decide

/-- Why an aborting program stopped. -/
inductive Panic where
  | addOverflow
  | subOverflow
  | mulOverflow
  | divByZero
  | shlOverflow
  | expectNone
  | indexOutOfRange
  deriving DecidableEq, Repr

abbrev Exec := Except Panic

theorem bind_eq_ok {α β : Type} {x : Exec α} {f : α → Exec β} {b : β} :
    (x >>= f) = .ok b ↔ ∃ a, x = .ok a ∧ f a = .ok b := by
  cases x <;> simp [bind, Except.bind]

theorem map_eq_ok {α β : Type} {x : Exec α} {f : α → β} {b : β} :
    (f <$> x) = .ok b ↔ ∃ a, x = .ok a ∧ f a = b := by
  cases x <;> simp [Functor.map, Except.map]

@[simp] theorem pure_eq_ok {α : Type} {a b : α} : (pure a : Exec α) = .ok b ↔ a = b := by
  simp [pure, Except.pure]

@[simp] theorem ok_bind {α β : Type} (a : α) (f : α → Exec β) : (Except.ok a >>= f) = f a := rfl

@[simp] theorem error_bind {α β : Type} (p : Panic) (f : α → Exec β) :
    (Except.error p >>= f) = .error p := rfl

/-- The value of a computation that is known to return. -/
def returned {α : Type} (x : Exec α) (h : x.toOption.isSome = true) : α := x.toOption.get h

theorem eq_ok_returned {α : Type} {x : Exec α} (h : x.toOption.isSome = true) :
    x = .ok (returned x h) := by
  cases x with
  | ok a => rfl
  | error p => cases h

theorem eq_ok_returned_pair {α β : Type} {x : Exec (α × β)} (h : x.toOption.isSome = true) :
    x = .ok ((returned x h).1, (returned x h).2) := eq_ok_returned h

/-! ## Saturating operations -/

section Saturating

variable {w : Nat}

def satAdd (a b : Fin (2 ^ w)) : Fin (2 ^ w) :=
  ⟨min (a.val + b.val) (2 ^ w - 1), by have := Nat.two_pow_pos w; omega⟩

def satSub (a b : Fin (2 ^ w)) : Fin (2 ^ w) := ⟨a.val - b.val, by omega⟩

def satMul (a b : Fin (2 ^ w)) : Fin (2 ^ w) :=
  ⟨min (a.val * b.val) (2 ^ w - 1), by have := Nat.two_pow_pos w; omega⟩

theorem satAdd_val (a b : Fin (2 ^ w)) : (satAdd a b).val = min (a.val + b.val) (2 ^ w - 1) := rfl

theorem satSub_val (a b : Fin (2 ^ w)) : (satSub a b).val = a.val - b.val := rfl

theorem satMul_val (a b : Fin (2 ^ w)) : (satMul a b).val = min (a.val * b.val) (2 ^ w - 1) := rfl

theorem satAdd_le (a b : Fin (2 ^ w)) : (satAdd a b).val ≤ a.val + b.val := Nat.min_le_left _ _

theorem le_satAdd (a b : Fin (2 ^ w)) : a.val ≤ (satAdd a b).val := by
  have := a.isLt
  simp only [satAdd_val]
  omega

theorem satMul_le (a b : Fin (2 ^ w)) : (satMul a b).val ≤ a.val * b.val := Nat.min_le_left _ _

end Saturating

/-! ## Checked operations -/

section Checked

variable {w : Nat}

def add (a b : Fin (2 ^ w)) : Exec (Fin (2 ^ w)) :=
  if h : a.val + b.val < 2 ^ w then .ok ⟨a.val + b.val, h⟩ else .error .addOverflow

def sub (a b : Fin (2 ^ w)) : Exec (Fin (2 ^ w)) :=
  if b.val ≤ a.val then .ok ⟨a.val - b.val, by omega⟩ else .error .subOverflow

def mul (a b : Fin (2 ^ w)) : Exec (Fin (2 ^ w)) :=
  if h : a.val * b.val < 2 ^ w then .ok ⟨a.val * b.val, h⟩ else .error .mulOverflow

def div (a b : Fin (2 ^ w)) : Exec (Fin (2 ^ w)) :=
  if b.val = 0 then .error .divByZero
  else .ok ⟨a.val / b.val, Nat.lt_of_le_of_lt (Nat.div_le_self _ _) a.isLt⟩

/-- `a >> n`; shifting by the width or more aborts. -/
def shr (a : Fin (2 ^ w)) (n : Nat) : Exec (Fin (2 ^ w)) :=
  if n < w then .ok ⟨a.val / 2 ^ n, Nat.lt_of_le_of_lt (Nat.div_le_self _ _) a.isLt⟩
  else .error .shlOverflow

/-- The sum an iterator computes: checked after every element. -/
def sum : List (Fin (2 ^ w)) → Exec (Fin (2 ^ w))
  | xs => xs.foldlM add ⟨0, Nat.two_pow_pos w⟩

theorem add_eq_ok {a b c : Fin (2 ^ w)} : add a b = .ok c ↔ c.val = a.val + b.val := by
  unfold add
  split
  · rw [Except.ok.injEq, Fin.ext_iff]
    exact eq_comm
  · have := c.isLt
    constructor
    · intro h; cases h
    · intro h; omega

theorem sub_eq_ok {a b c : Fin (2 ^ w)} : sub a b = .ok c ↔ c.val + b.val = a.val := by
  unfold sub
  split
  · rw [Except.ok.injEq, Fin.ext_iff]
    constructor <;> intro h <;> simp only at h ⊢ <;> omega
  · constructor
    · intro h; cases h
    · intro h; omega

theorem mul_eq_ok {a b c : Fin (2 ^ w)} : mul a b = .ok c ↔ c.val = a.val * b.val := by
  unfold mul
  split
  · rw [Except.ok.injEq, Fin.ext_iff]
    exact eq_comm
  · have := c.isLt
    constructor
    · intro h; cases h
    · intro h; omega

theorem div_eq_ok {a b c : Fin (2 ^ w)} :
    div a b = .ok c ↔ b.val ≠ 0 ∧ c.val = a.val / b.val := by
  unfold div
  split
  · rename_i hb
    simp [hb]
  · rename_i hb
    rw [Except.ok.injEq, Fin.ext_iff]
    exact ⟨fun h => ⟨hb, h.symm⟩, fun h => h.2.symm⟩

theorem add_isOk {a b : Fin (2 ^ w)} (h : a.val + b.val < 2 ^ w) : ∃ c, add a b = .ok c :=
  ⟨⟨a.val + b.val, h⟩, dif_pos h⟩

theorem sub_isOk {a b : Fin (2 ^ w)} (h : b ≤ a) : ∃ c, sub a b = .ok c := ⟨_, if_pos h⟩

theorem div_isOk (a : Fin (2 ^ w)) {b : Fin (2 ^ w)} (h : b.val ≠ 0) : ∃ c, div a b = .ok c := by
  simp [div, h]

theorem shr_eq_ok {a c : Fin (2 ^ w)} {n : Nat} :
    shr a n = .ok c ↔ n < w ∧ c.val = a.val / 2 ^ n := by
  unfold shr
  split
  · rename_i hn
    rw [Except.ok.injEq, Fin.ext_iff]
    exact ⟨fun h => ⟨hn, h.symm⟩, fun h => h.2.symm⟩
  · rename_i hn
    simp [hn]

private theorem foldlM_add_eq_ok (xs : List (Fin (2 ^ w))) (a c : Fin (2 ^ w)) :
    xs.foldlM add a = .ok c ↔ c.val = a.val + (xs.map Fin.val).sum := by
  induction xs generalizing a with
  | nil =>
    rw [List.foldlM_nil, pure_eq_ok, Fin.ext_iff]
    simp only [List.map_nil, List.sum_nil, Nat.add_zero]
    exact eq_comm
  | cons x xs ih =>
    rw [List.foldlM_cons, bind_eq_ok]
    simp only [add_eq_ok, ih, List.map_cons, List.sum_cons]
    constructor
    · rintro ⟨b, hb, hc⟩
      omega
    · intro h
      have hlt : a.val + x.val < 2 ^ w := by have := c.isLt; omega
      exact ⟨⟨a.val + x.val, hlt⟩, rfl, by simp only; omega⟩

theorem sum_eq_ok {xs : List (Fin (2 ^ w))} {c : Fin (2 ^ w)} :
    sum xs = .ok c ↔ c.val = (xs.map Fin.val).sum := by
  rw [sum, foldlM_add_eq_ok]
  simp

end Checked

/-- Widening conversion `a as u128` of a narrower word. -/
def widen {v w : Nat} (h : v ≤ w) (a : Fin (2 ^ v)) : Fin (2 ^ w) :=
  ⟨a.val, Nat.lt_of_lt_of_le a.isLt (Nat.pow_le_pow_right (by omega) h)⟩

@[simp] theorem widen_val {v w : Nat} (h : v ≤ w) (a : Fin (2 ^ v)) : (widen h a).val = a.val := rfl

/-- Truncating conversion of a natural number into a word. -/
def truncate (w n : Nat) : Fin (2 ^ w) := ⟨n % 2 ^ w, Nat.mod_lt _ (Nat.two_pow_pos w)⟩

/-! ## Loops that thread a state and may abort -/

/-- What every iteration preserves, a loop that returns preserves. -/
theorem foldlM_invariant {α σ : Type} (P : σ → Prop) (f : σ → α → Exec σ) (xs : List α)
    (step : ∀ s s' x, x ∈ xs → P s → f s x = .ok s' → P s') {s s' : σ}
    (h0 : P s) (h : xs.foldlM f s = .ok s') : P s' := by
  induction xs generalizing s with
  | nil =>
    simp only [List.foldlM_nil, pure_eq_ok] at h
    exact h ▸ h0
  | cons x xs ih =>
    rw [List.foldlM_cons, bind_eq_ok] at h
    obtain ⟨t, ht, hrest⟩ := h
    exact ih (fun s s' y hy => step s s' y (by simp [hy])) (step s t x (by simp) h0 ht) hrest

/-- Every element of a loop that returns was met by an iteration that returned. -/
theorem foldlM_mem {α σ : Type} {f : σ → α → Exec σ} {xs : List α} {s s' : σ}
    (h : xs.foldlM f s = .ok s') {x : α} (hx : x ∈ xs) : ∃ t t', f t x = .ok t' := by
  induction xs generalizing s with
  | nil => cases hx
  | cons y ys ih =>
    rw [List.foldlM_cons, bind_eq_ok] at h
    obtain ⟨t, ht, hrest⟩ := h
    rcases List.mem_cons.mp hx with rfl | hx
    · exact ⟨s, t, ht⟩
    · exact ih hrest hx

/-- `P` holds of each element in the state in which the loop meets it. -/
def Each {α σ : Type} (f : σ → α → Exec σ) (P : σ → α → Prop) : σ → List α → Prop
  | _, [] => True
  | s, x :: xs => P s x ∧ ∀ s', f s x = .ok s' → Each f P s' xs

theorem foldlM_each {α σ : Type} {P : σ → α → Prop} (Q : σ → Prop) {f : σ → α → Exec σ} {xs : List α}
    (step : ∀ s s' x, P s x → Q s → f s x = .ok s' → Q s') {s s' : σ} (hp : Each f P s xs)
    (h0 : Q s) (h : xs.foldlM f s = .ok s') : Q s' := by
  induction xs generalizing s with
  | nil =>
    simp only [List.foldlM_nil, pure_eq_ok] at h
    exact h ▸ h0
  | cons x xs ih =>
    rw [List.foldlM_cons, bind_eq_ok] at h
    obtain ⟨t, ht, hrest⟩ := h
    exact ih (hp.2 t ht) (step s t x hp.1 h0 ht) hrest

/-! ## Computations that return -/

/-- The computation ends without a panic. -/
def Returns {α : Type} (x : Exec α) : Prop := ∃ a, x = .ok a

section Returns

variable {α β σ : Type} {w : Nat}

@[simp] theorem returns_pure (a : α) : Returns (pure a : Exec α) := ⟨a, rfl⟩

theorem returns_bind {x : Exec α} {f : α → Exec β} :
    Returns (x >>= f) ↔ ∃ a, x = .ok a ∧ Returns (f a) := by
  simp only [Returns, bind_eq_ok]
  constructor
  · rintro ⟨b, a, hx, hf⟩
    exact ⟨a, hx, b, hf⟩
  · rintro ⟨a, hx, b, hf⟩
    exact ⟨b, a, hx, hf⟩

theorem Returns.bind {x : Exec α} {f : α → Exec β} (hx : Returns x)
    (hf : ∀ a, x = .ok a → Returns (f a)) : Returns (x >>= f) := by
  obtain ⟨a, ha⟩ := hx
  exact returns_bind.mpr ⟨a, ha, hf a ha⟩

theorem Returns.of_bind {x : Exec α} {f : α → Exec β} (h : Returns (x >>= f)) : Returns x := by
  obtain ⟨a, ha, -⟩ := returns_bind.mp h
  exact ⟨a, ha⟩

theorem returns_map {x : Exec α} {f : α → β} : Returns (f <$> x) ↔ Returns x := by
  cases x with
  | ok a => exact iff_of_true ⟨_, rfl⟩ ⟨_, rfl⟩
  | error p => exact iff_of_false (fun ⟨_, h⟩ => by cases h) (fun ⟨_, h⟩ => by cases h)

/-- What comes after always returns. -/
theorem returns_bind_of {x : Exec α} {f : α → Exec β} (hf : ∀ a, Returns (f a)) :
    Returns (x >>= f) ↔ Returns x :=
  ⟨Returns.of_bind, fun h => h.bind fun a _ => hf a⟩

theorem returns_add {a b : Fin (2 ^ w)} : Returns (add a b) ↔ a.val + b.val < 2 ^ w :=
  ⟨fun ⟨c, hc⟩ => add_eq_ok.mp hc ▸ c.isLt, add_isOk⟩

theorem returns_mul {a b : Fin (2 ^ w)} : Returns (mul a b) ↔ a.val * b.val < 2 ^ w := by
  constructor
  · rintro ⟨c, hc⟩
    rw [← mul_eq_ok.mp hc]
    exact c.isLt
  · intro h
    exact ⟨⟨a.val * b.val, h⟩, mul_eq_ok.mpr rfl⟩

theorem returns_sum {xs : List (Fin (2 ^ w))} : Returns (sum xs) ↔ (xs.map Fin.val).sum < 2 ^ w := by
  constructor
  · rintro ⟨c, hc⟩
    rw [← sum_eq_ok.mp hc]
    exact c.isLt
  · intro h
    exact ⟨⟨(xs.map Fin.val).sum, h⟩, sum_eq_ok.mpr rfl⟩

theorem returns_shr {a : Fin (2 ^ w)} {n : Nat} : Returns (shr a n) ↔ n < w :=
  ⟨fun ⟨_, hc⟩ => (shr_eq_ok.mp hc).1, fun h => ⟨_, if_pos h⟩⟩

/-- A loop returns exactly when every iteration does in the state in which it is met. -/
theorem returns_foldlM {f : σ → α → Exec σ} {P : σ → α → Prop} {xs : List α}
    (hf : ∀ s, ∀ x ∈ xs, Returns (f s x) ↔ P s x) (s : σ) : Returns (xs.foldlM f s) ↔ Each f P s xs := by
  induction xs generalizing s with
  | nil => exact iff_of_true (returns_pure s) trivial
  | cons x xs ih =>
    have hrest := ih (fun s y hy => hf s y (List.mem_cons_of_mem x hy))
    rw [List.foldlM_cons, returns_bind, Each]
    constructor
    · rintro ⟨t, ht, hxs⟩
      refine ⟨(hf s x List.mem_cons_self).mp ⟨t, ht⟩, fun t' ht' => ?_⟩
      obtain rfl := Except.ok.inj (ht.symm.trans ht')
      exact (hrest t).mp hxs
    · rintro ⟨hx, hxs⟩
      obtain ⟨t, ht⟩ := (hf s x List.mem_cons_self).mpr hx
      exact ⟨t, ht, (hrest t).mpr (hxs t ht)⟩

end Returns

/-- A loop commutes with a map of its state when every iteration does. -/
theorem foldlM_map_state {α σ : Type} {f : σ → α → Exec σ} {φ : σ → σ}
    (step : ∀ s x, f (φ s) x = φ <$> f s x) (xs : List α) (s : σ) :
    xs.foldlM f (φ s) = φ <$> xs.foldlM f s := by
  induction xs generalizing s with
  | nil => rfl
  | cons x xs ih =>
    rw [List.foldlM_cons, List.foldlM_cons, step]
    cases f s x with
    | error p => rfl
    | ok t => exact ih t

/-- A loop whose iterations return exactly under a condition on the element, and then compute `g`,
returns exactly when the condition holds of all elements. -/
theorem foldlM_eq_ok {α σ : Type} {f : σ → α → Exec σ} {g : σ → α → σ} {P : α → Prop}
    (hf : ∀ s x s', f s x = .ok s' ↔ P x ∧ s' = g s x) (xs : List α) (s s' : σ) :
    xs.foldlM f s = .ok s' ↔ (∀ x ∈ xs, P x) ∧ s' = xs.foldl g s := by
  induction xs generalizing s with
  | nil =>
    rw [List.foldlM_nil, pure_eq_ok]
    simp [eq_comm]
  | cons x xs ih =>
    rw [List.foldlM_cons, bind_eq_ok]
    simp only [hf, ih, List.forall_mem_cons, List.foldl_cons]
    constructor
    · rintro ⟨t, ⟨hx, rfl⟩, hxs, rfl⟩
      exact ⟨⟨hx, hxs⟩, rfl⟩
    · rintro ⟨⟨hx, hxs⟩, rfl⟩
      exact ⟨_, ⟨hx, rfl⟩, hxs, rfl⟩

end Machine
