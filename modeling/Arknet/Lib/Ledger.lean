import Mathlib

/-!
Amounts booked to numbered buckets of accounts, and two views of such a ledger: what is booked to single
buckets, and what is booked up to a bucket. When amounts move only to later buckets, the second view can
only fall behind.
-/

namespace Ledger

structure Entry (α : Type) where
  account : α
  bucket : Nat
  amount : Nat

variable {α : Type} [DecidableEq α]

/-- What the entry books to the buckets in `p` of an account. -/
def Entry.share (p : Nat → Bool) (a : α) (e : Entry α) : Nat :=
  if e.account = a ∧ p e.bucket then e.amount else 0

/-- What is booked to the buckets in `p` of an account. -/
def booked (p : Nat → Bool) (a : α) (entries : List (Entry α)) : Nat :=
  (entries.map (Entry.share p a)).sum

def bookedAt (k : Nat) : α → List (Entry α) → Nat := booked (fun i => decide (i = k))

def bookedUpTo (k : Nat) : α → List (Entry α) → Nat := booked (fun i => decide (i ≤ k))

section

variable {p : Nat → Bool} {a : α} {entries entries' : List (Entry α)} {e : Entry α}

@[simp] theorem booked_nil : booked p a [] = 0 := rfl

theorem booked_cons : booked p a (e :: entries) = e.share p a + booked p a entries := by
  simp [booked]

theorem booked_append : booked p a (entries ++ entries') = booked p a entries + booked p a entries' := by
  simp [booked]

theorem booked_snoc : booked p a (entries ++ [e]) = booked p a entries + e.share p a := by
  rw [booked_append, booked_cons, booked_nil, Nat.add_zero]

theorem booked_perm (h : entries.Perm entries') : booked p a entries = booked p a entries' :=
  (h.map _).sum_eq

theorem bookedUpTo_zero : bookedUpTo 0 a entries = bookedAt 0 a entries := by
  simp [bookedUpTo, bookedAt]

theorem bookedUpTo_succ (k : Nat) :
    bookedUpTo (k + 1) a entries = bookedUpTo k a entries + bookedAt (k + 1) a entries := by
  induction entries with
  | nil => rfl
  | cons e entries ih =>
    simp only [bookedUpTo, bookedAt, booked_cons, Entry.share, decide_eq_true_eq] at ih ⊢
    rw [ih]
    by_cases ha : e.account = a
    · simp only [ha, true_and]
      split_ifs
      all_goals omega
    · simp only [ha, false_and, ↓reduceIte]
      omega

/-- Two ledgers that agree on the buckets up to one agree on what is booked up to it. -/
theorem bookedUpTo_congr {k : Nat} (h : ∀ i ≤ k, bookedAt i a entries = bookedAt i a entries') :
    bookedUpTo k a entries = bookedUpTo k a entries' := by
  induction k with
  | zero =>
    rw [bookedUpTo_zero, bookedUpTo_zero]
    exact h 0 (Nat.le_refl _)
  | succ k ih =>
    rw [bookedUpTo_succ, bookedUpTo_succ, ih fun i hi => h i (Nat.le_succ_of_le hi), h (k + 1) (Nat.le_refl _)]

end

/-! ## Falling behind

A ledger is compared with one that books single units, where units arrive at a bucket and amounts that
are already booked may be carried along to it. -/

section

variable {a : α} {b : α} {k i j n n' : Nat}

/-- An amount carried to a bucket that is not earlier, with the new unit or without it, takes nothing more
to any bucket up to `k` than the unit does. -/
theorem share_carried (hij : i ≤ j) (hn : n' ≤ n + 1) :
    (Entry.mk b j n').share (fun x => decide (x ≤ k)) a ≤
      (Entry.mk b i n).share (fun x => decide (x ≤ k)) a +
        (Entry.mk b j 1).share (fun x => decide (x ≤ k)) a := by
  simp only [Entry.share, decide_eq_true_eq]
  by_cases ha : b = a
  · simp only [ha, true_and]
    split_ifs
    all_goals omega
  · simp only [ha, false_and, ↓reduceIte]
    omega

/-- It is short at the bucket it leaves when that is a different one. -/
theorem share_carried_lt (b : α) (n' : Nat) (hij : i < j) (hpos : 0 < n) :
    (Entry.mk b j n').share (fun x => decide (x ≤ i)) b <
      (Entry.mk b i n).share (fun x => decide (x ≤ i)) b +
        (Entry.mk b j 1).share (fun x => decide (x ≤ i)) b := by
  simp only [Entry.share, decide_eq_true_eq, true_and]
  rw [if_neg (by omega), if_pos (Nat.le_refl _)]
  omega

/-- It is short where it is when the unit is not added. -/
theorem share_lost_lt (hn : n' ≤ n) :
    (Entry.mk b i n').share (fun x => decide (x ≤ i)) b <
      (Entry.mk b i n).share (fun x => decide (x ≤ i)) b +
        (Entry.mk b i 1).share (fun x => decide (x ≤ i)) b := by
  simp only [Entry.share, decide_eq_true_eq, true_and]
  rw [if_pos (Nat.le_refl _), if_pos (Nat.le_refl _), if_pos (Nat.le_refl _)]
  omega

theorem share_added (p : Nat → Bool) (a b : α) (i n : Nat) :
    (Entry.mk b i (n + 1)).share p a = (Entry.mk b i n).share p a + (Entry.mk b i 1).share p a := by
  simp only [Entry.share]
  split_ifs
  · rfl
  · rfl

end

end Ledger
