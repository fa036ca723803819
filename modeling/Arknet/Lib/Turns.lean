import Mathlib

/-!
Taking turns: the members of a list one after the other, over and over. In a number of turns that is a
multiple of the length everyone has the same share, and a group keeps the others waiting for at most one
turn of each of its members.
-/

namespace Turns

variable {α : Type} (l : List α)

/-- Whose turn it is. -/
def turn (i : Nat) : Option α := l[i % l.length]?

/-- The next `m` turns from turn `r` on. -/
def window (r m : Nat) : List α := (List.range m).filterMap fun i => turn l (r + i)

variable {l}

theorem turn_isSome (h : l ≠ []) (i : Nat) : (turn l i).isSome := by
  have hpos := List.length_pos_iff.mpr h
  simp [turn, Nat.mod_lt i hpos]

theorem window_add (r m n : Nat) : window l r (m + n) = window l r m ++ window l (r + m) n := by
  rw [window, List.range_add, List.filterMap_append, List.filterMap_map]
  simp only [window, Function.comp_def, Nat.add_assoc]

/-- Fewer turns than members are a part of one round. -/
theorem window_eq_take {r m : Nat} (h : m ≤ l.length) : window l r m = (l.rotate r).take m := by
  induction m with
  | zero => rfl
  | succ m ih =>
    have hm : m < (l.rotate r).length := by
      rw [List.length_rotate]
      omega
    have hnext : window l (r + m) 1 = [(l.rotate r)[m]] := by
      have hmod : (r + m) % l.length < l.length := Nat.mod_lt _ (by omega)
      rw [List.getElem_rotate]
      simp [window, turn, Nat.add_comm m r, List.getElem?_eq_getElem hmod]
    rw [window_add, ih (by omega), hnext, List.take_append_getElem hm]

theorem window_round (r : Nat) : window l r l.length = l.rotate r := by
  rw [window_eq_take le_rfl, List.take_of_length_le (by rw [List.length_rotate])]

/-- Everyone has the same share of any number of whole rounds. -/
theorem count_window [DecidableEq α] (r k : Nat) (a : α) :
    (window l r (k * l.length)).count a = k * l.count a := by
  induction k with
  | zero => simp [window]
  | succ k ih =>
    rw [Nat.succ_mul, window_add, List.count_append, ih, window_round, (List.rotate_perm l _).count_eq a,
      Nat.succ_mul]

/-- A group does not keep the turn longer than it has members. -/
theorem exists_turn_outside (p : α → Prop) [DecidablePred p] (r : Nat) (h : ∃ a ∈ l, ¬ p a) :
    ∃ i ≤ l.countP p, ∃ a, turn l (r + i) = some a ∧ ¬ p a := by
  by_contra hnone
  push Not at hnone
  obtain ⟨a, ha, hpa⟩ := h
  have hlt : l.countP p < l.length := by
    rw [List.countP_lt_length_iff]
    exact ⟨a, ha, by simpa using hpa⟩
  have hall : ∀ b ∈ window l r (l.countP p + 1), p b := by
    intro b hb
    obtain ⟨i, hi, hturn⟩ := List.mem_filterMap.mp hb
    exact hnone i (by simpa [Nat.lt_succ_iff] using hi) b hturn
  rw [window_eq_take hlt] at hall
  have hpart := (List.take_sublist (l.countP p + 1) (l.rotate r)).countP_le (p := fun b => decide (p b))
  rw [List.countP_eq_length.mpr fun b hb => decide_eq_true (hall b hb), List.length_take, List.length_rotate,
    (List.rotate_perm l r).countP_eq] at hpart
  omega

end Turns
