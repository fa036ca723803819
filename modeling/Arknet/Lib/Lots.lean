import Mathlib.Data.Finsupp.Weight

/-!
An amount as lots: how much of it came in under each tag. What comes in forms a lot under the current tag;
what goes out is taken from any lots whatever, so that a statement about every way of taking it does not
depend on an order in which units leave.
-/

namespace Lots

variable {α : Type} {tag a : α} {n n' : ℕ} {lots lots' : α →₀ ℕ}

/-- The amount goes from `n` to `n'`, and the lots with it. -/
def Moves (tag : α) (n n' : ℕ) (lots lots' : α →₀ ℕ) : Prop :=
  if n ≤ n' then lots' = lots + Finsupp.single tag (n' - n) else lots' ≤ lots ∧ lots'.degree = n'

theorem Moves.gained (h : Moves tag n n' lots lots') (hle : n ≤ n') :
    lots' = lots + Finsupp.single tag (n' - n) := (if_pos hle).mp h

theorem Moves.degree (h : Moves tag n n' lots lots') (hlots : lots.degree = n) : lots'.degree = n' := by
  unfold Moves at h
  split_ifs at h with hle
  · rw [h, map_add, Finsupp.degree_single, hlots]
    omega
  · exact h.2

/-- There is always a way. -/
theorem exists_moves (tag : α) (hlots : lots.degree = n) (n' : ℕ) : ∃ lots', Moves tag n n' lots lots' := by
  by_cases hle : n ≤ n'
  · exact ⟨_, (if_pos hle).mpr rfl⟩
  · obtain ⟨lots', hsub, hdegree⟩ := Finsupp.exists_le_degree_eq lots n' (by omega)
    exact ⟨lots', (if_neg hle).mpr ⟨hsub, hdegree⟩⟩

/-- What is there was there, or came in now. -/
theorem Moves.pos (h : Moves tag n n' lots lots') (ha : 0 < lots' a) : 0 < lots a ∨ (a = tag ∧ n < n') := by
  unfold Moves at h
  split_ifs at h with hle
  · rw [h, Finsupp.add_apply] at ha
    by_cases hat : a = tag
    · subst hat
      rw [Finsupp.single_eq_same] at ha
      by_cases hold : 0 < lots a
      · exact .inl hold
      · exact .inr ⟨rfl, by omega⟩
    · rw [Finsupp.single_eq_of_ne hat] at ha
      exact .inl ha
  · exact .inl (Nat.lt_of_lt_of_le ha (h.1 a))

/-- Lots shrink only where the amount does. -/
theorem Moves.lost (h : Moves tag n n' lots lots') (ha : lots' a < lots a) : n' < n := by
  unfold Moves at h
  split_ifs at h with hle
  · rw [h, Finsupp.add_apply] at ha
    omega
  · omega

/-- Nothing is left of any lot when nothing is left. -/
theorem eq_zero_of_degree (hlots : lots.degree = 0) : lots = 0 := (Finsupp.degree_eq_zero_iff lots).mp hlots

end Lots
