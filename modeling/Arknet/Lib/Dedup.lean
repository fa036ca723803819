import Mathlib.Data.List.Induction
import Mathlib.Data.List.Dedup

/-!
The first occurrences in a stream and its last few items: what a receiver that is to take every item
once needs to know, and what it knows when its memory is a queue of bounded length.
-/

namespace Dedup

variable {ι κ : Type} {l : List ι} {i : ι} {n : Nat}

/-- The items of the stream in the order in which they came first. -/
def firsts [DecidableEq ι] (l : List ι) : List ι :=
  l.foldl (fun seen i => if i ∈ seen then seen else seen ++ [i]) []

theorem firsts_snoc [DecidableEq ι] (l : List ι) (i : ι) :
    firsts (l ++ [i]) = if i ∈ firsts l then firsts l else firsts l ++ [i] := by
  rw [firsts, List.foldl_append]
  rfl

theorem mem_firsts [DecidableEq ι] : i ∈ firsts l ↔ i ∈ l := by
  induction l using List.reverseRecOn generalizing i with
  | nil => simp [firsts]
  | append_singleton l j ih =>
    rw [firsts_snoc]
    split
    · rename_i hj
      rw [ih] at hj ⊢
      simp only [List.mem_append, List.mem_singleton]
      constructor
      · exact .inl
      · rintro (h | rfl)
        · exact h
        · exact hj
    · simp [ih]

/-- The last `n` items. -/
def lastN (n : Nat) (l : List ι) : List ι := l.drop (l.length - n)

theorem length_lastN : (lastN n l).length = min n l.length := by
  simp [lastN]
  omega

/-- A queue of length `n` that loses its oldest item when it is full holds the last `n`. -/
theorem lastN_snoc (hn : 0 < n) :
    lastN n (l ++ [i]) =
      (if n ≤ (lastN n l).length then (lastN n l).tail else lastN n l) ++ [i] := by
  rw [length_lastN]
  simp only [lastN, List.length_append, List.length_singleton]
  rw [List.drop_append_of_le_length (by omega)]
  split
  · rename_i hfull
    rw [List.tail_drop, show l.length + 1 - n = l.length - n + 1 by omega]
  · rename_i hroom
    rw [show l.length + 1 - n = 0 by omega, show l.length - n = 0 by omega]

/-- What a receiver takes in that remembers its last `n` items and leaves out those it remembers. -/
def recorded [DecidableEq ι] (n : Nat) (l : List ι) : List ι :=
  l.foldl (fun taken i => if i ∈ lastN n taken then taken else taken ++ [i]) []

theorem recorded_snoc [DecidableEq ι] (n : Nat) (l : List ι) (i : ι) :
    recorded n (l ++ [i]) =
      if i ∈ lastN n (recorded n l) then recorded n l else recorded n l ++ [i] := by
  rw [recorded, List.foldl_append]
  rfl

/-- Different items are all taken in. -/
theorem recorded_of_nodup [DecidableEq ι] (n : Nat) (h : l.Nodup) : recorded n l = l := by
  induction l using List.reverseRecOn with
  | nil => rfl
  | append_singleton l i ih =>
    rw [List.nodup_append] at h
    have hnew : i ∉ lastN n l := fun hmem =>
      h.2.2 i (List.mem_of_mem_drop hmem) i (List.mem_singleton_self i) rfl
    rw [recorded_snoc, ih h.1, if_neg hnew]

/-- As many new items as fit have pushed the first one out. -/
theorem lastN_recorded_cons [DecidableEq ι] (h : (i :: l).Nodup) (hlen : l.length = n) :
    lastN n (recorded n (i :: l)) = l := by
  rw [recorded_of_nodup n h, lastN, List.length_cons, hlen, Nat.add_sub_cancel_left, List.drop_one,
    List.tail_cons]

end Dedup
