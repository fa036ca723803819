import Mathlib.Data.List.Basic

/-!
Bounded channels: a queue that is read at one end, written at the other, and never longer than its
capacity. Sending does not wait; it fails when there is no room.
-/

/-- Messages on their way, oldest first. -/
structure Channel (α : Type) (capacity : Nat) where
  queue : List α
  fits : queue.length ≤ capacity

namespace Channel

variable {α : Type} {capacity : Nat}

def empty : Channel α capacity := ⟨[], Nat.zero_le capacity⟩

theorem snoc_fits {queue : List α} {a : α} (h : queue.length < capacity) :
    (queue ++ [a]).length ≤ capacity := by
  rw [List.length_append, List.length_singleton]
  exact h

theorem tail_fits {queue : List α} {a : α} (h : (a :: queue).length ≤ capacity) :
    queue.length ≤ capacity := Nat.le_of_succ_le h

def trySend (c : Channel α capacity) (a : α) : Option (Channel α capacity) :=
  if h : c.queue.length < capacity then some ⟨c.queue ++ [a], snoc_fits h⟩ else none

def recv : Channel α capacity → Option (α × Channel α capacity)
  | ⟨[], _⟩ => none
  | ⟨a :: rest, h⟩ => some (a, ⟨rest, tail_fits h⟩)

@[simp] theorem queue_empty : (empty : Channel α capacity).queue = [] := rfl

theorem trySend_eq_some {c c' : Channel α capacity} {a : α} :
    c.trySend a = some c' ↔ c.queue.length < capacity ∧ c'.queue = c.queue ++ [a] := by
  unfold trySend
  split
  · rename_i h
    rw [Option.some.injEq]
    constructor
    · rintro rfl
      exact ⟨h, rfl⟩
    · rintro ⟨-, hq⟩
      cases c'
      cases hq
      rfl
  · rename_i h
    exact iff_of_false (by simp) (fun hs => h hs.1)

theorem trySend_eq_none {c : Channel α capacity} {a : α} :
    c.trySend a = none ↔ c.queue.length = capacity := by
  unfold trySend
  split
  · rename_i h
    exact iff_of_false (by simp) (fun heq => Nat.ne_of_lt h heq)
  · rename_i h
    exact iff_of_true rfl (Nat.le_antisymm c.fits (Nat.le_of_not_lt h))

theorem recv_eq_some {c c' : Channel α capacity} {a : α} :
    c.recv = some (a, c') ↔ c.queue = a :: c'.queue := by
  cases c with
  | mk queue fits =>
    cases queue with
    | nil => simp [recv]
    | cons b rest =>
      cases c'
      simp [recv]

theorem recv_eq_none {c : Channel α capacity} : c.recv = none ↔ c.queue = [] := by
  cases c with
  | mk queue fits =>
    cases queue with
    | nil => simp [recv]
    | cons b rest => simp [recv]

end Channel
