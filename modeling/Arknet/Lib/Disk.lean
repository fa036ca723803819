import Mathlib.Logic.Function.Basic

/-!
A directory of named files. A name leads to a file by its number, and an open handle is such a number:
it keeps its file when the name is removed, renamed or taken by another file. Appending through a
handle changes the file wherever it is named.
-/

structure Disk (ν : Type) where
  names : ν → Option Nat
  files : Nat → List UInt8
  /-- The number of the file that is created next. -/
  next : Nat
  below : ∀ n i, names n = some i → i < next

namespace Disk

variable {ν : Type} [DecidableEq ν]

/-- No file at all. -/
def blank : Disk ν := ⟨fun _ => none, fun _ => [], 0, fun _ _ h => by cases h⟩

/-- What is under a name. -/
def read (d : Disk ν) (n : ν) : Option (List UInt8) := (d.names n).map d.files

/-- Open for appending, creating an empty file where there is none. -/
def openAppend (d : Disk ν) (n : ν) : Disk ν × Nat :=
  match d.names n with
  | some i => (d, i)
  | none =>
    ({ names := Function.update d.names n (some d.next)
       files := Function.update d.files d.next []
       next := d.next + 1
       below := by
        intro m i h
        by_cases hm : m = n
        · subst hm
          rw [Function.update_self] at h
          obtain rfl := Option.some.inj h
          exact Nat.lt_succ_self _
        · rw [Function.update_of_ne hm] at h
          exact Nat.lt_succ_of_lt (d.below m i h) }, d.next)

/-- Append through a handle. -/
def append (d : Disk ν) (i : Nat) (bs : List UInt8) : Disk ν :=
  { d with files := Function.update d.files i (d.files i ++ bs) }

/-- Remove a name; there has to be a file under it. -/
def unlink (d : Disk ν) (n : ν) : Option (Disk ν) :=
  match d.names n with
  | none => none
  | some _ => some
    { d with
      names := Function.update d.names n none
      below := by
        intro m i h
        by_cases hm : m = n
        · subst hm
          rw [Function.update_self] at h
          cases h
        · rw [Function.update_of_ne hm] at h
          exact d.below m i h }

/-- Move a file to another name, over whatever is there. -/
def rename (d : Disk ν) (src dst : ν) : Option (Disk ν) :=
  match h : d.names src with
  | none => none
  | some i => some
    { d with
      names := Function.update (Function.update d.names dst (some i)) src none
      below := by
        intro m j hm
        by_cases hs : m = src
        · subst hs
          rw [Function.update_self] at hm
          cases hm
        · rw [Function.update_of_ne hs] at hm
          by_cases hd : m = dst
          · subst hd
            rw [Function.update_self] at hm
            obtain rfl := Option.some.inj hm
            exact d.below src i h
          · rw [Function.update_of_ne hd] at hm
            exact d.below m j hm }

variable {d d' : Disk ν} {n m : ν} {i : Nat} {bs : List UInt8}

omit [DecidableEq ν] in
theorem append_names (d : Disk ν) (i : Nat) (bs : List UInt8) : (d.append i bs).names = d.names := rfl

omit [DecidableEq ν] in
theorem append_next (d : Disk ν) (i : Nat) (bs : List UInt8) : (d.append i bs).next = d.next := rfl

omit [DecidableEq ν] in
theorem append_files_self (d : Disk ν) (i : Nat) (bs : List UInt8) :
    (d.append i bs).files i = d.files i ++ bs := Function.update_self ..

omit [DecidableEq ν] in
theorem append_files_ne (d : Disk ν) {j : Nat} (h : j ≠ i) (bs : List UInt8) :
    (d.append i bs).files j = d.files j := Function.update_of_ne h ..

theorem openAppend_of_some (h : d.names n = some i) : d.openAppend n = (d, i) := by
  unfold openAppend
  rw [h]

/-- Opening a name that leads nowhere makes a new, empty file. -/
theorem openAppend_of_none (h : d.names n = none) :
    (d.openAppend n).2 = d.next ∧ (d.openAppend n).1.next = d.next + 1 ∧
      (d.openAppend n).1.names = Function.update d.names n (some d.next) ∧
      (d.openAppend n).1.files = Function.update d.files d.next [] := by
  unfold openAppend
  rw [h]
  exact ⟨rfl, rfl, rfl, rfl⟩

/-- The name leads to the handle. -/
theorem openAppend_names (d : Disk ν) (n : ν) :
    (d.openAppend n).1.names n = some (d.openAppend n).2 := by
  cases h : d.names n with
  | some i => rw [openAppend_of_some h, h]
  | none =>
    obtain ⟨h₁, -, h₂, -⟩ := openAppend_of_none h
    rw [h₁, h₂, Function.update_self]

/-- Other names lead where they led, to what was there. -/
theorem openAppend_other (d : Disk ν) (h : m ≠ n) : (d.openAppend n).1.names m = d.names m ∧
    ∀ j, d.names m = some j → (d.openAppend n).1.files j = d.files j := by
  cases hn : d.names n with
  | some i =>
    rw [openAppend_of_some hn]
    exact ⟨rfl, fun _ _ => rfl⟩
  | none =>
    obtain ⟨-, -, h₂, h₃⟩ := openAppend_of_none hn
    rw [h₂, h₃]
    refine ⟨Function.update_of_ne h .., fun j hj => ?_⟩
    exact Function.update_of_ne (Nat.ne_of_lt (d.below m j hj)) ..

theorem openAppend_next (d : Disk ν) (n : ν) : d.next ≤ (d.openAppend n).1.next := by
  cases h : d.names n with
  | some i => exact Nat.le_of_eq (congrArg (fun o => o.1.next) (openAppend_of_some h)).symm
  | none =>
    rw [(openAppend_of_none h).2.1]
    exact Nat.le_succ _

theorem unlink_eq_some (h : d.unlink n = some d') :
    d'.names = Function.update d.names n none ∧ d'.files = d.files ∧ d'.next = d.next := by
  unfold unlink at h
  split at h
  · cases h
  · obtain rfl := Option.some.inj h
    exact ⟨rfl, rfl, rfl⟩

theorem rename_of_some (h : d.names n = some i) (m : ν) : ∃ d', d.rename n m = some d' := by
  unfold rename
  split
  · rename_i hnone
    rw [h] at hnone
    cases hnone
  · exact ⟨_, rfl⟩

theorem rename_eq_some (h : d.rename n m = some d') : ∃ i, d.names n = some i ∧
    d'.names = Function.update (Function.update d.names m (some i)) n none ∧ d'.files = d.files ∧
      d'.next = d.next := by
  unfold rename at h
  split at h
  · cases h
  · rename_i i hi
    obtain rfl := Option.some.inj h
    exact ⟨i, hi, rfl, rfl, rfl⟩

end Disk
