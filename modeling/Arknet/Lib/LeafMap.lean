import Arknet.Lib.Column

/-!
The leaf map of a sparse Merkle tree. An absent leaf reads as the zero value, and a zero value that is
written removes the leaf, so no leaf of the map is zero. A list of updates is undone by writing back,
in reverse, what was read at every key before it.
-/

namespace Store

/-- The values that count as absent, one of them the value an absent leaf reads as. -/
structure Zeros (ν : Type) where
  isZero : ν → Bool
  zero : ν
  isZero_zero : isZero zero = true

/-- A leaf map without zero leaves. -/
structure LeafMap (κ : Type) {ν : Type} [LinearOrder κ] (Z : Zeros ν) where
  leaves : Column κ ν
  nonzero : ∀ k v, leaves.get k = some v → Z.isZero v = false

namespace LeafMap

variable {κ ν : Type} [LinearOrder κ] {Z : Zeros ν}

/-- What writing a value leaves at its key. -/
def stored (Z : Zeros ν) (v : ν) : Option ν := if Z.isZero v then none else some v

theorem stored_eq_some {v w : ν} : stored Z v = some w ↔ v = w ∧ Z.isZero w = false := by
  unfold stored
  split
  · rename_i hz
    simp only [reduceCtorEq, false_iff]
    rintro ⟨rfl, hn⟩
    rw [hz] at hn
    cases hn
  · rename_i hz
    constructor
    · intro h
      obtain rfl := Option.some.inj h
      exact ⟨rfl, by simpa using hz⟩
    · rintro ⟨rfl, -⟩
      rfl

def empty : LeafMap κ Z := ⟨.empty, fun k v h => by cases h⟩

def get (t : LeafMap κ Z) (k : κ) : ν := (t.leaves.get k).getD Z.zero

def update (t : LeafMap κ Z) (k : κ) (v : ν) : LeafMap κ Z where
  leaves := t.leaves.write k (stored Z v)
  nonzero := by
    intro j w h
    rw [Column.get_write] at h
    split at h
    · exact (stored_eq_some.mp h).2
    · exact t.nonzero j w h

/-- The updates, first to last. -/
def updateAll (t : LeafMap κ Z) (ws : List (κ × ν)) : LeafMap κ Z :=
  ws.foldl (fun t w => t.update w.1 w.2) t

@[simp] theorem updateAll_nil (t : LeafMap κ Z) : t.updateAll [] = t := rfl

@[simp] theorem updateAll_cons (t : LeafMap κ Z) (w : κ × ν) (ws : List (κ × ν)) :
    t.updateAll (w :: ws) = (t.update w.1 w.2).updateAll ws := rfl

theorem ext_leaves {t u : LeafMap κ Z} (h : ∀ k, t.leaves.get k = u.leaves.get k) : t = u := by
  have hleaves : t.leaves = u.leaves := Column.ext_get h
  cases t
  cases u
  cases hleaves
  rfl

/-- What a key reads as is what would restore it. -/
theorem stored_get (t : LeafMap κ Z) (k : κ) : stored Z (t.get k) = t.leaves.get k := by
  unfold get stored
  cases h : t.leaves.get k with
  | none => rw [Option.getD_none, Z.isZero_zero, if_pos rfl]
  | some v => rw [Option.getD_some, t.nonzero k v h, if_neg Bool.false_ne_true]

theorem leaves_update (t : LeafMap κ Z) (k : κ) (v : ν) (j : κ) :
    (t.update k v).leaves.get j = if k = j then stored Z v else t.leaves.get j :=
  Column.get_write _ _ _ _

theorem leaves_updateAll_of_notMem (t : LeafMap κ Z) {ws : List (κ × ν)} {k : κ}
    (h : ∀ w ∈ ws, w.1 ≠ k) : (t.updateAll ws).leaves.get k = t.leaves.get k := by
  induction ws generalizing t with
  | nil => rfl
  | cons w ws ih =>
    rw [updateAll_cons, ih _ (fun u hu => h u (by simp [hu])), leaves_update, if_neg (h w (by simp))]

/-- A key to which every update writes the same value holds it, however often it is written. -/
theorem leaves_updateAll_of_const (t : LeafMap κ Z) {ws : List (κ × ν)} {k : κ} {v : ν}
    (hmem : (k, v) ∈ ws) (hall : ∀ w ∈ ws, w.1 = k → w.2 = v) :
    (t.updateAll ws).leaves.get k = stored Z v := by
  induction ws generalizing t with
  | nil => cases hmem
  | cons w ws ih =>
    rw [updateAll_cons]
    by_cases hlater : (k, v) ∈ ws
    · exact ih _ hlater (fun u hu => hall u (by simp [hu]))
    · -- the first update is the last one of the key
      have hw : w = (k, v) := by
        rcases List.mem_cons.mp hmem with h | h
        · exact h.symm
        · exact absurd h hlater
      subst hw
      have hnone : ∀ u ∈ ws, u.1 ≠ k := by
        rintro ⟨j, u⟩ hu rfl
        have huv : u = v := hall _ (by simp [hu]) rfl
        exact hlater (huv ▸ hu)
      rw [leaves_updateAll_of_notMem _ hnone, leaves_update, if_pos rfl]

/-! ## Apply and roll back -/

/-- What the keys of the updates read as, in order. -/
def stash (t : LeafMap κ Z) (ws : List (κ × ν)) : List (κ × ν) := ws.map (fun w => (w.1, t.get w.1))

/-- Writing back the stash, last key first, undoes the updates. -/
theorem rollback (t : LeafMap κ Z) (ws : List (κ × ν)) :
    (t.updateAll ws).updateAll (t.stash ws).reverse = t := by
  apply ext_leaves
  intro k
  by_cases hk : ∃ w ∈ ws, w.1 = k
  · obtain ⟨w, hw, rfl⟩ := hk
    rw [← stored_get t w.1]
    apply leaves_updateAll_of_const
    · exact List.mem_reverse.mpr (List.mem_map.mpr ⟨w, hw, rfl⟩)
    · intro u hu hkey
      obtain ⟨x, -, rfl⟩ := List.mem_map.mp (List.mem_reverse.mp hu)
      exact congrArg t.get hkey
  · have hws : ∀ w ∈ ws, w.1 ≠ k := fun w hw heq => hk ⟨w, hw, heq⟩
    rw [leaves_updateAll_of_notMem _ ?_, leaves_updateAll_of_notMem _ hws]
    intro u hu
    obtain ⟨x, hx, rfl⟩ := List.mem_map.mp (List.mem_reverse.mp hu)
    exact hws x hx

/-! ## A mirrored column -/

section Mirror

variable {ι : Type} [LinearOrder ι] {key : ι → κ} (hkey : Function.Injective key)

/-- The leaves are the nonzero entries of the column, each under its own key. -/
def Mirrors (key : ι → κ) (t : LeafMap κ Z) (c : Column ι ν) : Prop :=
  ∀ k v, t.leaves.get k = some v ↔ ∃ i, key i = k ∧ c.get i = some v ∧ Z.isZero v = false

/-- A column has one mirror. -/
theorem Mirrors.unique {t u : LeafMap κ Z} {c : Column ι ν} (ht : Mirrors key t c)
    (hu : Mirrors key u c) : t = u := by
  apply ext_leaves
  intro k
  apply Option.ext
  intro v
  exact (ht k v).trans (hu k v).symm

include hkey

/-- The leaf of a key is the stored form of the column's entry. -/
theorem Mirrors.leaf {t : LeafMap κ Z} {c : Column ι ν} (h : Mirrors key t c) (i : ι) :
    t.leaves.get (key i) = (c.get i).bind (stored Z) := by
  apply Option.ext
  intro v
  rw [h, Option.bind_eq_some_iff]
  constructor
  · rintro ⟨j, hj, hget, hv⟩
    obtain rfl := hkey hj
    exact ⟨v, hget, stored_eq_some.mpr ⟨rfl, hv⟩⟩
  · rintro ⟨w, hget, hw⟩
    obtain ⟨rfl, hv⟩ := stored_eq_some.mp hw
    exact ⟨i, rfl, hget, hv⟩

/-- A write of the column, with the same value in the tree, keeps the mirror. What the column keeps of
a value has to be the value unless it is zero. -/
theorem Mirrors.update {t : LeafMap κ Z} {c : Column ι ν} (h : Mirrors key t c) (i : ι) (v : ν)
    {o : Option ν} (ho : o = some v ∨ (o = none ∧ Z.isZero v = true)) :
    Mirrors key (t.update (key i) v) (c.write i o) := by
  intro k w
  rw [leaves_update]
  by_cases hk : key i = k
  · rw [if_pos hk, stored_eq_some]
    constructor
    · rintro ⟨rfl, hv⟩
      refine ⟨i, hk, ?_, hv⟩
      rw [Column.get_write_self]
      rcases ho with ho | ⟨-, hz⟩
      · exact ho
      · rw [hv] at hz
        cases hz
    · rintro ⟨j, hj, hget, hw⟩
      obtain rfl : j = i := hkey (hj.trans hk.symm)
      rw [Column.get_write_self] at hget
      rcases ho with ho | ⟨ho, -⟩
      · exact ⟨Option.some.inj (ho.symm.trans hget), hw⟩
      · rw [ho] at hget
        cases hget
  · rw [if_neg hk, h]
    apply exists_congr
    intro j
    apply and_congr_right
    intro hj
    have hne : i ≠ j := by
      rintro rfl
      exact hk hj
    rw [Column.get_write_ne c hne]

/-- The same for a list of writes. -/
theorem Mirrors.updateAll {t : LeafMap κ Z} {c : Column ι ν} (h : Mirrors key t c) (keep : ν → Option ν)
    (hkeep : ∀ v, keep v = some v ∨ (keep v = none ∧ Z.isZero v = true)) (ws : List (ι × ν)) :
    Mirrors key (t.updateAll (ws.map (fun w => (key w.1, w.2))))
      (c.writeAll (ws.map (fun w => (w.1, keep w.2)))) := by
  induction ws generalizing t c with
  | nil => exact h
  | cons w ws ih => exact ih (h.update hkey w.1 w.2 (hkeep w.2))

/-- The tree rebuilt from the entries of a column mirrors it. -/
theorem mirrors_rebuilt (c : Column ι ν) :
    Mirrors key ((empty : LeafMap κ Z).updateAll (c.entries.map (fun e => (key e.1, e.2)))) c := by
  intro k v
  by_cases hk : ∃ i w, key i = k ∧ c.get i = some w
  · obtain ⟨i, w, rfl, hget⟩ := hk
    have hleaf : ((empty : LeafMap κ Z).updateAll
        (c.entries.map (fun e => (key e.1, e.2)))).leaves.get (key i) = stored Z w := by
      apply leaves_updateAll_of_const
      · exact List.mem_map.mpr ⟨(i, w), Column.get_eq_some.mp hget, rfl⟩
      · intro u hu hui
        obtain ⟨e, he, rfl⟩ := List.mem_map.mp hu
        have hei : e.1 = i := hkey hui
        have hgete : c.get e.1 = some e.2 := Column.get_eq_some.mpr he
        rw [hei, hget] at hgete
        exact (Option.some.inj hgete).symm
    rw [hleaf, stored_eq_some]
    constructor
    · rintro ⟨rfl, hw⟩
      exact ⟨i, rfl, hget, hw⟩
    · rintro ⟨j, hj, hgetj, hv⟩
      obtain rfl := hkey hj
      rw [hget] at hgetj
      exact ⟨Option.some.inj hgetj, hv⟩
  · have hnone : ∀ u ∈ c.entries.map (fun e => (key e.1, e.2)), u.1 ≠ k := by
      intro u hu heq
      obtain ⟨e, he, rfl⟩ := List.mem_map.mp hu
      exact hk ⟨e.1, e.2, heq, Column.get_eq_some.mpr he⟩
    rw [leaves_updateAll_of_notMem _ hnone]
    constructor
    · intro h
      cases h
    · rintro ⟨i, hi, hget, -⟩
      exact absurd ⟨i, v, hi, hget⟩ hk

end Mirror

end LeafMap

end Store
