import Mathlib.Data.List.Sort

/-!
The `n` elements of a list that come first in a total preorder: sort, then truncate. What is selected
and what is passed over together are the list, and the selected come before the passed over. The usual
preorder puts the heavier first and breaks ties by name.
-/

namespace Selection

variable {α κ : Type} (r : α → α → Prop) [DecidableRel r] (n : Nat) {xs : List α} {a b : α}

def top (xs : List α) : List α := (xs.insertionSort r).take n

def passed (xs : List α) : List α := (xs.insertionSort r).drop n

theorem top_append_passed (xs : List α) : (top r n xs ++ passed r n xs).Perm xs := by
  rw [top, passed, List.take_append_drop]
  exact List.perm_insertionSort r xs

theorem length_top (xs : List α) : (top r n xs).length = min n xs.length := by
  rw [top, List.length_take, List.length_insertionSort]

theorem mem_of_mem_top (h : a ∈ top r n xs) : a ∈ xs :=
  (top_append_passed r n xs).subset (List.mem_append_left _ h)

theorem mem_of_mem_passed (h : a ∈ passed r n xs) : a ∈ xs :=
  (top_append_passed r n xs).subset (List.mem_append_right _ h)

theorem top_before_passed [Std.Total r] [IsTrans α r] (ha : a ∈ top r n xs)
    (hb : b ∈ passed r n xs) : r a b := by
  have hsorted := List.pairwise_insertionSort r xs
  rw [← List.take_append_drop n (xs.insertionSort r)] at hsorted
  exact (List.pairwise_append.mp hsorted).2.2 a ha b hb

/-- A list that fits is selected whole. -/
theorem top_perm (h : xs.length ≤ n) : (top r n xs).Perm xs := by
  rw [top, List.take_of_length_le (by rw [List.length_insertionSort]; exact h)]
  exact List.perm_insertionSort r xs

/-- A list that does not fit is passed over in part. -/
theorem exists_passed (h : n < xs.length) : ∃ a, a ∈ passed r n xs := by
  apply List.exists_mem_of_ne_nil
  intro hnil
  have hlen := congrArg List.length hnil
  rw [passed, List.length_drop, List.length_insertionSort, List.length_nil] at hlen
  omega

theorem top_keys_nodup (key : α → κ) (h : (xs.map key).Nodup) : ((top r n xs).map key).Nodup := by
  have hperm := (top_append_passed r n xs).map key
  rw [List.map_append] at hperm
  exact (List.nodup_append.mp (hperm.nodup_iff.mpr h)).1

/-- What is passed over has other keys than what is selected. -/
theorem passed_key_ne (key : α → κ) (h : (xs.map key).Nodup) (ha : a ∈ top r n xs)
    (hb : b ∈ passed r n xs) : key a ≠ key b := by
  have hperm := (top_append_passed r n xs).map key
  rw [List.map_append] at hperm
  exact (List.nodup_append.mp (hperm.nodup_iff.mpr h)).2.2 _ (List.mem_map_of_mem ha) _
    (List.mem_map_of_mem hb)

/-! ## Heaviest first -/

section HeaviestFirst

variable {ω ν : Type} [LinearOrder ω] [LinearOrder ν] (weight : α → ω) (name : α → ν)

/-- More weight first, then the smaller name. -/
def HeaviestFirst (a b : α) : Prop := weight b < weight a ∨ (weight b = weight a ∧ name a ≤ name b)

instance : DecidableRel (HeaviestFirst weight name) := fun _ _ =>
  inferInstanceAs (Decidable (_ < _ ∨ (_ = _ ∧ _ ≤ _)))

instance : Std.Total (HeaviestFirst weight name) := by
  constructor
  intro a b
  unfold HeaviestFirst
  rcases lt_trichotomy (weight a) (weight b) with h | h | h
  · exact .inr (.inl h)
  · rcases le_total (name a) (name b) with ho | ho
    · exact .inl (.inr ⟨h.symm, ho⟩)
    · exact .inr (.inr ⟨h, ho⟩)
  · exact .inl (.inl h)

instance : IsTrans α (HeaviestFirst weight name) := by
  constructor
  rintro a b c (hab | ⟨hab, hoab⟩) (hbc | ⟨hbc, hobc⟩)
  · exact .inl (lt_trans hbc hab)
  · exact .inl (hbc ▸ hab)
  · exact .inl (hab ▸ hbc)
  · exact .inr ⟨hbc.trans hab, hoab.trans hobc⟩

variable {weight name}

theorem HeaviestFirst.name_eq (hab : HeaviestFirst weight name a b) (hba : HeaviestFirst weight name b a) :
    name a = name b := by
  rcases hab with hab | ⟨hab, hoab⟩
  · rcases hba with hba | ⟨hba, -⟩
    · exact absurd hab (lt_asymm hba)
    · exact absurd hba (ne_of_gt hab)
  · rcases hba with hba | ⟨-, hoba⟩
    · exact absurd hab (ne_of_gt hba)
    · exact le_antisymm hoab hoba

/-- Where names are distinct the sorted list does not show the order of the input. -/
theorem sort_unique {ys : List α} (h : xs.Perm ys) (hnames : (xs.map name).Nodup) :
    xs.insertionSort (HeaviestFirst weight name) = ys.insertionSort (HeaviestFirst weight name) := by
  have hxs := List.perm_insertionSort (HeaviestFirst weight name) xs
  have hys := List.perm_insertionSort (HeaviestFirst weight name) ys
  refine List.Perm.eq_of_pairwise ?_ (List.pairwise_insertionSort _ xs) (List.pairwise_insertionSort _ ys)
    (hxs.trans (h.trans hys.symm))
  intro a b ha hb hab hba
  exact List.inj_on_of_nodup_map hnames (hxs.subset ha) (h.symm.subset (hys.subset hb)) (hab.name_eq hba)

/-- Every entry is there once and found under its own name exactly when the names are distinct. -/
theorem find_own_iff : (xs.Nodup ∧ ∀ a ∈ xs, xs.find? (fun b => name b = name a) = some a) ↔
    (xs.map name).Nodup := by
  constructor
  · rintro ⟨hnodup, hown⟩
    refine List.Nodup.map_on (fun a ha b hb hname => ?_) hnodup
    have hfound := hown a ha
    rw [hname, hown b hb] at hfound
    exact (Option.some.inj hfound).symm
  · intro hnames
    refine ⟨hnames.of_map, fun a ha => ?_⟩
    cases hfind : xs.find? (fun b => name b = name a) with
    | none =>
      have hnone := List.find?_eq_none.mp hfind a ha
      simp at hnone
    | some b =>
      have hname : name b = name a := by simpa using List.find?_some hfind
      rw [List.inj_on_of_nodup_map hnames (List.mem_of_find?_eq_some hfind) ha hname]

end HeaviestFirst

end Selection
