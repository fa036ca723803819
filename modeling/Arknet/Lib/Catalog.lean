import Arknet.Lib.Column

/-!
Documents under ordered keys with an index from the terms they contain to a key. Storing a document points
each of its terms to it; pruning deletes the documents below a key, and with each its terms' entries. The
index is right when it finds exactly the terms of the documents that are there.
-/

namespace Store

namespace Column

variable {κ δ η : Type} [LinearOrder η]

/-- Keys ascend, so that those below a bound come first. -/
theorem takeWhile_lt_eq_filter (c : Column η δ) (k : η) :
    (c.entries.takeWhile fun e => e.1 < k) = c.entries.filter fun e => e.1 < k := by
  have hsorted := c.sorted
  generalize c.entries = es at hsorted
  induction es with
  | nil => rfl
  | cons e es ih =>
    obtain ⟨he, hes⟩ := List.pairwise_cons.mp hsorted
    by_cases hlt : e.1 < k
    · simp [hlt, ih hes]
    · have hnone : (es.filter fun e => e.1 < k) = [] := by
        rw [List.filter_eq_nil_iff]
        intro d hd hdk
        exact hlt (lt_trans (he d hd) (of_decide_eq_true hdk))
      simp [hlt, hnone]

theorem get_insertEach (ts : List η) (k : κ) (c : Column η κ) (t : η) :
    (ts.foldl (fun c t => c.insert t k) c).get t = if t ∈ ts then some k else c.get t := by
  induction ts generalizing c with
  | nil => simp
  | cons a ts ih =>
    rw [List.foldl_cons, ih, get_insert]
    by_cases hmem : t ∈ ts
    · rw [if_pos hmem, if_pos (List.mem_cons_of_mem a hmem)]
    · rw [if_neg hmem]
      by_cases hat : a = t
      · rw [if_pos hat, if_pos (by simp [hat])]
      · rw [if_neg hat, if_neg (by simp [hmem, Ne.symm hat])]

theorem get_eraseEach (ts : List η) (c : Column η κ) (t : η) :
    (ts.foldl (fun c t => c.erase t) c).get t = if t ∈ ts then none else c.get t := by
  induction ts generalizing c with
  | nil => simp
  | cons a ts ih =>
    rw [List.foldl_cons, ih, get_erase]
    by_cases hmem : t ∈ ts
    · rw [if_pos hmem, if_pos (List.mem_cons_of_mem a hmem)]
    · rw [if_neg hmem]
      by_cases hat : a = t
      · rw [if_pos hat, if_pos (by simp [hat])]
      · rw [if_neg hat, if_neg (by simp [hmem, Ne.symm hat])]

end Column

structure Catalog (κ δ η : Type) [LinearOrder κ] [LinearOrder η] where
  docs : Column κ δ
  index : Column η κ

namespace Catalog

variable {κ δ η : Type} [LinearOrder κ] [LinearOrder η] (terms : δ → List η)

def store (c : Catalog κ δ η) (k : κ) (d : δ) : Catalog κ δ η where
  docs := c.docs.insert k d
  index := (terms d).foldl (fun index t => index.insert t k) c.index

def drop (c : Catalog κ δ η) (e : κ × δ) : Catalog κ δ η where
  docs := c.docs.erase e.1
  index := (terms e.2).foldl (fun index t => index.erase t) c.index

def prune (c : Catalog κ δ η) (keepFrom : κ) : Catalog κ δ η :=
  (c.docs.entries.takeWhile fun e => e.1 < keepFrom).foldl (drop terms) c

/-- Some document below the key contains the term. -/
def HasBelow (c : Catalog κ δ η) (keepFrom : κ) (t : η) : Prop :=
  ∃ k d, k < keepFrom ∧ c.docs.get k = some d ∧ t ∈ terms d

/-- The index finds every term that is there, and what it finds is there. -/
structure Right (c : Catalog κ δ η) : Prop where
  points : ∀ t k, c.index.get t = some k → ∃ d, c.docs.get k = some d ∧ t ∈ terms d
  finds : ∀ t k d, c.docs.get k = some d → t ∈ terms d → ∃ k', c.index.get t = some k'

/-- The terms indexed at the key are stored there again or pruned, and none that is pruned occurs in a
document that stays. -/
structure Fits (c : Catalog κ δ η) (k : κ) (d : δ) (keepFrom : κ) : Prop where
  restored : ∀ t, c.index.get t = some k → t ∈ terms d ∨ c.HasBelow terms keepFrom t
  apart : ∀ t, c.HasBelow terms keepFrom t → t ∉ terms d ∧
    ∀ k' d', keepFrom ≤ k' → k' ≠ k → c.docs.get k' = some d' → t ∉ terms d'

variable {terms} {c : Catalog κ δ η} {k keepFrom : κ} {d : δ}

theorem store_docs (j : κ) : (c.store terms k d).docs.get j = if k = j then some d else c.docs.get j :=
  Column.get_insert _ _ _ _

theorem store_index (t : η) :
    (c.store terms k d).index.get t = if t ∈ terms d then some k else c.index.get t :=
  Column.get_insertEach _ _ _ _

theorem dropped_docs (es : List (κ × δ)) (c : Catalog κ δ η) (j : κ) :
    (es.foldl (drop terms) c).docs.get j = if j ∈ es.map Prod.fst then none else c.docs.get j := by
  induction es generalizing c with
  | nil => simp
  | cons e es ih =>
    rw [List.foldl_cons, ih, drop, Column.get_erase]
    rw [List.map_cons]
    by_cases hmem : j ∈ es.map Prod.fst
    · rw [if_pos hmem, if_pos (List.mem_cons_of_mem _ hmem)]
    · rw [if_neg hmem]
      by_cases hat : e.1 = j
      · rw [if_pos hat, if_pos (by simp [hat])]
      · rw [if_neg hat, if_neg]
        rw [List.mem_cons, not_or]
        exact ⟨Ne.symm hat, hmem⟩

theorem dropped_index (es : List (κ × δ)) (c : Catalog κ δ η) (t : η) :
    (es.foldl (drop terms) c).index.get t = if t ∈ es.flatMap (terms ·.2) then none else c.index.get t := by
  induction es generalizing c with
  | nil => simp
  | cons e es ih =>
    rw [List.foldl_cons, ih, drop, Column.get_eraseEach, List.flatMap_cons]
    by_cases hmem : t ∈ es.flatMap (terms ·.2)
    · rw [if_pos hmem, if_pos (List.mem_append_right _ hmem)]
    · rw [if_neg hmem]
      by_cases hat : t ∈ terms e.2
      · rw [if_pos hat, if_pos (List.mem_append_left _ hat)]
      · rw [if_neg hat, if_neg]
        rw [List.mem_append, not_or]
        exact ⟨hat, hmem⟩

/-- What is pruned: the entries below the key. -/
theorem mem_pruned {e : κ × δ} :
    e ∈ (c.docs.entries.takeWhile fun e => e.1 < keepFrom) ↔ e.1 < keepFrom ∧ c.docs.get e.1 = some e.2 := by
  rw [Column.get_eq_some]
  constructor
  · intro he
    exact ⟨by simpa using List.mem_takeWhile_imp he, (List.takeWhile_sublist _).mem he⟩
  · rintro ⟨hlt, he⟩
    rw [Column.takeWhile_lt_eq_filter, List.mem_filter]
    exact ⟨he, by simpa using hlt⟩

theorem prune_docs (j : κ) :
    (c.prune terms keepFrom).docs.get j = if j < keepFrom then none else c.docs.get j := by
  rw [prune, dropped_docs]
  by_cases hlt : j < keepFrom
  · rw [if_pos hlt]
    split_ifs with hmem
    · rfl
    · cases hget : c.docs.get j with
      | none => rfl
      | some d => exact absurd (List.mem_map.mpr ⟨(j, d), mem_pruned.mpr ⟨hlt, hget⟩, rfl⟩) hmem
  · rw [if_neg hlt, if_neg]
    rintro hmem
    obtain ⟨e, he, rfl⟩ := List.mem_map.mp hmem
    exact hlt (mem_pruned.mp he).1

theorem prune_index_below {t : η} (h : c.HasBelow terms keepFrom t) :
    (c.prune terms keepFrom).index.get t = none := by
  obtain ⟨k, d, hlt, hget, ht⟩ := h
  rw [prune, dropped_index, if_pos]
  exact List.mem_flatMap.mpr ⟨(k, d), mem_pruned.mpr ⟨hlt, hget⟩, ht⟩

theorem prune_index {t : η} (h : ¬ c.HasBelow terms keepFrom t) :
    (c.prune terms keepFrom).index.get t = c.index.get t := by
  rw [prune, dropped_index, if_neg]
  intro hmem
  obtain ⟨e, he, ht⟩ := List.mem_flatMap.mp hmem
  exact h ⟨e.1, e.2, (mem_pruned.mp he).1, (mem_pruned.mp he).2, ht⟩

/-- Storing at a key that stays does not change what is pruned. -/
theorem hasBelow_store (hk : keepFrom ≤ k) (t : η) :
    (c.store terms k d).HasBelow terms keepFrom t ↔ c.HasBelow terms keepFrom t := by
  have hget : ∀ j < keepFrom, (c.store terms k d).docs.get j = c.docs.get j := fun j hj => by
    rw [store_docs, if_neg]
    rintro rfl
    exact absurd hj (not_lt.mpr hk)
  constructor
  · rintro ⟨j, e, hj, he, ht⟩
    exact ⟨j, e, hj, (hget j hj).symm.trans he, ht⟩
  · rintro ⟨j, e, hj, he, ht⟩
    exact ⟨j, e, hj, (hget j hj).trans he, ht⟩

/-- A right index stays right exactly when what is stored and pruned fits. -/
theorem right_iff (hc : c.Right terms) (hk : keepFrom ≤ k) :
    ((c.store terms k d).prune terms keepFrom).Right terms ↔ c.Fits terms k d keepFrom := by
  have hdocs : ∀ j, ((c.store terms k d).prune terms keepFrom).docs.get j =
      if j < keepFrom then none else if k = j then some d else c.docs.get j := fun j => by
    rw [prune_docs, store_docs]
  have hbelow : ∀ t, c.HasBelow terms keepFrom t →
      ((c.store terms k d).prune terms keepFrom).index.get t = none := fun t ht =>
    prune_index_below ((hasBelow_store hk t).mpr ht)
  have hindex : ∀ t, ¬ c.HasBelow terms keepFrom t →
      ((c.store terms k d).prune terms keepFrom).index.get t =
        if t ∈ terms d then some k else c.index.get t := fun t ht => by
    rw [prune_index (mt (hasBelow_store hk t).mp ht), store_index]
  have hnew := hdocs k
  rw [if_neg (not_lt.mpr hk), if_pos rfl] at hnew
  constructor
  · intro h
    refine ⟨fun t ht => ?_, fun t ht => ⟨fun hd => ?_, fun j e hj hne hget he => ?_⟩⟩
    · by_contra hnot
      obtain ⟨hd, hb⟩ := not_or.mp hnot
      obtain ⟨e, he, hte⟩ := h.points t k (by rw [hindex t hb, if_neg hd, ht])
      rw [hnew, Option.some.injEq] at he
      exact hd (he ▸ hte)
    · obtain ⟨j, hj⟩ := h.finds t k d hnew hd
      rw [hbelow t ht] at hj
      cases hj
    · have hkept := hdocs j
      rw [if_neg (not_lt.mpr hj), if_neg (Ne.symm hne), hget] at hkept
      obtain ⟨j', hj'⟩ := h.finds t j e hkept he
      rw [hbelow t ht] at hj'
      cases hj'
  · intro h
    refine ⟨fun t j hj => ?_, fun t j e he ht => ?_⟩
    · by_cases hb : c.HasBelow terms keepFrom t
      · rw [hbelow t hb] at hj
        cases hj
      rw [hindex t hb] at hj
      by_cases hd : t ∈ terms d
      · rw [if_pos hd, Option.some.injEq] at hj
        subst hj
        exact ⟨d, hnew, hd⟩
      · rw [if_neg hd] at hj
        obtain ⟨e, he, hte⟩ := hc.points t j hj
        have hne : k ≠ j := by
          rintro rfl
          exact (h.restored t hj).elim hd hb
        have hkeep : ¬ j < keepFrom := fun hlt => hb ⟨j, e, hlt, he, hte⟩
        exact ⟨e, by rw [hdocs, if_neg hkeep, if_neg hne, he], hte⟩
    · rw [hdocs] at he
      split_ifs at he with hlt hat
      · subst hat
        obtain rfl := Option.some.inj he
        have hb : ¬ c.HasBelow terms keepFrom t := fun hb => (h.apart t hb).1 ht
        exact ⟨k, by rw [hindex t hb, if_pos ht]⟩
      · have hb : ¬ c.HasBelow terms keepFrom t := fun hb =>
          (h.apart t hb).2 j e (not_lt.mp hlt) (Ne.symm hat) he ht
        by_cases hd : t ∈ terms d
        · exact ⟨k, by rw [hindex t hb, if_pos hd]⟩
        · obtain ⟨j', hj'⟩ := hc.finds t j e he ht
          exact ⟨j', by rw [hindex t hb, if_neg hd, hj']⟩

end Catalog

end Store
