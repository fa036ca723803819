import Mathlib

/-!
A column of an ordered key-value store: the entries in ascending key order, each key once. Point
reads, writes and deletions, the prefix scan of an iterator, and sums over all entries. A column is
determined by its point reads (`Column.ext_get`), so two write sequences that leave every key with
the same value leave the same column.
-/

namespace Store

/-- A linear order pulled back along an injection, with the type's own decidable equality. -/
abbrev liftOrder {α β : Type} [dec : DecidableEq α] [LinearOrder β] (f : α → β)
    (hf : Function.Injective f) : LinearOrder α :=
  { LinearOrder.lift' f hf with
    toDecidableEq := dec
    compare_eq_compareOfLessAndEq := fun a b => by
      have h := (LinearOrder.lift' f hf).compare_eq_compareOfLessAndEq a b
      rw [h]
      congr }

structure Column (κ ν : Type) [LinearOrder κ] where
  entries : List (κ × ν)
  sorted : entries.Pairwise (fun a b => a.1 < b.1)

namespace Column

/-- What a key contributes to a total. -/
def part {κ ν M : Type} [AddCommMonoid M] (f : κ → ν → M) (k : κ) : Option ν → M
  | some v => f k v
  | none => 0

@[simp] theorem part_none {κ ν M : Type} [AddCommMonoid M] (f : κ → ν → M) (k : κ) :
    part f k none = 0 := rfl

@[simp] theorem part_some {κ ν M : Type} [AddCommMonoid M] (f : κ → ν → M) (k : κ) (v : ν) :
    part f k (some v) = f k v := rfl

section Lists

variable {κ ν : Type} [LinearOrder κ]

def lookup (k : κ) : List (κ × ν) → Option ν
  | [] => none
  | e :: es => if e.1 = k then some e.2 else lookup k es

def put (k : κ) (v : ν) : List (κ × ν) → List (κ × ν)
  | [] => [(k, v)]
  | e :: es =>
    if k < e.1 then (k, v) :: e :: es
    else if e.1 = k then (k, v) :: es
    else e :: put k v es

def remove (k : κ) : List (κ × ν) → List (κ × ν)
  | [] => []
  | e :: es => if e.1 = k then es else e :: remove k es

theorem mem_put {k : κ} {v : ν} {es : List (κ × ν)} {e : κ × ν} (h : e ∈ put k v es) :
    e = (k, v) ∨ e ∈ es := by
  induction es with
  | nil => simpa [put] using h
  | cons d es ih =>
    simp only [put] at h
    split at h
    · simpa using h
    · split at h
      · rcases List.mem_cons.mp h with h | h
        · exact .inl h
        · exact .inr (List.mem_cons_of_mem _ h)
      · rcases List.mem_cons.mp h with h | h
        · exact .inr (by simp [h])
        · exact (ih h).imp id (List.mem_cons_of_mem _)

theorem mem_remove {k : κ} {es : List (κ × ν)} {e : κ × ν} (h : e ∈ remove k es) : e ∈ es := by
  induction es with
  | nil => simp [remove] at h
  | cons d es ih =>
    simp only [remove] at h
    split at h
    · exact List.mem_cons_of_mem _ h
    · rcases List.mem_cons.mp h with h | h
      · simp [h]
      · exact List.mem_cons_of_mem _ (ih h)

theorem put_sorted (k : κ) (v : ν) {es : List (κ × ν)}
    (h : es.Pairwise (fun a b => a.1 < b.1)) : (put k v es).Pairwise (fun a b => a.1 < b.1) := by
  induction es with
  | nil => simp [put]
  | cons d es ih =>
    obtain ⟨hd, hes⟩ := List.pairwise_cons.mp h
    simp only [put]
    split
    · rename_i hlt
      refine List.pairwise_cons.mpr ⟨fun e he => ?_, h⟩
      rcases List.mem_cons.mp he with rfl | he
      · exact hlt
      · exact lt_trans hlt (hd e he)
    · split
      · rename_i heq
        exact List.pairwise_cons.mpr ⟨fun e he => heq ▸ hd e he, hes⟩
      · rename_i hlt hne
        refine List.pairwise_cons.mpr ⟨fun e he => ?_, ih hes⟩
        rcases mem_put he with rfl | he
        · exact lt_of_le_of_ne (not_lt.mp hlt) hne
        · exact hd e he

theorem remove_sorted (k : κ) {es : List (κ × ν)}
    (h : es.Pairwise (fun a b => a.1 < b.1)) : (remove k es).Pairwise (fun a b => a.1 < b.1) := by
  induction es with
  | nil => simp [remove]
  | cons d es ih =>
    obtain ⟨hd, hes⟩ := List.pairwise_cons.mp h
    simp only [remove]
    split
    · exact hes
    · exact List.pairwise_cons.mpr ⟨fun e he => hd e (mem_remove he), ih hes⟩

theorem lookup_put (k : κ) (v : ν) (es : List (κ × ν)) (k' : κ) :
    lookup k' (put k v es) = if k = k' then some v else lookup k' es := by
  induction es with
  | nil => simp [put, lookup]
  | cons d es ih =>
    simp only [put]
    split
    · simp [lookup]
    · split
      · rename_i heq
        subst heq
        by_cases h : d.1 = k' <;> simp [lookup, h]
      · rename_i hne
        by_cases h : d.1 = k'
        · subst h
          simp [lookup, Ne.symm hne]
        · simp [lookup, h, ih]

theorem lookup_eq_none {k : κ} {es : List (κ × ν)} (h : ∀ e ∈ es, k < e.1) :
    lookup k es = none := by
  induction es with
  | nil => rfl
  | cons d es ih =>
    have hd := h d (by simp)
    simp [lookup, (ne_of_lt hd).symm, ih (fun e he => h e (by simp [he]))]

theorem lookup_remove (k : κ) {es : List (κ × ν)} (h : es.Pairwise (fun a b => a.1 < b.1))
    (k' : κ) : lookup k' (remove k es) = if k = k' then none else lookup k' es := by
  induction es with
  | nil => simp [remove, lookup]
  | cons d es ih =>
    obtain ⟨hd, hes⟩ := List.pairwise_cons.mp h
    simp only [remove]
    split
    · rename_i heq
      subst heq
      by_cases h' : d.1 = k'
      · subst h'
        simp [lookup_eq_none hd]
      · simp [lookup, h']
    · rename_i hne
      by_cases h' : d.1 = k'
      · subst h'
        simp [lookup, Ne.symm hne]
      · simp [lookup, h', ih hes]

theorem lookup_eq_some {k : κ} {v : ν} {es : List (κ × ν)}
    (h : es.Pairwise (fun a b => a.1 < b.1)) : lookup k es = some v ↔ (k, v) ∈ es := by
  induction es with
  | nil => simp [lookup]
  | cons d es ih =>
    obtain ⟨hd, hes⟩ := List.pairwise_cons.mp h
    by_cases hk : d.1 = k
    · subst hk
      simp only [lookup, ↓reduceIte, Option.some.injEq, List.mem_cons]
      constructor
      · rintro rfl
        exact .inl rfl
      · rintro (hv | hv)
        · exact (congrArg Prod.snd hv).symm
        · exact absurd (hd _ hv) (lt_irrefl _)
    · have hne : (k, v) ≠ d := fun e => hk (congrArg Prod.fst e).symm
      simp [lookup, hk, ih hes, hne]

/-- Sorted lists that answer every lookup alike are equal. -/
theorem lookup_ext {es ds : List (κ × ν)} (he : es.Pairwise (fun a b => a.1 < b.1))
    (hd : ds.Pairwise (fun a b => a.1 < b.1)) (h : ∀ k, lookup k es = lookup k ds) : es = ds := by
  have hmem : ∀ e, e ∈ es ↔ e ∈ ds := fun e => by
    rw [← lookup_eq_some he, h, lookup_eq_some hd]
  have hirr : ∀ l : List (κ × ν), l.Pairwise (fun a b => a.1 < b.1) → l.Nodup := fun l hl =>
    hl.imp (fun hlt e => absurd (e ▸ hlt) (lt_irrefl _))
  refine List.Perm.eq_of_pairwise (fun a b _ _ hab hba => ?_) he hd
    ((List.perm_ext_iff_of_nodup (hirr _ he) (hirr _ hd)).mpr hmem)
  exact absurd hba (lt_asymm hab)

end Lists

variable {κ ν : Type} [LinearOrder κ]

def empty : Column κ ν := ⟨[], List.Pairwise.nil⟩

instance : Inhabited (Column κ ν) := ⟨empty⟩

def get (c : Column κ ν) (k : κ) : Option ν := lookup k c.entries

def insert (c : Column κ ν) (k : κ) (v : ν) : Column κ ν := ⟨put k v c.entries, put_sorted k v c.sorted⟩

def erase (c : Column κ ν) (k : κ) : Column κ ν := ⟨remove k c.entries, remove_sorted k c.sorted⟩

/-- One write of a batch: a value, or a deletion. -/
def write (c : Column κ ν) (k : κ) : Option ν → Column κ ν
  | some v => c.insert k v
  | none => c.erase k

def keys (c : Column κ ν) : List κ := c.entries.map Prod.fst

def values (c : Column κ ν) : List ν := c.entries.map Prod.snd

theorem ext_get {c d : Column κ ν} (h : ∀ k, c.get k = d.get k) : c = d := by
  have := lookup_ext c.sorted d.sorted h
  cases c
  cases d
  simpa using this

@[simp] theorem get_empty (k : κ) : (empty : Column κ ν).get k = none := rfl

theorem get_insert (c : Column κ ν) (k : κ) (v : ν) (k' : κ) :
    (c.insert k v).get k' = if k = k' then some v else c.get k' := lookup_put k v _ k'

theorem get_erase (c : Column κ ν) (k k' : κ) :
    (c.erase k).get k' = if k = k' then none else c.get k' := lookup_remove k c.sorted k'

theorem get_write (c : Column κ ν) (k : κ) (o : Option ν) (k' : κ) :
    (c.write k o).get k' = if k = k' then o else c.get k' := by
  cases o with
  | none => exact get_erase c k k'
  | some v => exact get_insert c k v k'

@[simp] theorem get_write_self (c : Column κ ν) (k : κ) (o : Option ν) :
    (c.write k o).get k = o := by simp [get_write]

theorem get_write_ne (c : Column κ ν) {k k' : κ} (h : k ≠ k') (o : Option ν) :
    (c.write k o).get k' = c.get k' := by simp [get_write, h]

theorem get_eq_some {c : Column κ ν} {k : κ} {v : ν} : c.get k = some v ↔ (k, v) ∈ c.entries :=
  lookup_eq_some c.sorted

theorem get_of_entries_nil {c : Column κ ν} (h : c.entries = []) (k : κ) : c.get k = none := by
  rw [get, h]
  rfl

theorem mem_keys {c : Column κ ν} {k : κ} : k ∈ c.keys ↔ ∃ v, c.get k = some v := by
  simp only [keys, List.mem_map, Prod.exists, exists_and_right, exists_eq_right, get_eq_some]

/-- The last key is above the others. -/
theorem lt_last {c : Column κ ν} {k k' : κ} (h : c.keys.getLast? = some k) (hk' : k' ∈ c.keys)
    (hne : k' ≠ k) : k' < k := by
  obtain ⟨init, hinit⟩ := List.getLast?_eq_some_iff.mp h
  have hsorted : c.keys.Pairwise (· < ·) := List.pairwise_map.mpr c.sorted
  rw [hinit] at hsorted hk'
  rcases List.mem_append.mp hk' with hk' | hk'
  · exact (List.pairwise_append.mp hsorted).2.2 k' hk' k (List.mem_singleton_self k)
  · exact absurd (List.mem_singleton.mp hk') hne

theorem mem_values {c : Column κ ν} {v : ν} : v ∈ c.values ↔ ∃ k, c.get k = some v := by
  simp only [values, List.mem_map, Prod.exists, exists_eq_right, get_eq_some]

/-! ## Batches of writes -/

/-- The column after the writes, first to last. -/
def writeAll (c : Column κ ν) (ws : List (κ × Option ν)) : Column κ ν :=
  ws.foldl (fun c w => c.write w.1 w.2) c

@[simp] theorem writeAll_nil (c : Column κ ν) : c.writeAll [] = c := rfl

@[simp] theorem writeAll_cons (c : Column κ ν) (w : κ × Option ν) (ws : List (κ × Option ν)) :
    c.writeAll (w :: ws) = (c.write w.1 w.2).writeAll ws := rfl

theorem get_writeAll_of_notMem (c : Column κ ν) {ws : List (κ × Option ν)} {k : κ}
    (h : ∀ w ∈ ws, w.1 ≠ k) : (c.writeAll ws).get k = c.get k := by
  induction ws generalizing c with
  | nil => rfl
  | cons w ws ih =>
    rw [writeAll_cons, ih _ (fun v hv => h v (by simp [hv])), get_write_ne _ (h w (by simp))]

/-- A batch that writes every key once leaves each key with what was written to it. -/
theorem get_writeAll_of_mem (c : Column κ ν) {ws : List (κ × Option ν)}
    (hd : ws.Pairwise (fun a b => a.1 ≠ b.1)) {k : κ} {o : Option ν} (h : (k, o) ∈ ws) :
    (c.writeAll ws).get k = o := by
  induction ws generalizing c with
  | nil => cases h
  | cons w ws ih =>
    obtain ⟨hw, hws⟩ := List.pairwise_cons.mp hd
    rw [writeAll_cons]
    rcases List.mem_cons.mp h with rfl | h
    · rw [get_writeAll_of_notMem _ (fun v hv => (hw v hv).symm), get_write_self]
    · exact ih _ hws h

/-- Every key is there once. -/
theorem keys_nodup (c : Column κ ν) : (c.entries.map Prod.fst).Nodup := by
  rw [List.Nodup, List.pairwise_map]
  exact c.sorted.imp (fun h => ne_of_lt h)

/-- The entries an iterator that is positioned at `a` reads until the key part `π` changes. -/
def scan {α : Type} [LinearOrder α] (c : Column κ ν) (π : κ → α) (a : α) : List (κ × ν) :=
  (c.entries.dropWhile (fun e => decide (π e.1 < a))).takeWhile (fun e => decide (π e.1 = a))

omit [LinearOrder κ] in
private theorem takeWhile_of_le {α : Type} [LinearOrder α] (π : κ → α) (a : α)
    {es : List (κ × ν)} (hs : es.Pairwise (fun d e => π d.1 ≤ π e.1))
    (ha : ∀ e ∈ es, a ≤ π e.1) :
    es.takeWhile (fun e => decide (π e.1 = a)) = es.filter (fun e => decide (π e.1 = a)) := by
  induction es with
  | nil => rfl
  | cons d es ih =>
    obtain ⟨hd, hes⟩ := List.pairwise_cons.mp hs
    by_cases h : π d.1 = a
    · simp [h, ih hes (fun e he => ha e (by simp [he]))]
    · have hlt : a < π d.1 := lt_of_le_of_ne (ha d (by simp)) (Ne.symm h)
      have hnone : es.filter (fun e => decide (π e.1 = a)) = [] := by
        rw [List.filter_eq_nil_iff]
        intro e he heq
        exact absurd (of_decide_eq_true heq) (ne_of_gt (lt_of_lt_of_le hlt (hd e he)))
      simp [h, hnone]

/-- A scan returns exactly the entries with the key part asked for, in key order. -/
theorem scan_eq_filter {α : Type} [LinearOrder α] (c : Column κ ν) {π : κ → α}
    (hπ : Monotone π) (a : α) :
    c.scan π a = c.entries.filter (fun e => decide (π e.1 = a)) := by
  have hs : c.entries.Pairwise (fun d e => π d.1 ≤ π e.1) := c.sorted.imp (fun h => hπ h.le)
  unfold scan
  generalize c.entries = es at hs
  induction es with
  | nil => rfl
  | cons d es ih =>
    obtain ⟨hd, hes⟩ := List.pairwise_cons.mp hs
    by_cases h : π d.1 < a
    · simp only [List.dropWhile_cons, h, decide_true, ↓reduceIte]
      rw [ih hes, List.filter_cons_of_neg (by simp [ne_of_lt h])]
    · simp only [List.dropWhile_cons, h, decide_false, Bool.false_eq_true, ↓reduceIte]
      refine takeWhile_of_le π a hs (fun e he => ?_)
      rcases List.mem_cons.mp he with rfl | he
      · exact not_lt.mp h
      · exact le_trans (not_lt.mp h) (hd e he)

theorem mem_scan {α : Type} [LinearOrder α] {c : Column κ ν} {π : κ → α} (hπ : Monotone π)
    {a : α} {k : κ} {v : ν} : (k, v) ∈ c.scan π a ↔ c.get k = some v ∧ π k = a := by
  rw [scan_eq_filter c hπ, List.mem_filter, ← get_eq_some]
  simp

/-! ## Sums over a column -/

section Total

variable {M : Type} [AddCommMonoid M]

/-- The sum of `f` over the entries. -/
def total (c : Column κ ν) (f : κ → ν → M) : M := (c.entries.map (fun e => f e.1 e.2)).sum

@[simp] theorem total_empty (f : κ → ν → M) : (empty : Column κ ν).total f = 0 := rfl

private theorem sum_put (f : κ → ν → M) (k : κ) (v : ν) {es : List (κ × ν)}
    (h : es.Pairwise (fun a b => a.1 < b.1)) :
    ((put k v es).map (fun e => f e.1 e.2)).sum + part f k (lookup k es) =
      (es.map (fun e => f e.1 e.2)).sum + f k v := by
  induction es with
  | nil => simp [put, lookup]
  | cons d es ih =>
    obtain ⟨hd, hes⟩ := List.pairwise_cons.mp h
    simp only [put]
    split
    · rename_i hlt
      have hnone : lookup k (d :: es) = none := by
        apply lookup_eq_none
        intro e he
        rcases List.mem_cons.mp he with rfl | he
        · exact hlt
        · exact lt_trans hlt (hd e he)
      simp only [hnone, part_none, List.map_cons, List.sum_cons, add_zero]
      exact add_comm _ _
    · split
      · rename_i heq
        subst heq
        simp only [lookup, ↓reduceIte, part_some, List.map_cons, List.sum_cons]
        exact (add_assoc _ _ _).trans ((add_comm _ _).trans
          (congrArg (· + _) (add_comm _ _)))
      · rename_i hne
        simp only [lookup, hne, ↓reduceIte, List.map_cons, List.sum_cons, add_assoc, ih hes]

private theorem sum_remove (f : κ → ν → M) (k : κ) {es : List (κ × ν)} :
    ((remove k es).map (fun e => f e.1 e.2)).sum + part f k (lookup k es) =
      (es.map (fun e => f e.1 e.2)).sum := by
  induction es with
  | nil => simp [remove, lookup]
  | cons d es ih =>
    simp only [remove]
    split
    · rename_i heq
      subst heq
      simp [lookup, add_comm]
    · rename_i hne
      simp only [lookup, hne, ↓reduceIte, List.map_cons, List.sum_cons, add_assoc, ih]

theorem length_eq_total (c : Column κ ν) : c.entries.length = c.total (fun _ _ => 1) := by
  simp [total]

/-- A write changes a total by the new value's part minus the old one's. -/
theorem total_write (c : Column κ ν) (f : κ → ν → M) (k : κ) (o : Option ν) :
    (c.write k o).total f + part f k (c.get k) = c.total f + part f k o := by
  cases o with
  | some v => exact sum_put f k v c.sorted
  | none => exact (sum_remove f k).trans (add_zero _).symm

/-- The same for a batch that writes every key once. -/
theorem total_writeAll (c : Column κ ν) (f : κ → ν → M) {ws : List (κ × Option ν)}
    (hd : ws.Pairwise (fun a b => a.1 ≠ b.1)) :
    (c.writeAll ws).total f + (ws.map (fun w => part f w.1 (c.get w.1))).sum =
      c.total f + (ws.map (fun w => part f w.1 w.2)).sum := by
  induction ws generalizing c with
  | nil => simp
  | cons w ws ih =>
    obtain ⟨hw, hws⟩ := List.pairwise_cons.mp hd
    have hget : ws.map (fun v => part f v.1 ((c.write w.1 w.2).get v.1)) =
        ws.map (fun v => part f v.1 (c.get v.1)) :=
      List.map_congr_left (fun v hv => by rw [get_write_ne _ (hw v hv)])
    have h₁ := ih (c.write w.1 w.2) hws
    have h₂ := total_write c f w.1 w.2
    rw [hget] at h₁
    simp only [writeAll_cons, List.map_cons, List.sum_cons]
    calc ((c.write w.1 w.2).writeAll ws).total f +
          (part f w.1 (c.get w.1) + (ws.map (fun v => part f v.1 (c.get v.1))).sum)
        = (((c.write w.1 w.2).writeAll ws).total f + (ws.map (fun v => part f v.1 (c.get v.1))).sum) +
            part f w.1 (c.get w.1) := by rw [add_comm (part f w.1 (c.get w.1)), add_assoc]
      _ = ((c.write w.1 w.2).total f + part f w.1 (c.get w.1)) +
            (ws.map (fun v => part f v.1 v.2)).sum := by rw [h₁, add_right_comm]
      _ = c.total f + (part f w.1 w.2 + (ws.map (fun v => part f v.1 v.2)).sum) := by
          rw [h₂, add_assoc]

end Total

/-- A key's part is at most the total. -/
theorem part_le_total (c : Column κ ν) (f : κ → ν → Nat) (k : κ) : part f k (c.get k) ≤ c.total f := by
  have h := total_write c f k none
  simp only [part_none] at h
  omega

/-- A column whose every part is at most another's has at most its total. -/
theorem total_le_total (c d : Column κ ν) (f : κ → ν → Nat)
    (h : ∀ k, part f k (c.get k) ≤ part f k (d.get k)) : c.total f ≤ d.total f := by
  induction hes : c.entries generalizing c d with
  | nil => simp [total, hes]
  | cons e es ih =>
    have hc := total_write c f e.1 none
    have hd := total_write d f e.1 none
    have hrest : (c.write e.1 none).entries = es := by simp [write, erase, remove, hes]
    have hle := ih (c.write e.1 none) (d.write e.1 none) (fun k => by
      rw [get_write, get_write]
      split
      · exact Nat.le_refl _
      · exact h k) hrest
    have hk := h e.1
    simp only [part_none] at hc hd
    omega

end Column

end Store
