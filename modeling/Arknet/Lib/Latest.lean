import Arknet.Lib.Column

/-!
A table filled from a list of items, each put under its own key: what stands under a key is the last item
that has it. The table keeps one item a key, and every item it keeps is found under its own key.
-/

namespace Latest

open Store

variable {κ α : Type} [LinearOrder κ] (key : α → κ)

/-- The last item with the key. -/
def last (items : List α) (k : κ) : Option α := (items.filter fun a => key a = k).getLast?

def fill (c : Column κ α) (items : List α) : Column κ α := items.foldl (fun c a => c.insert (key a) a) c

/-- Every item stands under its own key. -/
def Keyed (c : Column κ α) : Prop := ∀ k a, c.get k = some a → key a = k

variable {key} {c : Column κ α} {items : List α} {k : κ} {a : α}

theorem key_of_last (h : last key items k = some a) : key a = k := by
  have hmem := List.mem_of_getLast? h
  simpa using (List.mem_filter.mp hmem).2

theorem mem_of_last (h : last key items k = some a) : a ∈ items :=
  List.mem_of_mem_filter (List.mem_of_getLast? h)

theorem last_eq_none (h : ∀ a ∈ items, key a ≠ k) : last key items k = none := by
  have hnil : (items.filter fun a => key a = k) = [] := List.filter_eq_nil_iff.mpr fun a ha => by simpa using h a ha
  rw [last, hnil]
  rfl

theorem last_append (items more : List α) (k : κ) :
    last key (items ++ more) k = (last key more k).or (last key items k) := by
  rw [last, List.filter_append, List.getLast?_append]
  rfl

/-- An item that no later one displaces is the last with its key. -/
theorem last_of_split {before after : List α} (h : ∀ b ∈ after, key b ≠ key a) :
    last key (before ++ a :: after) (key a) = some a := by
  have hcons : last key (a :: after) (key a) = some a := by
    rw [← List.singleton_append, last_append, last_eq_none h]
    simp [last]
  rw [last_append, hcons]
  rfl

/-- Items that change their form and their key on the way into the table, where no item under the key is
dropped. -/
theorem last_filterMap {β κ' : Type} [LinearOrder κ'] {key' : β → κ'} {k' : κ'} {f : α → Option β}
    {items : List α} (hkey : ∀ a ∈ items, ∀ b, f a = some b → (key' b = k' ↔ key a = k))
    (hkept : ∀ a ∈ items, key a = k → (f a).isSome) :
    last key' (items.filterMap f) k' = (last key items k).bind f := by
  induction items with
  | nil => rfl
  | cons a rest ih =>
    have ih := ih (fun b hb => hkey b (.tail a hb)) (fun b hb => hkept b (.tail a hb))
    have hcons : ∀ b : α, last key (b :: rest) k = (last key rest k).or (last key [b] k) := fun b => by
      rw [← last_append, List.singleton_append]
    have hone : last key' (f a).toList k' = (last key [a] k).bind f := by
      cases hf : f a with
      | none =>
        have hne : key a ≠ k := fun h => by simpa [hf] using hkept a (.head rest) h
        simp [last, hne]
      | some b =>
        have hiff := hkey a (.head rest) b hf
        by_cases h : key a = k <;> simp [last, hiff, h, hf]
    have hsplit : (a :: rest).filterMap f = (f a).toList ++ rest.filterMap f := by
      cases hf : f a <;> simp [hf]
    rw [hsplit, last_append, ih, hone, hcons]
    cases hrest : last key rest k with
    | none => rfl
    | some b =>
      obtain ⟨d, hd⟩ := Option.isSome_iff_exists.mp
        (hkept b (.tail a (mem_of_last hrest)) (key_of_last hrest))
      simp [hd]

theorem get_fill (c : Column κ α) (items : List α) (k : κ) :
    (fill key c items).get k = (last key items k).or (c.get k) := by
  induction items generalizing c with
  | nil => rfl
  | cons a rest ih =>
    have hfirst : last key [a] k = if key a = k then some a else none := by
      by_cases h : key a = k <;> simp [last, h]
    rw [fill, List.foldl_cons, ← fill, ih, ← List.singleton_append, last_append, hfirst, Column.get_insert]
    by_cases h : key a = k
    · cases hrest : last key rest k <;> simp [h]
    · cases hrest : last key rest k <;> simp [h]

/-- Items that are put in again change nothing. -/
theorem fill_fill (c : Column κ α) (items : List α) : fill key (fill key c items) items = fill key c items := by
  apply Column.ext_get
  intro k
  rw [get_fill, get_fill]
  cases last key items k <;> rfl

theorem keyed_fill (h : Keyed key c) (items : List α) : Keyed key (fill key c items) := by
  intro k a hget
  rw [get_fill] at hget
  cases hlast : last key items k with
  | none => exact h k a (by simpa [hlast] using hget)
  | some b =>
    obtain rfl : b = a := by simpa [hlast] using hget
    exact key_of_last hlast

theorem keyed_empty : Keyed key (.empty : Column κ α) := by
  intro k a h
  cases h

theorem mem_values (h : Keyed key c) : a ∈ c.values ↔ c.get (key a) = some a := by
  rw [Column.mem_values]
  constructor
  · rintro ⟨k, hk⟩
    rw [h k a hk]
    exact hk
  · exact fun ha => ⟨_, ha⟩

theorem values_keys (h : Keyed key c) : c.values.map key = c.keys := by
  rw [Column.values, Column.keys, List.map_map]
  exact List.map_congr_left fun e he => h e.1 e.2 (Column.get_eq_some.mpr he)

theorem values_keys_nodup (h : Keyed key c) : (c.values.map key).Nodup := by
  rw [values_keys h]
  exact c.keys_nodup

end Latest
