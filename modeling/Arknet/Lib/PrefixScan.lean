import Arknet.Lib.Column

/-!
Columns under encoded keys. Strings are ordered letter by letter, a string before its extensions, so
the extensions of one string are an interval and an iterator that starts at it and stops at the first
key without it reads all of them. A column whose keys are encoded in their order is the same column.
-/

namespace Store

variable {α : Type} [LinearOrder α]

/-! ## The order of strings -/

theorem cons_le_cons {x y : α} {a b : List α} : x :: a ≤ y :: b ↔ x < y ∨ x = y ∧ a ≤ b := by
  rw [← not_lt, ← not_lt, List.cons_lt_cons_iff, not_or, not_and, not_lt]
  constructor
  · rintro ⟨hle, h⟩
    exact hle.lt_or_eq.imp id (fun heq => ⟨heq, h heq.symm⟩)
  · rintro (hlt | ⟨rfl, h⟩)
    · exact ⟨hlt.le, fun heq => absurd hlt (heq ▸ lt_irrefl _)⟩
    · exact ⟨le_refl x, fun _ => h⟩

theorem le_of_isPrefix {p a : List α} (h : p <+: a) : p ≤ a := by
  induction p generalizing a with
  | nil => exact not_lt.mp (List.not_lt_nil a)
  | cons x p ih =>
    obtain ⟨a, rfl⟩ := h
    exact cons_le_cons.mpr (.inr ⟨rfl, ih (List.prefix_append p a)⟩)

/-- What lies between a string and one of its extensions is an extension. -/
theorem isPrefix_of_between {p a b : List α} (hpa : p ≤ a) (hab : a ≤ b) (hb : p <+: b) : p <+: a := by
  induction p generalizing a b with
  | nil => exact List.nil_prefix
  | cons x p ih =>
    obtain ⟨b, rfl⟩ := hb
    cases a with
    | nil => exact absurd (List.nil_lt_cons x p) (not_lt.mpr hpa)
    | cons y a =>
      rw [List.cons_append] at hab
      have hxy : x = y := by
        have hle : x ≤ y := by
          rcases cons_le_cons.mp hpa with h | h
          · exact h.le
          · exact h.1.le
        rcases cons_le_cons.mp hab with h | h
        · exact absurd h (not_lt.mpr hle)
        · exact h.1.symm
      subst hxy
      have hpa' : p ≤ a := (cons_le_cons.mp hpa).resolve_left (lt_irrefl x) |>.2
      have hab' : a ≤ p ++ b := (cons_le_cons.mp hab).resolve_left (lt_irrefl x) |>.2
      exact List.cons_prefix_cons.mpr ⟨rfl, ih hpa' hab' (List.prefix_append p b)⟩

/-- Fields of one length are compared before what follows them. -/
theorem append_lt_append_iff {a b c d : List α} (h : a.length = b.length) :
    a ++ c < b ++ d ↔ a < b ∨ a = b ∧ c < d := by
  induction a generalizing b with
  | nil =>
    obtain rfl : b = [] := List.length_eq_zero_iff.mp h.symm
    simp
  | cons x a ih =>
    cases b with
    | nil => simp at h
    | cons y b =>
      have hlen : a.length = b.length := by simpa using h
      simp only [List.cons_append, List.cons_lt_cons_iff, ih hlen, List.cons.injEq]
      tauto

omit [LinearOrder α] in
/-- A string has one prefix of each length. -/
theorem isPrefix_append_iff {p a b : List α} (h : p.length = a.length) : p <+: a ++ b ↔ p = a := by
  constructor
  · intro hp
    exact (List.prefix_of_prefix_length_le hp (List.prefix_append a b) h.le).eq_of_length h
  · rintro rfl
    exact List.prefix_append p b

/-! ## Scans of a prefix -/

namespace Column

variable {ν : Type}

/-- The entries an iterator positioned at `p` reads while their keys start with `p`. -/
def prefixScan (c : Column (List α) ν) (p : List α) : List (List α × ν) :=
  (c.entries.dropWhile (fun e => decide (e.1 < p))).takeWhile (fun e => decide (p <+: e.1))

private theorem takeWhile_isPrefix {p : List α} {es : List (List α × ν)}
    (hs : es.Pairwise (fun a b => a.1 < b.1)) (hp : ∀ e ∈ es, p ≤ e.1) :
    es.takeWhile (fun e => decide (p <+: e.1)) = es.filter (fun e => decide (p <+: e.1)) := by
  induction es with
  | nil => rfl
  | cons d es ih =>
    obtain ⟨hd, hes⟩ := List.pairwise_cons.mp hs
    by_cases h : p <+: d.1
    · simp [h, ih hes (fun e he => hp e (List.mem_cons_of_mem d he))]
    · have hnone : es.filter (fun e => decide (p <+: e.1)) = [] := by
        rw [List.filter_eq_nil_iff]
        intro e he hpe
        exact h (isPrefix_of_between (hp d List.mem_cons_self) (hd e he).le (of_decide_eq_true hpe))
      simp [h, hnone]

/-- The scan returns exactly the entries whose keys start with the prefix, in key order. -/
theorem prefixScan_eq_filter (c : Column (List α) ν) (p : List α) :
    c.prefixScan p = c.entries.filter (fun e => decide (p <+: e.1)) := by
  have hs := c.sorted
  unfold prefixScan
  generalize c.entries = es at hs
  induction es with
  | nil => rfl
  | cons d es ih =>
    obtain ⟨hd, hes⟩ := List.pairwise_cons.mp hs
    by_cases h : d.1 < p
    · have hnot : ¬ p <+: d.1 := fun hp => absurd h (not_lt.mpr (le_of_isPrefix hp))
      simp only [List.dropWhile_cons, h, decide_true, ↓reduceIte]
      rw [ih hes, List.filter_cons_of_neg (by simp [hnot])]
    · simp only [List.dropWhile_cons, h, decide_false, Bool.false_eq_true, ↓reduceIte]
      refine takeWhile_isPrefix hs (fun e he => ?_)
      rcases List.mem_cons.mp he with rfl | he
      · exact not_lt.mp h
      · exact (not_lt.mp h).trans (hd e he).le

/-! ## Encoded columns -/

section Image

variable {κ κ' ν' : Type} [LinearOrder κ] [LinearOrder κ'] {enc : κ → κ'}

/-- The column with every key encoded and every value in its stored form. -/
def image (c : Column κ ν) (enc : κ → κ') (henc : StrictMono enc) (form : ν → ν') : Column κ' ν' where
  entries := c.entries.map (fun e => (enc e.1, form e.2))
  sorted := List.pairwise_map.mpr (c.sorted.imp (fun h => henc h))

variable (henc : StrictMono enc) (form : ν → ν')

theorem image_get (c : Column κ ν) (k : κ) : (c.image enc henc form).get (enc k) = (c.get k).map form := by
  apply Option.ext
  intro v
  rw [get_eq_some, Option.map_eq_some_iff]
  constructor
  · intro h
    obtain ⟨⟨k', w⟩, hmem, heq⟩ := List.mem_map.mp h
    obtain ⟨hk, rfl⟩ := Prod.mk.inj heq
    obtain rfl := henc.injective hk
    exact ⟨w, get_eq_some.mpr hmem, rfl⟩
  · rintro ⟨w, hw, rfl⟩
    exact List.mem_map.mpr ⟨(k, w), get_eq_some.mp hw, rfl⟩

theorem image_get_of_notMem (c : Column κ ν) {j : κ'} (hj : ∀ k, enc k ≠ j) :
    (c.image enc henc form).get j = none := by
  apply Option.eq_none_iff_forall_not_mem.mpr
  intro v hv
  obtain ⟨e, -, heq⟩ := List.mem_map.mp (get_eq_some.mp hv)
  exact hj e.1 (congrArg Prod.fst heq)

/-- A write under the encoded key is the write under the key. -/
theorem image_write (c : Column κ ν) (k : κ) (o : Option ν) :
    (c.write k o).image enc henc form = (c.image enc henc form).write (enc k) (o.map form) := by
  apply ext_get
  intro j
  rw [get_write]
  by_cases hj : ∃ k', enc k' = j
  · obtain ⟨k', rfl⟩ := hj
    rw [image_get, get_write, image_get]
    by_cases hk : k = k'
    · rw [if_pos hk, if_pos (congrArg enc hk)]
    · rw [if_neg hk, if_neg (fun h => hk (henc.injective h))]
  · have hnone : ∀ k', enc k' ≠ j := fun k' h => hj ⟨k', h⟩
    rw [image_get_of_notMem henc form _ hnone, if_neg (hnone k), image_get_of_notMem henc form _ hnone]

theorem total_image {M : Type} [AddCommMonoid M] (c : Column κ ν) (f : κ' → ν' → M) :
    (c.image enc henc form).total f = c.total (fun k v => f (enc k) (form v)) := by
  simp only [total, image, List.map_map, Function.comp_def]

end Image

/-- A prefix scan of the encoded column reads the entries whose encoded keys start with the prefix. -/
theorem prefixScan_image {κ ν' : Type} [LinearOrder κ] {enc : κ → List α} (henc : StrictMono enc)
    (form : ν → ν') (c : Column κ ν) (p : List α) :
    (c.image enc henc form).prefixScan p =
      (c.entries.filter (fun e => decide (p <+: enc e.1))).map (fun e => (enc e.1, form e.2)) := by
  rw [prefixScan_eq_filter, image, List.filter_map]
  rfl

end Column

end Store
