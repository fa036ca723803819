import Arknet.Lib.Machine

/-!
Runs against a small automaton. A system emits events while it works; what should become of one of
its items is an automaton over these events, and `follow` runs it. `ofLoop` collects the events of a
loop that may abort. `ofLoop_keyed` finds the one iteration that speaks of a given key.
-/

namespace Trace

open Machine

/-! ## Following an automaton -/

section Follow

variable {τ ε : Type} (step : τ → ε → Option τ)

/-- The automaton reads the events in order; an event it has no move for stops it. -/
def follow (m : τ) (events : List ε) : Option τ := events.foldlM step m

@[simp] theorem follow_nil (m : τ) : follow step m [] = some m := rfl

@[simp] theorem follow_cons (m : τ) (e : ε) (es : List ε) :
    follow step m (e :: es) = (step m e).bind (fun m' => follow step m' es) := rfl

theorem follow_append (m : τ) (es es' : List ε) :
    follow step m (es ++ es') = (follow step m es).bind (fun m' => follow step m' es') :=
  List.foldlM_append

end Follow

/-! ## The events of a loop -/

section Loop

variable {σ α ε : Type} (f : σ → α → Exec σ) (emit : σ → α → σ → List ε)

/-- What the iterations of a loop emit, each between the state it meets and the one it leaves. -/
def ofLoop : σ → List α → List ε
  | _, [] => []
  | s, x :: xs =>
    match f s x with
    | .ok s' => emit s x s' ++ ofLoop s' xs
    | .error _ => []

theorem ofLoop_append {s s' : σ} {xs : List α} (h : xs.foldlM f s = .ok s') (ys : List α) :
    ofLoop f emit s (xs ++ ys) = ofLoop f emit s xs ++ ofLoop f emit s' ys := by
  induction xs generalizing s with
  | nil =>
    simp only [List.foldlM_nil, pure_eq_ok] at h
    rw [h]
    rfl
  | cons x xs ih =>
    rw [List.foldlM_cons, bind_eq_ok] at h
    obtain ⟨t, ht, hrest⟩ := h
    simp only [List.cons_append, ofLoop, ht]
    rw [ih hrest, List.append_assoc]

variable {f emit}

/-- Iterations that emit nothing leave no events. -/
theorem ofLoop_quiet {xs : List α} (h : ∀ s x s', x ∈ xs → f s x = .ok s' → emit s x s' = []) (s : σ) :
    ofLoop f emit s xs = [] := by
  induction xs generalizing s with
  | nil => rfl
  | cons x xs ih =>
    simp only [ofLoop]
    split
    · rename_i s' hs
      rw [h s x s' (by simp) hs, ih (fun t y t' hy => h t y t' (by simp [hy]))]
      rfl
    · rfl

theorem foldlM_append_ok {xs ys : List α} {s s' : σ} :
    (xs ++ ys).foldlM f s = .ok s' ↔ ∃ mid, xs.foldlM f s = .ok mid ∧ ys.foldlM f mid = .ok s' := by
  rw [List.foldlM_append, bind_eq_ok]

/-- Where the elements have distinct keys, a key says where its element stands. -/
theorem split_unique {κ : Type} (key : α → κ) {xs before after before' after' : List α} {x x' : α}
    (distinct : (xs.map key).Nodup) (h : xs = before ++ x :: after) (h' : xs = before' ++ x' :: after')
    (hkey : key x = key x') : before = before' ∧ x = x' ∧ after = after' := by
  have hmap := congrArg (List.map key) (h.symm.trans h')
  rw [h', List.map_append, List.map_cons, List.nodup_middle, List.nodup_cons, List.mem_append,
    not_or] at distinct
  simp only [List.map_append, List.map_cons] at hmap
  have hkeys := ((List.append_cons_inj_of_notMem (hkey ▸ distinct.1.1) (hkey ▸ distinct.1.2)).mp
    hmap.symm).1
  have hlen : before.length = before'.length := by simpa using (congrArg List.length hkeys).symm
  obtain ⟨rfl, htail⟩ := List.append_inj (h.symm.trans h') hlen
  obtain ⟨rfl, rfl⟩ := List.cons.inj htail
  exact ⟨rfl, rfl, rfl⟩

/-- Where the elements of a loop have distinct keys and only those of one key emit, the events are
those of the one iteration for that key. -/
theorem ofLoop_keyed {κ : Type} (key : α → κ) {x : α} {xs before after : List α}
    (quiet : ∀ s y s', key y ≠ key x → f s y = .ok s' → emit s y s' = [])
    (distinct : (xs.map key).Nodup) (hsplit : xs = before ++ x :: after) {s s' : σ}
    (h : xs.foldlM f s = .ok s') :
    ∃ s₁ s₂, before.foldlM f s = .ok s₁ ∧ f s₁ x = .ok s₂ ∧ after.foldlM f s₂ = .ok s' ∧
      (∀ y ∈ before ++ after, key y ≠ key x) ∧ ofLoop f emit s xs = emit s₁ x s₂ := by
  subst hsplit
  obtain ⟨s₁, h₁, hrest⟩ := foldlM_append_ok.mp h
  rw [List.foldlM_cons, bind_eq_ok] at hrest
  obtain ⟨s₂, hs₂, h₂⟩ := hrest
  have hne : ∀ y ∈ before ++ after, key y ≠ key x := by
    intro y hy heq
    rw [List.map_append, List.map_cons, List.nodup_middle, List.nodup_cons, ← List.map_append] at distinct
    exact distinct.1 (heq ▸ List.mem_map_of_mem hy)
  refine ⟨s₁, s₂, h₁, hs₂, h₂, hne, ?_⟩
  have hbefore : ofLoop f emit s before = [] :=
    ofLoop_quiet (fun t y t' hy => quiet t y t' (hne y (by simp [hy]))) s
  have hafter : ofLoop f emit s₂ after = [] :=
    ofLoop_quiet (fun t y t' hy => quiet t y t' (hne y (by simp [hy]))) s₂
  rw [ofLoop_append f emit h₁, hbefore, List.nil_append]
  simp only [ofLoop, hs₂, hafter, List.append_nil]

end Loop

end Trace
