import Mathlib
import Arknet.Lib.Runs

/-!
At most once. A system leaves a mark for every event it emits, never removes a mark, and never emits
an event whose mark is there. `Marks` says this of one step; it composes (`Marks.append`), and the
events of consecutive steps are then distinct (`Marks.disjoint`, `Marks.nodup_append`), and with them
those of a whole run (`Marks.steps`).
-/

namespace Trace

variable {σ ε : Type}

structure Marks (mark : σ → ε → Prop) (s : σ) (es : List ε) (s' : σ) : Prop where
  fresh : ∀ e ∈ es, ¬ mark s e
  left : ∀ e ∈ es, mark s' e
  kept : ∀ e, mark s e → mark s' e

namespace Marks

variable {mark : σ → ε → Prop} {s s' s'' : σ} {es es' : List ε}

/-- A step that emits nothing keeps the marks. -/
theorem silent (h : ∀ e, mark s e → mark s' e) : Marks mark s [] s' :=
  ⟨fun _ he => absurd he List.not_mem_nil, fun _ he => absurd he List.not_mem_nil, h⟩

theorem append (h : Marks mark s es s') (h' : Marks mark s' es' s'') : Marks mark s (es ++ es') s'' where
  fresh e he := by
    rcases List.mem_append.mp he with he | he
    · exact h.fresh e he
    · exact fun hm => h'.fresh e he (h.kept e hm)
  left e he := by
    rcases List.mem_append.mp he with he | he
    · exact h'.kept e (h.left e he)
    · exact h'.left e he
  kept e he := h'.kept e (h.kept e he)

/-- What one step has emitted, the next does not. -/
theorem disjoint (h : Marks mark s es s') (h' : Marks mark s' es' s'') : List.Disjoint es es' :=
  fun e he he' => h'.fresh e he' (h.left e he)

theorem nodup_append (h : Marks mark s es s') (h' : Marks mark s' es' s'') (hn : es.Nodup)
    (hn' : es'.Nodup) : (es ++ es').Nodup := List.Nodup.append hn hn' (h.disjoint h')

/-- A step that emits at most one event emits it once. -/
theorem single {e : ε} (hf : ¬ mark s e) (hl : mark s' e) (hk : ∀ e, mark s e → mark s' e) :
    Marks mark s [e] s' :=
  ⟨fun _ he => List.mem_singleton.mp he ▸ hf, fun _ he => List.mem_singleton.mp he ▸ hl, hk⟩

/-- What the steps of a run emit is distinct when what each step emits is. -/
theorem steps {ℓ : Type} {R : σ → ℓ → σ → Prop} {emit : ℓ → List ε} {hist : List ℓ} {t : σ}
    (step : ∀ u l u', R u l u' → Marks mark u (emit l) u' ∧ (emit l).Nodup)
    (run : Runs.Steps R s hist t) : Marks mark s (hist.flatMap emit) t ∧ (hist.flatMap emit).Nodup := by
  induction run with
  | nil => exact ⟨.silent fun _ hm => hm, List.nodup_nil⟩
  | snoc run last ih =>
    obtain ⟨hmarks, hnodup⟩ := ih
    obtain ⟨hlast, hnodup'⟩ := step _ _ _ last
    rw [List.flatMap_append, List.flatMap_singleton]
    exact ⟨hmarks.append hlast, hmarks.nodup_append hlast hnodup hnodup'⟩

end Marks

end Trace
