import Mathlib

/-!
Timers by name. A timer is set to a deadline, which replaces the one it had, cancelled, or goes off at the
first wake-up that is not before its deadline. After any run the timer's own acts tell whether it is set,
and every set that took effect ends in exactly one of going off, being dropped and being set still.
-/

namespace Timers

variable {κ τ : Type} [DecidableEq κ] [LinearOrder τ]

/-- In the order they were set; every name occurs once. -/
structure Armed (κ τ : Type) where
  entries : List (κ × τ)
  once : (entries.map Prod.fst).Nodup

inductive Act (κ τ : Type) where
  | set (name : κ) (deadline : τ)
  | cancel (name : κ)
  | clear
  | wake (now : τ)

namespace Armed

def empty : Armed κ τ := ⟨[], List.nodup_nil⟩

def deadline (s : Armed κ τ) (name : κ) : Option τ := (s.entries.find? fun e => e.1 = name).map Prod.snd

/-- The entries under other names. -/
def others (s : Armed κ τ) (name : κ) : List (κ × τ) := s.entries.filter fun e => e.1 ≠ name

omit [LinearOrder τ] in
theorem others_once (s : Armed κ τ) (name : κ) : ((s.others name).map Prod.fst).Nodup :=
  s.once.sublist (List.filter_sublist.map _)

def cancel (s : Armed κ τ) (name : κ) : Armed κ τ := ⟨s.others name, s.others_once name⟩

def set (s : Armed κ τ) (name : κ) (deadline : τ) : Armed κ τ where
  entries := s.others name ++ [(name, deadline)]
  once := by
    rw [List.map_append, List.nodup_append]
    refine ⟨s.others_once name, List.nodup_singleton _, ?_⟩
    rintro a ha b hb rfl
    obtain ⟨e, he, rfl⟩ := List.mem_map.mp ha
    simp only [List.map_cons, List.map_nil, List.mem_singleton] at hb
    simp [others, hb] at he

/-- What goes off at a wake-up. -/
def expired (s : Armed κ τ) (now : τ) : List (κ × τ) := s.entries.filter fun e => e.2 ≤ now

/-- What is left after a wake-up. -/
def pending (s : Armed κ τ) (now : τ) : Armed κ τ :=
  ⟨s.entries.filter fun e => ¬ e.2 ≤ now, s.once.sublist (List.filter_sublist.map _)⟩

def act (s : Armed κ τ) : Act κ τ → Armed κ τ
  | .set name deadline => s.set name deadline
  | .cancel name => s.cancel name
  | .clear => empty
  | .wake now => s.pending now

/-- The first deadline. -/
def next (s : Armed κ τ) : Option τ := (s.entries.map Prod.snd).min?

end Armed

open Armed

variable {s : Armed κ τ} {name : κ}

omit [LinearOrder τ] in
theorem deadline_eq_some {d : τ} : s.deadline name = some d ↔ (name, d) ∈ s.entries := by
  obtain ⟨entries, once⟩ := s
  unfold deadline
  induction entries with
  | nil => simp
  | cons e rest ih =>
    rw [List.map_cons, List.nodup_cons] at once
    by_cases he : e.1 = name
    · subst he
      have hnot : (e.1, d) ∉ rest := fun h => once.1 (List.mem_map.mpr ⟨_, h, rfl⟩)
      rw [List.find?_cons_of_pos (by simp)]
      simp [hnot, Prod.ext_iff, eq_comm]
    · have hne : (name, d) ≠ e := fun h => he (by rw [← h])
      rw [List.find?_cons_of_neg (by simpa using he), List.mem_cons, or_iff_right hne]
      exact ih once.2

/-- What an act makes of the deadline of one timer. -/
def about (name : κ) (d : Option τ) : Act κ τ → Option τ
  | .set other deadline => if other = name then some deadline else d
  | .cancel other => if other = name then none else d
  | .clear => none
  | .wake now => d.filter fun deadline => ¬ deadline ≤ now

theorem deadline_act (s : Armed κ τ) (a : Act κ τ) (name : κ) :
    (s.act a).deadline name = about name (s.deadline name) a := by
  refine Option.ext fun d => ?_
  rw [deadline_eq_some]
  cases a with
  | set other deadline =>
    by_cases h : other = name
    · simp [act, Armed.set, others, about, h, eq_comm]
    · simp [act, Armed.set, others, about, h, deadline_eq_some, Ne.symm h]
  | cancel other =>
    by_cases h : other = name
    · simp [act, Armed.cancel, others, about, h]
    · simp [act, Armed.cancel, others, about, h, deadline_eq_some, Ne.symm h]
  | clear => simp [act, Armed.empty, about]
  | wake now => simp [act, pending, about, Option.filter_eq_some_iff, deadline_eq_some]

/-- A run of acts. -/
def after (s : Armed κ τ) (acts : List (Act κ τ)) : Armed κ τ := acts.foldl act s

theorem after_append (acts more : List (Act κ τ)) : after s (acts ++ more) = after (after s acts) more :=
  List.foldl_append

/-- The act leaves a timer with this deadline alone. -/
def Spares (name : κ) (d : τ) : Act κ τ → Prop
  | .set other _ => other ≠ name
  | .cancel other => other ≠ name
  | .clear => False
  | .wake now => now < d

theorem about_eq_some {o : Option τ} {a : Act κ τ} {d : τ} :
    about name o a = some d ↔ a = .set name d ∨ (o = some d ∧ Spares name d a) := by
  cases a with
  | set other deadline =>
    by_cases h : other = name <;> simp [about, Spares, h]
  | cancel other =>
    by_cases h : other = name <;> simp [about, Spares, h]
  | clear => simp [about, Spares]
  | wake now => simp [about, Spares, Option.filter_eq_some_iff]

/-- A timer is set exactly when its last set has been spared since. -/
theorem deadline_after_empty {acts : List (Act κ τ)} {d : τ} :
    (after empty acts).deadline name = some d ↔
      ∃ before rest, acts = before ++ .set name d :: rest ∧ ∀ a ∈ rest, Spares name d a := by
  induction acts using List.reverseRecOn with
  | nil => simp [after, empty, deadline]
  | append_singleton acts a ih =>
    rw [after, List.foldl_append, List.foldl_cons, List.foldl_nil, ← after, deadline_act, about_eq_some, ih]
    constructor
    · rintro (rfl | ⟨⟨before, rest, rfl, hspares⟩, ha⟩)
      · exact ⟨acts, [], rfl, by simp⟩
      · refine ⟨before, rest ++ [a], by simp, fun b hb => ?_⟩
        rcases List.mem_append.mp hb with hb | hb
        · exact hspares b hb
        · rw [List.mem_singleton.mp hb]
          exact ha
    · rintro ⟨before, rest, heq, hspares⟩
      rcases List.eq_nil_or_concat rest with rfl | ⟨init, last, rfl⟩
      · obtain ⟨-, rfl⟩ := List.append_singleton_inj.mp heq
        exact .inl rfl
      · rw [List.concat_eq_append, ← List.cons_append, ← List.append_assoc] at heq
        obtain ⟨rfl, rfl⟩ := List.append_singleton_inj.mp heq
        exact .inr ⟨⟨before, init, rfl, fun b hb => hspares b (by simp [hb])⟩, hspares a (by simp)⟩

omit [DecidableEq κ] in
/-- Each timer goes off at most once at a wake-up. -/
theorem expired_once (s : Armed κ τ) (now : τ) : ((s.expired now).map Prod.fst).Nodup :=
  s.once.sublist (List.filter_sublist.map _)

theorem mem_expired {now d : τ} : (name, d) ∈ s.expired now ↔ s.deadline name = some d ∧ d ≤ now := by
  simp [expired, deadline_eq_some]

omit [DecidableEq κ] in
/-- A wake-up at the first deadline lets something go off, and nothing before it does. -/
theorem next_spec : (s.next = none ↔ s.entries = []) ∧
    ∀ d, s.next = some d → (∀ now, s.expired now ≠ [] ↔ d ≤ now) := by
  constructor
  · rw [next, List.min?_eq_none_iff, List.map_eq_nil_iff]
  · intro d hd now
    obtain ⟨hmem, hleast⟩ := List.min?_eq_some_iff.mp hd
    obtain ⟨e, he, rfl⟩ := List.mem_map.mp hmem
    constructor
    · intro hne
      obtain ⟨f, hf⟩ := List.exists_mem_of_ne_nil _ hne
      obtain ⟨hfs, hfnow⟩ := List.mem_filter.mp hf
      exact (hleast _ (List.mem_map_of_mem hfs)).trans (by simpa using hfnow)
    · exact fun h => List.ne_nil_of_mem (List.mem_filter.mpr ⟨he, by simpa using h⟩)

/-- A timer that has gone off does not go off again before it is set again. -/
theorem set_between {past between : List (Act κ τ)} {now now' d d' : τ}
    (hfirst : (name, d) ∈ (after empty past).expired now)
    (hsecond : (name, d') ∈ (after empty (past ++ .wake now :: between)).expired now') :
    .set name d' ∈ between := by
  obtain ⟨hset, hnow⟩ := mem_expired.mp hfirst
  obtain ⟨hset', -⟩ := mem_expired.mp hsecond
  obtain ⟨before, rest, heq, hspares⟩ := deadline_after_empty.mp hset'
  rcases List.append_eq_append_iff.mp heq with ⟨more, rfl, htail⟩ | ⟨more, rfl, htail⟩
  · cases more with
    | nil => cases htail
    | cons b more =>
      rw [List.cons_append] at htail
      obtain ⟨-, rfl⟩ := List.cons_eq_cons.mp htail
      exact List.mem_append_right _ List.mem_cons_self
  · cases more with
    | nil => cases htail
    | cons b more =>
      rw [List.cons_append] at htail
      obtain ⟨rfl, rfl⟩ := List.cons_eq_cons.mp htail
      have hold : (after empty (before ++ .set name d' :: more)).deadline name = some d' :=
        deadline_after_empty.mpr ⟨before, more, rfl, fun a ha => hspares a (List.mem_append_left _ ha)⟩
      obtain rfl : d' = d := Option.some.inj (hold.symm.trans hset)
      exact absurd hnow (not_le.mpr (hspares (.wake now) (List.mem_append_right _ List.mem_cons_self)))

end Timers
