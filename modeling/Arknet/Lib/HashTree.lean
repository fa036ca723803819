import Mathlib

/-!
Hash trees that pair the nodes of each layer from the left and pair an odd last node with itself. The
tree is kept apart from its digest: a digest determines the tree where nothing that was hashed
collides, and the tree determines the leaves together with the repetitions of the pairing rule.
-/

namespace HashTree

/-- What is hashed at a leaf and at a node, and that the two are told apart. -/
structure Scheme (α ι δ : Type) where
  hash : ι → δ
  leaf : α → ι
  node : δ → δ → ι
  leaf_injective : Function.Injective leaf
  node_injective : ∀ {a b c d}, node a b = node c d → a = c ∧ b = d
  leaf_ne_node : ∀ x a b, leaf x ≠ node a b

inductive MTree (α : Type) where
  | leaf (a : α)
  | node (left right : MTree α)

variable {α ι δ : Type}

/-- No two of the strings have one digest. -/
def Scheme.CollisionFree (S : Scheme α ι δ) (inputs : List ι) : Prop :=
  ∀ x ∈ inputs, ∀ y ∈ inputs, S.hash x = S.hash y → x = y

theorem Scheme.CollisionFree.mono {S : Scheme α ι δ} {inputs more : List ι}
    (h : S.CollisionFree more) (hsub : inputs ⊆ more) : S.CollisionFree inputs :=
  fun x hx y hy => h x (hsub hx) y (hsub hy)

namespace MTree

def digest (S : Scheme α ι δ) : MTree α → δ
  | leaf a => S.hash (S.leaf a)
  | node l r => S.hash (S.node (l.digest S) (r.digest S))

/-- The string under the digest. -/
def top (S : Scheme α ι δ) : MTree α → ι
  | leaf a => S.leaf a
  | node l r => S.node (l.digest S) (r.digest S)

theorem digest_eq (S : Scheme α ι δ) (t : MTree α) : t.digest S = S.hash (t.top S) := by
  cases t <;> rfl

/-- All that is hashed on the way to the digest. -/
def inputs (S : Scheme α ι δ) : MTree α → List ι
  | leaf a => [S.leaf a]
  | node l r => S.node (l.digest S) (r.digest S) :: (l.inputs S ++ r.inputs S)

theorem top_mem_inputs (S : Scheme α ι δ) (t : MTree α) : t.top S ∈ t.inputs S := by
  cases t <;> simp [top, inputs]

theorem digest_injective {S : Scheme α ι δ} {s t : MTree α}
    (hfree : S.CollisionFree (s.inputs S ++ t.inputs S)) (h : s.digest S = t.digest S) : s = t := by
  have htop : s.top S = t.top S := by
    rw [digest_eq, digest_eq] at h
    exact hfree _ (by simp [top_mem_inputs]) _ (by simp [top_mem_inputs]) h
  induction s generalizing t with
  | leaf a =>
    cases t with
    | leaf b => exact congrArg leaf (S.leaf_injective htop)
    | node l r => exact absurd htop (S.leaf_ne_node _ _ _)
  | node l r ihl ihr =>
    cases t with
    | leaf b => exact absurd htop.symm (S.leaf_ne_node _ _ _)
    | node l' r' =>
      obtain ⟨hl, hr⟩ := S.node_injective htop
      have hfreeL : S.CollisionFree (l.inputs S ++ l'.inputs S) := hfree.mono (by
        intro x hx
        simp only [inputs, List.mem_append, List.mem_cons] at hx ⊢
        tauto)
      have hfreeR : S.CollisionFree (r.inputs S ++ r'.inputs S) := hfree.mono (by
        intro x hx
        simp only [inputs, List.mem_append, List.mem_cons] at hx ⊢
        tauto)
      have htopL : l.top S = l'.top S := by
        rw [digest_eq, digest_eq] at hl
        exact hfreeL _ (by simp [top_mem_inputs]) _ (by simp [top_mem_inputs]) hl
      have htopR : r.top S = r'.top S := by
        rw [digest_eq, digest_eq] at hr
        exact hfreeR _ (by simp [top_mem_inputs]) _ (by simp [top_mem_inputs]) hr
      rw [ihl hfreeL hl htopL, ihr hfreeR hr htopR]

def leaves : MTree α → List α
  | leaf a => [a]
  | node l r => l.leaves ++ r.leaves

/-- Every leaf is at depth `h`. -/
def Perfect : Nat → MTree α → Prop
  | 0, leaf _ => True
  | h + 1, node l r => l.Perfect h ∧ r.Perfect h
  | _, _ => False

theorem Perfect.length_leaves {h : Nat} {t : MTree α} (hp : t.Perfect h) : t.leaves.length = 2 ^ h := by
  induction h generalizing t with
  | zero =>
    cases t with
    | leaf a => rfl
    | node l r => cases hp
  | succ h ih =>
    cases t with
    | leaf a => cases hp
    | node l r =>
      simp only [leaves, List.length_append, ih hp.1, ih hp.2]
      omega

theorem Perfect.eq_of_leaves {h k : Nat} {s t : MTree α} (hs : s.Perfect h) (ht : t.Perfect k)
    (heq : s.leaves = t.leaves) : s = t := by
  have hlen := congrArg List.length heq
  rw [hs.length_leaves, ht.length_leaves] at hlen
  obtain rfl := Nat.pow_right_injective (le_refl 2) hlen
  induction h generalizing s t with
  | zero =>
    cases s with
    | node l r => cases hs
    | leaf a =>
      cases t with
      | node l r => cases ht
      | leaf b => exact congrArg leaf (List.singleton_inj.mp heq)
  | succ h ih =>
    cases s with
    | leaf a => cases hs
    | node l r =>
      cases t with
      | leaf b => cases ht
      | node l' r' =>
        have hleft : l.leaves.length = l'.leaves.length := by
          rw [hs.1.length_leaves, ht.1.length_leaves]
        obtain ⟨hl, hr⟩ := List.append_inj heq hleft
        rw [ih hs.1 hl ht.1 rfl, ih hs.2 hr ht.2 rfl]

/-! ## Positions -/

/-- The subtree at depth `j` in position `i`, counted from the left. -/
def sub (t : MTree α) : Nat → Nat → Option (MTree α)
  | 0, i => if i = 0 then some t else none
  | j + 1, i =>
    match t.sub j (i / 2) with
    | some (node l r) => some (if i % 2 = 0 then l else r)
    | _ => none

theorem sub_inputs {S : Scheme α ι δ} {t u : MTree α} {j i : Nat} (h : t.sub j i = some u) :
    u.inputs S ⊆ t.inputs S := by
  induction j generalizing i u with
  | zero =>
    simp only [sub, Option.ite_none_right_eq_some, Option.some.injEq] at h
    obtain ⟨-, rfl⟩ := h
    exact List.Subset.refl _
  | succ j ih =>
    rw [sub] at h
    split at h
    · rename_i l r hsub
      have hchild := ih hsub
      simp only [inputs, List.cons_subset, List.append_subset] at hchild
      obtain rfl := Option.some.inj h
      split
      · exact hchild.2.1
      · exact hchild.2.2
    · cases h

theorem sub_node {l r : MTree α} {j i : Nat} :
    (node l r).sub (j + 1) i = if i < 2 ^ j then l.sub j i else r.sub j (i - 2 ^ j) := by
  induction j generalizing i with
  | zero =>
    rcases i with _ | _ | i
    · rfl
    · rfl
    · have hi : (i + 2) / 2 ≠ 0 := by omega
      simp [sub, hi]
  | succ j ih =>
    have hpow : 2 ^ (j + 1) = 2 * 2 ^ j := by omega
    rw [sub, ih]
    by_cases hi : i / 2 < 2 ^ j
    · rw [if_pos hi, if_pos (by omega), sub]
    · have hhalf : i / 2 - 2 ^ j = (i - 2 ^ (j + 1)) / 2 := by omega
      have hparity : i % 2 = (i - 2 ^ (j + 1)) % 2 := by omega
      rw [if_neg hi, if_neg (by omega), hhalf, hparity, ← sub]

theorem sub_leaf_succ {a : α} {j i : Nat} : (leaf a).sub (j + 1) i = none := by
  induction j generalizing i with
  | zero =>
    by_cases hi : i / 2 = 0
    · simp [sub, hi]
    · simp [sub, hi]
  | succ j ih => rw [sub, ih]

/-- The subtrees at the depth of the leaves are the leaves. -/
theorem Perfect.sub_leaf {h j i : Nat} {t : MTree α} {a : α} (hp : t.Perfect h)
    (hsub : t.sub j i = some (leaf a)) : j = h ∧ t.leaves[i]? = some a := by
  induction h generalizing j i t with
  | zero =>
    cases t with
    | node l r => cases hp
    | leaf b =>
      cases j with
      | zero =>
        simp only [sub, Option.ite_none_right_eq_some, Option.some.injEq, leaf.injEq] at hsub
        obtain ⟨rfl, rfl⟩ := hsub
        exact ⟨rfl, rfl⟩
      | succ j =>
        rw [sub_leaf_succ] at hsub
        cases hsub
  | succ h ih =>
    cases t with
    | leaf b => cases hp
    | node l r =>
      cases j with
      | zero =>
        simp only [sub, Option.ite_none_right_eq_some, Option.some.injEq, reduceCtorEq,
          and_false] at hsub
      | succ j =>
        rw [sub_node] at hsub
        have hlen := hp.1.length_leaves
        split at hsub
        · rename_i hi
          obtain ⟨rfl, hget⟩ := ih hp.1 hsub
          exact ⟨rfl, by rw [leaves, List.getElem?_append_left (by omega), hget]⟩
        · rename_i hi
          obtain ⟨rfl, hget⟩ := ih hp.2 hsub
          exact ⟨rfl, by rw [leaves, List.getElem?_append_right (by omega), hlen, hget]⟩

end MTree

/-! ## The left edge -/

namespace MTree

def leftmost : MTree α → α
  | leaf a => a
  | node l _ => l.leftmost

/-- The digests beside the left edge, lowest first. -/
def leftPath (S : Scheme α ι δ) : MTree α → List δ
  | leaf _ => []
  | node l r => l.leftPath S ++ [r.digest S]

theorem Perfect.length_leftPath {S : Scheme α ι δ} {h : Nat} {t : MTree α} (hp : t.Perfect h) :
    (t.leftPath S).length = h := by
  induction h generalizing t with
  | zero =>
    cases t with
    | leaf a => rfl
    | node l r => cases hp
  | succ h ih =>
    cases t with
    | leaf a => cases hp
    | node l r => simp [leftPath, ih hp.1]

theorem leftmost_mem_inputs (S : Scheme α ι δ) (t : MTree α) : S.leaf t.leftmost ∈ t.inputs S := by
  induction t with
  | leaf a => simp [leftmost, inputs]
  | node l r ihl _ => simp [leftmost, inputs, ihl]

end MTree

/-! ## Layers -/

/-- One layer up. -/
def pairUp {β : Type} (f : β → β → β) : List β → List β
  | [] => []
  | [a] => [f a a]
  | a :: b :: rest => f a b :: pairUp f rest

section

variable {β γ : Type} {f : β → β → β} {g : γ → γ → γ}

theorem length_pairUp (l : List β) : (pairUp f l).length = (l.length + 1) / 2 := by
  induction l using pairUp.induct with
  | case1 => simp [pairUp]
  | case2 a => simp [pairUp]
  | case3 a b rest ih =>
    simp only [pairUp, List.length_cons, ih]
    omega

theorem pairUp_map {φ : β → γ} (hφ : ∀ a b, φ (f a b) = g (φ a) (φ b)) (l : List β) :
    pairUp g (l.map φ) = (pairUp f l).map φ := by
  induction l using pairUp.induct with
  | case1 => rfl
  | case2 a => simp [pairUp, hφ]
  | case3 a b rest ih => simp [pairUp, hφ, ih]

theorem forall_pairUp {P Q : β → Prop} (hf : ∀ a b, P a → P b → Q (f a b)) {l : List β}
    (h : ∀ a ∈ l, P a) : ∀ a ∈ pairUp f l, Q a := by
  induction l using pairUp.induct with
  | case1 => simp [pairUp]
  | case2 a =>
    have ha := h a (by simp)
    simpa [pairUp] using hf a a ha ha
  | case3 a b rest ih =>
    have hhead := hf a b (h a (by simp)) (h b (by simp))
    have htail := ih (fun c hc => h c (by simp [hc]))
    simpa [pairUp] using ⟨hhead, htail⟩

/-- The layers over a list of `n`. -/
def height (n : Nat) : Nat := Nat.clog 2 n

theorem height_of_le_one {n : Nat} (h : n ≤ 1) : height n = 0 := Nat.clog_of_right_le_one h 2

theorem height_of_one_lt {n : Nat} (h : 1 < n) : height n = height ((n + 1) / 2) + 1 :=
  Nat.clog_of_two_le (by decide) h

theorem lt_two_pow_height {n i : Nat} (h : i < n) : i < 2 ^ height n :=
  lt_of_lt_of_le h (Nat.le_pow_clog (by decide) n)

/-- Going up `k` layers lowers the height by `k`. -/
theorem one_lt_of_height {n k : Nat} (h : k < height n) : 1 < (fun w => (w + 1) / 2)^[k] n := by
  induction k generalizing n with
  | zero =>
    by_contra hn
    rw [Function.iterate_zero, id, not_lt] at hn
    rw [height_of_le_one hn] at h
    omega
  | succ k ih =>
    rw [Function.iterate_succ_apply]
    apply ih
    by_cases hn : 1 < n
    · rw [height_of_one_lt hn] at h
      omega
    · rw [height_of_le_one (by omega)] at h
      omega

/-- The last layer. -/
def crown (f : β → β → β) (l : List β) : List β := (pairUp f)^[height l.length] l

theorem crown_of_length_le_one {l : List β} (h : l.length ≤ 1) : crown f l = l := by
  rw [crown, height_of_le_one h]
  rfl

theorem crown_pairUp {l : List β} (h : 1 < l.length) : crown f l = crown f (pairUp f l) := by
  rw [crown, height_of_one_lt h, Function.iterate_succ_apply, crown, length_pairUp]

/-- The layers get shorter, so that what holds of one node and goes down a layer holds of all. -/
theorem layer_induction {motive : List β → Prop} (single : ∀ a, motive [a])
    (up : ∀ l, 1 < l.length → motive (pairUp f l) → motive l) {l : List β} (h : l ≠ []) : motive l := by
  induction hn : l.length using Nat.strong_induction_on generalizing l with
  | _ n ih =>
    by_cases hlen : 1 < l.length
    · have hshort := length_pairUp (f := f) l
      apply up l hlen
      apply ih (pairUp f l).length (by omega) (by
        apply List.ne_nil_of_length_pos
        omega) rfl
    · cases l with
      | nil => exact absurd rfl h
      | cons a rest =>
        have hrest : rest.length = 0 := by
          rw [List.length_cons] at hlen
          omega
        obtain rfl := List.eq_nil_of_length_eq_zero hrest
        exact single a

theorem crown_singleton {l : List β} (h : l ≠ []) : ∃ a, crown f l = [a] := by
  refine layer_induction (f := f) (motive := fun l => ∃ a, crown f l = [a]) ?_ ?_ h
  · intro a
    exact ⟨a, crown_of_length_le_one (le_refl 1)⟩
  · intro l hlen ih
    rw [crown_pairUp hlen]
    exact ih

theorem crown_map {φ : β → γ} (hφ : ∀ a b, φ (f a b) = g (φ a) (φ b)) (l : List β) :
    crown g (l.map φ) = (crown f l).map φ := by
  rw [crown, crown, List.length_map]
  induction height l.length generalizing l with
  | zero => rfl
  | succ k ih => rw [Function.iterate_succ_apply, Function.iterate_succ_apply, pairUp_map hφ, ih]

end

/-! ## The tree of a list -/

/-- `t` is what pairing makes of the leaves `xs`. -/
def IsTree (xs : List α) (t : MTree α) : Prop := crown MTree.node (xs.map MTree.leaf) = [t]

theorem exists_isTree {xs : List α} (h : xs ≠ []) : ∃ t, IsTree xs t :=
  crown_singleton (by simpa using h)

theorem perfect_layers {k h : Nat} {l : List (MTree α)} (hp : ∀ t ∈ l, t.Perfect k) :
    ∀ t ∈ (pairUp MTree.node)^[h] l, t.Perfect (k + h) := by
  induction h generalizing k l with
  | zero => exact hp
  | succ h ih =>
    rw [Function.iterate_succ_apply, show k + (h + 1) = k + 1 + h by omega]
    exact ih (forall_pairUp (fun a b ha hb => ⟨ha, hb⟩) hp)

theorem IsTree.perfect {xs : List α} {t : MTree α} (h : IsTree xs t) : t.Perfect (height xs.length) := by
  have hleaves : ∀ t ∈ xs.map MTree.leaf, t.Perfect 0 := by simp [MTree.Perfect]
  have hcrown := perfect_layers (h := height (xs.map MTree.leaf).length) hleaves t (by
    change t ∈ crown MTree.node (xs.map MTree.leaf)
    rw [h]
    exact List.mem_singleton_self t)
  simpa using hcrown

/-- The leaves with the repetitions of the pairing rule. -/
def padded (xs : List α) : List α := (crown (· ++ ·) (xs.map fun x => [x])).flatten

theorem IsTree.leaves {xs : List α} {t : MTree α} (h : IsTree xs t) : t.leaves = padded xs := by
  have hmap := crown_map (f := MTree.node) (g := (· ++ ·)) (φ := MTree.leaves) (fun _ _ => rfl)
    (xs.map MTree.leaf)
  rw [h, List.map_map] at hmap
  have hsingle : MTree.leaves ∘ MTree.leaf = fun x : α => [x] := rfl
  rw [padded, ← hsingle, hmap]
  simp

theorem flatten_pairUp (l : List (List α)) : l.flatten <+: (pairUp (· ++ ·) l).flatten := by
  induction l using pairUp.induct with
  | case1 => exact List.prefix_rfl
  | case2 a => exact ⟨a, by simp [pairUp]⟩
  | case3 a b rest ih =>
    obtain ⟨s, hs⟩ := ih
    exact ⟨s, by simp [pairUp, ← hs]⟩

theorem flatten_crown (l : List (List α)) : l.flatten <+: (crown (· ++ ·) l).flatten := by
  rw [crown]
  induction height l.length generalizing l with
  | zero => exact List.prefix_rfl
  | succ k ih =>
    rw [Function.iterate_succ_apply]
    exact (flatten_pairUp l).trans (ih _)

theorem prefix_padded (xs : List α) : xs <+: padded xs := by
  have hflat : (xs.map fun x => [x]).flatten = xs := by
    induction xs with
    | nil => rfl
    | cons x xs ih =>
      rw [List.map_cons, List.flatten_cons, ih]
      rfl
  have hcrown := flatten_crown (xs.map fun x => [x])
  rw [hflat] at hcrown
  exact hcrown

theorem IsTree.eq_iff {xs ys : List α} {s t : MTree α} (hs : IsTree xs s) (ht : IsTree ys t) :
    s = t ↔ padded xs = padded ys := by
  rw [← hs.leaves, ← ht.leaves]
  constructor
  · rintro rfl
    rfl
  · exact hs.perfect.eq_of_leaves ht.perfect

end HashTree
