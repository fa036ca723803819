import Arknet.Lib.HashTree
import Arknet.Crypto.Merkle

/-!
What a Merkle root commits to. It commits to the leaves as the pairing rule repeats them, not to their
number: lists with one padding share a root, and a proof is accepted under any count whose tree has
the same height. The tags keep leaves and nodes apart and do nothing about repeated ones.
-/

namespace Arknet.Laws

open Arknet.Chain Arknet.Crypto HashTree

variable (K : Primitives)

/-- A zero byte before a leaf, a one before two digests. -/
def sha256Scheme : Scheme (List UInt8) (List UInt8) Hash256 where
  hash := K.sha256
  leaf x := 0x00 :: x
  node a b := 0x01 :: (a.toList ++ b.toList)
  leaf_injective _ _ h := (List.cons.inj h).2
  node_injective := by
    intro a b c d h
    obtain ⟨ha, hb⟩ := List.append_inj (List.cons.inj h).2 (by simp)
    exact ⟨Bytes.toList_injective ha, Bytes.toList_injective hb⟩
  leaf_ne_node x a b h := absurd (List.cons.inj h).1 (by decide)

/-! ## Roots -/

theorem merkleLayer_eq_pairUp (layer : List Hash256) :
    merkleLayer K layer = pairUp (hashNode K) layer := by
  induction layer using pairUp.induct with
  | case1 => simp [merkleLayer, pairUp]
  | case2 a => simp [merkleLayer, pairUp]
  | case3 a b rest ih => simp [merkleLayer, pairUp, ih]

theorem buildLayers_last {fuel : Nat} {layer : List Hash256} (hne : layer ≠ [])
    (hfuel : layer.length ≤ fuel + 1) :
    (buildLayers K fuel layer).getLast? = some (crown (hashNode K) layer) := by
  induction fuel generalizing layer with
  | zero => rw [crown_of_length_le_one hfuel]; rfl
  | succ fuel ih =>
    unfold buildLayers
    split
    · rename_i hlen
      rw [crown_of_length_le_one hlen]
      rfl
    · rename_i hlen
      have hshort := length_pairUp (f := hashNode K) layer
      rw [merkleLayer_eq_pairUp, crown_pairUp (by omega), List.getLast?_cons, ih]
      · rfl
      · apply List.ne_nil_of_length_pos
        omega
      · omega

/-- The root is the digest of the tree of the leaves. -/
theorem new_root {xs : List (List UInt8)} {tree : MerkleTree} (h : MerkleTree.new K xs = .ok tree) :
    ∃ t, IsTree xs t ∧ tree.root = t.digest (sha256Scheme K) := by
  simp only [MerkleTree.new] at h
  split at h
  · cases h
  · rename_i hempty
    obtain rfl := Except.ok.inj h
    have hne : xs ≠ [] := by
      rintro rfl
      exact hempty rfl
    obtain ⟨t, ht⟩ := exists_isTree hne
    have hmap := crown_map (f := MTree.node) (g := hashNode K)
      (φ := MTree.digest (sha256Scheme K)) (fun _ _ => rfl) (xs.map MTree.leaf)
    rw [ht, List.map_map] at hmap
    refine ⟨t, ht, ?_⟩
    have hleaf : MTree.digest (sha256Scheme K) ∘ MTree.leaf = hashLeaf K := rfl
    rw [hleaf] at hmap
    simp only [MerkleTree.root]
    rw [buildLayers_last K (by simpa using hne) (by omega), hmap]
    rfl

theorem expectedSiblings_eq_height {fuel width : Nat} (h : width ≤ fuel + 1) :
    expectedSiblings fuel width = height width := by
  induction fuel generalizing width with
  | zero =>
    rw [height_of_le_one h]
    rfl
  | succ fuel ih =>
    unfold expectedSiblings
    split
    · rename_i hwidth
      rw [ih (by omega), ← height_of_one_lt hwidth]
    · rename_i hwidth
      rw [height_of_le_one (by omega)]

theorem computeExpectedSiblings_eq_height (width : Nat) :
    computeExpectedSiblings width = height width := expectedSiblings_eq_height (by omega)

/-! ## Proofs -/

/-- What `climbProof` hashes. -/
def climbInputs : List Hash256 → Hash256 → Nat → Nat → List (List UInt8)
  | [], _, _, _ => []
  | sibling :: rest, current, idx, layerWidth =>
    match siblingPair current sibling idx layerWidth with
    | .error _ => []
    | .ok pair => (0x01 :: (pair.1.toList ++ pair.2.toList)) ::
        climbInputs rest (hashNode K pair.1 pair.2) (idx / 2) ((layerWidth + 1) / 2)

/-- What `verifyProof` hashes. -/
def verifyInputs (leaf : List UInt8) (proof : MerkleProof) : List (List UInt8) :=
  (0x00 :: leaf) :: climbInputs K proof.siblings (hashLeaf K leaf) proof.leafIndex proof.leafCount

/-- The node of the path is the left or the right one as its index is even or odd. -/
theorem siblingPair_side {current sibling : Hash256} {idx layerWidth : Nat}
    {pair : Hash256 × Hash256} (h : siblingPair current sibling idx layerWidth = .ok pair) :
    current = if idx % 2 = 0 then pair.1 else pair.2 := by
  unfold siblingPair at h
  split_ifs at h with hself hsame hleft
  · cases h
    rw [if_pos hself.1]
  · cases h
    rw [if_pos hleft]
  · cases h
    rw [if_neg hleft]

/-- The path of an accepted proof goes through the nodes of the tree, wherever the proof says that
the layers end. -/
theorem climbProof_sub {t : MTree (List UInt8)} {siblings : List Hash256} {current : Hash256}
    {idx layerWidth : Nat}
    (hfree : (sha256Scheme K).CollisionFree
      (t.inputs (sha256Scheme K) ++ climbInputs K siblings current idx layerWidth))
    (h : climbProof K siblings current idx layerWidth = .ok (t.digest (sha256Scheme K)))
    (htop : idx < 2 ^ siblings.length) :
    ∃ u, t.sub siblings.length idx = some u ∧ current = u.digest (sha256Scheme K) := by
  induction siblings generalizing current idx layerWidth with
  | nil =>
    have hidx : idx = 0 := by simpa using htop
    exact ⟨t, by simp [MTree.sub, hidx], Except.ok.inj h⟩
  | cons sibling rest ih =>
    cases hpair : siblingPair current sibling idx layerWidth with
    | error e => simp [climbProof, hpair] at h
    | ok pair =>
      simp only [climbProof, hpair] at h
      simp only [climbInputs, hpair] at hfree
      rw [List.length_cons, Nat.pow_succ] at htop
      obtain ⟨u, hsub, hdigest⟩ := ih (hfree.mono (by
        intro x hx
        simp only [List.mem_append, List.mem_cons] at hx ⊢
        tauto)) h (by omega)
      have htopMem := MTree.sub_inputs hsub (MTree.top_mem_inputs (sha256Scheme K) u)
      rw [MTree.digest_eq] at hdigest
      have hsame : 0x01 :: (pair.1.toList ++ pair.2.toList) = u.top (sha256Scheme K) :=
        hfree _ (by simp) _ (List.mem_append_left _ htopMem) hdigest
      cases u with
      | leaf a => exact absurd hsame.symm ((sha256Scheme K).leaf_ne_node _ _ _)
      | node l r =>
        obtain ⟨hl, hr⟩ := (sha256Scheme K).node_injective hsame
        refine ⟨if idx % 2 = 0 then l else r, by simp [MTree.sub, hsub], ?_⟩
        rw [siblingPair_side hpair, hl, hr]
        split <;> rfl

variable {K}

theorem verifyProof_ok {root : Hash256} {leaf : List UInt8} {proof : MerkleProof} :
    verifyProof K root leaf proof = .ok () ↔
      proof.leafIndex < proof.leafCount ∧ proof.siblings.length = height proof.leafCount ∧
        climbProof K proof.siblings (hashLeaf K leaf) proof.leafIndex proof.leafCount = .ok root := by
  have hexpected : (if proof.leafCount ≤ 1 then 0 else computeExpectedSiblings proof.leafCount) =
      height proof.leafCount := by
    split
    · rename_i hcount
      rw [height_of_le_one hcount]
    · exact computeExpectedSiblings_eq_height _
  simp only [verifyProof, hexpected]
  constructor
  · intro h
    split_ifs at h with hidx hlen
    cases hclimb : climbProof K proof.siblings (hashLeaf K leaf) proof.leafIndex proof.leafCount with
    | error e => simp [hclimb] at h
    | ok current =>
      simp only [hclimb] at h
      split_ifs at h with hroot
      exact ⟨not_le.mp hidx, not_not.mp hlen, by rw [hroot]⟩
  · rintro ⟨hidx, hlen, hclimb⟩
    rw [if_neg (not_le.mpr hidx), if_neg (not_not.mpr hlen), hclimb]
    simp

/-- What an accepted proof shows: the height of the count, and a leaf of the padded list. -/
theorem accepted_leaf {xs : List (List UInt8)} {t : MTree (List UInt8)} (ht : IsTree xs t)
    {leaf : List UInt8} {proof : MerkleProof}
    (hfree : (sha256Scheme K).CollisionFree (t.inputs (sha256Scheme K) ++ verifyInputs K leaf proof))
    (h : verifyProof K (t.digest (sha256Scheme K)) leaf proof = .ok ()) :
    height proof.leafCount = height xs.length ∧ (padded xs)[proof.leafIndex]? = some leaf := by
  obtain ⟨hidx, hlen, hclimb⟩ := verifyProof_ok.mp h
  have hfreeClimb : (sha256Scheme K).CollisionFree (t.inputs (sha256Scheme K) ++
      climbInputs K proof.siblings (hashLeaf K leaf) proof.leafIndex proof.leafCount) :=
    hfree.mono (by
      intro x hx
      simp only [verifyInputs, List.mem_append, List.mem_cons] at hx ⊢
      tauto)
  obtain ⟨u, hsub, hdigest⟩ := climbProof_sub K hfreeClimb hclimb (by
    rw [hlen]
    exact lt_two_pow_height hidx)
  rw [MTree.digest_eq] at hdigest
  have htopMem := MTree.sub_inputs hsub (MTree.top_mem_inputs (sha256Scheme K) u)
  have hsame : 0x00 :: leaf = u.top (sha256Scheme K) :=
    hfree _ (by simp [verifyInputs]) _ (List.mem_append_left _ htopMem) hdigest
  cases u with
  | node l r => exact absurd hsame ((sha256Scheme K).leaf_ne_node leaf _ _)
  | leaf a =>
    obtain rfl := (sha256Scheme K).leaf_injective hsame
    obtain ⟨hheight, hget⟩ := ht.perfect.sub_leaf hsub
    rw [← ht.leaves]
    exact ⟨hlen.symm.trans hheight, hget⟩

/-- Along the left edge every node has a right neighbour, under any width that leaves enough layers. -/
theorem climb_left {h : Nat} {t : MTree (List UInt8)} (hp : t.Perfect h) {width : Nat}
    (hwidth : h ≤ height width) (rest : List Hash256) :
    climbProof K (t.leftPath (sha256Scheme K) ++ rest) (hashLeaf K t.leftmost) 0 width =
      climbProof K rest (t.digest (sha256Scheme K)) 0 ((fun w => (w + 1) / 2)^[h] width) ∧
    climbInputs K (t.leftPath (sha256Scheme K) ++ rest) (hashLeaf K t.leftmost) 0 width ⊆
      t.inputs (sha256Scheme K) ++
        climbInputs K rest (t.digest (sha256Scheme K)) 0 ((fun w => (w + 1) / 2)^[h] width) := by
  induction h generalizing t rest with
  | zero =>
    cases t with
    | leaf a => exact ⟨rfl, List.subset_append_right _ _⟩
    | node l r => cases hp
  | succ h ih =>
    cases t with
    | leaf a => cases hp
    | node l r =>
      obtain ⟨hclimb, hinputs⟩ := ih hp.1 (by omega) (r.digest (sha256Scheme K) :: rest)
      have hpair : siblingPair (l.digest (sha256Scheme K)) (r.digest (sha256Scheme K)) 0
          ((fun w => (w + 1) / 2)^[h] width) =
          .ok (l.digest (sha256Scheme K), r.digest (sha256Scheme K)) := by
        have hlt := one_lt_of_height (show h < height width by omega)
        unfold siblingPair
        rw [if_neg (by omega), if_pos rfl]
      rw [Function.iterate_succ_apply']
      simp only [MTree.leftPath, MTree.leftmost, List.append_assoc, List.singleton_append]
      constructor
      · rw [hclimb, climbProof, hpair]
        rfl
      · intro x hx
        have hmem := hinputs hx
        rw [climbInputs, hpair] at hmem
        simp only [MTree.inputs, List.mem_append, List.mem_cons] at hmem ⊢
        tauto

/-- The first leaf is accepted under every count of the right height. -/
theorem first_leaf_accepted {xs : List (List UInt8)} {t : MTree (List UInt8)} (ht : IsTree xs t)
    {count : Nat} (hpos : 0 < count) (hheight : height count = height xs.length) :
    verifyProof K (t.digest (sha256Scheme K)) t.leftmost
        ⟨0, count, t.leftPath (sha256Scheme K)⟩ = .ok () ∧
      verifyInputs K t.leftmost ⟨0, count, t.leftPath (sha256Scheme K)⟩ ⊆
        t.inputs (sha256Scheme K) := by
  obtain ⟨hclimb, hinputs⟩ := climb_left ht.perfect hheight.ge []
  rw [List.append_nil] at hclimb hinputs
  constructor
  · exact verifyProof_ok.mpr ⟨hpos, by rw [hheight]; exact ht.perfect.length_leftPath, hclimb⟩
  · simp only [verifyInputs, List.cons_subset]
    refine ⟨MTree.leftmost_mem_inputs (sha256Scheme K) t, ?_⟩
    simpa [climbInputs] using hinputs

/-! ## Binding -/

/-- What `MerkleTree::new` hashes. -/
def newInputs (K : Primitives) (leaves : List (List UInt8)) : List (List UInt8) :=
  (crown MTree.node (leaves.map MTree.leaf)).flatMap (MTree.inputs (sha256Scheme K))

theorem newInputs_eq {xs : List (List UInt8)} {t : MTree (List UInt8)} (ht : IsTree xs t) :
    newInputs K xs = t.inputs (sha256Scheme K) := by
  rw [newInputs, ht]
  simp

/-- Without collisions two lists share a root exactly when their paddings are the same, and the
proofs of a list are bound to its length under every count but those of the same height. -/
theorem merkle_binding {xs ys : List (List UInt8)} {tx ty : MerkleTree}
    (hx : MerkleTree.new K xs = .ok tx) (hy : MerkleTree.new K ys = .ok ty)
    (hfree : (sha256Scheme K).CollisionFree (newInputs K xs ++ newInputs K ys)) :
    ((tx.root = ty.root → xs = ys) ↔ (padded xs = padded ys → xs = ys)) ∧
    ∀ count,
      (∀ (leaf : List UInt8) (proof : MerkleProof), proof.leafCount = count →
        (sha256Scheme K).CollisionFree (newInputs K xs ++ verifyInputs K leaf proof) →
        verifyProof K tx.root leaf proof = .ok () →
          proof.leafCount = xs.length ∧ xs[proof.leafIndex]? = some leaf) ↔
      (count = xs.length ∨ count = 0 ∨
        computeExpectedSiblings count ≠ computeExpectedSiblings xs.length) := by
  obtain ⟨s, hs, hroot⟩ := new_root K hx
  obtain ⟨t, ht, hroot'⟩ := new_root K hy
  rw [newInputs_eq hs, newInputs_eq ht] at hfree
  constructor
  · have hsame : tx.root = ty.root ↔ padded xs = padded ys := by
      rw [hroot, hroot', ← hs.eq_iff ht]
      constructor
      · exact MTree.digest_injective hfree
      · rintro rfl
        rfl
    rw [hsame]
  · intro count
    rw [computeExpectedSiblings_eq_height, computeExpectedSiblings_eq_height, hroot, newInputs_eq hs]
    constructor
    · intro hbound
      by_contra hcount
      push Not at hcount
      obtain ⟨hne, hpos, hheight⟩ := hcount
      obtain ⟨haccepted, hinputs⟩ := first_leaf_accepted hs (Nat.pos_of_ne_zero hpos) hheight
      have hsub := List.append_subset.mpr ⟨List.Subset.refl _, hinputs⟩
      have hleft := List.subset_append_left (s.inputs (sha256Scheme K)) (t.inputs (sha256Scheme K))
      exact hne (hbound _ _ rfl (hfree.mono (List.Subset.trans hsub hleft)) haccepted).1
    · rintro hcount leaf proof rfl hfreeProof hverified
      obtain ⟨hheight, hget⟩ := accepted_leaf hs hfreeProof hverified
      have hidx := (verifyProof_ok.mp hverified).1
      obtain hlen | hzero | hother := hcount
      · refine ⟨hlen, ?_⟩
        obtain ⟨rest, hrest⟩ := prefix_padded xs
        rw [← hrest, List.getElem?_append_left (by omega)] at hget
        exact hget
      · omega
      · exact absurd hheight hother

/-- Three leaves, as they are paired. -/
def threeLeaves : MTree (List UInt8) := .node (.node (.leaf [1]) (.leaf [2])) (.node (.leaf [3]) (.leaf [3]))

theorem threeLeaves_tree : IsTree [[1], [2], [3]] threeLeaves := by
  simp [IsTree, crown_pairUp, crown_of_length_le_one, pairUp, threeLeaves]

theorem threeLeaves_repeated : IsTree [[1], [2], [3], [3]] threeLeaves := by
  simp [IsTree, crown_pairUp, crown_of_length_le_one, pairUp, threeLeaves]

set_option maxRecDepth 4000 in
theorem threeLeaves_collisionFree :
    (sha256Scheme toyPrimitives).CollisionFree (threeLeaves.inputs (sha256Scheme toyPrimitives)) := by
  unfold Scheme.CollisionFree
  decide

theorem merkle_binding_three :
    ∃ tx, MerkleTree.new toyPrimitives [[1], [2], [3]] = .ok tx ∧
      ∀ (leaf : List UInt8) (proof : MerkleProof), proof.leafCount = 3 →
        (sha256Scheme toyPrimitives).CollisionFree
          (newInputs toyPrimitives [[1], [2], [3]] ++ verifyInputs toyPrimitives leaf proof) →
        verifyProof toyPrimitives tx.root leaf proof = .ok () →
          proof.leafCount = 3 ∧ [[1], [2], [3]][proof.leafIndex]? = some leaf := by
  have hnew : ∃ tx, MerkleTree.new toyPrimitives [[1], [2], [3]] = .ok tx := ⟨_, rfl⟩
  obtain ⟨tx, hnew⟩ := hnew
  refine ⟨tx, hnew, (((merkle_binding hnew hnew) ?_).2 3).mpr (.inl rfl)⟩
  rw [newInputs_eq threeLeaves_tree]
  exact threeLeaves_collisionFree.mono (List.append_subset.mpr ⟨List.Subset.refl _, List.Subset.refl _⟩)

/-- Three leaves and the same with the last one repeated have one root, and the root of four leaves
vouches for the first of three. -/
theorem repeated_leaf_unseen :
    ∃ tx ty siblings, MerkleTree.new toyPrimitives [[1], [2], [3]] = .ok tx ∧
      MerkleTree.new toyPrimitives [[1], [2], [3], [3]] = .ok ty ∧ tx.root = ty.root ∧
      verifyProof toyPrimitives ty.root [1] ⟨0, 3, siblings⟩ = .ok () ∧
      (sha256Scheme toyPrimitives).CollisionFree
        (newInputs toyPrimitives [[1], [2], [3]] ++ (newInputs toyPrimitives [[1], [2], [3], [3]] ++
          verifyInputs toyPrimitives [1] ⟨0, 3, siblings⟩)) := by
  obtain ⟨haccepted, hinputs⟩ := @first_leaf_accepted toyPrimitives _ _ threeLeaves_tree 3
    (by decide) rfl
  have hnew : ∃ tx, MerkleTree.new toyPrimitives [[1], [2], [3]] = .ok tx := ⟨_, rfl⟩
  have hnew' : ∃ ty, MerkleTree.new toyPrimitives [[1], [2], [3], [3]] = .ok ty := ⟨_, rfl⟩
  obtain ⟨tx, hx⟩ := hnew
  obtain ⟨ty, hy⟩ := hnew'
  obtain ⟨s, hs, hroot⟩ := new_root toyPrimitives hx
  obtain ⟨t, ht, hroot'⟩ := new_root toyPrimitives hy
  obtain rfl : threeLeaves = s := List.singleton_inj.mp (threeLeaves_tree.symm.trans hs)
  obtain rfl : threeLeaves = t := List.singleton_inj.mp (threeLeaves_repeated.symm.trans ht)
  refine ⟨tx, ty, _, hx, hy, hroot.trans hroot'.symm, by rw [hroot']; exact haccepted, ?_⟩
  rw [newInputs_eq threeLeaves_tree, newInputs_eq threeLeaves_repeated]
  exact threeLeaves_collisionFree.mono (List.append_subset.mpr ⟨List.Subset.refl _,
    List.append_subset.mpr ⟨List.Subset.refl _, hinputs⟩⟩)

end Arknet.Laws
