import Arknet.Laws.MerkleBinding

/-!
Every leaf has a proof. The prover reads a sibling off each stored layer and the verifier halves a width
beside it; they agree layer by layer, the last node of an odd layer included.
-/

namespace Arknet.Laws

open Machine Arknet.Chain Arknet.Crypto HashTree

section

variable {K : Primitives} {layer : List Hash256} {idx : Nat} {node sibling : Hash256}

/-! ## One layer -/

theorem siblingIdx_lt (h : idx < layer.length) : siblingIdx idx layer.length < layer.length := by
  unfold siblingIdx
  split_ifs <;> omega

/-- The parent of a node and the one beside it, in their order. -/
theorem pairUp_getElem? {β : Type} {f : β → β → β} {layer : List β} {idx : Nat} {node sibling : β}
    (hnode : layer[idx]? = some node) (hsibling : layer[siblingIdx idx layer.length]? = some sibling) :
    (pairUp f layer)[idx / 2]? = some (if idx % 2 = 0 then f node sibling else f sibling node) := by
  induction layer using pairUp.induct generalizing idx with
  | case1 => simp at hnode
  | case2 a =>
    have hlt := (List.getElem?_eq_some_iff.mp hnode).1
    have hidx : idx = 0 := by simpa using hlt
    subst hidx
    obtain rfl : a = node := by simpa using hnode
    obtain rfl : a = sibling := by simpa [siblingIdx] using hsibling
    rfl
  | case3 a b rest ih =>
    rcases idx with _ | _ | i
    · obtain rfl : a = node := by simpa using hnode
      obtain rfl : b = sibling := by simpa [siblingIdx] using hsibling
      rfl
    · obtain rfl : b = node := by simpa using hnode
      obtain rfl : a = sibling := by simpa [siblingIdx] using hsibling
      rfl
    · have hhalf : (i + 1 + 1) / 2 = i / 2 + 1 := by omega
      have hparity : (i + 1 + 1) % 2 = i % 2 := by omega
      have hshift : siblingIdx (i + 1 + 1) (a :: b :: rest).length = siblingIdx i rest.length + 2 := by
        simp only [siblingIdx, List.length_cons, hparity]
        split_ifs <;> omega
      rw [hshift] at hsibling
      rw [hhalf, hparity, pairUp, List.getElem?_cons_succ]
      exact ih (by simpa using hnode) (by simpa using hsibling)

/-- The verifier hashes the same two, whichever of its three cases it is in. -/
theorem siblingPair_of_layer (hnode : layer[idx]? = some node)
    (hsibling : layer[siblingIdx idx layer.length]? = some sibling) :
    siblingPair node sibling idx layer.length =
      .ok (if idx % 2 = 0 then (node, sibling) else (sibling, node)) := by
  have hlt := (List.getElem?_eq_some_iff.mp hnode).1
  unfold siblingPair
  by_cases hself : idx % 2 = 0 ∧ idx = layer.length - 1 ∧ layer.length % 2 = 1
  · have hsame : siblingIdx idx layer.length = idx := by
      unfold siblingIdx
      rw [if_pos hself.1, if_neg (by omega)]
    rw [hsame, hnode] at hsibling
    obtain rfl := Option.some.inj hsibling
    rw [if_pos hself, if_neg (not_not.mpr rfl), if_pos hself.1]
  · rw [if_neg hself]
    by_cases hleft : idx % 2 = 0
    · rw [if_pos hleft, if_pos hleft]
    · rw [if_neg hleft, if_neg hleft]

/-! ## All layers -/

theorem buildLayers_ne_nil (K : Primitives) (fuel : Nat) (layer : List Hash256) :
    buildLayers K fuel layer ≠ [] := by
  cases fuel with
  | zero => exact List.cons_ne_nil _ _
  | succ fuel =>
    unfold buildLayers
    split <;> exact List.cons_ne_nil _ _

/-- From a node of a layer the prover's siblings lead the verifier to the top. -/
theorem climb_layers {fuel : Nat} (hfuel : layer.length ≤ fuel + 1) (hnode : layer[idx]? = some node) :
    ∃ siblings root, collectSiblings (buildLayers K fuel layer).dropLast idx = .ok siblings ∧
      siblings.length = height layer.length ∧
      (buildLayers K fuel layer).getLast? = some [root] ∧
      climbProof K siblings node idx layer.length = .ok root := by
  have hlt := (List.getElem?_eq_some_iff.mp hnode).1
  have htop : layer.length ≤ 1 → layer = [node] := by
    intro hlen
    obtain ⟨a, rfl⟩ := List.length_eq_one_iff.mp (by omega : layer.length = 1)
    have hidx : idx = 0 := by simpa using hlt
    subst hidx
    rw [Option.some.inj hnode]
  induction fuel generalizing layer idx node with
  | zero =>
    rw [htop hfuel]
    exact ⟨[], node, rfl, (height_of_le_one (le_refl 1)).symm, rfl, rfl⟩
  | succ fuel ih =>
    unfold buildLayers
    split
    · rename_i hlen
      rw [htop hlen]
      exact ⟨[], node, rfl, (height_of_le_one (le_refl 1)).symm, rfl, rfl⟩
    · rename_i hlen
      have hshort := length_pairUp (f := hashNode K) layer
      obtain ⟨sibling, hsibling⟩ : ∃ sibling, layer[siblingIdx idx layer.length]? = some sibling :=
        ⟨_, List.getElem?_eq_getElem (siblingIdx_lt hlt)⟩
      have hparent := pairUp_getElem? (f := hashNode K) hnode hsibling
      have hparentLt := (List.getElem?_eq_some_iff.mp hparent).1
      obtain ⟨siblings, root, hcollect, hheight, hlast, hclimb⟩ := ih (by omega) hparent hparentLt (by
        intro hone
        obtain ⟨a, ha⟩ := List.length_eq_one_iff.mp (by omega : (pairUp (hashNode K) layer).length = 1)
        rw [ha] at hparent hparentLt
        have hidx : idx / 2 = 0 := by simpa using hparentLt
        rw [hidx] at hparent
        rw [ha, Option.some.inj hparent])
      refine ⟨sibling :: siblings, root, ?_, ?_, ?_, ?_⟩
      · rw [merkleLayer_eq_pairUp, List.dropLast_cons_of_ne_nil (buildLayers_ne_nil K _ _)]
        simp only [collectSiblings, hsibling, hcollect, ok_bind]
        rfl
      · rw [List.length_cons, hheight, hshort, ← height_of_one_lt (by omega)]
      · rw [merkleLayer_eq_pairUp, List.getLast?_cons, hlast]
        rfl
      · rw [climbProof, siblingPair_of_layer hnode hsibling]
        rw [hshort] at hclimb
        by_cases hleft : idx % 2 = 0
        · rw [if_pos hleft] at hclimb ⊢
          exact hclimb
        · rw [if_neg hleft] at hclimb ⊢
          exact hclimb

end

/-! ## Completeness -/

theorem buildLayers_head (K : Primitives) (fuel : Nat) (layer : List Hash256) :
    (buildLayers K fuel layer).head? = some layer := by
  cases fuel with
  | zero => rfl
  | succ fuel =>
    unfold buildLayers
    split <;> rfl

/-- A tree proves each of its leaves: the proof has as many siblings as the verifier expects, and the
verifier accepts it. -/
theorem proofs_complete (K : Primitives) {leaves : List (List UInt8)} {i : Nat} {leaf : List UInt8}
    (hleaf : leaves[i]? = some leaf) :
    ∃ tree proof, MerkleTree.new K leaves = .ok tree ∧ tree.proof i = .ok (.ok proof) ∧
      proof.leafIndex = i ∧ proof.leafCount = leaves.length ∧
      proof.siblings.length = computeExpectedSiblings proof.leafCount ∧
      verifyProof K tree.root leaf proof = .ok () := by
  have hlt := (List.getElem?_eq_some_iff.mp hleaf).1
  have hhash : (leaves.map (hashLeaf K))[i]? = some (hashLeaf K leaf) := by
    rw [List.getElem?_map, hleaf, Option.map_some]
  obtain ⟨siblings, root, hcollect, hheight, hlast, hclimb⟩ := climb_layers (K := K)
    (Nat.le_succ (leaves.map (hashLeaf K)).length) hhash
  rw [List.length_map] at hheight hclimb
  have hne : (leaves.map (hashLeaf K)).isEmpty = false := by
    rw [List.isEmpty_eq_false_iff, ne_eq, List.map_eq_nil_iff]
    rintro rfl
    simp at hlt
  have hcount : MerkleTree.leafCount ⟨buildLayers K (leaves.map (hashLeaf K)).length
      (leaves.map (hashLeaf K))⟩ = leaves.length := by
    simp only [MerkleTree.leafCount, buildLayers_head, Option.map_some, Option.getD_some,
      List.length_map]
  have hroot : MerkleTree.root ⟨buildLayers K (leaves.map (hashLeaf K)).length
      (leaves.map (hashLeaf K))⟩ = root := by
    simp only [MerkleTree.root, hlast]
    rfl
  refine ⟨_, ⟨i, leaves.length, siblings⟩, by simp only [MerkleTree.new, hne]; rfl, ?_, rfl, rfl, ?_, ?_⟩
  · rw [MerkleTree.proof, hcount, if_neg (by omega), hcollect, ok_bind]
    rfl
  · rw [computeExpectedSiblings_eq_height, hheight]
  · rw [hroot]
    exact verifyProof_ok.mpr ⟨hlt, hheight, hclimb⟩

/-- The last of three leaves stands beside itself. -/
theorem proofs_complete_third :
    ∃ tree proof, MerkleTree.new toyPrimitives [[1], [2], [3]] = .ok tree ∧
      tree.proof 2 = .ok (.ok proof) ∧ proof.leafIndex = 2 ∧ proof.leafCount = 3 ∧
      proof.siblings.length = computeExpectedSiblings proof.leafCount ∧
      verifyProof toyPrimitives tree.root [3] proof = .ok () :=
  proofs_complete toyPrimitives rfl

end Arknet.Laws
