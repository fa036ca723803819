import Arknet.Chain.Crypto

/-!
The Merkle tree over SHA-256 and its inclusion proofs. Counts and indices are `usize`; nothing below
comes near their end.
-/

namespace Arknet.Crypto

open Machine Arknet.Chain

inductive CryptoError where
  | signatureInvalid
  | invalidInput (text : String)
  | merkleInvalid (text : String)
  deriving DecidableEq, Repr

structure MerkleProof where
  leafIndex : Nat
  leafCount : Nat
  /-- Lowest layer first. -/
  siblings : List Hash256
  deriving DecidableEq, Repr

structure MerkleTree where
  layers : List (List Hash256)
  deriving DecidableEq, Repr

section

variable (K : Primitives)

/-- The loop over the layers; each is shorter than the one before, so the number of leaves bounds the
rounds. -/
def buildLayers : Nat → List Hash256 → List (List Hash256)
  | 0, layer => [layer]
  | fuel + 1, layer =>
    if layer.length ≤ 1 then [layer] else layer :: buildLayers fuel (merkleLayer K layer)

def MerkleTree.new (leaves : List (List UInt8)) : Except CryptoError MerkleTree :=
  let leafHashes := leaves.map (hashLeaf K)
  if leafHashes.isEmpty then .error (.invalidInput "cannot build Merkle tree over 0 leaves")
  else .ok ⟨buildLayers K leafHashes.length leafHashes⟩

def MerkleTree.root (tree : MerkleTree) : Hash256 :=
  ((tree.layers.getLast?).bind List.head?).getD default

def MerkleTree.leafCount (tree : MerkleTree) : Nat := (tree.layers.head?.map List.length).getD 0

/-- Beside a left node stands the right one, or itself when it is the last of an odd layer. -/
def siblingIdx (idx width : Nat) : Nat :=
  if idx % 2 = 0 then if idx + 1 < width then idx + 1 else idx else idx - 1

/-- The loop over the layers below the top; it aborts at an index past the end of a layer. -/
def collectSiblings : List (List Hash256) → Nat → Exec (List Hash256)
  | [], _ => pure []
  | layer :: rest, idx =>
    match layer[siblingIdx idx layer.length]? with
    | none => .error .indexOutOfRange
    | some sibling => do
      let siblings ← collectSiblings rest (idx / 2)
      pure (sibling :: siblings)

def MerkleTree.proof (tree : MerkleTree) (index : Nat) : Exec (Except CryptoError MerkleProof) :=
  if index ≥ tree.leafCount then
    pure (.error (.invalidInput ("leaf index " ++ toString index ++ " out of range for " ++
      toString tree.leafCount ++ " leaves")))
  else do
    let siblings ← collectSiblings tree.layers.dropLast index
    pure (.ok ⟨index, tree.leafCount, siblings⟩)

def expectedSiblings : Nat → Nat → Nat
  | 0, _ => 0
  | fuel + 1, width => if width > 1 then expectedSiblings fuel ((width + 1) / 2) + 1 else 0

def computeExpectedSiblings (width : Nat) : Nat := expectedSiblings width width

/-- What is hashed in a round, left and right. A left node without a right one stands beside itself. -/
def siblingPair (current sibling : Hash256) (idx layerWidth : Nat) :
    Except CryptoError (Hash256 × Hash256) :=
  if idx % 2 = 0 ∧ idx = layerWidth - 1 ∧ layerWidth % 2 = 1 then
    if sibling ≠ current then .error (.merkleInvalid "self-sibling mismatch at odd layer")
    else .ok (current, current)
  else if idx % 2 = 0 then .ok (current, sibling)
  else .ok (sibling, current)

/-- The loop over the siblings. -/
def climbProof : List Hash256 → Hash256 → Nat → Nat → Except CryptoError Hash256
  | [], current, _, _ => .ok current
  | sibling :: rest, current, idx, layerWidth =>
    match siblingPair current sibling idx layerWidth with
    | .error e => .error e
    | .ok pair => climbProof rest (hashNode K pair.1 pair.2) (idx / 2) ((layerWidth + 1) / 2)

def verifyProof (root : Hash256) (leaf : List UInt8) (proof : MerkleProof) :
    Except CryptoError Unit :=
  if proof.leafIndex ≥ proof.leafCount then .error (.merkleInvalid "leaf index out of range")
  else
    let expectedHeight := if proof.leafCount ≤ 1 then 0 else computeExpectedSiblings proof.leafCount
    if proof.siblings.length ≠ expectedHeight then
      .error (.merkleInvalid ("expected " ++ toString expectedHeight ++ " sibling(s), got " ++
        toString proof.siblings.length))
    else
      match climbProof K proof.siblings (hashLeaf K leaf) proof.leafIndex proof.leafCount with
      | .error e => .error e
      | .ok current => if current = root then .ok () else .error (.merkleInvalid "root mismatch")

end

end Arknet.Crypto
