import Arknet.Lib.Borsh
import Arknet.Chain.Types

/-!
The borsh forms of the identifiers and of the tagged keys and signatures.
-/

namespace Arknet.Chain

open Machine Borsh

theorem Bytes.toList_eq_beBytes {n : Nat} (b : Bytes n) : b.toList = beBytes n b.val.val := by
  apply List.ext_getElem
  · simp
  · intro i hi _
    simp only [Bytes.toList, beBytes, List.getElem_map, List.getElem_range, List.getElem_reverse,
      getElem_leBytes, length_leBytes]

/-- `.expect(..)` on what the borsh library returns. -/
def expectEncoded (o : Option (List UInt8)) : Exec (List UInt8) :=
  match o with
  | some bs => .ok bs
  | none => .error .expectNone

theorem expectEncoded_eq_ok {o : Option (List UInt8)} {bs : List UInt8} :
    expectEncoded o = .ok bs ↔ o = some bs := by
  cases o <;> simp [expectEncoded]

/-- A byte array of fixed length is its bytes, without a length. -/
def Bytes.codec (n : Nat) : Codec (Bytes n) :=
  (Codec.wordBE n (256 ^ n) rfl).map ⟨Bytes.mk, Bytes.val, fun _ => rfl, fun _ => rfl⟩

@[simp] theorem Bytes.codec_encode {n : Nat} (b : Bytes n) :
    (Bytes.codec n).encode b = some b.toList := by
  rw [Bytes.toList_eq_beBytes]
  exact @Codec.wordBE_encode n (256 ^ n) rfl b.val

/-- The discriminants of the scheme. -/
def SignatureScheme.discriminant : SignatureScheme → UInt8
  | .ed25519 => 1
  | .dilithium => 2
  | .falcon => 3
  | .sphincs => 4
  | .hybridEd25519Dilithium => 5

def SignatureScheme.ofByte (b : UInt8) : Option SignatureScheme :=
  if b = 1 then some .ed25519
  else if b = 2 then some .dilithium
  else if b = 3 then some .falcon
  else if b = 4 then some .sphincs
  else if b = 5 then some .hybridEd25519Dilithium
  else none

def SignatureScheme.codec : Codec SignatureScheme := Codec.byte.pmap
  { toFun := ofByte
    invFun := fun s => some s.discriminant
    inv := by
      intro b s
      unfold ofByte
      constructor
      · intro h
        obtain rfl := Option.some.inj h
        cases s <;> rfl
      · intro h
        split_ifs at h
        all_goals
          obtain rfl := Option.some.inj h
          subst b
          rfl }

def PubKey.codec : Codec PubKey :=
  (SignatureScheme.codec.prod Codec.bytes).map
    ⟨fun p => ⟨p.1, p.2⟩, fun k => (k.scheme, k.bytes), fun _ => rfl, fun _ => rfl⟩

def Signature.codec : Codec Signature :=
  (SignatureScheme.codec.prod Codec.bytes).map
    ⟨fun p => ⟨p.1, p.2⟩, fun s => (s.scheme, s.bytes), fun _ => rfl, fun _ => rfl⟩

/-! ## Transactions -/

/-- The variant number, which is the first byte of the borsh form. -/
def Transaction.variant : Transaction → UInt8
  | .transfer .. => 0
  | .stakeOp .. => 1
  | .receiptBatch .. => 2
  | .registerModel .. => 3
  | .govProposal .. => 4
  | .govVote .. => 5
  | .dispute .. => 6
  | .escrowLock .. => 7
  | .escrowSettle .. => 8
  | .rewardMint .. => 9
  | .registerTeeCapability .. => 10
  | .registerGateway .. => 11
  | .unregisterGateway .. => 12

/-! ## Blocks -/

def BlockHeader.codec : Codec BlockHeader :=
  (Codec.u32.prod (Codec.string.prod (Codec.u64.prod (Codec.u64.prod ((Bytes.codec 32).prod
    ((Bytes.codec 32).prod ((Bytes.codec 32).prod ((Bytes.codec 32).prod ((Bytes.codec 32).prod
    ((Bytes.codec 32).prod (Codec.u128.prod Codec.string))))))))))).map
    { toFun := fun t =>
        ⟨t.1, t.2.1, t.2.2.1, t.2.2.2.1, t.2.2.2.2.1, t.2.2.2.2.2.1, t.2.2.2.2.2.2.1,
          t.2.2.2.2.2.2.2.1, t.2.2.2.2.2.2.2.2.1, t.2.2.2.2.2.2.2.2.2.1,
          t.2.2.2.2.2.2.2.2.2.2.1, t.2.2.2.2.2.2.2.2.2.2.2⟩
      invFun := fun h =>
        (h.version, h.chainId, h.height, h.timestampMs, h.parentHash, h.stateRoot, h.txRoot,
          h.receiptRoot, h.proposer, h.validatorSetHash, h.baseFee, h.genesisMessage)
      left_inv := fun _ => rfl
      right_inv := fun _ => rfl }

/-- A block over the forms of its transactions and receipts. -/
def Block.codec (txs : Codec SignedTransaction) (receipts : Codec InferenceReceipt) : Codec Block :=
  (BlockHeader.codec.prod (txs.vec.prod receipts.vec)).map
    ⟨fun t => ⟨t.1, t.2.1, t.2.2⟩, fun b => (b.header, b.txs, b.receipts), fun _ => rfl, fun _ => rfl⟩

end Arknet.Chain
