import Arknet.Chain.Encoding
import Arknet.Chain.Crypto

/-!
The messages of consensus and what is hashed when one is signed. They hold types of the consensus
library that have no borsh form, so the bytes are put together by hand.
-/

namespace Arknet.Consensus

open Machine Borsh Arknet.Chain

/-- What the consensus library supplies: rounds and Ed25519 keys and signatures, with the conversions
that are called here. -/
structure Malachite where
  Round : Type
  EdSignature : Type
  PublicKey : Type
  /-- `Round::as_i64`; the nil round is -1. -/
  asI64 : Round → Int64
  /-- `Round::from`. -/
  roundFrom : Int64 → Round
  toBytes : EdSignature → Bytes 64
  fromBytes : Bytes 64 → EdSignature
  verify : PublicKey → List UInt8 → EdSignature → Bool

/-- A round is recovered from its integer. -/
def Malachite.RoundsConvert (M : Malachite) : Prop := ∀ r, M.roundFrom (M.asI64 r) = r

/-- A signature is recovered from its bytes. -/
def Malachite.SignaturesConvert (M : Malachite) : Prop := ∀ s, M.fromBytes (M.toBytes s) = s

theorem Malachite.RoundsConvert.injective {M : Malachite} (h : M.RoundsConvert) :
    Function.Injective M.asI64 := by
  intro r s hrs
  rw [← h r, hrs, h s]

/-! ## Messages -/

inductive VoteType where
  | prevote | precommit
  deriving DecidableEq, Repr

/-- `NilOrVal<BlockId>`. -/
inductive NilOrVal where
  | nil
  | val (id : BlockHash)
  deriving DecidableEq, Repr

structure ChainVote (M : Malachite) where
  height : U64
  round : M.Round
  value : NilOrVal
  voteType : VoteType
  validatorAddress : Address

/-- The value of a proposal is a block. -/
structure ChainProposal (M : Malachite) where
  height : U64
  round : M.Round
  value : Block
  polRound : M.Round
  validatorAddress : Address

structure ChainProposalPart where
  deriving DecidableEq, Repr

/-- `SignedMessage`. -/
structure Signed (M : Malachite) (Message : Type) where
  message : Message
  signature : M.EdSignature

/-! ## What is signed -/

def DOMAIN_VOTE : List UInt8 := ascii "arknet-consensus-vote-v1"
def DOMAIN_PROPOSAL : List UInt8 := ascii "arknet-consensus-proposal-v1"
def DOMAIN_PROPOSAL_PART : List UInt8 := ascii "arknet-consensus-proposal-part-v1"

def VoteType.byte : VoteType → UInt8
  | .prevote => 1
  | .precommit => 2

/-- `x.to_be_bytes()` of an `i64`. -/
def i64BE (x : Int64) : List UInt8 := beBytes 8 x.toUInt64.toNat

section

variable {M : Malachite} (K : Primitives)

/-- A nil value is one byte, a block id 33. -/
def encodeValue : NilOrVal → List UInt8
  | .nil => [0]
  | .val id => 1 :: id.toList

def encodeVote (v : ChainVote M) : List UInt8 :=
  beBytes 8 v.height.val ++ i64BE (M.asI64 v.round) ++ [v.voteType.byte] ++ encodeValue v.value ++
    v.validatorAddress.toList

/-- `ChainValue::id`. -/
def ChainProposal.valueId (p : ChainProposal M) : BlockHash := p.value.header.hash K

def encodeProposal (p : ChainProposal M) : List UInt8 :=
  beBytes 8 p.height.val ++ i64BE (M.asI64 p.round) ++ i64BE (M.asI64 p.polRound) ++
    (p.valueId K).toList ++ p.validatorAddress.toList

def encodeProposalPart (_part : ChainProposalPart) : List UInt8 := []

/-- The buffer `digest_raw` fills and hashes. -/
def hashed (domain body : List UInt8) : List UInt8 := domain ++ body

def digestRaw (domain body : List UInt8) : Hash256 := K.blake3 (hashed domain body)

def verifySignedVote (v : ChainVote M) (signature : M.EdSignature) (key : M.PublicKey) : Bool :=
  M.verify key (digestRaw K DOMAIN_VOTE (encodeVote v)).toList signature

def verifySignedProposal (p : ChainProposal M) (signature : M.EdSignature) (key : M.PublicKey) : Bool :=
  M.verify key (digestRaw K DOMAIN_PROPOSAL (encodeProposal K p)).toList signature

def verifySignedProposalPart (part : ChainProposalPart) (signature : M.EdSignature)
    (key : M.PublicKey) : Bool :=
  M.verify key (digestRaw K DOMAIN_PROPOSAL_PART (encodeProposalPart part)).toList signature

end

/-! ## A concrete instance

A signature is its bytes and verifies when it repeats the key. -/

def toyMalachite : Malachite where
  Round := Option U32
  EdSignature := Bytes 64
  PublicKey := Bytes 32
  asI64
    | none => -1
    | some n => Int64.ofNat n.val
  roundFrom x := if x = -1 then none else some (Fin.ofNat (2 ^ 32) x.toUInt64.toNat)
  toBytes := id
  fromBytes := id
  verify key _ sig := sig.toList = key.toList ++ key.toList

theorem toy_roundsConvert : toyMalachite.RoundsConvert := by
  rintro (_ | n)
  · rfl
  · have hn := n.isLt
    have hword : (Int64.ofNat n.val).toUInt64.toNat = n.val := by
      rw [Int64.toUInt64_ofNat', UInt64.toNat_ofNat']
      omega
    have hneg : Int64.ofNat n.val ≠ -1 := by
      intro h
      rw [h] at hword
      have hmax : (-1 : Int64).toUInt64.toNat = 2 ^ 64 - 1 := by decide
      omega
    change (if Int64.ofNat n.val = -1 then none else
      some (Fin.ofNat (2 ^ 32) (Int64.ofNat n.val).toUInt64.toNat)) = some n
    rw [if_neg hneg, hword]
    exact congrArg some (Fin.ext (Nat.mod_eq_of_lt hn))

theorem toy_signaturesConvert : toyMalachite.SignaturesConvert := fun _ => rfl

end Arknet.Consensus
