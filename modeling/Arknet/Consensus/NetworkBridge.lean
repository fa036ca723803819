import Arknet.Consensus.Signing

/-!
Votes and proposals on the gossip network: a flat record for each, in borsh, with sentinels where
the message has an alternative. Signatures are not checked here.
-/

namespace Arknet.Consensus

open Machine Borsh Arknet.Chain

/-- The text of `decode` is the source's own part of it; the error of the borsh library follows. -/
inductive WireError where
  | decode (context : String)
  | invariant (text : String)
  | badValueTag (byte : UInt8)
  | badVoteType (byte : UInt8)
  deriving DecidableEq, Repr

structure WireVote where
  height : U64
  round : Int64
  voteType : UInt8
  valueTag : UInt8
  value : Bytes 32
  validatorAddress : Bytes 20
  signature : Bytes 64

structure WireProposal where
  height : U64
  round : Int64
  polRound : Int64
  validatorAddress : Bytes 20
  block : List UInt8
  signature : Bytes 64

def WireVote.codec : Codec WireVote :=
  (Codec.u64.prod (Codec.i64.prod (Codec.byte.prod (Codec.byte.prod
    ((Bytes.codec 32).prod ((Bytes.codec 20).prod (Bytes.codec 64))))))).map
    { toFun := fun t =>
        ⟨t.1, t.2.1, t.2.2.1, t.2.2.2.1, t.2.2.2.2.1, t.2.2.2.2.2.1, t.2.2.2.2.2.2⟩
      invFun := fun w =>
        (w.height, w.round, w.voteType, w.valueTag, w.value, w.validatorAddress, w.signature)
      left_inv := fun _ => rfl
      right_inv := fun _ => rfl }

def WireProposal.codec : Codec WireProposal :=
  (Codec.u64.prod (Codec.i64.prod (Codec.i64.prod ((Bytes.codec 20).prod
    (Codec.bytes.prod (Bytes.codec 64)))))).map
    { toFun := fun t => ⟨t.1, t.2.1, t.2.2.1, t.2.2.2.1, t.2.2.2.2.1, t.2.2.2.2.2⟩
      invFun := fun w => (w.height, w.round, w.polRound, w.validatorAddress, w.block, w.signature)
      left_inv := fun _ => rfl
      right_inv := fun _ => rfl }

def NilOrVal.tag : NilOrVal → UInt8
  | .nil => 0
  | .val _ => 1

/-- The value field of the wire record: zeroed for a nil value. -/
def NilOrVal.bytes : NilOrVal → Bytes 32
  | .nil => 0
  | .val id => id

section

variable (M : Malachite)

abbrev SignedVote := Signed M (ChainVote M)

abbrev SignedProposal := Signed M (ChainProposal M)

end

section

variable {M : Malachite}

/-! ## Encoders -/

def wireVote (sv : SignedVote M) : WireVote where
  height := sv.message.height
  round := M.asI64 sv.message.round
  voteType := sv.message.voteType.byte
  valueTag := sv.message.value.tag
  value := sv.message.value.bytes
  validatorAddress := sv.message.validatorAddress
  signature := M.toBytes sv.signature

def encodeSignedVote (sv : SignedVote M) : Exec (List UInt8) :=
  expectEncoded (WireVote.codec.encode (wireVote sv))

def wireProposal (sp : SignedProposal M) (block : List UInt8) : WireProposal where
  height := sp.message.height
  round := M.asI64 sp.message.round
  polRound := M.asI64 sp.message.polRound
  validatorAddress := sp.message.validatorAddress
  block := block
  signature := M.toBytes sp.signature

/-- `blocks` is the borsh form of a block. -/
def encodeSignedProposal (blocks : Codec Block) (sp : SignedProposal M) : Exec (List UInt8) := do
  let block ← expectEncoded (blocks.encode sp.message.value)
  expectEncoded (WireProposal.codec.encode (wireProposal sp block))

/-! ## Decoders -/

def decodeVoteType (byte : UInt8) : Except WireError VoteType :=
  if byte = 1 then .ok .prevote
  else if byte = 2 then .ok .precommit
  else .error (.badVoteType byte)

def decodeValue (tag : UInt8) (value : Bytes 32) : Except WireError NilOrVal :=
  if tag = 0 then
    if value ≠ 0 then .error (.invariant "nil tag with non-zero value bytes") else .ok .nil
  else if tag = 1 then .ok (.val value)
  else .error (.badValueTag tag)

/-- The message a wire record stands for; the type is looked at before the value. -/
def voteOfWire (wire : WireVote) : Except WireError (SignedVote M) := do
  let voteType ← decodeVoteType wire.voteType
  let value ← decodeValue wire.valueTag wire.value
  return {
    message := {
      height := wire.height
      round := M.roundFrom wire.round
      value := value
      voteType := voteType
      validatorAddress := wire.validatorAddress }
    signature := M.fromBytes wire.signature }

def decodeSignedVote (bytes : List UInt8) : Except WireError (SignedVote M) :=
  match WireVote.codec.fromSlice bytes with
  | none => .error (.decode "")
  | some wire => voteOfWire wire

def decodeSignedProposal (blocks : Codec Block) (bytes : List UInt8) :
    Except WireError (SignedProposal M) :=
  match WireProposal.codec.fromSlice bytes with
  | none => .error (.decode "")
  | some wire =>
    match blocks.fromSlice wire.block with
    | none => .error (.decode "block body: ")
    | some block =>
      .ok {
        message := {
          height := wire.height
          round := M.roundFrom wire.round
          value := block
          polRound := M.roundFrom wire.polRound
          validatorAddress := wire.validatorAddress }
        signature := M.fromBytes wire.signature }

end

end Arknet.Consensus
