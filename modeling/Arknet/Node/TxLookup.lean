import Arknet.Chain.State
import Arknet.Node.HexText
import Arknet.Router.Intake

/-!
`/v1/tx/:hash`: where a transaction landed. The path is read as hexadecimal in either case; the block is
then searched for the text as it was given.
-/

namespace Arknet.Node

open Arknet.Chain Arknet.Router

/-- The refusals, in the order of the checks. -/
inductive TxLookupError where
  | notRunning
  | invalidHex (e : Hex.Error)
  | wrongLength
  | notFound (clean : String)
  deriving DecidableEq, Repr

def TxLookupError.status : TxLookupError → Nat
  | .notRunning => 503
  | .invalidHex _ => 400
  | .wrongLength => 400
  | .notFound _ => 404

structure TxLookupResponse where
  txHash : String
  blockHeight : Height
  txType : String
  src : String
  deriving DecidableEq, Repr

def classifyTxType : Transaction → String
  | .transfer .. => "Transfer"
  | .stakeOp _ => "StakeOp"
  | .receiptBatch _ => "ReceiptBatch"
  | .registerModel .. => "RegisterModel"
  | .govProposal _ => "GovProposal"
  | .govVote .. => "GovVote"
  | .dispute _ => "Dispute"
  | .escrowLock .. => "EscrowLock"
  | .escrowSettle .. => "EscrowSettle"
  | .rewardMint .. => "RewardMint"
  | .registerTeeCapability .. => "RegisterTeeCapability"
  | .registerGateway .. => "RegisterGateway"
  | .unregisterGateway .. => "UnregisterGateway"

/-- The `Debug` form. -/
def debugPubKey (k : PubKey) : String :=
  "PubKey \x7b scheme: " ++ schemeName k.scheme ++ ", bytes: " ++ toString (k.bytes.map UInt8.toNat) ++ " \x7d"

/-- The 32 bytes that a text in hexadecimal stands for. -/
def parseTxHash (clean : String) : Except TxLookupError TxHash :=
  match readHex 32 clean with
  | .error (.invalid e) => .error (.invalidHex e)
  | .error (.wrongLength _) => .error .wrongLength
  | .ok h => .ok h

section

variable (K : Primitives)

/-- The first transaction of a block whose hash is written like this. -/
def findWritten (clean : String) (block : Block) : Option (String × String) :=
  (block.txs.find? fun stx => (stx.hash K).hexEncode = clean).map fun stx =>
    (classifyTxType stx.tx, debugPubKey stx.signer)

/-- `consensus` is the database of the engine, where one runs on the node. -/
def getTx (consensus : Option State) (hashHex : String) : Except TxLookupError TxLookupResponse :=
  match consensus with
  | none => .error .notRunning
  | some s =>
    let clean := stripHexMark hashHex
    match parseTxHash clean with
    | .error e => .error e
    | .ok h =>
      match s.getTxHeight h with
      | none => .error (.notFound clean)
      | some height =>
        let found := ((s.getBlock height).bind (findWritten K clean)).getD ("unknown", "unknown")
        .ok ⟨"0x" ++ clean, height, found.1, found.2⟩

end

end Arknet.Node
