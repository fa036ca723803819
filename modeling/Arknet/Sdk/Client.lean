import Arknet.Compute.Wire

/-!
The client of the SDK: the round over the candidates of an inference, and the escrow that pays for it under
a job id of the client's own.
-/

namespace Arknet.Sdk

open Machine Borsh Arknet.Chain Arknet.Compute

inductive SdkError where
  | noWallet
  | discovery
  | allComputeNodesBusy
  deriving DecidableEq, Repr

/-- How the client reads a response. -/
def decodeEvents (resp : List UInt8) : Option (List InferenceJobEvent) :=
  InferenceJobEvent.codec.vec.fromSlice resp

/-- A response that cannot be read is taken for a success. -/
def movesOn (resp : List UInt8) : Bool :=
  match decodeEvents resp with
  | some events => events.any InferenceJobEvent.isBusy
  | none => false

/-- The loop: the answer of each candidate, `none` where its peer id does not parse or the send
fails. -/
def tryCandidates : List (Option (List UInt8)) → Except SdkError (List UInt8)
  | [] => .error .allComputeNodesBusy
  | none :: rest => tryCandidates rest
  | some resp :: rest => if movesOn resp then tryCandidates rest else .ok resp

/-- `Client::infer` from the lookup of candidates on; `answers` has one entry for each of them. -/
def infer (maxRetries : Option U32) (answers : List (Option (List UInt8))) :
    Except SdkError (List UInt8) :=
  if answers.isEmpty then .error .discovery
  else tryCandidates (answers.take (min (maxRetries.getD 3) (Fin.ofNat (2 ^ 32) answers.length)).val)

/-! ## The escrow -/

structure Wallet where
  publicKey : PubKey
  sign : List UInt8 → Signature

section

variable (K : Primitives)

/-- `job_id`. -/
def escrowJobId (jobReq : InferenceJobRequest) : JobId :=
  K.blake3 (ascii "arknet-job-id-v1" ++ (jobReq.billingAddress K).toList ++
    leBytes 8 jobReq.nonce.val ++ leBytes 8 jobReq.timestampMs.val)

def ESCROW_FEE : Gas := 21000

/-- The transaction that the client publishes. -/
def submitEscrow (wallet : Option Wallet) (jobReq : InferenceJobRequest) (amount : Amount) :
    Except SdkError SignedTransaction :=
  match wallet with
  | none => .error .noWallet
  | some w =>
    let tx : Transaction :=
      .escrowLock (jobReq.billingAddress K) (escrowJobId K jobReq) amount jobReq.nonce ESCROW_FEE
    .ok ⟨tx, w.publicKey, w.sign (K.borshTransaction tx)⟩

end

end Arknet.Sdk
