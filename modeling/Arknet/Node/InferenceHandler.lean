import Arknet.Compute.Wire

/-!
The compute role's answer to an inference request: every event of the job's stream as bytes, and the
list of these as bytes again.
-/

namespace Arknet.Node

open Machine Borsh Arknet.Chain Arknet.Compute

/-- Each element of `events` is an encoded event. -/
structure InferenceResponse where
  events : List (List UInt8)
  deriving DecidableEq, Repr

def InferenceResponse.codec : Codec InferenceResponse :=
  Codec.bytes.vec.map ⟨InferenceResponse.mk, InferenceResponse.events, fun _ => rfl, fun _ => rfl⟩

/-- The loop over the stream; it gives up at the first event that cannot be encoded. -/
def encodeEvents (encodedEvents : List (List UInt8)) :
    List InferenceJobEvent → Option (List (List UInt8))
  | [] => some encodedEvents
  | event :: rest =>
    match InferenceJobEvent.codec.encode event with
    | none => none
    | some bytes => encodeEvents (encodedEvents ++ [bytes]) rest

/-- What goes into `send_inference_response`. -/
def encodeResponse (events : List InferenceJobEvent) : Option (List UInt8) :=
  (encodeEvents [] events).bind fun encodedEvents => InferenceResponse.codec.encode ⟨encodedEvents⟩

end Arknet.Node
