import Arknet.Lib.Frames

/-!
The inference protocol on a substream: one request, one response, each behind its length. What libp2p does is
the environment: it opens a substream for every request, and may lose the rest of what was written to it.
-/

namespace Arknet.Network

def MAX_REQUEST_BYTES : Nat := 1024 * 1024
def MAX_RESPONSE_BYTES : Nat := 4 * 1024 * 1024

inductive IoError where
  | unexpectedEof
  | invalidData (what : String)
  deriving DecidableEq, Repr

def ioError (cap : Nat) : Frames.Error → IoError
  | .unexpectedEof => .unexpectedEof
  | .tooLong length => .invalidData ("frame length " ++ toString length ++ " exceeds cap " ++ toString cap)

def readFramed (io : List (List UInt8)) (max : Nat) : Except IoError (List UInt8) :=
  match Frames.read max io with
  | .error e => .error (ioError max e)
  | .ok (body, _) => .ok body

/-- The bytes that are written; none where it fails. -/
def writeFramed (body : List UInt8) (max : Nat) : Except IoError (List UInt8) :=
  (Frames.write max body).mapError (ioError max)

namespace InferenceCodec

def readRequest (io : List (List UInt8)) : Except IoError (List UInt8) := readFramed io MAX_REQUEST_BYTES
def readResponse (io : List (List UInt8)) : Except IoError (List UInt8) := readFramed io MAX_RESPONSE_BYTES
def writeRequest (req : List UInt8) : Except IoError (List UInt8) := writeFramed req MAX_REQUEST_BYTES
def writeResponse (resp : List UInt8) : Except IoError (List UInt8) := writeFramed resp MAX_RESPONSE_BYTES

end InferenceCodec

/-! ## A substream -/

/-- One direction of a substream: what it delivers of the bytes written to it, piece by piece. -/
structure Link where
  deliver : List UInt8 → List (List UInt8)
  delivered : ∀ written, (deliver written).flatten <+: written

/-- Nothing of these bytes is lost. -/
def Link.Whole (link : Link) (written : List UInt8) : Prop := (link.deliver written).flatten = written

/-- What the responder is handed. -/
def requestSeen (there : Link) (request : List UInt8) : Option (List UInt8) :=
  match InferenceCodec.writeRequest request with
  | .error _ => none
  | .ok written => (InferenceCodec.readRequest (there.deliver written)).toOption

/-- What becomes of a request. The responder writes nothing where it has no response, or one that is too
long; the substream is closed then. -/
def exchange (there back : Link) (respond : List UInt8 → Option (List UInt8)) (request : List UInt8) :
    Except IoError (List UInt8) :=
  match InferenceCodec.writeRequest request with
  | .error e => .error e
  | .ok _ =>
    let answered := ((requestSeen there request).bind respond).bind fun resp =>
      (InferenceCodec.writeResponse resp).toOption
    InferenceCodec.readResponse (back.deliver (answered.getD []))

end Arknet.Network
