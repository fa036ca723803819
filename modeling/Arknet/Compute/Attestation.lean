import Arknet.Chain.Crypto
import Arknet.Inference.Session

/-!
The hash chain a compute node builds over the text of a job.
-/

namespace Arknet.Compute

open Arknet.Chain Arknet.Inference

def DOMAIN_HASHCHAIN : List UInt8 := ascii "arknet-hashchain-v1"

structure HashChainBuilder where
  chain : List Hash256
  current : Hash256
  deriving DecidableEq, Repr

namespace HashChainBuilder

variable (K : Primitives)

def startAt (h₀ : Hash256) : HashChainBuilder := ⟨[h₀], h₀⟩

/-- A chain bound to no job. -/
def new : HashChainBuilder := startAt (K.blake3 DOMAIN_HASHCHAIN)

def forJob (jobId : JobId) : HashChainBuilder :=
  startAt (K.blake3 (DOMAIN_HASHCHAIN ++ jobId.toList))

def absorbBytes (b : HashChainBuilder) (bytes : List UInt8) : HashChainBuilder :=
  let next := K.blake3 (DOMAIN_HASHCHAIN ++ b.current.toList ++ bytes)
  ⟨b.chain ++ [next], next⟩

def absorbToken (b : HashChainBuilder) (text : String) : HashChainBuilder :=
  b.absorbBytes K (utf8 text)

def finish (b : HashChainBuilder) : ComputeProof := .hashChain b.chain

def head (b : HashChainBuilder) : Hash256 := b.current

end HashChainBuilder

end Arknet.Compute
