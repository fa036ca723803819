import Arknet.Consensus.Validators
import Arknet.Consensus.Signing

/-!
Who proposes in a round, and how long the steps of a round wait.
-/

namespace Arknet.Consensus

open Machine Arknet.Chain

section

variable {M : Malachite}

/-- `select_proposer`: the height does not matter, and the nil round counts as round 0. -/
def selectProposer (validatorSet : ChainValidatorSet M.PublicKey) (_height : U64) (round : M.Round) :
    Exec (ChainValidator M.PublicKey) :=
  let r := (max (M.asI64 round).toInt 0).toNat
  let idx := r % max validatorSet.validators.length 1
  match validatorSet.validators[idx]? with
  | some validator => .ok validator
  | none => .error .expectNone

end

end Arknet.Consensus
