import Arknet.Consensus.Engine
import Arknet.Consensus.Validators
import Arknet.Node.HexText

/-!
Starting a validator: the genesis file is read and checked, the validator set built from it, its models
seeded into a database that has no block yet, and the engine set up. The database is opened by then; that
opening it may fail is left out.
-/

namespace Arknet.Node

open Machine Arknet.Chain Arknet.Consensus

structure GenesisValidator where
  pubkeyHex : String
  operatorHex : String
  votingPower : U64
  deriving DecidableEq, Repr

structure GenesisModel where
  modelId : String
  sha256Hex : String
  sizeBytes : U64
  mirrors : List String
  license : String
  deriving DecidableEq, Repr

/-- The genesis file as it was parsed. -/
structure GenesisFile where
  chainId : String
  initialHeight : Height
  validators : List GenesisValidator
  initialAccounts : List (String × U64)
  params : GenesisParams
  genesisMessage : String
  models : List GenesisModel

inductive BootError where
  | genesisMissing
  | loadGenesis (what : String)
  | pubkey (e : HexTextError)
  | operator (e : HexTextError)
  | validatorSet (what : String)
  | modelDigest (e : HexTextError)
  | keyNotListed
  deriving DecidableEq, Repr

/-! ## The file -/

def decodePubkey (text : String) : Except BootError PubKey :=
  match readHex 32 (stripHexMark text) with
  | .error e => .error (.pubkey e)
  | .ok bytes => .ok (.ed25519 bytes)

def decodeAddress (text : String) : Except BootError Address :=
  match readHex 20 (stripHexMark text) with
  | .error e => .error (.operator e)
  | .ok a => .ok a

def GenesisModel.manifest (gm : GenesisModel) : Except BootError OnChainModelManifest :=
  match readHex 32 (stripHexMark gm.sha256Hex) with
  | .error e => .error (.modelDigest e)
  | .ok sha256 => .ok ⟨gm.modelId, sha256, gm.sizeBytes, gm.mirrors, gm.license⟩

/-- The loop at the end of the checks. -/
def decodeAll : List GenesisValidator → Except BootError Unit
  | [] => .ok ()
  | v :: vs => do
    let _ ← decodePubkey v.pubkeyHex
    let _ ← decodeAddress v.operatorHex
    decodeAll vs

/-- `validate_genesis`. The digests of the models are not looked at. -/
def GenesisFile.validate (file : GenesisFile) : Except BootError Unit :=
  if file.chainId = "" then .error (.loadGenesis "genesis: chain_id is empty")
  else if file.validators = [] then .error (.loadGenesis "genesis: must list at least one validator")
  else if file.initialAccounts ≠ [] then
    .error (.loadGenesis ("genesis: fair-launch invariant violated — initial_accounts must be empty, got " ++
      toString file.initialAccounts.length ++ " entries"))
  else if file.initialHeight ≠ 0 then
    .error (.loadGenesis ("genesis: initial_height must be 0, got " ++ toString file.initialHeight.val))
  else if file.params.gasTarget = 0 then .error (.loadGenesis "genesis: gas_target must be > 0")
  else if file.params.gasLimit < file.params.gasTarget then
    .error (.loadGenesis "genesis: gas_limit must be ≥ gas_target")
  else decodeAll file.validators

def seedModels (ctx : BlockCtx) : List GenesisModel → Except BootError BlockCtx
  | [] => .ok ctx
  | gm :: gms => do
    let manifest ← gm.manifest
    seedModels (ctx.setModel gm.modelId manifest) gms

/-! ## The start -/

/-- `EngineConfig`, with the validator set and the address that votes and proposals are sent under. -/
structure BootedEngine (PublicKey : Type) where
  config : EngineConfig
  validatorSet : ChainValidatorSet PublicKey
  localAddress : Address

section

variable (K : Primitives)

/-- `genesis_to_validator_info`. -/
def GenesisValidator.toInfo (gv : GenesisValidator) : Except BootError ValidatorInfo := do
  let pubkey ← decodePubkey gv.pubkeyHex
  let operator ← decodeAddress gv.operatorHex
  pure {
    nodeId := K.blake3 pubkey.bytes
    consensusKey := pubkey
    operator := operator
    bondedStake := 0
    votingPower := gv.votingPower
    isGenesis := true
    jailed := false }

variable {PublicKey : Type} (fromBytes : List UInt8 → Exec PublicKey)

/-- The engine of a file whose validators are these, for the node with this key. -/
def bootEngine (file : GenesisFile) (infos : List ValidatorInfo) (set : ChainValidatorSet PublicKey)
    (localKey : Bytes 32) : Exec (Except BootError (BootedEngine PublicKey)) :=
  if ¬ infos.any (fun i => i.consensusKey.bytes = localKey.toList) then pure (.error .keyNotListed)
  else do
    let initialHeight ← add file.initialHeight 1
    pure (.ok {
      config := {
        chainId := file.chainId
        version := 1
        initialHeight := initialHeight
        validatorCount := set.validators.length
        baseFee := file.params.baseFeeAmount
        gasLimit := file.params.gasLimit
        gasTarget := file.params.gasTarget
        localNodeId := K.blake3 localKey.toList
        genesisMessage := file.genesisMessage }
      validatorSet := set
      localAddress := deriveAddressFromSigner K (.ed25519 localKey) })

/-- `start_validator`: what it returns, and the database after it. The models are seeded before the key is
looked for. -/
def startValidator (genesis : Option GenesisFile) (localKey : Bytes 32) (s : State) :
    Exec (Except BootError (BootedEngine PublicKey) × State) :=
  match genesis with
  | none => pure (.error .genesisMissing, s)
  | some file =>
    match file.validate with
    | .error e => pure (.error e, s)
    | .ok () =>
      match file.validators.mapM (GenesisValidator.toInfo K) with
      | .error e => pure (.error e, s)
      | .ok infos => do
        let built ← ChainValidatorSet.fromInfos fromBytes infos
        match built with
        | .error e => pure (.error (.validatorSet e), s)
        | .ok set =>
          if file.models ≠ [] ∧ s.metaHeight = none then
            match seedModels s.beginBlock file.models with
            | .error e => pure (.error e, s)
            | .ok ctx => do
              let booted ← bootEngine K file infos set localKey
              pure (booted, ctx.commit)
          else do
            let booted ← bootEngine K file infos set localKey
            pure (booted, s)

end

/-! ## A node over time -/

/-- The database of a node, and its engine while it runs. -/
structure ValidatorNode (PublicKey : Type) where
  db : State
  engine : Option (BootedEngine PublicKey)

inductive NodeEvent where
  | boot
  | stop
  | commit (b : Block) (r : Replay)

/-- A node is started, stops at any time, and commits blocks while its engine runs. -/
inductive NodeStep (K : Primitives) {PublicKey : Type} (fromBytes : List UInt8 → Exec PublicKey)
    (genesis : Option GenesisFile) (localKey : Bytes 32) :
    ValidatorNode PublicKey → NodeEvent → ValidatorNode PublicKey → Prop where
  | boot {db db' : State} {booted : Except BootError (BootedEngine PublicKey)}
      (h : startValidator K fromBytes genesis localKey db = .ok (booted, db')) :
      NodeStep K fromBytes genesis localKey ⟨db, none⟩ .boot ⟨db', booted.toOption⟩
  | stop (node : ValidatorNode PublicKey) :
      NodeStep K fromBytes genesis localKey node .stop ⟨node.db, none⟩
  | commit {db db' : State} {e : BootedEngine PublicKey} {b : Block} {r : Replay}
      (h : Commits K db b r db') :
      NodeStep K fromBytes genesis localKey ⟨db, some e⟩ (.commit b r) ⟨db', some e⟩

end Arknet.Node
