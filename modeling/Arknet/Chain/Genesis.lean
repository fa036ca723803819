import Arknet.Chain.Crypto

/-!
The genesis file after its hexadecimal fields have been decoded: its checks, and the models it seeds.
-/

namespace Arknet.Chain

open Machine

structure GenesisParams where
  baseFee : U64
  gasTarget : Gas
  gasLimit : Gas

def GenesisParams.baseFeeAmount (p : GenesisParams) : Amount := asAmount p.baseFee

structure GenesisConfig where
  chainId : String
  initialHeight : Height
  validators : List ValidatorInfo
  initialAccounts : List (Address × U64)
  params : GenesisParams
  genesisMessage : String
  models : List OnChainModelManifest

def validateGenesis (cfg : GenesisConfig) : Except String Unit :=
  if cfg.chainId = "" then .error "genesis: chain_id is empty"
  else if cfg.validators = [] then .error "genesis: must list at least one validator"
  else if cfg.initialAccounts ≠ [] then
    .error ("genesis: fair-launch invariant violated — initial_accounts must be empty, got " ++
      toString cfg.initialAccounts.length ++ " entries")
  else if cfg.initialHeight ≠ 0 then
    .error ("genesis: initial_height must be 0, got " ++ toString cfg.initialHeight.val)
  else if cfg.params.gasTarget = 0 then .error "genesis: gas_target must be > 0"
  else if cfg.params.gasLimit < cfg.params.gasTarget then
    .error "genesis: gas_limit must be ≥ gas_target"
  else .ok ()

/-- What a genesis file that passed its checks guarantees. -/
theorem validateGenesis_ok {cfg : GenesisConfig} (h : validateGenesis cfg = .ok ()) :
    cfg.initialHeight = 0 ∧ cfg.params.gasTarget ≠ 0 ∧ cfg.params.gasTarget ≤ cfg.params.gasLimit := by
  unfold validateGenesis at h
  split at h
  · cases h
  split at h
  · cases h
  split at h
  · cases h
  split at h
  · cases h
  rename_i hheight
  split at h
  · cases h
  rename_i htarget
  split at h
  · cases h
  rename_i hlimit
  exact ⟨not_not.mp hheight, htarget, not_lt.mp hlimit⟩

def seedGenesisModels (ctx : BlockCtx) (models : List OnChainModelManifest) : BlockCtx :=
  models.foldl (fun ctx gm => ctx.setModel gm.modelId gm) ctx

end Arknet.Chain
