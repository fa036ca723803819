import Arknet.Chain.Types

/-!
The emission schedule: an annual budget that halves every four years, cut into epochs, and the
per-epoch state a mint draws on.
-/

namespace Arknet.Payments

open Machine Arknet.Chain

def TOTAL_SUPPLY_CAP : Amount := 1000000000 * ATOMS_PER_ARK
def EPOCH_LENGTH : Height := 3600
def SECS_PER_BLOCK : U64 := 1
def EPOCHS_PER_YEAR : U64 := 365 * 24 * 3600 / EPOCH_LENGTH

def ANNUAL_EMISSION_ARK : List Amount :=
  [120000000, 105000000, 90000000, 80000000, 50000000, 50000000, 50000000, 50000000,
    25000000, 25000000, 25000000, 25000000, 12500000, 12500000, 12500000, 12500000]

/-- Past the table the last entry is shifted right once for every four years begun. -/
def annualEmissionArk (year : U64) : Exec Amount :=
  if year.val < ANNUAL_EMISSION_ARK.length then
    pure (ANNUAL_EMISSION_ARK.getD year.val 0)
  else
    let last := ANNUAL_EMISSION_ARK.getLastD 0
    let extraYears := year.val - ANNUAL_EMISSION_ARK.length
    shr last ((extraYears + 4) / 4)

def annualEmission (year : U64) : Exec Amount := do
  let ark ← annualEmissionArk year
  pure (satMul ark ATOMS_PER_ARK)

def epochBudget (year : U64) : Exec Amount := do
  let annual ← annualEmission year
  div annual (asAmount EPOCHS_PER_YEAR)

def yearForHeight (height : Height) : U64 := height / (365 * 24 * 3600 / SECS_PER_BLOCK)

def epochForHeight (height : Height) : U64 := height / EPOCH_LENGTH

structure EpochEmissionState where
  epoch : U64
  budget : Amount
  minted : Amount
  totalMinted : Amount
  deriving DecidableEq, Repr

def EpochEmissionState.remaining (s : EpochEmissionState) : Amount := satSub s.budget s.minted

def EpochEmissionState.tryMint (s : EpochEmissionState) (amount : Amount) :
    Amount × EpochEmissionState :=
  let capRemaining := satSub TOTAL_SUPPLY_CAP s.totalMinted
  let actual := min (min amount s.remaining) capRemaining
  (actual, { s with minted := satAdd s.minted actual, totalMinted := satAdd s.totalMinted actual })

def perTokenRate (s : EpochEmissionState) (epochTotalTokens : U64) : Exec Amount :=
  if epochTotalTokens = 0 then pure 0 else div s.remaining (asAmount epochTotalTokens)

end Arknet.Payments
