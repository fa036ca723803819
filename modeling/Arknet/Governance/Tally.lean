import Arknet.Chain.Types

/-!
The vote tally of a proposal and its verdict.
-/

namespace Arknet.Governance

open Machine Arknet.Chain

def QUORUM_BPS : Amount := 5000
def APPROVAL_THRESHOLD_BPS : Amount := 6600
def VETO_THRESHOLD_BPS : Amount := 3300

structure Tally where
  yes : Amount
  no : Amount
  abstain : Amount
  noWithVeto : Amount
  deriving DecidableEq, Repr

def Tally.default : Tally := ⟨0, 0, 0, 0⟩

def Tally.total (t : Tally) : Amount := satAdd (satAdd (satAdd t.yes t.no) t.abstain) t.noWithVeto

def Tally.nonAbstain (t : Tally) : Amount := satAdd (satAdd t.yes t.no) t.noWithVeto

def Tally.addVote (t : Tally) (choice : VoteChoice) (stake : Amount) : Tally :=
  match choice with
  | .yes => { t with yes := satAdd t.yes stake }
  | .no => { t with no := satAdd t.no stake }
  | .abstain => { t with abstain := satAdd t.abstain stake }
  | .noWithVeto => { t with noWithVeto := satAdd t.noWithVeto stake }

inductive TallyOutcome where
  | passed | rejected | rejectedWithVeto
  deriving DecidableEq, Repr

def bpsOf (part whole : Amount) : Exec Amount := do
  let scaled ← mul part 10000
  div scaled whole

def Tally.evaluate (t : Tally) (totalBonded : Amount) : Exec TallyOutcome :=
  if totalBonded = 0 ∨ t.total = 0 then pure .rejected
  else do
    let turnout ← bpsOf t.total totalBonded
    if turnout < QUORUM_BPS then pure .rejected
    else do
      let vetoPct ← bpsOf t.noWithVeto t.total
      if VETO_THRESHOLD_BPS ≤ vetoPct then pure .rejectedWithVeto
      else if t.nonAbstain = 0 then pure .rejected
      else do
        let approvalPct ← bpsOf t.yes t.nonAbstain
        pure (if APPROVAL_THRESHOLD_BPS ≤ approvalPct then .passed else .rejected)

end Arknet.Governance
