/-
What a run says about its mutants.

A mutant with an invalid execution is invalid; another that some execution kills is killed; any
other survives.  The verdicts do not depend on the order of the executions.
-/
import MutationAnalysis.Outcome

namespace MutationAnalysis

inductive Verdict where
  | killed
  | survived
  | invalid
  deriving Repr, DecidableEq

/-- The verdict after one more execution. -/
def Verdict.after (v : Verdict) (s : Status) : Verdict :=
  if v = .invalid ∨ s = .invalid then .invalid
  else if s.kills then .killed
  else v

/-- Verdicts by mutant, in ascending order of the mutants. -/
abbrev Verdicts := List (String × Verdict)

/-- Takes one more execution of a mutant, which survives until something else is known. -/
def Verdicts.record (mutant : String) (s : Status) : Verdicts → Verdicts
  | [] => [(mutant, Verdict.survived.after s)]
  | (m, v) :: rest =>
    if mutant < m then (mutant, Verdict.survived.after s) :: (m, v) :: rest
    else if mutant = m then (m, v.after s) :: rest
    else (m, v) :: Verdicts.record mutant s rest

def Verdicts.ofResults (results : List (String × Status)) : Verdicts :=
  results.foldl (fun verdicts r => Verdicts.record r.1 r.2 verdicts) []

structure Summary where
  mutants : Nat
  killed : Nat
  survived : Nat
  invalid : Nat
  /-- The mutants that survive, in ascending order. -/
  survivors : List String
  deriving Repr, DecidableEq

namespace Summary

/-- Counts the mutants of each verdict. -/
def ofVerdicts (verdicts : Verdicts) : Summary :=
  let survivors := (verdicts.filter (·.2 == .survived)).map (·.1)
  { mutants := verdicts.length
    killed := verdicts.countP (·.2 == .killed)
    survived := survivors.length
    invalid := verdicts.countP (·.2 == .invalid)
    survivors }

/-- The summary of executions, each with its mutant. -/
def ofResults (results : List (String × Status)) : Summary :=
  ofVerdicts (.ofResults results)

/-- The share of the killed among those that were killed or survived, if there are any. -/
def score (s : Summary) : Option Float :=
  let scored := s.killed + s.survived
  if scored = 0 then none else some (Float.ofNat s.killed / Float.ofNat scored)

end Summary

end MutationAnalysis
