/-
How far a run is.

Workers count the mutation points whose tests are all recorded.
-/

namespace MutationAnalysis

structure Progress where
  total : Nat
  completed : Nat
  deriving Repr, DecidableEq

namespace Progress

def new (total : Nat) : Progress := ⟨total, 0⟩

def increment (p : Progress) : Progress := { p with completed := p.completed + 1 }

/-- The completed share; a run of nothing is done. -/
def fraction (p : Progress) : Float :=
  if p.total = 0 then 1 else Float.ofNat p.completed / Float.ofNat p.total

end Progress

end MutationAnalysis
