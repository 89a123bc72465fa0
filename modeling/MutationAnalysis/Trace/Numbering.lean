/-
Numbering the functions of instrumented objects.

The functions of all objects are numbered from one on, object after object.  Each object has the
number of its first function as its offset, which its probes add to the index of a function; of
several objects of one identifier the last one's offset counts.
-/
import MutationAnalysis.Image.Loader

namespace MutationAnalysis

structure TracedFunction where
  moduleId : String
  /-- The function's index in its module. -/
  localIndex : Nat
  name : String
  deriving Repr, DecidableEq

structure Numbering where
  /-- Offsets by module, in order of the objects. -/
  offsets : List (String × Nat)
  /-- The functions in order of their numbers, the first of which is one. -/
  functions : Array TracedFunction
  deriving Repr, DecidableEq

namespace Numbering

/-- Numbers the functions of one more object. -/
def add (n : Numbering) (moduleId : String) (defined : List String) : Numbering :=
  ⟨n.offsets ++ [(moduleId, n.functions.size + 1)],
   n.functions ++ (defined.zipIdx.map fun (name, i) => ⟨moduleId, i, name⟩).toArray⟩

def of (objects : List Object) : Numbering :=
  objects.foldl (fun n o => n.add o.moduleId o.defined) ⟨[], #[]⟩

/-- Slots of a mapping: one per function and one for the outside. -/
def mappingSize (n : Numbering) : Nat := n.functions.size + 1

/-- The offset of a module. -/
def offset? (n : Numbering) (moduleId : String) : Option Nat :=
  n.offsets.reverse.lookup moduleId

/-- The function of a number. -/
def function? (n : Numbering) (number : Nat) : Option TracedFunction :=
  if number = 0 then none else n.functions[number - 1]?

/-- The number of the first function of a name. -/
def number? (n : Numbering) (name : String) : Option Nat :=
  (n.functions.findIdx? (·.name == name)).map (· + 1)

/-- The probes, and the offsets under the names by which code refers to them. -/
def resolver (n : Numbering) : Resolver := fun name =>
  if name = SymbolName.enterFunction then some (.native .enterFunction)
  else if name = SymbolName.leaveFunction then some (.native .leaveFunction)
  else do
    let moduleId ← SymbolName.moduleOfIndexOffset? name
    let offset ← n.offset? moduleId
    return .constant (UInt32.ofNat offset).toInt32

end Numbering

end MutationAnalysis
