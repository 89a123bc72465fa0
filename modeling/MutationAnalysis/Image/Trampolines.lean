/-
Trampoline cells.

A mutated function is reached through a cell, so storing an address in the cell decides which body
runs.  A table of cells belongs to the generation of the loader in which it first allocated; once
that image is released every operation on the table fails.
-/
import MutationAnalysis.Image.Loader
import MutationAnalysis.SymbolName

namespace MutationAnalysis

/-- Cells by key, in ascending order of the keys. -/
structure Trampolines where
  cells : List (String × Nat)
  /-- The generation of the loader that the cells belong to. -/
  generation : Option Nat
  deriving Repr, DecidableEq

namespace Trampolines

def empty : Trampolines := ⟨[], none⟩

def keys (t : Trampolines) : List String := t.cells.map (·.1)

/-- Fails once the image that the cells belong to is released. -/
def requireLive (t : Trampolines) (l : Loader) : Except Error Unit :=
  match t.generation with
  | some generation =>
    if generation = l.generation then .ok ()
    else .error ⟨.invalidState, "trampoline cells belong to a released image"⟩
  | none => .ok ()

/-- Adds a cell in the place of its key. -/
def insert (key : String) (cell : Nat) : List (String × Nat) → List (String × Nat)
  | [] => [(key, cell)]
  | (k, c) :: rest =>
    if key < k then (key, cell) :: (k, c) :: rest else (k, c) :: insert key cell rest

/-- Allocates a cell that holds zero for a key that has none. -/
def allocateKey (s : Trampolines × Loader) (key : String) : Trampolines × Loader :=
  let (t, l) := s
  if (t.cells.lookup key).isSome then (t, l)
  else ({ t with cells := insert key l.cells.size t.cells }, { l with cells := l.cells.push 0 })

/-- Allocates cells for keys that have none. -/
def allocate (t : Trampolines) (l : Loader) (keys : List String) :
    Except Error (Trampolines × Loader) := do
  t.requireLive l
  return keys.foldl allocateKey ({ t with generation := some l.generation }, l)

/-- The cell of a key. -/
def cell (t : Trampolines) (key : String) : Except Error Nat :=
  match t.cells.lookup key with
  | some index => .ok index
  | none => .error ⟨.unknownSymbol, key⟩

/-- Stores an address in the cell of a key. -/
def bind (t : Trampolines) (l : Loader) (key : String) (address : Nat) : Except Error Loader := do
  let index ← t.cell key
  t.requireLive l
  if address < UInt32.size then
    return { l with cells := l.cells.setIfInBounds index (UInt32.ofNat address) }
  else .error ⟨.invalidState, "address out of range: " ++ toString address⟩

/-- The address in the cell of a key. -/
def value (t : Trampolines) (l : Loader) (key : String) : Except Error Nat := do
  let index ← t.cell key
  t.requireLive l
  return (l.cells.getD index 0).toNat

/-- Binds a key to the function of a name. -/
def bindTo (t : Trampolines) (l : Loader) (key name : String) : Except Error Loader :=
  match l.address? name with
  | some address => t.bind l key address
  | none => .error ⟨.notFound, name⟩

/-- Binds every key of a list to the preserved body of its function.  What was bound
before an error stays bound. -/
def bindPreservedOf (t : Trampolines) (l : Loader) : List String → Loader × Except Error Unit
  | [] => (l, .ok ())
  | key :: rest =>
    match t.bindTo l key (SymbolName.preserved key) with
    | .ok l => bindPreservedOf t l rest
    | .error e => (l, .error e)

/-- Binds every key to the preserved body of its function. -/
def bindPreserved (t : Trampolines) (l : Loader) : Loader × Except Error Unit :=
  t.bindPreservedOf l t.keys

/-- The cells under the names by which code refers to them. -/
def resolver (t : Trampolines) : Resolver := fun name => do
  let key ← SymbolName.keyOfCell? name
  let index ← t.cells.lookup key
  return .cell ⟨t.generation.getD 0, index⟩

end Trampolines

end MutationAnalysis
