/-
Which modules the target machine accepts.

Only words are ever on the operand stack, so its type is its height, and after an instruction that
never continues any height will do.  `Code.check` follows the height through code; a construct is
checked on an empty stack of its own and has to leave it empty.  A module is valid when its indices
are in range, its export names differ, its bodies check, and it keeps within the machine's limits.
-/
import MutationAnalysis.Wasm.Module

namespace MutationAnalysis.Wasm

/-- What is known of the operand stack: how many words the code at hand has put there, and whether
this place is never reached, so that any further words may be assumed. -/
structure Height where
  count : Nat
  isOpen : Bool
  deriving Repr, DecidableEq

namespace Height

def empty : Height := ⟨0, false⟩

/-- After an instruction that never continues. -/
def anything : Height := ⟨0, true⟩

/-- Takes words off the stack. -/
def pop (h : Height) (n : Nat) : Option Height :=
  if n ≤ h.count then some { h with count := h.count - n }
  else if h.isOpen then some { h with count := 0 }
  else none

def push (h : Height) (n : Nat) : Height := { h with count := h.count + n }

/-- Whether exactly so many words may be there. -/
def isExactly (h : Height) (n : Nat) : Bool :=
  h.count == n || (h.isOpen && decide (h.count ≤ n))

end Height

/-- What code may refer to. -/
structure Scope where
  types : List FuncType
  /-- Types of the function index space. -/
  functions : List FuncType
  globals : Nat
  locals : Nat
  /-- How many words the function gives back. -/
  results : Nat
  deriving Repr, DecidableEq

namespace Op

/-- The height after a branch to a depth: a branch past all constructs returns. -/
def checkBranch (s : Scope) (labels : Nat) (h : Height) (depth : Nat) : Option Height :=
  if depth < labels then some .anything
  else if depth = labels then (h.pop s.results).map fun _ => .anything
  else none

/-- A call takes the arguments off the stack and puts the result there. -/
def checkCall (h : Height) (t : FuncType) : Option Height :=
  (h.pop t.params).map (·.push t.results)

/-- The height after an instruction inside so many constructs. -/
def check (s : Scope) (labels : Nat) (h : Height) : Op → Option Height
  | const _ => some (h.push 1)
  | localGet index => if index < s.locals then some (h.push 1) else none
  | localSet index => if index < s.locals then h.pop 1 else none
  | drop => h.pop 1
  | binary _ => (h.pop 2).map (·.push 1)
  | eqz => (h.pop 1).map (·.push 1)
  | load => (h.pop 1).map (·.push 1)
  | store => h.pop 2
  | globalGet index => if index < s.globals then some (h.push 1) else none
  | call function => (s.functions[function]?).bind (checkCall h)
  | callIndirect type => do
    let t ← s.types[type]?
    let h ← h.pop 1
    checkCall h t
  | ret => (h.pop s.results).map fun _ => .anything
  | unreachable => some .anything
  | br depth => checkBranch s labels h depth
  | brTable depths fallback => do
    let h ← h.pop 1
    if depths.all fun depth => (checkBranch s labels h depth).isSome then
      checkBranch s labels h fallback
    else none

end Op

namespace Code

/-- The height after code inside so many constructs. -/
def check (s : Scope) (labels : Nat) (h : Height) : Code → Option Height
  | done => some h
  | op o rest => (o.check s labels h).bind fun h => rest.check s labels h
  | block body rest | loop body rest =>
    match body.check s (labels + 1) .empty with
    | some inner => if inner.isExactly 0 then rest.check s labels h else none
    | none => none
  | ifElse yes no rest =>
    match h.pop 1, yes.check s (labels + 1) .empty, no.check s (labels + 1) .empty with
    | some h, some a, some b =>
      if a.isExactly 0 && b.isExactly 0 then rest.check s labels h else none
    | _, _, _ => none

end Code

/-- The most parameters of a function. -/
def maxParams : Nat := 1000

/-- The most locals of a function, its parameters included. -/
def maxLocals : Nat := 50000

/-- The most pages of a memory. -/
def maxPages : Nat := 65536

/-- The most bytes of a name. -/
def maxNameBytes : Nat := 100000

/-- What the body of a function of the given type may refer to. -/
def Module.scope (m : Module) (t : FuncType) (b : Body) : Scope where
  types := m.types
  functions := m.functionTypes.filterMap (m.types[·]?)
  globals := m.importedGlobals.length
  locals := t.params + b.locals
  results := t.results

/-- A body whose code gives back what its type says. -/
def Module.checksBody (m : Module) (functions : List FuncType) (b : Body) : Bool :=
  match m.types[b.type]? with
  | none => false
  | some t =>
    let scope := { m.scope t b with functions }
    decide (scope.locals ≤ maxLocals) &&
      match b.code.check scope 0 .empty with
      | some h => h.isExactly t.results
      | none => false

/-- Whether no text of the list stands there twice. -/
def distinctNames : List String → Bool
  | [] => true
  | name :: rest => !rest.contains name && distinctNames rest

/-- Whether an import refers to a type of the module and keeps within the limits. -/
def Module.checksImport (m : Module) (i : Import) : Bool :=
  decide (i.name.utf8ByteSize ≤ maxNameBytes) &&
    match i.kind with
    | .memory minimum => decide (minimum ≤ maxPages)
    | .function type => decide (type < m.types.length)
    | _ => true

def Module.isValid (m : Module) : Bool :=
  let functions := m.functionTypes.filterMap (m.types[·]?)
  m.types.all (fun t => decide (t.params ≤ maxParams)) &&
    m.imports.all m.checksImport &&
    m.exports.all (fun e => decide (e.function < m.functionTypes.length)
      && decide (e.name.utf8ByteSize ≤ maxNameBytes)) &&
    distinctNames (m.exports.map (·.name)) &&
    m.functions.all (m.checksBody functions)

end MutationAnalysis.Wasm
