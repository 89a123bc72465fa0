/-
Loading objects into one linked image.

A loader holds at most one image.  Loading gives every function that the objects define the next
address, from one on and in order, and binds the imports of object after object: the address of a
function comes from the objects themselves or else from the resolver, everything else from the
resolver.  A function of the host takes the next free address when an import first needs one, and
keeps it for all objects.  Address zero is no function.

An image, its memory, its cells and the state of its host live and die together: releasing an image
starts the next generation, and so does a load that fails.
-/
import MutationAnalysis.Config
import MutationAnalysis.Image.Object
import MutationAnalysis.Image.Resolver
import MutationAnalysis.Wasm.Call

namespace MutationAnalysis

open Wasm

/-- A linked set of objects. -/
structure Image where
  memory : Memory
  instances : Array (Instance Native)
  /-- Functions by address. -/
  table : Array (Option (FuncRef Native))
  /-- Addresses of the functions that the objects define. -/
  symbols : List (String × Nat)
  /-- Addresses of the constructors, object after object. -/
  constructors : List Nat

/-- What loaded images run with. -/
structure LoaderConfig where
  memoryPages : Nat
  /-- How many calls may be under way at once. -/
  maxDepth : Nat
  deriving Repr, DecidableEq

structure Loader where
  config : LoaderConfig
  /-- Counts the images that were released. -/
  generation : Nat
  /-- The values of the cells of this generation. -/
  cells : Array Word
  host : HostState
  /-- Steps that are left until the deadline. -/
  stepsLeft : Nat
  image : Option Image

/-- Bytes of stack that are taken to be used up when code is entered from outside, before its first
call: with no more than these, no function that an object defines can be called. -/
def bytesOfEntry : Nat := 704

/-- Bytes of stack that a call is taken to need. -/
def bytesPerCall : Nat := 64

/-- The most calls under way at once, whatever the stack. -/
def depthLimit : Nat := 16384

/-- Checks the limits of an execution. -/
def LoaderConfig.of (c : ExecutionConfig) : Except Error LoaderConfig :=
  if c.maxStack = 0 then .error ⟨.wasm, "Failed to create engine: the stack has no room"⟩
  else .ok ⟨c.memoryPages, min ((c.maxStack - bytesOfEntry) / bytesPerCall) depthLimit⟩

/-- What the import of an object is bound to. -/
inductive Binding where
  /-- The memory or the table of the image. -/
  | shared
  | constant (value : Word)
  | cell (c : CellRef)
  | native (n : Native)
  deriving Repr, DecidableEq

/-- An image being linked. -/
structure Linking where
  table : Array (Option (FuncRef Native))
  symbols : List (String × Nat)
  /-- Addresses of the host's functions that have one. -/
  natives : List (Native × Nat)

namespace Linking

/-- The address of a function of the host, the next free one if it has none yet. -/
def nativeAddress (s : Linking) (n : Native) : Nat × Linking :=
  match s.natives.lookup n with
  | some address => (address, s)
  | none =>
    let address := s.table.size
    (address, { s with
      table := s.table.push (some (.host n)), natives := s.natives ++ [(n, address)] })

/-- An address as a word. -/
def addressWord (name : String) (address : Nat) : Except Error Word :=
  if address < UInt32.size then .ok (UInt32.ofNat address)
  else .error ⟨.link, "address of '" ++ name ++ "' out of range: " ++ toString address⟩

/-- The address under which an object finds a function that it calls. -/
def functionAddress (s : Linking) (o : Object) (resolve : Resolver) (name : String) :
    Except Error (Nat × Linking) :=
  match s.symbols.lookup name with
  | some address => .ok (address, s)
  | none =>
    match resolve name with
    | some (.address address) => .ok (address, s)
    | some (.native n) =>
      match o.expectedSignature name with
      | some expected =>
        if expected = n.signature then .ok (s.nativeAddress n)
        else .error ⟨.link, o.moduleId ++ " calls '" ++ name ++ "' as " ++ expected.text
          ++ ", host provides " ++ n.signature.text⟩
      | none => .ok (s.nativeAddress n)
    | some other => .error ⟨.link, "'" ++ name ++ "' is not a function: " ++ other.text⟩
    | none => .error ⟨.symbolNotFound, name⟩

/-- The binding of a global other than the address of a function: cells are for mutable ones. -/
def bindGlobal (resolve : Resolver) (name : String) (isMutable : Bool) : Except Error Binding :=
  match isMutable, resolve name with
  | true, some (.cell c) => .ok (.cell c)
  | false, some (.constant value) => .ok (.constant value.toUInt32)
  | false, some (.address address) => (addressWord name address).map .constant
  | _, none => .error ⟨.symbolNotFound, name⟩
  | _, some other => .error ⟨.link, "cannot bind " ++ other.text ++ " to global '" ++ name ++ "'"⟩

def bindFunction (resolve : Resolver) (name : String) : Except Error Binding :=
  match resolve name with
  | some (.native n) => .ok (.native n)
  | some other =>
    .error ⟨.link, "cannot bind " ++ other.text ++ " to function import '" ++ name ++ "'"⟩
  | none => .error ⟨.symbolNotFound, name⟩

/-- The binding of one import. -/
def bindImport (s : Linking) (o : Object) (resolve : Resolver) (i : Import) :
    Except Error (Binding × Linking) :=
  match i.kind with
  | .memory _ | .table => .ok (.shared, s)
  | .global isMutable =>
    if i.space = SymbolName.addresses then do
      let (address, s) ← s.functionAddress o resolve i.name
      return (.constant (← addressWord i.name address), s)
    else (bindGlobal resolve i.name isMutable).map fun b => (b, s)
  | .function _ => (bindFunction resolve i.name).map fun b => (b, s)

/-- The bindings of imports in order. -/
def bindImports (s : Linking) (o : Object) (resolve : Resolver) :
    List Import → Except Error (List Binding × Linking)
  | [] => .ok ([], s)
  | i :: rest => do
    let (b, s) ← s.bindImport o resolve i
    let (bs, s) ← s.bindImports o resolve rest
    return (b :: bs, s)

/-- Whether an import accepts what it is bound to: a memory that is large enough, and a
cell of the generation at hand. -/
def accepts (pages generation : Nat) (i : Import) (b : Binding) : Bool :=
  match i.kind, b with
  | .memory minimum, _ => decide (minimum ≤ pages)
  | _, .cell c => c.generation == generation
  | _, _ => true

/-- The host function that an import is bound to. -/
def boundFunction? : Binding → Option (FuncRef Native)
  | .native n => some (.host n)
  | _ => none

/-- The global that an import is bound to. -/
def boundGlobal? : Binding → Option GlobalRef
  | .constant value => some (.constant value)
  | .cell c => some (.cell c.index)
  | _ => none

/-- The instance of an object whose imports are bound. -/
def instantiate (home : Nat) (o : Object) (bindings : List Binding) : Instance Native where
  types := o.code.types.toArray
  functions :=
    (bindings.filterMap boundFunction?
      ++ (List.range o.code.functions.length).map (FuncRef.defined home)).toArray
  globals := (bindings.filterMap boundGlobal?).toArray
  bodies := o.code.functions.toArray

/-- The addresses of an object's constructors. -/
def constructorAddresses (s : Linking) (o : Object) : Except Error (List Nat) :=
  o.constructors.mapM fun name =>
    match s.symbols.lookup name with
    | some address => .ok address
    | none => .error ⟨.link, "constructor '" ++ name ++ "' is not defined"⟩

/-- Puts the functions of an object, whose first address is given, into the table. -/
def place (s : Linking) (home first count : Nat) : Linking :=
  { s with
    table := (List.range count).foldl
      (fun table i => table.setIfInBounds (first + i) (some (.defined home i))) s.table }

/-- Links objects one after the other; the first of them is the instance of the given number and
its functions start at the given address. -/
def linkObjects (s : Linking) (pages generation : Nat) (resolve : Resolver) :
    Nat → Nat → List Object → Except Error (List (Instance Native) × List Nat × Linking)
  | _, _, [] => .ok ([], [], s)
  | home, first, o :: rest => do
    let (bindings, s) ← s.bindImports o resolve o.code.imports
    if !(o.code.imports.zip bindings).all fun (i, b) => accepts pages generation i b then
      .error ⟨.link, o.moduleId ++ ": an import does not fit"⟩
    else
      let count := o.defined.length
      let s := s.place home first count
      let constructors ← s.constructorAddresses o
      let (instances, more, s) ←
        s.linkObjects pages generation resolve (home + 1) (first + count) rest
      return (instantiate home o bindings :: instances, constructors ++ more, s)

/-- Gives the names of an object addresses from the given one on. -/
def assignNames (moduleId : String) (symbols : List (String × Nat)) (next : Nat) :
    List String → Except Error (List (String × Nat))
  | [] => .ok symbols
  | name :: rest =>
    if (symbols.lookup name).isSome then
      .error ⟨.link, "duplicate symbol '" ++ name ++ "' in " ++ moduleId⟩
    else assignNames moduleId (symbols ++ [(name, next)]) (next + 1) rest

/-- Gives the functions of all objects addresses in order. -/
def assign (symbols : List (String × Nat)) : List Object → Except Error (List (String × Nat))
  | [] => .ok symbols
  | o :: rest => do
    let symbols ← assignNames o.moduleId symbols (symbols.length + 1) o.defined
    assign symbols rest

end Linking

namespace Image

/-- Links objects into an image. -/
def link (pages generation : Nat) (objects : List Object) (resolve : Resolver) :
    Except Error Image := do
  if maxPages < pages then
    .error ⟨.wasm, "Failed to create memory of " ++ toString pages ++ " pages"⟩
  let symbols ← Linking.assign [] objects
  let s : Linking := ⟨Array.replicate (symbols.length + 1) none, symbols, []⟩
  let (instances, constructors, s) ← s.linkObjects pages generation resolve 0 1 objects
  return ⟨.blank pages, instances.toArray, s.table, s.symbols, constructors⟩

def address? (i : Image) (name : String) : Option Nat := i.symbols.lookup name

/-- The function at an address. -/
def function? (i : Image) (address : Nat) : Option (FuncRef Native) :=
  (i.table[address]?).join

end Image

namespace Loader

def new (config : LoaderConfig) : Loader :=
  ⟨config, 0, #[], .empty, patience, none⟩

/-- Releases the image, its cells and the state of its host. -/
def unload (l : Loader) : Loader :=
  { new l.config with generation := l.generation + 1 }

/-- Replaces the image by one linked from objects.  A load that fails leaves no image. -/
def load (l : Loader) (objects : List Object) (resolve : Resolver) :
    Loader × Except Error Unit :=
  let l := if l.image.isSome then l.unload else l
  let l := { l with host := l.host.resetRun }
  match Image.link l.config.memoryPages l.generation objects resolve with
  | .ok image => ({ l with image := some image }, .ok ())
  | .error e => (l.unload, .error e)

def isLoaded (l : Loader) : Bool := l.image.isSome

/-- The address of a function that the loaded objects define. -/
def address? (l : Loader) (name : String) : Option Nat := do
  (← l.image).address? name

/-- The function at an address. -/
def function? (l : Loader) (address : Nat) : Option (FuncRef Native) := do
  (← l.image).function? address

/-- The type of a function of the image. -/
def type? (l : Loader) (ref : FuncRef Native) : Option FuncType := do
  let image ← l.image
  Linkage.type? ⟨Native.host, image.instances, image.table, l.cells, l.config.maxDepth⟩ ref

def constructors (l : Loader) : List Nat :=
  (l.image.map (·.constructors)).getD []

def symbolCount (l : Loader) : Nat :=
  (l.image.map (·.symbols.length)).getD 0

/-- Limits the time of the next calls, or leaves it open. -/
def setDeadline (l : Loader) (timeout : Option Duration) : Loader :=
  { l with stepsLeft := (timeout.map Duration.steps).getD patience }

def mapHost (l : Loader) (f : HostState → HostState) : Loader :=
  { l with host := f l.host }

/-- Replaces the memory of the image. -/
def setMemory (l : Loader) (memory : Memory) : Loader :=
  { l with image := l.image.map fun image => { image with memory } }

/-- Calls a function of the image.  Without an image there is none to call. -/
def call (l : Loader) (ref : FuncRef Native) (arguments : List Word) : Ending × Loader :=
  match l with
  | ⟨config, generation, cells, host, stepsLeft, image⟩ =>
    match image with
    | none => (.stuck, ⟨config, generation, cells, host, stepsLeft, none⟩)
    | some ⟨memory, instances, table, symbols, constructors⟩ =>
      let linkage : Linkage Native HostState :=
        ⟨Native.host, instances, table, cells, config.maxDepth⟩
      match linkage.call stepsLeft ref arguments memory host with
      | ⟨ending, memory, host, stepsLeft⟩ =>
        (ending, ⟨config, generation, cells, host, stepsLeft,
          some ⟨memory, instances, table, symbols, constructors⟩⟩)

end Loader

end MutationAnalysis
