/-
The calls in code.

A function is called by its index, or by its address on top of the stack.  Where that address has
just been read from a global, the global says what is called.

* `Code.sitesAfter`: the calls of code, in the order in which they stand in it;
* `Module.callee?`: what a call goes to in a module;
* `Code.Calls`: code that makes given calls, with the lemmas that put it together.
-/
import MutationAnalysis.Proofs.Wasm.Typing

namespace MutationAnalysis.Wasm

/-- A call: of the function of an index, or of the one whose address is on top of the stack, which
may have been read from a global just before. -/
inductive CallSite where
  | direct (function : Nat)
  | indirect (source : Option Nat)
  deriving Repr, DecidableEq

/-- The calls of code that runs after a global was read, or not. -/
def Code.sitesAfter : Option Nat → Code → List CallSite
  | _, done => []
  | _, op (.globalGet g) rest => rest.sitesAfter (some g)
  | _, op (.call n) rest => .direct n :: rest.sitesAfter none
  | source, op (.callIndirect _) rest => .indirect source :: rest.sitesAfter none
  | _, op _ rest => rest.sitesAfter none
  | _, block body rest => body.sitesAfter none ++ rest.sitesAfter none
  | _, loop body rest => body.sitesAfter none ++ rest.sitesAfter none
  | _, ifElse yes no rest => yes.sitesAfter none ++ no.sitesAfter none ++ rest.sitesAfter none

/-- An instruction that calls nothing and reads no global. -/
def Op.isSilent : Op → Bool
  | .globalGet _ | .call _ | .callIndirect _ => false
  | _ => true

/-- What is called: a function of the module itself, one that it imports, or the one whose
address an imported global holds. -/
inductive Callee where
  | own (function : Nat)
  | imported (function : Import)
  | held (address : Import)
  deriving Repr, DecidableEq

namespace Module

/-- The imported functions, in order. -/
def functionImports (m : Module) : List Import :=
  m.imports.filter fun i =>
    match i.kind with
    | .function _ => true
    | _ => false

/-- What a call goes to, if the module has it. -/
def callee? (m : Module) : CallSite → Option Callee
  | .direct n =>
    match m.functionImports[n]? with
    | some i => some (.imported i)
    | none =>
      let own := n - m.functionImports.length
      if own < m.functions.length then some (.own own) else none
  | .indirect source => do some (.held (← m.importedGlobals[← source]?))

variable {m : Module}

theorem callee?_imported {n : Nat} {i : Import} (h : m.functionImports[n]? = some i) :
    m.callee? (.direct n) = some (.imported i) := by
  rw [callee?, h]

theorem callee?_own {k : Nat} (h : k < m.functions.length) :
    m.callee? (.direct (m.functionImports.length + k)) = some (.own k) := by
  have hnone : m.functionImports[m.functionImports.length + k]? = none :=
    List.getElem?_eq_none (Nat.le_add_right _ _)
  rw [callee?, hnone]
  simp [h]

theorem callee?_held {g : Nat} {i : Import} (h : m.importedGlobals[g]? = some i) :
    m.callee? (.indirect (some g)) = some (.held i) := by
  simp [callee?, h]

end Module

namespace Code

/-- What the calls of code go to. -/
def callees (m : Module) (c : Code) : List (Option Callee) := (c.sitesAfter none).map m.callee?

/-- Code whose calls go to the given functions, whatever code comes after it. -/
def Calls (m : Module) (c : Code) (functions : List Callee) : Prop :=
  ∀ k, (c ++ k).callees m = functions.map some ++ k.callees m

variable {m : Module} {c body rest : Code} {functions others : List Callee} {o : Op}

theorem Calls.callees_eq (h : c.Calls m functions) : c.callees m = functions.map some := by
  have hall := h .done
  rwa [append_done, show Code.done.callees m = [] from rfl, List.append_nil] at hall

theorem Calls.done : Code.done.Calls m [] := fun _ => rfl

theorem Calls.append (h : c.Calls m functions) (hrest : rest.Calls m others) :
    (c ++ rest).Calls m (functions ++ others) := by
  intro k
  rw [append_assoc, h, hrest, List.map_append, List.append_assoc]

theorem Calls.op (ho : o.isSilent = true) (h : rest.Calls m functions) :
    (Code.op o rest).Calls m functions := by
  intro k
  rw [← h k, op_append, callees, callees]
  cases o <;> first | rfl | cases ho

/-- Instructions that call nothing. -/
theorem calls_ofOps {ops : List Op} (hops : ∀ o ∈ ops, o.isSilent = true) :
    (ofOps ops).Calls m [] := by
  induction ops with
  | nil => exact .done
  | cons o ops ih =>
    rw [List.forall_mem_cons] at hops
    exact .op hops.1 (ih hops.2)

/-- A call of a function by its index. -/
theorem Calls.direct {n : Nat} {callee : Callee} (hn : m.callee? (.direct n) = some callee)
    (h : rest.Calls m functions) : (Code.op (.call n) rest).Calls m (callee :: functions) := by
  intro k
  show m.callee? (.direct n) :: (rest ++ k).callees m = _
  rw [hn, h]
  rfl

/-- A call of the function whose address a global holds. -/
theorem Calls.throughGlobal {g type : Nat} {i : Import} (hg : m.importedGlobals[g]? = some i)
    (h : rest.Calls m functions) :
    (Code.op (.globalGet g) (.op (.callIndirect type) rest)).Calls m (.held i :: functions) := by
  intro k
  show m.callee? (.indirect (some g)) :: (rest ++ k).callees m = _
  rw [Module.callee?_held hg, h]
  rfl

/-- A global that is read for something else than a call. -/
theorem Calls.global {g : Nat} (ho : o.isSilent = true) (h : rest.Calls m functions) :
    (Code.op (.globalGet g) (.op o rest)).Calls m functions := by
  intro k
  rw [← h k]
  cases o <;> first | rfl | cases ho

theorem Calls.block (hbody : body.Calls m functions) (h : rest.Calls m others) :
    (Code.block body rest).Calls m (functions ++ others) := by
  intro k
  have hsplit : (Code.block body rest ++ k).callees m = body.callees m ++ (rest ++ k).callees m :=
    List.map_append
  rw [hsplit, hbody.callees_eq, h, List.map_append, List.append_assoc]

theorem Calls.loop (hbody : body.Calls m functions) (h : rest.Calls m others) :
    (Code.loop body rest).Calls m (functions ++ others) := fun k => hbody.block h k

theorem Calls.ifElse {yes no : Code} {functions' : List Callee} (hyes : yes.Calls m functions)
    (hno : no.Calls m functions') (h : rest.Calls m others) :
    (Code.ifElse yes no rest).Calls m (functions ++ functions' ++ others) := by
  intro k
  have hsplit : (Code.ifElse yes no rest ++ k).callees m
      = yes.callees m ++ no.callees m ++ (rest ++ k).callees m := by
    show List.map _ (_ ++ _ ++ _) = _
    rw [List.map_append, List.map_append]
    rfl
  rw [hsplit, hyes.callees_eq, hno.callees_eq, h]
  simp only [List.map_append, List.append_assoc]

end Code

end MutationAnalysis.Wasm
