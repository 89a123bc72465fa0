/-
Calls of loaders.

A loader calls the functions of its image.  What a call changes is the memory, the state of
the host and the steps that are left (`Loader.inState`); all else of the loader stays for the
calls after it.  A call that is not interrupted ends in the same way however many more steps
it is given (`Loader.Finishes`).

* `Loader.finishes_of_call`: a call that is not interrupted has finished;
* `Loader.finishes_iff`: calls of a loader are runs of its image with its cells.
-/
import MutationAnalysis.Image.Loader
import MutationAnalysis.Proofs.Image.Realization

namespace MutationAnalysis

open Wasm

namespace Loader

/-- The loader between two calls, with what calls change. -/
def inState (l : Loader) (memory : Memory) (state : HostState) (steps : Nat) : Loader :=
  { l with host := state, stepsLeft := steps }.setMemory memory

/-- A call ends with a result, after some number of steps whatever more it is given. -/
def Finishes (l : Loader) (ref : FuncRef Native) (arguments : List Word) (memory : Memory)
    (state : HostState) (r : Halt HostState) : Prop :=
  ∃ n, ∀ k, (l.inState memory state (n + k)).call ref arguments = (r.1, l.inState r.2.1 r.2.2 k)

/-- Calls of a function end alike in two loaders, unless the stack is used up.  In the first, it
is not if it has as much room as in the second; in the second, it is not if it has room for
twice as many calls and one. -/
def CallsAlike (l l' : Loader) (ref : FuncRef Native) (params : Nat) : Prop :=
  ∀ arguments memory state r, arguments.length = params → r.1 ≠ .trapped .stackOverflow →
    (l'.Finishes ref arguments memory state r → ∃ r', l.Finishes ref arguments memory state r' ∧
      (r' = r ∨ (r'.1 = .trapped .stackOverflow ∧ l.config.maxDepth < l'.config.maxDepth))) ∧
    (l.Finishes ref arguments memory state r → ∃ r', l'.Finishes ref arguments memory state r' ∧
      (r' = r ∨
        (r'.1 = .trapped .stackOverflow ∧ l'.config.maxDepth < 2 * l.config.maxDepth + 1)))

/-- At addresses of two loaders stands the same function of a type, and calls of it end alike. -/
def SameAt (l l' : Loader) (a a' : Nat) (type : FuncType) : Prop :=
  ∃ ref, l.function? a = some ref ∧ l'.function? a' = some ref ∧ l.type? ref = some type ∧
    l'.type? ref = some type ∧ l.CallsAlike l' ref type.params

variable {l : Loader} {image : Image} {ref : FuncRef Native} {arguments : List Word}
  {memory : Memory} {state : HostState} {r : Halt HostState} {steps : Nat}

section

variable (l) (memory state steps)

@[simp] theorem address?_inState (name : String) :
    (l.inState memory state steps).address? name = l.address? name := by
  obtain ⟨_, _, _, _, _, image⟩ := l
  cases image <;> rfl

@[simp] theorem function?_inState (a : Nat) :
    (l.inState memory state steps).function? a = l.function? a := by
  obtain ⟨_, _, _, _, _, image⟩ := l
  cases image <;> rfl

@[simp] theorem type?_inState (ref : FuncRef Native) :
    (l.inState memory state steps).type? ref = l.type? ref := by
  obtain ⟨_, _, _, _, _, image⟩ := l
  cases image <;> rfl

@[simp] theorem constructors_inState :
    (l.inState memory state steps).constructors = l.constructors := by
  obtain ⟨_, _, _, _, _, image⟩ := l
  cases image <;> rfl

@[simp] theorem host_inState : (l.inState memory state steps).host = state := rfl

end

section

variable (himage : l.image = some image)

include himage

theorem address?_of_image (name : String) : l.address? name = image.address? name := by
  rw [Loader.address?, himage]
  rfl

theorem function?_of_image (a : Nat) : l.function? a = image.function? a := by
  rw [Loader.function?, himage]
  rfl

theorem type?_of_image (ref : FuncRef Native) :
    l.type? ref = (image.linkage l.cells l.config.maxDepth).type? ref := by
  rw [Loader.type?, himage]
  rfl

theorem constructors_of_image : l.constructors = image.constructors := by
  rw [Loader.constructors, himage]
  rfl

end

/-- A loader is in the state that it is in. -/
theorem inState_self (himage : l.image = some image) :
    l.inState image.memory l.host l.stepsLeft = l := by
  obtain ⟨_, _, _, _, _, _⟩ := l
  subst himage
  rfl

theorem inState_inState (memory' : Memory) (state' : HostState) (steps' : Nat) :
    (l.inState memory state steps).inState memory' state' steps'
      = l.inState memory' state' steps' := by
  obtain ⟨_, _, _, _, _, image⟩ := l
  cases image <;> rfl

/-- A call of a loader is a run of its image with its cells. -/
theorem call_inState (himage : l.image = some image) (steps : Nat) :
    (l.inState memory state steps).call ref arguments =
      let run := (image.linkage l.cells l.config.maxDepth).call steps ref arguments memory state
      (run.ending, l.inState run.memory run.state run.stepsLeft) := by
  obtain ⟨_, _, _, _, _, _⟩ := l
  subst himage
  rfl

theorem inState_inj (himage : l.image = some image) {memory' : Memory} {state' : HostState}
    {steps' : Nat} (h : l.inState memory state steps = l.inState memory' state' steps') :
    memory = memory' ∧ state = state' ∧ steps = steps' := by
  obtain ⟨_, _, _, _, _, _⟩ := l
  subst himage
  injection h with _ _ _ hstate hsteps hsome
  injection hsome with hsome
  injection hsome with hmemory
  exact ⟨hmemory, hstate, hsteps⟩

theorem finishes_iff (himage : l.image = some image) : l.Finishes ref arguments memory state r ↔
    (image.linkage l.cells l.config.maxDepth).Finishes ref arguments memory state r := by
  refine exists_congr fun n => forall_congr' fun k => ?_
  rw [call_inState himage]
  generalize (image.linkage l.cells l.config.maxDepth).call (n + k) ref arguments memory state = run
  obtain ⟨ending, memory', state', stepsLeft⟩ := run
  obtain ⟨e, m, s⟩ := r
  constructor
  · intro h
    obtain ⟨rfl, hloader⟩ := Prod.mk.inj h
    obtain ⟨rfl, rfl, rfl⟩ := inState_inj himage hloader
    rfl
  · intro h
    obtain ⟨rfl, rfl, rfl, rfl⟩ := Run.mk.inj h
    rfl

/-- A call that is not interrupted has finished, and the loader is what it was
but for what the call changed. -/
theorem finishes_of_call (himage : l.image = some image) {e : Ending} {l' : Loader}
    (h : (l.inState memory state steps).call ref arguments = (e, l'))
    (he : e ≠ .trapped .interrupt) : ∃ memory' state' left, l' = l.inState memory' state' left ∧
      l.Finishes ref arguments memory state (e, memory', state') := by
  rw [call_inState himage] at h
  obtain ⟨rfl, rfl⟩ := Prod.mk.inj h
  exact ⟨_, _, _, rfl, (finishes_iff himage).mpr (Linkage.finishes_of_call rfl he)⟩

end Loader

end MutationAnalysis
