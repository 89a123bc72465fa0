/-
Functions that are registered to run at the end.

Code has functions run at the end by calls of the host, which a host that notes them shows
(`TestRun.Invocation.registered`).  The list of what is to run holds what was registered, the latest
first, and a run takes it once, when the program has ended.  So it calls what constructors and the
entry have registered, each once and the latest first.  What is registered by the functions that run
at the end is put on a list that is not looked at any more.

* `Native.isTold_destructors`: only registrations change what is to run;
* `TestRun.forall₂_callsOf`: calls one after the other, none of which stops the run;
* `TestRun.runs_registered_once`: what runs at the end of a run that
  neither crashes nor runs out of time.
-/
import MutationAnalysis.Proofs.TestRun.Calls
import MutationAnalysis.Proofs.Wasm.Noting

namespace MutationAnalysis

open Wasm

namespace Native

/-- What a call of a function of the host registers to run at the end. -/
def registers : Native → List Word → List Destructor
  | emulatedAtExit, [f] => [⟨f.toNat, none⟩]
  | emulatedCxaAtExit, [f, argument, _] => [⟨f.toNat, some argument⟩]
  | _, _ => []

/-- Only registrations change what is to run at the end. -/
theorem isTold_destructors : host.IsTold registers HostState.destructors fun ds d => d :: ds := by
  intro n arguments memory state
  show (n.call arguments memory state).Keeps _ _
  cases n <;> rcases arguments with _ | ⟨a, _ | ⟨b, _ | ⟨c, _ | ⟨d, rest⟩⟩⟩⟩ <;>
    first
    | exact rfl
    | exact ⟨rfl, trivial⟩

end Native

namespace TestRun

namespace Invocation

/-- What is registered during the call to run at the end, in order: the notes of the same call
with a host that notes them. -/
def registered (c : Invocation) : List Destructor :=
  match c.loader.image with
  | none => []
  | some image =>
    (((image.linkage c.loader.cells c.loader.config.maxDepth).withHost
      (Native.host.noting Native.registers)).call c.loader.stepsLeft c.ref c.arguments image.memory
        (c.loader.host, [])).state.2

/-- A call leaves what was to run, and above it what it has registered. -/
theorem destructors_after (c : Invocation) :
    c.after.host.destructors = c.registered.reverse ++ c.loader.host.destructors := by
  obtain ⟨⟨config, generation, cells, state, steps, _ | image⟩, ref, arguments⟩ := c
  · rfl
  · have hcall := Linkage.call_noting (l := image.linkage cells config.maxDepth)
      Native.isTold_destructors steps ref arguments image.memory state
    rw [List.foldl_flip_cons_eq_append'] at hcall
    exact hcall

/-- The call is that of a function that was registered, with its argument, and it returned. -/
def Runs (l : Loader) (d : Destructor) (c : Invocation) : Prop :=
  l.function? d.function = some c.ref ∧ c.arguments = d.argument.toList ∧ c.Returns

end Invocation

variable {l l₁ : Loader} {programName : String} {test : Test} {e : RunEnd} {s : Status}

/-! ### Calls one after the other -/

/-- Calls one after the other leave what was to run, and above it what they have registered. -/
theorem destructors_callDestructors (l : Loader) (ds : List Destructor) :
    (callDestructors l ds).2.host.destructors
      = ((callsOf l ds).flatMap Invocation.registered).reverse ++ l.host.destructors := by
  induction ds generalizing l with
  | nil => rfl
  | cons d rest ih =>
    rcases callsOf_cons l d rest with ⟨hcalls, hended⟩ |
      ⟨c, rfl, -, -, ⟨-, hcalls, hended⟩ | ⟨-, hcalls, hended⟩⟩
    · rw [hcalls, hended]
      rfl
    · rw [hcalls, hended, List.flatMap_singleton]
      exact c.destructors_after
    · rw [hcalls, hended, ih, c.destructors_after, List.flatMap_cons, List.reverse_append,
        List.append_assoc]

/-- If none of the calls stops the run, each of them is made and returns. -/
theorem forall₂_callsOf (h : l.MayBecome l₁) {ds : List Destructor}
    (hnone : (callDestructors l₁ ds).1 = none) :
    List.Forall₂ (Invocation.Runs l) ds (callsOf l₁ ds) := by
  induction ds generalizing l₁ with
  | nil => exact .nil
  | cons d rest ih =>
    rcases callsOf_cons l₁ d rest with ⟨-, hended⟩ |
      ⟨c, rfl, href, harguments, ⟨-, -, hended⟩ | ⟨hreturns, hcalls, hended⟩⟩
    · rw [hended] at hnone
      cases hnone
    · rw [hended] at hnone
      cases hnone
    · rw [hended] at hnone
      rw [hcalls]
      exact .cons ⟨h.function?_eq d.function ▸ href, harguments, hreturns⟩
        (ih (h.call c.ref c.arguments) hnone)

/-- The end of a run after which nothing runs any more. -/
def IsFatal (e : RunEnd) : Prop := ∀ s, e = .status s → s = .crashed ∨ s = .timeout

/-- A call that does not return is fatal, unless it is ended by exit. -/
theorem endOfFailure_isFatal {e : Ending} (h : ∀ code, e ≠ .raised (.exit code)) :
    IsFatal (endOfFailure e) := by
  intro s hs
  cases e with
  | returned | stuck => exact .inl (RunEnd.status.inj hs).symm
  | trapped trap =>
    cases trap with
    | interrupt => exact .inr (RunEnd.status.inj hs).symm
    | _ => exact .inl (RunEnd.status.inj hs).symm
  | raised signal =>
    cases signal with
    | exit code => exact absurd rfl (h code)
    | failure => exact .inl (RunEnd.status.inj hs).symm
    | endProcess => cases hs

/-- What stops calls none of which is ended by exit is fatal. -/
theorem isFatal_of_callDestructors {ds : List Destructor}
    (hexits : ∀ c ∈ callsOf l ds, ¬ c.Exits) (h : (callDestructors l ds).1 = some e) :
    IsFatal e := by
  induction ds generalizing l with
  | nil => cases h
  | cons d rest ih =>
    rcases callsOf_cons l d rest with ⟨-, hended⟩ |
      ⟨c, rfl, -, -, ⟨-, hcalls, hended⟩ | ⟨-, hcalls, hended⟩⟩
    · rw [hended] at h
      obtain rfl := Option.some.inj h
      exact fun s hs => .inl (RunEnd.status.inj hs).symm
    · rw [hended] at h
      obtain rfl := Option.some.inj h
      rw [hcalls, List.forall_mem_singleton] at hexits
      exact endOfFailure_isFatal fun code hcode => hexits ⟨code, hcode⟩
    · rw [hended] at h
      rw [hcalls, List.forall_mem_cons] at hexits
      exact ih hexits.2 h

/-! ### The end of a run -/

/-- An end that is not fatal has what is to run called, on a list that is empty again. -/
theorem finish_eq (l : Loader) {s : Status} (hcrashed : s ≠ .crashed) (htimeout : s ≠ .timeout) :
    let emptied := l.mapHost fun h => { h with destructors := [] }
    callsAtEnd l (.status s) = callsOf emptied l.host.destructors ∧
      finish l (.status s) = ((callDestructors emptied l.host.destructors).1.getD (.status s),
        (callDestructors emptied l.host.destructors).2) := by
  cases s with
  | crashed => exact absurd rfl hcrashed
  | timeout => exact absurd rfl htimeout
  | passed | failed | invalid | failFast =>
    refine ⟨rfl, ?_⟩
    unfold finish
    dsimp only
    generalize callDestructors _ l.host.destructors = called
    obtain ⟨o, l'⟩ := called
    cases o <;> rfl

/-- A run that ends otherwise than by a crash or at its deadline has called all that was
to run when the program ended, unless one of these calls was ended by exit.  What they
have registered is to run now. -/
theorem finish_runs (h : l.MayBecome l₁) (hend : (finish l₁ e).1 = .status s)
    (hcrashed : s ≠ .crashed)
    (htimeout : s ≠ .timeout) (hexits : ∀ c ∈ callsAtEnd l₁ e, ¬ c.Exits) :
    List.Forall₂ (Invocation.Runs l) l₁.host.destructors (callsAtEnd l₁ e) ∧
      (finish l₁ e).2.host.destructors
        = ((callsAtEnd l₁ e).flatMap Invocation.registered).reverse := by
  have hnot : ¬ IsFatal (.status s) := fun hfatal => (hfatal s rfl).elim hcrashed htimeout
  cases e with
  | processEnd code => cases hend
  | status s' =>
    by_cases hfatal : s' = .crashed ∨ s' = .timeout
    · -- nothing is called, and the end stays what it was
      have hsame : finish l₁ (.status s') = (.status s', l₁) := by
        rcases hfatal with rfl | rfl <;> rfl
      rw [hsame] at hend
      obtain rfl := RunEnd.status.inj hend
      exact absurd hfatal (not_or.mpr ⟨hcrashed, htimeout⟩)
    · obtain ⟨hcrashed', htimeout'⟩ := not_or.mp hfatal
      obtain ⟨hcalls, hfinish⟩ := finish_eq l₁ hcrashed' htimeout'
      rw [hcalls] at hexits ⊢
      rw [hfinish] at hend ⊢
      refine ⟨forall₂_callsOf (h.mapHost _) ?_, ?_⟩
      · cases hstop : (callDestructors (l₁.mapHost fun h => { h with destructors := [] })
            l₁.host.destructors).1 with
        | none => rfl
        | some e =>
          rw [hstop] at hend
          exact absurd (hend ▸ isFatal_of_callDestructors hexits hstop) hnot
      · rw [destructors_callDestructors]
        exact List.append_nil _

/-! ### Whole runs -/

/-- How the program ends, and what it leaves: at a constructor that does
not return, or with the entry. -/
def programEnd (l : Loader) (ref : FuncRef Native) (arguments : List Word) : RunEnd × Loader :=
  match callConstructors l l.constructors with
  | (some e, l) => (e, l)
  | (none, l) => callEntry l ref arguments

/-- The calls of the constructors and of the entry. -/
def callsOfProgram (l : Loader) (ref : FuncRef Native) (arguments : List Word) : List Invocation :=
  callsOf l (l.constructors.map (⟨·, none⟩)) ++
    match callConstructors l l.constructors with
    | (some _, _) => []
    | (none, l) => [⟨l, ref, arguments⟩]

theorem callsOfExecution_eq (l : Loader) (ref : FuncRef Native) (arguments : List Word) :
    callsOfExecution l ref arguments = callsOfProgram l ref arguments ++
      callsAtEnd (programEnd l ref arguments).2 (programEnd l ref arguments).1 := by
  unfold callsOfExecution callsOfProgram programEnd
  rw [List.append_assoc]
  generalize callConstructors l l.constructors = called
  obtain ⟨o, l'⟩ := called
  cases o <;> rfl

theorem execute_eq_finish (l : Loader) (ref : FuncRef Native) (arguments : List Word) :
    execute l ref arguments
      = finish (programEnd l ref arguments).2 (programEnd l ref arguments).1 := by
  unfold execute programEnd
  generalize callConstructors l l.constructors = called
  obtain ⟨o, l'⟩ := called
  cases o <;> rfl

theorem mayBecome_programEnd (h : l.MayBecome l₁) (ref : FuncRef Native) (arguments : List Word) :
    l.MayBecome (programEnd l₁ ref arguments).2 := by
  have hcall := mayBecome_callConstructors h l₁.constructors
  unfold programEnd
  generalize callConstructors l₁ l₁.constructors = called at hcall ⊢
  obtain ⟨o, l₂⟩ := called
  cases o with
  | some e => exact hcall
  | none => exact mayBecome_callEntry hcall ref arguments

/-- The program leaves what it has registered above what was to run. -/
theorem destructors_programEnd (l : Loader) (ref : FuncRef Native) (arguments : List Word) :
    (programEnd l ref arguments).2.host.destructors
      = ((callsOfProgram l ref arguments).flatMap Invocation.registered).reverse
        ++ l.host.destructors := by
  have hconstructors := destructors_callDestructors l (l.constructors.map (⟨·, none⟩))
  rw [← callConstructors_eq] at hconstructors
  unfold callsOfProgram programEnd
  generalize callConstructors l l.constructors = called at hconstructors ⊢
  obtain ⟨o, l'⟩ := called
  cases o with
  | some e =>
    rw [List.append_nil]
    exact hconstructors
  | none =>
    have hentry := Invocation.destructors_after ⟨l', ref, arguments⟩
    dsimp only at hconstructors ⊢
    rw [hconstructors] at hentry
    rw [callEntry_eq, List.flatMap_append, List.flatMap_singleton, List.reverse_append,
      List.append_assoc]
    exact hentry

/-- The calls that a run of a test makes of constructors and of the entry. -/
def programCalls (programName : String) (l : Loader) (test : Test) : List Invocation :=
  match prepareEntry (l.mapHost HostState.resetRun) programName test with
  | .error _ => []
  | .ok (ref, arguments, l) => callsOfProgram l ref arguments

/-- The calls that a run of a test makes of what is to run at the end. -/
def destructorCalls (programName : String) (l : Loader) (test : Test) : List Invocation :=
  match prepareEntry (l.mapHost HostState.resetRun) programName test with
  | .error _ => []
  | .ok (ref, arguments, l) =>
    callsAtEnd (programEnd l ref arguments).2 (programEnd l ref arguments).1

/-- For every test in every loaded image, whose run neither crashes nor runs out of time and in
which no function that runs at the end exits: the run calls constructors and the entry first.  Then,
for each registration that these have made, the latest first, it calls the registered function once
with the registered argument, and nothing else.  What these functions register in their turn is not
called: it is to run when the run is over. -/
theorem runs_registered_once (hloaded : l.isLoaded = true) {o : Outcome}
    (hrun : (run programName l test).1 = .outcome o) (hcrashed : o.status ≠ .crashed)
    (htimeout : o.status ≠ .timeout)
    (hexits : ∀ c ∈ destructorCalls programName l test, ¬ c.Exits) :
    calls programName l test
        = programCalls programName l test ++ destructorCalls programName l test ∧
      List.Forall₂ (Invocation.Runs l)
        ((programCalls programName l test).flatMap Invocation.registered).reverse
        (destructorCalls programName l test) ∧
      (run programName l test).2.host.destructors
        = ((destructorCalls programName l test).flatMap Invocation.registered).reverse := by
  obtain ⟨image, himage⟩ := Option.isSome_iff_exists.mp hloaded
  have hreset := (l.mayBecome_self himage).mapHost HostState.resetRun
  rw [run, if_pos hloaded] at hrun ⊢
  rw [calls, if_pos hloaded]
  rw [destructorCalls] at hexits
  rw [programCalls, destructorCalls]
  dsimp only at hrun ⊢
  cases hprepare : prepareEntry (l.mapHost HostState.resetRun) programName test with
  | error e => exact ⟨rfl, .nil, rfl⟩
  | ok prepared =>
    obtain ⟨ref, arguments, l₁⟩ := prepared
    rw [hprepare] at hrun hexits
    dsimp only at hrun hexits ⊢
    have hprogram := destructors_programEnd l₁ ref arguments
    have hempty : l₁.host.destructors = [] := by
      rw [(host_of_prepareEntry hprepare).1]
      rfl
    rw [hempty, List.append_nil] at hprogram
    have hbecomes := mayBecome_programEnd (mayBecome_prepareEntry hreset hprepare) ref arguments
    rw [execute_eq_finish] at hrun ⊢
    rw [callsOfExecution_eq, ← hprogram]
    cases hend : (finish (programEnd l₁ ref arguments).2 (programEnd l₁ ref arguments).1).1 with
    | processEnd code =>
      rw [hend] at hrun
      cases hrun
    | status s =>
      rw [hend] at hrun
      obtain rfl := (RunResult.outcome.inj hrun).symm
      exact ⟨rfl, finish_runs hbecomes hend hcrashed htimeout hexits⟩

end TestRun

/-! ### A function that registers another at the end -/

/-- A program whose constructor registers `note` with an argument and whose entry registers
`cleanup`, which registers `late` when it runs. -/
def finalizing : Program where
  functions := [
    { name := "main", numParams := 0, numLocals := 1, returnType := .void
      blocks :=
        [⟨[⟨.call, some 0, [.symbol "atexit", .immediate (.int 3)], none⟩, .returning none]⟩] },
    { name := "init", numParams := 0, numLocals := 1, returnType := .void
      blocks :=
        [⟨[⟨.call, some 0, [.symbol "__cxa_atexit", .immediate (.int 4), .immediate (.int 105),
        .immediate (.int 0)], none⟩, .returning none]⟩] },
    { name := "cleanup", numParams := 0, numLocals := 1, returnType := .void
      blocks := [⟨[⟨.call, some 0, [.symbol "putchar", .immediate (.int 99)], none⟩,
        ⟨.call, some 0, [.symbol "atexit", .immediate (.int 5)], none⟩, .returning none]⟩] },
    { name := "note", numParams := 1, numLocals := 1, returnType := .void
      blocks := [⟨[⟨.call, some 1, [.symbol "putchar", .register 0], none⟩, .returning none]⟩] },
    { name := "late", numParams := 0, numLocals := 1, returnType := .void
      blocks := [⟨[⟨.call, some 0, [.symbol "putchar", .immediate (.int 108)], none⟩,
        .returning none]⟩] }]
  declarations := [⟨"atexit", 1, .int⟩, ⟨"__cxa_atexit", 3, .int⟩, ⟨"putchar", 1, .int⟩]
  constructors := ["init"]
  version := 1

def finalizingTest : Test := .new "finalizes" "main" []

/-- The image of the program alone. -/
def finalizingLoader : Loader :=
  ((Loader.new ⟨1, 8⟩).load (Object.compile finalizing "m" false).toOption.toList
    (.chain [.overrides, .hostProcess])).1

/-- How the calls of its run end, of which functions they are, and what they register. -/
theorem finalizing_calls :
    (TestRun.run TestRun.defaultProgramName finalizingLoader finalizingTest).1
        = .outcome ⟨.passed, "ci"⟩ ∧
      (TestRun.programCalls TestRun.defaultProgramName finalizingLoader finalizingTest).map
          (fun c => (c.ending, c.ref, c.registered))
        = [(.returned [], .defined 0 1, [⟨4, some 105⟩]),
          (.returned [], .defined 0 0, [⟨3, none⟩])] ∧
      (TestRun.destructorCalls TestRun.defaultProgramName finalizingLoader finalizingTest).map
          (fun c => (c.ending, c.ref, c.registered))
        = [(.returned [], .defined 0 2, [⟨5, none⟩]), (.returned [], .defined 0 3, [])] := by
  decide +kernel

theorem finalizing_not_exits :
    ∀ c ∈ TestRun.destructorCalls TestRun.defaultProgramName finalizingLoader finalizingTest,
      ¬ c.Exits := by
  rintro c hc ⟨code, hcode⟩
  have hmem := List.mem_map_of_mem (f := fun c => (c.ending, c.ref, c.registered)) hc
  rw [finalizing_calls.2.2, hcode] at hmem
  simp at hmem

/-- What the entry registered runs first, then what the constructor did with its argument; what was
registered meanwhile is left over. -/
theorem finalizing_runs_once :
    (TestRun.run TestRun.defaultProgramName finalizingLoader finalizingTest).1
        = .outcome ⟨.passed, "ci"⟩ ∧
      List.Forall₂ (TestRun.Invocation.Runs finalizingLoader) [⟨3, none⟩, ⟨4, some 105⟩]
        (TestRun.destructorCalls TestRun.defaultProgramName finalizingLoader finalizingTest) ∧
      (TestRun.run TestRun.defaultProgramName finalizingLoader finalizingTest).2.host.destructors
        = [⟨5, none⟩] := by
  obtain ⟨hrun, hprogram, hdestructors⟩ := finalizing_calls
  obtain ⟨-, hruns, hleft⟩ := TestRun.runs_registered_once (by decide +kernel) hrun (by decide)
    (by decide) finalizing_not_exits
  -- what is registered is the last part of what is known of the calls
  have hregistered : ∀ cs : List TestRun.Invocation, cs.flatMap TestRun.Invocation.registered
      = (cs.map fun c => (c.ending, c.ref, c.registered)).flatMap fun c => c.2.2 := by
    intro cs
    rw [List.flatMap_map]
  rw [hregistered, hprogram] at hruns
  rw [hregistered, hdestructors] at hleft
  exact ⟨hrun, hruns, hleft⟩

/-- The run neither crashes nor runs out of time, all its calls return, and yet one of them
registers a function that none of them is a call of. -/
theorem finalizing_drops_late :
    (TestRun.run TestRun.defaultProgramName finalizingLoader finalizingTest).1
        = .outcome ⟨.passed, "ci"⟩ ∧
      ∃ c ∈ TestRun.calls TestRun.defaultProgramName finalizingLoader finalizingTest,
        ⟨5, none⟩ ∈ c.registered ∧ finalizingLoader.function? 5 = some (.defined 0 4) ∧
          ∀ c' ∈ TestRun.calls TestRun.defaultProgramName finalizingLoader finalizingTest,
            c'.Returns ∧ c'.ref ≠ .defined 0 4 := by
  have hcalls : (TestRun.calls TestRun.defaultProgramName finalizingLoader finalizingTest).map
      (fun c => (c.ending, c.ref, c.registered))
        = [(.returned [], .defined 0 1, [⟨4, some 105⟩]), (.returned [], .defined 0 0, [⟨3, none⟩]),
          (.returned [], .defined 0 2, [⟨5, none⟩]), (.returned [], .defined 0 3, [])] := by
    decide +kernel
  have hlate : finalizingLoader.function? 5 = some (.defined 0 4) := by decide +kernel
  refine ⟨finalizing_calls.1, ?_⟩
  generalize TestRun.calls TestRun.defaultProgramName finalizingLoader finalizingTest
    = cs at hcalls ⊢
  have hcleanup : (Ending.returned [], FuncRef.defined 0 2, [⟨5, none⟩])
      ∈ cs.map fun c => (c.ending, c.ref, c.registered) := by simp [hcalls]
  obtain ⟨c, hc, hcleanup⟩ := List.mem_map.mp hcleanup
  have hregistered : c.registered = [⟨5, none⟩] := congrArg (fun x => x.2.2) hcleanup
  refine ⟨c, hc, by simp [hregistered], hlate, fun c' hc' => ?_⟩
  have hmem := List.mem_map_of_mem (f := fun c => (c.ending, c.ref, c.registered)) hc'
  simp only [hcalls, List.mem_cons, List.not_mem_nil, or_false, Prod.mk.injEq] at hmem
  rcases hmem with ⟨hending, href, -⟩ | ⟨hending, href, -⟩ | ⟨hending, href, -⟩
    | ⟨hending, href, -⟩ <;>
    exact ⟨⟨[], hending⟩, by simp [href]⟩

end MutationAnalysis
