/-
Which bodies run.

A worker is to run every test in an image where the cell of the point's key holds the mutant of the
point, and every other cell the preserved body of its key.  What a test may do to a loader, as often
as the sandbox runs it, does not reach the cells.  So a point that binds its mutant finds it bound
at every call of the sandbox, and can take it out of the cell again, whether its tests run to the
end or one of them is invalid; and a point that cannot bind its mutant binds nothing.

* `WorkerContext.mayBecome_entriesOf`, `WorkerContext.mayBecome_runTests`: what the tests of a point
  are run in, and what they leave;
* `WorkerContext.pointHistory_of_mayBecome`: what a point is run in, and what it leaves;
* `WorkerContext.diverts_history`: the cells at every call of the sandbox, and after every point.
-/
import MutationAnalysis.Proofs.Campaign.History
import MutationAnalysis.Proofs.Campaign.Parallel
import MutationAnalysis.Proofs.Campaign.Verdicts

namespace MutationAnalysis

open Wasm

/-! ### Sandboxes -/

/-- All that the sandbox does to a loader is to run the body on it, some number of times. -/
def Sandbox.OnlyRuns (s : Sandbox) : Prop :=
  ∀ body timeout l, ∃ n, (s body timeout l).2 = (fun l => (body l).2)^[n] l

theorem Sandbox.onlyRuns_ofIsolation (i : Isolation) : (ofIsolation i).OnlyRuns := by
  intro body timeout l
  have hloader : (ofIsolation i body timeout l).2 = l ∨
      (ofIsolation i body timeout l).2 = (body l).2 :=
    ofIsolation_loader i
  rcases hloader with heq | heq
  · exact ⟨0, heq⟩
  · exact ⟨1, heq⟩

/-- A sandbox leaves what calls may make of a loader. -/
theorem SandboxCall.mayBecome_answer {s : Sandbox} {l : Loader} (hs : s.OnlyRuns)
    (call : SandboxCall) (h : l.MayBecome call.loader) : l.MayBecome (call.answer s).2 := by
  obtain ⟨n, hn⟩ := hs (fun l => TestRun.run TestRun.defaultProgramName l call.test) call.timeout
    call.loader
  rw [answer, hn]
  clear hn
  induction n with
  | zero => exact h
  | succ n ih =>
    rw [Function.iterate_succ_apply']
    exact TestRun.mayBecome_run ih _ _

/-! ### Cells -/

theorem Loader.sparesCells_inState (memory : Memory) (state : HostState) (steps : Nat) :
    SparesCells (·.inState memory state steps) where
  cells _ := rfl
  withCells _ _ := rfl
  generation _ := rfl
  address l name := address?_inState l memory state steps name

namespace Trampolines

variable {t : Trampolines} {l l' : Loader} {key name : String} {q : MutationPoint}

/-- The cell of a point's key holds the point's mutant, and all other cells preserved bodies. -/
structure Diverts (t : Trampolines) (l : Loader) (q : MutationPoint) : Prop where
  mutant : t.BoundTo l q.key q.identifier
  preserved : ∀ key ∈ t.keys, key ≠ q.key → t.BoundTo l key (SymbolName.preserved key)

/-- Calls do not reach the cells. -/
theorem BoundTo.mayBecome (h : t.BoundTo l key name) (hl : l.MayBecome l') :
    t.BoundTo l' key name := by
  obtain ⟨i, a, hlookup, ha, hlt, hcell⟩ := h
  refine ⟨i, a, hlookup, (hl.address?_eq name).trans ha, hlt, ?_⟩
  obtain ⟨_, _, _, _, -, -, rfl⟩ := hl
  exact hcell

theorem Rests.mayBecome (h : t.Rests l) (hl : l.MayBecome l') : t.Rests l' :=
  fun key hkey => (h key hkey).mayBecome hl

theorem Diverts.mayBecome (h : t.Diverts l q) (hl : l.MayBecome l') : t.Diverts l' q :=
  ⟨h.mutant.mayBecome hl, fun key hkey hne => (h.preserved key hkey hne).mayBecome hl⟩

/-- Binding leaves the image as it is. -/
theorem image_of_bind {a : Nat} (hbind : t.bind l key a = .ok l') : l'.image = l.image := by
  obtain ⟨-, -, -, -, rfl⟩ := bind_iff.mp hbind
  rfl

/-- A key that can be bound can be bound after calls, too. -/
theorem bindTo_of_mayBecome {m : Loader} (hbind : t.bindTo l key name = .ok m)
    (hl : l.MayBecome l') :
    ∃ m', t.bindTo l' key name = .ok m' ∧ m.MayBecome m' := by
  obtain ⟨image, memory, state, steps, himage, hsize, rfl⟩ := hl
  have himage' : m.image = some image := by
    obtain ⟨a, -, hbind⟩ := bindTo_eq_ok.mp hbind
    exact (image_of_bind hbind).trans himage
  refine ⟨m.inState memory state steps, ?_, image, memory, state, steps, himage', hsize, rfl⟩
  rw [bindTo_map (Loader.sparesCells_inState memory state steps), hbind]
  rfl

end Trampolines

namespace WorkerContext

variable {c : WorkerContext} {t : Trampolines} {l l' : Loader} {p : MutationPoint} {killed : Bool}
  {tests : List (String × Nat)}

/-! ### Tests -/

theorem mayBecome_callOf? {name : String} {call : SandboxCall} (hl : l.MayBecome l')
    (hcall : c.callOf? l' name = some call) : l.MayBecome call.loader := by
  obtain ⟨test, -, rfl⟩ := Option.map_eq_some_iff.mp hcall
  exact hl.setDeadline _

theorem mayBecome_runTest (hsandbox : c.sandbox.OnlyRuns) (hl : l.MayBecome l') (name : String) :
    l.MayBecome (c.runTest l' name).2 := by
  cases hcall : c.callOf? l' name with
  | none => rwa [runTest_of_callOf?_eq_none hcall]
  | some call =>
    rw [runTest_of_callOf? hcall]
    exact call.mayBecome_answer hsandbox (mayBecome_callOf? hl hcall)

/-- However the tests of a point end, they leave what calls may make of the loader. -/
theorem mayBecome_runTests (hsandbox : c.sandbox.OnlyRuns) (hl : l.MayBecome l') (p : MutationPoint)
    (killed : Bool) (tests : List (String × Nat)) :
    l.MayBecome (c.runTests p killed l' tests).2.1 := by
  induction tests generalizing killed l' with
  | nil => exact hl
  | cons entry rest ih =>
    obtain ⟨test, distance⟩ := entry
    have hran := mayBecome_runTest hsandbox hl test
    rw [runTests]
    split
    · exact ih hl killed
    · dsimp only
      split
      · exact hran
      · exact ih hran _

/-- The tests of a point are run in what calls may make of the loader. -/
theorem mayBecome_entriesOf (hsandbox : c.sandbox.OnlyRuns) (hl : l.MayBecome l') {e : HistoryEntry}
    (he : e ∈ c.entriesOf p killed l' tests) {call : SandboxCall} (hcall : e.call = some call) :
    l.MayBecome call.loader := by
  obtain ⟨l₁, name, hl₁, hcallOf, -⟩ := exists_callOf?_of_entriesOf (I := l.MayBecome)
    (fun _ name hl => mayBecome_runTest hsandbox hl name) hl he hcall
  exact mayBecome_callOf? hl₁ hcallOf

/-! ### Points -/

/-- A mutant that is bound in a loader that is set up diverts the calls
of its key, and only those. -/
theorem diverts_of_bindMutant (hsetup : c.setup = .ok (t, l)) (hbind : bindMutant t l p = .ok l') :
    t.Diverts l' p := by
  have hbound := (isSetUp_of_bindMutant (isSetUp_of_setup hsetup) hbind).boundTo
  simp only [← mem_keys_of_setup hsetup] at hbound
  obtain ⟨a, -, hbind⟩ := bindMutant_eq_ok.mp hbind
  constructor
  · simpa using hbound p.key (Trampolines.mem_keys_of_bind hbind)
  · intro key hkey hne
    simpa [hne] using hbound key hkey

/-- A mutant that can be bound after calls can be bound before them, too. -/
theorem bindMutant_of_mayBecome {m' : Loader} (hl : l.MayBecome l')
    (hbind : bindMutant t l' p = .ok m') : ∃ m, bindMutant t l p = .ok m ∧ m.MayBecome m' := by
  obtain ⟨image, memory, state, steps, himage, hsize, rfl⟩ := hl
  -- binding reads and writes no more than cells, so it may as well come before the calls
  rw [bindMutant_map (Loader.sparesCells_inState memory state steps)] at hbind
  cases hm : bindMutant t l p with
  | error e =>
    rw [hm] at hbind
    cases hbind
  | ok m =>
    rw [hm] at hbind
    obtain rfl := Except.ok.inj hbind
    obtain ⟨a, -, hm⟩ := bindMutant_eq_ok.mp hm
    exact ⟨m, rfl, image, memory, state, steps, (Trampolines.image_of_bind hm).trans himage,
      hsize, rfl⟩

/-- A point that is run finds its mutant bound whenever the sandbox is called, and leaves what calls
may make of the loader that was set up. -/
theorem pointHistory_of_mayBecome (hsandbox : c.sandbox.OnlyRuns) (hsetup : c.setup = .ok (t, l))
    (hl : l.MayBecome l') (p : MutationPoint) :
    (∀ call, (c.pointHistory t l' p).HasCall call → t.Diverts call.loader p) ∧
      l.MayBecome (c.runPoint t l' p).2.1 := by
  rw [runPoint]
  cases hbind : bindMutant t l' p with
  | error e =>
    refine ⟨?_, hl⟩
    rintro call ⟨entry, hentry, hcall⟩
    rw [pointHistory, hbind] at hentry
    obtain ⟨r, -, rfl⟩ := List.mem_map.mp hentry
    cases hcall
  | ok m' =>
    obtain ⟨m, hm, hmm'⟩ := bindMutant_of_mayBecome hl hbind
    refine ⟨?_, ?_⟩
    · rintro call ⟨entry, hentry, hcall⟩
      rw [pointHistory, hbind] at hentry
      exact (diverts_of_bindMutant hsetup hm).mayBecome
        (mayBecome_entriesOf hsandbox hmm' hentry hcall)
    · -- however the tests end, the preserved body is bound again
      have hrestore := rebind_of_bindMutant (rests_of_setup hsetup) hm
      obtain ⟨l₂, hl₂, hafter⟩ := Trampolines.bindTo_of_mayBecome hrestore
        (mayBecome_runTests hsandbox hmm' p false p.reachableTests)
      dsimp only
      rw [hl₂]
      exact hafter

/-- What a worker does with a slice has a history, of all points and of all calls of the sandbox.
Whenever the sandbox is called, the cell of the point's key holds the mutant and all others hold
preserved bodies, which all cells hold after each point that was run. -/
theorem diverts_history (hsandbox : c.sandbox.OnlyRuns) (hsetup : c.setup = .ok (t, l))
    (progress : Progress) (points : List MutationPoint) :
    c.IsHistory progress points (c.history points) ∧ ∀ h ∈ c.history points,
      (∀ call, h.HasCall call → t.Diverts call.loader h.point) ∧
        ∀ l', h.after = some l' → t.Rests l' := by
  refine ⟨isHistory_history c progress points, fun h hh => ?_⟩
  obtain ⟨image, -, himage, -⟩ := (isSetUp_of_setup hsetup).image
  refine forall_mem_history (I := fun t' l' => t' = t ∧ l.MayBecome l') (Q := fun h =>
    (∀ call, h.HasCall call → t.Diverts call.loader h.point) ∧ ∀ l', h.after = some l' → t.Rests l')
    ?_ ?_ ?_ hh
  · intro t' l' hsetup'
    obtain ⟨rfl, rfl⟩ := Prod.mk.inj (Except.ok.inj (hsetup'.symm.trans hsetup))
    exact ⟨rfl, Loader.mayBecome_self himage⟩
  · rintro t' l' p ⟨rfl, hl⟩
    obtain ⟨hcalls, hafter⟩ := pointHistory_of_mayBecome hsandbox hsetup hl p
    refine ⟨⟨hcalls, ?_⟩, rfl, hafter⟩
    rintro l₂ hl₂
    obtain rfl := Option.some.inj hl₂
    exact (rests_of_setup hsetup).mayBecome hafter
  · exact fun reason p => ⟨fun call hcall => absurd hcall not_hasCall_unrun, nofun⟩

end WorkerContext

/-! ### A worker whose tests run in place -/

/-- A worker whose tests run in its own image. -/
def doublingInPlace : WorkerContext := doublingContext.withSandbox (.ofIsolation .none)

/-- The sandbox is called for both points, each time with the mutant of the point in the cell. -/
theorem doublingInPlace_diverts : ∃ t l, doublingInPlace.setup = .ok (t, l) ∧
    (doublingInPlace.history doublingPoints).map (fun h => h.entries.map (·.call.isSome))
      = [[true], [true]] ∧
    doublingInPlace.IsHistory (.new 2) doublingPoints (doublingInPlace.history doublingPoints) ∧
    ∀ h ∈ doublingInPlace.history doublingPoints,
      (∀ call, h.HasCall call → t.Diverts call.loader h.point) ∧
        ∀ l', h.after = some l' → t.Rests l' := by
  have hready : doublingInPlace.setup.toOption.any (fun _ => true) = true := by decide +kernel
  obtain ⟨⟨t, l⟩, hsetup, -⟩ := exists_of_any hready
  exact ⟨t, l, hsetup, by decide +kernel, WorkerContext.diverts_history
    (Sandbox.onlyRuns_ofIsolation .none) hsetup (.new 2) doublingPoints⟩

end MutationAnalysis
