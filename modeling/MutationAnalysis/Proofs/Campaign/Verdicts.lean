/-
Workers that meet nothing invalid.

A worker whose programs can be linked is set up, and every name of a program has an address
in its image.  Whatever a test does to the image, addresses and cells are still there
afterwards (`WorkerContext.Serves`), so mutants are bound and taken back, tests find their
entries, and no result is invalid.

* `WorkerContext.IsReady.exists_setup`: a worker that is ready is set up;
* `WorkerContext.Serves.bindTo`, `WorkerContext.Serves.runTests`, `WorkerContext.Serves.runPoint`: a
  worker that serves goes on serving;
* `WorkerContext.IsReady.sliceResults`: what a worker that is ready records of its slice.
-/
import MutationAnalysis.Proofs.Campaign.Interleaving
import MutationAnalysis.Proofs.Campaign.Loaded
import MutationAnalysis.Proofs.Campaign.Worker
import MutationAnalysis.Proofs.Image.Programs
import MutationAnalysis.Proofs.TestRun.States

namespace MutationAnalysis

open Wasm

/-! ### Sandboxes -/

namespace Sandbox

variable {body : Loader → RunResult × Loader} {timeout : Duration} {l : Loader}

theorem forked_ne_invalid {r : RunResult} (h : TestRun.HasVerdict r) :
    (forked (bodyOfRun r)).status ≠ .invalid := by
  cases r with
  | outcome o =>
    obtain ⟨status, output⟩ := o
    cases status with
    | invalid => exact absurd rfl (h output)
    | passed | failed | crashed | timeout | failFast => exact nofun
  | processEnd code =>
    show (if code.toInt % 256 = 0 then Status.passed else .failed) ≠ .invalid
    split <;> exact nofun

/-- No sandbox makes a verdict invalid. -/
theorem ofIsolation_ne_invalid (i : Isolation) (h : TestRun.HasVerdict (body l).1)
    (hdeadline : TestRun.HasVerdict (body (l.setDeadline (some timeout))).1) :
    (ofIsolation i body timeout l).1.status ≠ .invalid := by
  cases i with
  | fork => exact forked_ne_invalid hdeadline
  | none =>
    show ((Sandbox.none body timeout l).1).status ≠ _
    rw [Sandbox.none]
    split
    · rename_i o after heq
      rw [heq] at h
      obtain ⟨status, output⟩ := o
      rintro rfl
      exact h output rfl
    · exact nofun

/-- A sandbox leaves what the body leaves, or nothing of it. -/
theorem ofIsolation_loader (i : Isolation) : (ofIsolation i body timeout l).2 = l ∨
    (ofIsolation i body timeout l).2 = (body l).2 := by
  cases i with
  | fork => exact .inl rfl
  | none =>
    refine .inr ?_
    show (Sandbox.none body timeout l).2 = _
    rw [Sandbox.none]
    split <;> rename_i heq <;> rw [heq]

end Sandbox

/-! ### Binding -/

namespace Trampolines

variable {t : Trampolines} {l : Loader} {key name : String} {a : Nat}

/-- A key of a live table can be bound to a function whose address fits in a word. -/
theorem exists_bind (hkey : key ∈ t.keys) (hlive : t.generation = some l.generation)
    (hlt : a < UInt32.size) : ∃ cells, t.bind l key a = .ok { l with cells } := by
  obtain ⟨i, hi⟩ := Option.isSome_iff_exists.mp (lookup_isSome.mpr hkey)
  refine ⟨_, bind_iff.mpr ⟨i, hi, ?_, hlt, rfl⟩⟩
  rw [requireLive, hlive]
  exact if_pos rfl

theorem exists_bindTo (hkey : key ∈ t.keys) (hlive : t.generation = some l.generation)
    (ha : l.address? name = some a) (hlt : a < UInt32.size) :
    ∃ cells, t.bindTo l key name = .ok { l with cells } := by
  rw [bindTo, ha]
  exact exists_bind hkey hlive hlt

/-- The keys of a live table can all be bound if their preserved bodies have addresses. -/
theorem exists_bindPreservedOf {keys : List String} (hkeys : keys ⊆ t.keys)
    (hlive : t.generation = some l.generation)
    (ha : ∀ key ∈ keys, ∃ a, l.address? (SymbolName.preserved key) = some a ∧ a < UInt32.size) :
    ∃ cells, t.bindPreservedOf l keys = ({ l with cells }, .ok ()) := by
  induction keys generalizing l with
  | nil => exact ⟨l.cells, rfl⟩
  | cons key rest ih =>
    rw [List.cons_subset] at hkeys
    rw [List.forall_mem_cons] at ha
    obtain ⟨⟨a, ha, hlt⟩, hrest⟩ := ha
    obtain ⟨cells, hbind⟩ := exists_bindTo hkeys.1 hlive ha hlt
    rw [bindPreservedOf, hbind]
    exact ih (l := { l with cells }) hkeys.2 hlive hrest

end Trampolines

namespace WorkerContext

variable {c : WorkerContext} {programs : List Program} {t : Trampolines} {l l' : Loader}

/-! ### The set-up -/

/-- A worker whose programs can be linked and have a preserved body for every key. -/
structure IsReady (c : WorkerContext) (programs : List Program) : Prop where
  objects : Image.Represent false programs c.objects
  links : Image.CanLink c.loader.memoryPages c.keys programs
  valid : ∀ p ∈ programs, p.IsValid
  preserved : ∀ key ∈ c.keys, SymbolName.preserved key ∈ programs.flatMap Program.names
  room : (programs.flatMap Program.names).length + Resolver.offered.length < UInt32.size

/-- A worker that has all names of programs in its image, and the cells of its keys. -/
structure Serves (c : WorkerContext) (programs : List Program) (t : Trampolines) (l : Loader) :
    Prop where
  live : t.generation = some l.generation
  keys : ∀ key ∈ c.keys, key ∈ t.keys
  address : ∀ name ∈ programs.flatMap Program.names, ∃ a, l.address? name = some a ∧ a < UInt32.size
  canRun : ∀ test : Test, test.HasEntry programs →
    TestRun.CanRun l TestRun.defaultProgramName test
  room : ∃ image, l.image = some image ∧ (programs ≠ [] → pageSize ≤ image.memory.size)

namespace Serves

variable (h : c.Serves programs t l)

include h

/-- What the cells hold does not matter. -/
theorem withCells (cells : Array Word) : c.Serves programs t { l with cells } where
  live := h.live
  keys := h.keys
  address := h.address
  canRun := fun test hentry => by
    obtain ⟨a, ref, type, ha, href, htype, hparams⟩ := h.canRun test hentry
    refine ⟨a, ref, type, ha, href, ?_, hparams⟩
    rw [← htype, Loader.type?, Loader.type?]
    rfl
  room := h.room

/-- Calls leave a worker that serves. -/
theorem mayBecome (hl : l.MayBecome l') : c.Serves programs t l' where
  live := h.live.trans (congrArg some hl.generation_eq.symm)
  keys := h.keys
  address := fun name hname => by
    rw [hl.address?_eq]
    exact h.address name hname
  canRun := fun test hentry => (TestRun.canRun_iff_of_mayBecome hl).mpr (h.canRun test hentry)
  room := by
    obtain ⟨image, image', himage, himage', hsize⟩ := hl.exists_image
    obtain ⟨image₀, himage₀, hroom⟩ := h.room
    obtain rfl := Option.some.inj (himage.symm.trans himage₀)
    exact ⟨image', himage', fun hne => hsize ▸ hroom hne⟩

end Serves

/-- A linked image has an address for each name. -/
theorem serves_of_link {image : Image} (h : c.IsReady programs)
    (hkeys : ∀ key ∈ c.keys, key ∈ t.keys) (hlive : t.generation = some l.generation)
    (hlink : Image.link c.loader.memoryPages l.generation c.objects (Resolver.withCells t)
      = .ok image)
    (himage : l.image = some image) : c.Serves programs t l := by
  obtain ⟨natives, hlinked⟩ := Image.isLinked_of_link hlink
  refine ⟨hlive, hkeys, fun name hname => ?_,
    fun test hentry => (hlinked.canRun_iff h.objects himage test).mpr hentry, image, himage, ?_⟩
  · obtain ⟨i, hi⟩ := List.mem_iff_getElem?.mp hname
    have hlt := (List.getElem?_eq_some_iff.mp hi).1
    have hroom := h.room
    refine ⟨i + 1, ?_, by omega⟩
    rw [Loader.address?_of_image himage, Image.address?, hlinked.symbols,
      Image.names_of_represent h.objects]
    exact (Linking.lookup_zipIdx_eq_some h.links.names_nodup).mpr ⟨Nat.le_add_left 1 i, hi⟩
  · intro hne
    rw [hlinked.memory, Memory.size_blank]
    exact Nat.le_mul_of_pos_left _ (h.links.pages_pos hne)

/-- A worker that is ready is set up, and serves. -/
theorem IsReady.exists_setup (h : c.IsReady programs) :
    ∃ t l, c.setup = .ok (t, l) ∧ c.Serves programs t l := by
  obtain ⟨⟨t, l₀⟩, hallocate⟩ :
      ∃ r, Trampolines.empty.allocate (.new c.loader) c.keys = .ok r := ⟨_, rfl⟩
  obtain ⟨-, hgeneration, hloader, hkeys⟩ := Trampolines.numbers_of_allocate hallocate
  obtain ⟨image, hlink⟩ :=
    h.links.exists_link h.objects h.valid (fun key hkey => (hkeys key).mpr hkey)
    hgeneration h.room
  have hserves : c.Serves programs t { l₀ with host := l₀.host.resetRun, image := some image } :=
    serves_of_link h (fun key hkey => (hkeys key).mpr hkey) hgeneration hlink rfl
  obtain ⟨cells, hbind⟩ := Trampolines.exists_bindPreservedOf (List.Subset.refl t.keys)
    hserves.live fun key hkey => hserves.address _ (h.preserved key ((hkeys key).mp hkey))
  exact ⟨t, _, WorkerContext.setup_eq_ok.mpr ⟨l₀, image, hallocate, hlink, hbind⟩,
    hserves.withCells cells⟩

/-! ### Points -/

/-- A point with a cell and a mutant, all of whose tests have entries. -/
structure Suits (c : WorkerContext) (programs : List Program) (p : MutationPoint) : Prop where
  key : p.key ∈ c.keys
  preserved : SymbolName.preserved p.key ∈ programs.flatMap Program.names
  identifier : p.identifier ∈ programs.flatMap Program.names
  tests : ∀ e ∈ p.reachableTests, ∃ test, c.test? e.1 = some test ∧ test.HasEntry programs

/-- What is found under a name is a test of that name. -/
theorem mem_tests_of_test? {name : String} {test : Test} (h : c.test? name = some test) :
    test ∈ c.tests ∧ test.name = name :=
  ⟨List.mem_reverse.mp (List.mem_of_find?_eq_some h), by simpa using List.find?_some h⟩

/-- A test of the worker is found under its name, or another one of that name. -/
theorem exists_test? (c : WorkerContext) {test : Test} (h : test ∈ c.tests) :
    ∃ found ∈ c.tests, c.test? test.name = some found := by
  cases hfind : c.test? test.name with
  | none => exact absurd (List.find?_eq_none.mp hfind test (List.mem_reverse.mpr h)) (by simp)
  | some found => exact ⟨found, (mem_tests_of_test? hfind).1, rfl⟩

namespace Serves

variable {i : Isolation} {p : MutationPoint}

theorem bindTo (h : c.Serves programs t l) {key name : String} (hkey : key ∈ c.keys)
    (hname : name ∈ programs.flatMap Program.names) :
    ∃ l', t.bindTo l key name = .ok l' ∧ c.Serves programs t l' := by
  obtain ⟨a, ha, hlt⟩ := h.address name hname
  obtain ⟨cells, hbind⟩ := Trampolines.exists_bindTo (h.keys key hkey) h.live ha hlt
  exact ⟨_, hbind, h.withCells cells⟩

/-- The mutant of a point can be bound. -/
theorem bindMutant (h : c.Serves programs t l) (hp : c.Suits programs p) :
    ∃ l', WorkerContext.bindMutant t l p = .ok l' ∧ c.Serves programs t l' := by
  obtain ⟨a, ha, hlt⟩ := h.address p.identifier hp.identifier
  obtain ⟨cells, hbind⟩ := Trampolines.exists_bind (h.keys p.key hp.key) h.live hlt
  refine ⟨_, ?_, h.withCells cells⟩
  rw [WorkerContext.bindMutant, ha]
  exact hbind

/-- A test with an entry has a verdict, in whatever sandbox. -/
theorem runTest (h : c.Serves programs t l) (hsandbox : c.sandbox = .ofIsolation i) {name : String}
    {test : Test} (htest : c.test? name = some test) (hentry : test.HasEntry programs) :
    (c.runTest l name).1.status ≠ .invalid ∧ c.Serves programs t (c.runTest l name).2 := by
  obtain ⟨image, himage, hroom⟩ := h.room
  -- a program was linked, so there is a page for the arguments
  have hne : programs ≠ [] := by
    obtain ⟨p, hp, -⟩ := hentry
    exact List.ne_nil_of_mem hp
  rw [WorkerContext.runTest, htest, hsandbox]
  dsimp only
  generalize c.config.testTimeout test.baselineTime = timeout
  have hstart := (Loader.mayBecome_self himage).setDeadline (some timeout)
  have hverdict := TestRun.hasVerdict_of_canRun ((l.image_setDeadline _).trans himage) (hroom hne)
    ((h.mayBecome hstart).canRun test hentry)
  refine ⟨Sandbox.ofIsolation_ne_invalid i hverdict ?_, ?_⟩
  · rw [Loader.setDeadline_setDeadline]
    exact hverdict
  rcases Sandbox.ofIsolation_loader i with heq | heq <;> rw [heq]
  · exact h.mayBecome hstart
  · exact h.mayBecome (TestRun.mayBecome_run hstart _ test)

/-- Tests with entries all have verdicts. -/
theorem runTests (h : c.Serves programs t l) (hsandbox : c.sandbox = .ofIsolation i)
    (p : MutationPoint) (killed : Bool) {tests : List (String × Nat)}
    (htests : ∀ e ∈ tests, ∃ test, c.test? e.1 = some test ∧ test.HasEntry programs) :
    ∃ results l', c.runTests p killed l tests = (results, l', .ok ()) ∧
      (∀ r ∈ results, r.execution.status ≠ .invalid) ∧ c.Serves programs t l' := by
  induction tests generalizing killed l with
  | nil => exact ⟨[], l, rfl, by simp, h⟩
  | cons e rest ih =>
    obtain ⟨name, distance⟩ := e
    rw [List.forall_mem_cons] at htests
    obtain ⟨⟨test, htest, hentry⟩, hrest⟩ := htests
    rw [WorkerContext.runTests]
    split
    · -- the test is saved, and the loader stays as it is
      obtain ⟨results, l', hrun, hvalid, hserves⟩ := ih h killed hrest
      rw [hrun]
      exact ⟨_, l', rfl, List.forall_mem_cons.mpr ⟨by simp [Execution.failFast], hvalid⟩, hserves⟩
    · obtain ⟨hstatus, hserves⟩ := h.runTest hsandbox htest hentry
      obtain ⟨results, l', hrun, hvalid, hserves'⟩ :=
        ih hserves (killed || (c.runTest l name).1.status.kills) hrest
      dsimp only
      rw [if_neg hstatus, hrun]
      exact ⟨_, l', rfl, List.forall_mem_cons.mpr ⟨hstatus, hvalid⟩, hserves'⟩

/-- A point's mutant is bound, its tests have verdicts, and the mutant is taken back. -/
theorem runPoint (h : c.Serves programs t l) (hsandbox : c.sandbox = .ofIsolation i)
    (hp : c.Suits programs p) : ∃ results l', c.runPoint t l p = (results, l', .ok ()) ∧
      (∀ r ∈ results, r.execution.status ≠ .invalid) ∧ c.Serves programs t l' := by
  obtain ⟨l₁, hbind, h₁⟩ := h.bindMutant hp
  obtain ⟨results, l₂, hrun, hvalid, h₂⟩ := h₁.runTests hsandbox p false hp.tests
  obtain ⟨l₃, hrestore, h₃⟩ := h₂.bindTo hp.key hp.preserved
  refine ⟨results, l₃, ?_, hvalid, h₃⟩
  rw [WorkerContext.runPoint, hbind]
  dsimp only
  rw [hrun]
  dsimp only
  rw [hrestore]

theorem runPoints (h : c.Serves programs t l) (hsandbox : c.sandbox = .ofIsolation i)
    (progress : Progress) {points : List MutationPoint}
    (hpoints : ∀ p ∈ points, c.Suits programs p) :
    ∀ r ∈ (c.runPoints t l progress points).1, r.execution.status ≠ .invalid := by
  induction points generalizing l progress with
  | nil => simp [WorkerContext.runPoints]
  | cons p rest ih =>
    rw [List.forall_mem_cons] at hpoints
    obtain ⟨results, l', hrun, hvalid, hserves⟩ := h.runPoint hsandbox hpoints.1
    rw [runPoints_ok hrun]
    exact List.forall_mem_append.mpr ⟨hvalid, ih hserves progress.increment hpoints.2⟩

end Serves

/-- No result of a worker that is ready is invalid. -/
theorem IsReady.sliceResults {i : Isolation} (h : c.IsReady programs)
    (hsandbox : c.sandbox = .ofIsolation i) {slice : List MutationPoint}
    (hslice : ∀ p ∈ slice, c.Suits programs p) :
    ∀ r ∈ c.sliceResults slice, r.execution.status ≠ .invalid := by
  obtain ⟨t, l, hsetup, hserves⟩ := h.exists_setup
  rw [WorkerContext.sliceResults, execute, hsetup]
  exact hserves.runPoints hsandbox _ hslice

/-- However many workers there are, and however their steps come, no result is invalid. -/
theorem IsReady.mayEnd {i : Isolation} (h : c.IsReady programs)
    (hsandbox : c.sandbox = .ofIsolation i) {points : List MutationPoint}
    (hpoints : ∀ p ∈ points, c.Suits programs p) {progress : Progress} {workers : Nat}
    {outcome : List MutationResult × Progress} (hend : c.MayEnd progress workers points outcome) :
    ∀ r ∈ outcome.1, r.execution.status ≠ .invalid := by
  obtain ⟨order, hperm, rfl⟩ := hend.exists_order
  intro r hr
  obtain ⟨slice, hslice, hr⟩ := List.mem_flatMap.mp hr
  refine h.sliceResults hsandbox (fun p hp => hpoints p ?_) r hr
  rw [← flatten_slices workers points]
  exact List.mem_flatten.mpr ⟨slice, hperm.subset hslice, hp⟩

end WorkerContext

end MutationAnalysis
