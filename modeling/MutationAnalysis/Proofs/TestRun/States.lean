/-
What a run of a test leaves of a loader, and when it has a verdict.

A run changes the memory, the state of the host and the steps that are left, and the memory keeps
its size (`Loader.MayBecome`); all else stays as it was loaded.  A test that finds its entry, and
room for its arguments, has a verdict: what is invalid is known before any code runs.

* `TestRun.mayBecome_run`: what a run leaves of a loader;
* `TestRun.canRun_of_hasVerdict`, `TestRun.hasVerdict_of_canRun`: a test has a verdict exactly if
  its entry is there and its arguments fit.
-/
import MutationAnalysis.Proofs.Binary.Codec
import MutationAnalysis.Proofs.Image.Calls
import MutationAnalysis.Proofs.Wasm.Memory
import MutationAnalysis.Proofs.Wasm.Preservation
import MutationAnalysis.TestRun.Runner

namespace MutationAnalysis

open Wasm

/-! ### Loaders -/

/-- The host's functions leave the memory alone. -/
theorem Native.keeps_size (n : Native) (arguments : List Word) (memory : Memory) (state : HostState)
    (size : Nat) (h : memory.size = size) :
    (Native.host.call n arguments memory state).Keeps (fun m _ => m.size = size)
    (fun _ => True) := by
  cases n <;> rcases arguments with _ | ⟨a, _ | ⟨b, _ | ⟨c, _ | ⟨d, rest⟩⟩⟩⟩ <;>
    first
    | exact h
    | exact ⟨h, trivial⟩

/-- Calls keep the size of the memory. -/
theorem Image.size_call (image : Image) (cells : Array Word) (maxDepth steps : Nat)
    (ref : FuncRef Native) (arguments : List Word) (memory : Memory) (state : HostState) :
    ((image.linkage cells maxDepth).call steps ref arguments memory state).memory.size
      = memory.size := by
  have hkeeps :
      (image.linkage cells maxDepth).Keeps (fun m _ => m.size = memory.size) fun _ => True :=
    ⟨fun n _ arguments m state h => n.keeps_size arguments m state memory.size h,
      fun m _ address value h => (m.size_putWord address value).trans h⟩
  have hhost : ∀ n, ref = .host n → ((image.linkage cells maxDepth).host.call n arguments memory
      state).Keeps (fun m _ => m.size = memory.size) fun _ => True :=
    fun n _ => n.keeps_size arguments memory state memory.size rfl
  exact (Linkage.keeps_call hkeeps rfl hhost steps).1

namespace Loader

variable {l l' l'' : Loader} {image : Image}

theorem image_setDeadline (l : Loader) (timeout : Option Duration) :
    (l.setDeadline timeout).image = l.image := by
  rw [setDeadline]

/-- The last deadline counts. -/
theorem setDeadline_setDeadline (l : Loader) (timeout timeout' : Option Duration) :
    (l.setDeadline timeout).setDeadline timeout' = l.setDeadline timeout' := by
  simp only [setDeadline]

/-- What calls may make of a loader that holds an image: the memory keeps its size. -/
def MayBecome (l l' : Loader) : Prop :=
  ∃ image memory state steps, l.image = some image ∧ memory.size = image.memory.size ∧
    l' = l.inState memory state steps

theorem mayBecome_self (himage : l.image = some image) : l.MayBecome l :=
  ⟨image, image.memory, l.host, l.stepsLeft, himage, rfl, (inState_self himage).symm⟩

namespace MayBecome

variable (h : l.MayBecome l')

include h

/-- The image that is left has a memory of the same size. -/
theorem exists_image : ∃ image image', l.image = some image ∧ l'.image = some image' ∧
    image'.memory.size = image.memory.size := by
  obtain ⟨image, memory, state, steps, himage, hsize, rfl⟩ := h
  refine ⟨image, { image with memory }, himage, ?_, hsize⟩
  show l.image.map _ = _
  rw [himage]
  rfl

theorem trans (h' : l'.MayBecome l'') : l.MayBecome l'' := by
  obtain ⟨image, image', himage, himage', hsize⟩ := h.exists_image
  obtain ⟨_, memory, state, steps, -, -, rfl⟩ := h
  obtain ⟨image'', memory', state', steps', himage'', hsize', rfl⟩ := h'
  obtain rfl := Option.some.inj (himage'.symm.trans himage'')
  exact ⟨image, memory', state', steps', himage, hsize'.trans hsize, inState_inState _ _ _⟩

/-- Nothing else than memory, host and steps changes. -/
theorem address?_eq (name : String) : l'.address? name = l.address? name := by
  obtain ⟨_, _, _, _, -, -, rfl⟩ := h
  exact address?_inState ..

theorem function?_eq (a : Nat) : l'.function? a = l.function? a := by
  obtain ⟨_, _, _, _, -, -, rfl⟩ := h
  exact function?_inState ..

theorem type?_eq (ref : FuncRef Native) : l'.type? ref = l.type? ref := by
  obtain ⟨_, _, _, _, -, -, rfl⟩ := h
  exact type?_inState ..

theorem generation_eq : l'.generation = l.generation := by
  obtain ⟨_, _, _, _, -, -, rfl⟩ := h
  rfl

/-- The state of the host does not matter. -/
theorem withHost (state : HostState) : l.MayBecome { l' with host := state } := by
  obtain ⟨image, memory, _, steps, himage, hsize, rfl⟩ := h
  exact ⟨image, memory, state, steps, himage, hsize, rfl⟩

theorem mapHost (f : HostState → HostState) : l.MayBecome (l'.mapHost f) := h.withHost _

theorem setDeadline (timeout : Option Duration) : l.MayBecome (l'.setDeadline timeout) := by
  obtain ⟨image, memory, state, _, himage, hsize, rfl⟩ := h
  exact ⟨image, memory, state, _, himage, hsize, rfl⟩

theorem call (ref : FuncRef Native) (arguments : List Word) :
    l.MayBecome (l'.call ref arguments).2 := by
  obtain ⟨image, memory, state, steps, himage, hsize, rfl⟩ := h
  rw [call_inState himage]
  exact ⟨image, _, _, _, himage, (image.size_call _ _ _ _ _ _ _).trans hsize, rfl⟩

end MayBecome

end Loader

/-! ### Arguments -/

namespace Arguments

theorem length_pointers (next : Nat) (arguments : List String) :
    (pointers next arguments).length = arguments.length := by
  induction arguments generalizing next with
  | nil => rfl
  | cons a rest ih => rw [pointers, List.length_cons, ih, List.length_cons]

theorem length_flatMap_argumentBytes (arguments : List String) :
    (arguments.flatMap argumentBytes).length = stringsSize arguments := by
  induction arguments with
  | nil => rfl
  | cons a rest ih =>
    rw [List.flatMap_cons, List.length_append, ih, stringsSize, argumentBytes, List.length_append,
      Binary.length_utf8]
    rfl

theorem length_words (words : List Nat) :
    (words.flatMap (Binary.bytesOfNat 4)).length = words.length * 4 := by
  induction words with
  | nil => rfl
  | cons w rest ih =>
    have hword : (Binary.bytesOfNat 4 w).length = 4 := rfl
    rw [List.flatMap_cons, List.length_append, hword, ih, List.length_cons]
    omega

/-- What is laid out fits in the area. -/
theorem length_le_of_layout? {arguments : List String} {bytes : List UInt8}
    (h : layout? arguments = some bytes) : bytes.length ≤ argumentAreaSize := by
  rw [layout?] at h
  split at h
  · cases h
  · rename_i hfits
    obtain rfl := Option.some.inj h
    rw [List.length_append, length_flatMap_argumentBytes, length_words, List.length_append,
      length_pointers]
    rw [tableSize] at hfits
    simp only [List.length_singleton]
    omega

end Arguments

namespace TestRun

variable {l l' : Loader} {programName : String} {test : Test}

/-! ### What a run leaves -/

theorem mayBecome_callAddress (h : l.MayBecome l') (address : Nat) (argument : Option Word) :
    l.MayBecome (callAddress l' address argument).2 := by
  rw [callAddress]
  split
  · exact h
  · rename_i ref _
    split
    · have hcall := h.call ref argument.toList
      generalize l'.call ref argument.toList = called at hcall ⊢
      obtain ⟨e, l''⟩ := called
      cases e <;> exact hcall
    · exact h

theorem mayBecome_callConstructors (h : l.MayBecome l') (addresses : List Nat) :
    l.MayBecome (callConstructors l' addresses).2 := by
  induction addresses generalizing l' with
  | nil => exact h
  | cons address rest ih =>
    have hcall := mayBecome_callAddress h address none
    rw [callConstructors]
    generalize callAddress l' address none = called at hcall ⊢
    obtain ⟨o, l''⟩ := called
    cases o with
    | none => exact ih hcall
    | some e => exact hcall

theorem mayBecome_callDestructors (h : l.MayBecome l') (destructors : List Destructor) :
    l.MayBecome (callDestructors l' destructors).2 := by
  induction destructors generalizing l' with
  | nil => exact h
  | cons d rest ih =>
    have hcall := mayBecome_callAddress h d.function d.argument
    rw [callDestructors]
    generalize callAddress l' d.function d.argument = called at hcall ⊢
    obtain ⟨o, l''⟩ := called
    cases o with
    | none => exact ih hcall
    | some e => exact hcall

theorem mayBecome_finish (h : l.MayBecome l') (e : RunEnd) : l.MayBecome (finish l' e).2 := by
  have hpending := mayBecome_callDestructors (h.mapHost fun s => { s with destructors := [] })
    l'.host.destructors
  unfold finish
  split
  · exact h
  · exact h
  · exact h
  · dsimp only
    split <;> rename_i hcalled <;> rw [hcalled] at hpending <;> exact hpending

theorem mayBecome_callEntry (h : l.MayBecome l') (ref : FuncRef Native) (arguments : List Word) :
    l.MayBecome (callEntry l' ref arguments).2 := by
  have hcall := h.call ref arguments
  rw [callEntry]
  generalize l'.call ref arguments = called at hcall ⊢
  obtain ⟨e, l''⟩ := called
  cases e with
  | returned results => cases results <;> exact hcall
  | trapped | raised | stuck => exact hcall

theorem mayBecome_execute (h : l.MayBecome l') (ref : FuncRef Native) (arguments : List Word) :
    l.MayBecome (execute l' ref arguments).2 := by
  have hcall := mayBecome_callConstructors h l'.constructors
  rw [execute]
  generalize callConstructors l' l'.constructors = called at hcall ⊢
  obtain ⟨o, l''⟩ := called
  cases o with
  | none => exact mayBecome_finish (mayBecome_callEntry hcall ref arguments) _
  | some e => exact mayBecome_finish hcall e

theorem mayBecome_conclude (h : l.MayBecome l') (e : RunEnd) : l.MayBecome (conclude e l').2 := by
  cases e with
  | processEnd code => exact h
  | status s => exact h.withHost _

/-! ### Entries -/

/-- A test finds its entry in a loader, and its arguments fit if the entry takes any. -/
def CanRun (l : Loader) (programName : String) (test : Test) : Prop :=
  ∃ a ref type, l.address? test.entry = some a ∧ l.function? a = some ref ∧
    l.type? ref = some type ∧
    (type.params = 0 ∨
      (type.params = 2 ∧ ∃ bytes, Arguments.layout? (programName :: test.arguments) = some bytes))

theorem canRun_iff_of_mayBecome (h : l.MayBecome l') :
    CanRun l' programName test ↔ CanRun l programName test := by
  simp only [CanRun, h.address?_eq, h.function?_eq, h.type?_eq]

theorem writeArguments_eq_ok {count : Nat} {l'' : Loader} :
    writeArguments l programName test = .ok (count, l'') ↔ ∃ bytes image memory,
      Arguments.layout? (programName :: test.arguments) = some bytes ∧ l.image = some image ∧
        image.memory.write? argumentArea bytes = some memory ∧
        count = (programName :: test.arguments).length ∧ l'' = l.setMemory memory := by
  rw [writeArguments]
  cases hbytes : Arguments.layout? (programName :: test.arguments) with
  | none => simp
  | some bytes =>
    cases himage : l.image with
    | none => simp
    | some image =>
      cases hmemory : image.memory.write? argumentArea bytes with
      | none => simp [hmemory]
      | some memory => simp [hmemory, pure, Except.pure, eq_comm]

/-- An entry takes nothing, or the number of arguments and where they are in memory. -/
theorem prepareEntry_eq_ok {ref : FuncRef Native} {arguments : List Word} {l'' : Loader} :
    prepareEntry l programName test = .ok (ref, arguments, l'') ↔
      ∃ a type, l.address? test.entry = some a ∧ l.function? a = some ref ∧
        l.type? ref = some type ∧
        ((type.params = 0 ∧ arguments = [] ∧ l'' = l) ∨
          (type.params = 2 ∧ ∃ count, writeArguments l programName test = .ok (count, l'') ∧
            arguments = [UInt32.ofNat count, UInt32.ofNat argumentArea])) := by
  constructor
  · intro h
    -- the entry is found, and takes nothing or two words
    cases hfound : (l.address? test.entry).bind l.function? with
    | none => simp [prepareEntry, hfound] at h
    | some ref' =>
      obtain ⟨a, ha, href⟩ := Option.bind_eq_some_iff.mp hfound
      cases htype : l.type? ref' with
      | none => simp [prepareEntry, hfound, htype] at h
      | some type =>
        simp only [prepareEntry, hfound, htype, Option.map_some] at h
        generalize hparams : type.params = params at h
        split at h
        · rename_i hzero
          obtain ⟨rfl, hrest⟩ := Prod.mk.inj (Except.ok.inj h)
          obtain ⟨rfl, rfl⟩ := Prod.mk.inj hrest
          exact ⟨a, type, ha, href, htype, .inl ⟨hparams.trans (Option.some.inj hzero), rfl, rfl⟩⟩
        · rename_i htwo
          obtain ⟨⟨count, l₁⟩, hwrite, h⟩ := bind_eq_ok.mp h
          obtain ⟨rfl, hrest⟩ := Prod.mk.inj (Except.ok.inj h)
          obtain ⟨rfl, rfl⟩ := Prod.mk.inj hrest
          exact ⟨a, type, ha, href, htype,
            .inr ⟨hparams.trans (Option.some.inj htwo), count, hwrite, rfl⟩⟩
        · cases h
  · rintro ⟨a, type, ha, href, htype, hparams⟩
    have hfound : (l.address? test.entry).bind l.function? = some ref := by
      rw [ha, Option.bind_some, href]
    simp only [prepareEntry, hfound, htype, Option.map_some]
    rcases hparams with ⟨hzero, rfl, rfl⟩ | ⟨htwo, count, hwrite, rfl⟩
    · rw [hzero]
      rfl
    · rw [htwo]
      exact bind_eq_ok.mpr ⟨_, hwrite, rfl⟩

/-- A test whose entry is there, and whose arguments fit, can be run in a memory of one page. -/
theorem exists_prepareEntry {image : Image} (himage : l.image = some image)
    (hroom : pageSize ≤ image.memory.size) (h : CanRun l programName test) :
    ∃ r, prepareEntry l programName test = .ok r := by
  obtain ⟨a, ref, type, ha, href, htype, hzero | ⟨htwo, bytes, hbytes⟩⟩ := h
  · exact ⟨_, prepareEntry_eq_ok.mpr ⟨a, type, ha, href, htype, .inl ⟨hzero, rfl, rfl⟩⟩⟩
  · have hlength := Arguments.length_le_of_layout? hbytes
    have hfits : argumentArea + argumentAreaSize ≤ pageSize := by decide
    obtain ⟨memory, hmemory⟩ : ∃ memory, image.memory.write? argumentArea bytes = some memory :=
      ⟨_, Memory.write?_eq_some.mpr ⟨by omega, rfl⟩⟩
    have hwrite := writeArguments_eq_ok.mpr ⟨bytes, image, memory, hbytes, himage,
      hmemory, rfl, rfl⟩
    exact ⟨_, prepareEntry_eq_ok.mpr ⟨a, type, ha, href, htype, .inr ⟨htwo, _, hwrite, rfl⟩⟩⟩

theorem canRun_of_prepareEntry {r : FuncRef Native × List Word × Loader}
    (h : prepareEntry l programName test = .ok r) : CanRun l programName test := by
  obtain ⟨ref, arguments, l''⟩ := r
  obtain ⟨a, type, ha, href, htype, ⟨hzero, -⟩ | ⟨htwo, count, hwrite, -⟩⟩ :=
    prepareEntry_eq_ok.mp h
  · exact ⟨a, ref, type, ha, href, htype, .inl hzero⟩
  · obtain ⟨bytes, -, -, hbytes, -⟩ := writeArguments_eq_ok.mp hwrite
    exact ⟨a, ref, type, ha, href, htype, .inr ⟨htwo, bytes, hbytes⟩⟩

theorem mayBecome_prepareEntry (h : l.MayBecome l') {ref : FuncRef Native} {arguments : List Word}
    {l'' : Loader} (hprepare : prepareEntry l' programName test = .ok (ref, arguments, l'')) :
    l.MayBecome l'' := by
  obtain ⟨a, type, -, -, -, ⟨-, -, rfl⟩ | ⟨-, count, hwrite, -⟩⟩ := prepareEntry_eq_ok.mp hprepare
  · exact h
  · obtain ⟨bytes, image', memory, -, himage', hmemory, -, rfl⟩ := writeArguments_eq_ok.mp hwrite
    exact h.trans ⟨image', memory, l'.host, l'.stepsLeft, himage',
      Memory.size_of_write? hmemory, rfl⟩

/-- A run leaves the loader as it was loaded. -/
theorem mayBecome_run (h : l.MayBecome l') (programName : String) (test : Test) :
    l.MayBecome (run programName l' test).2 := by
  have hreset := h.mapHost HostState.resetRun
  rw [run]
  split
  · dsimp only
    split
    · exact hreset
    · rename_i ref arguments l'' hprepare
      exact mayBecome_conclude (mayBecome_execute (mayBecome_prepareEntry hreset hprepare) _ _) _
  · exact h

/-! ### Verdicts -/

/-- A result that is not invalid. -/
def HasVerdict (r : RunResult) : Prop := ∀ output, r ≠ .outcome ⟨.invalid, output⟩

/-- An end that says how a run went. -/
def IsVerdict (e : RunEnd) : Prop := e ≠ .status .invalid ∧ e ≠ .status .failFast

theorem isVerdict_of_code (code : Int32) :
    IsVerdict (.status (if code = 0 then .passed else .failed)) := by
  split <;> exact ⟨nofun, nofun⟩

theorem endOfFailure_isVerdict (e : Ending) : IsVerdict (endOfFailure e) := by
  cases e with
  | returned | stuck => exact ⟨nofun, nofun⟩
  | trapped trap => cases trap <;> exact ⟨nofun, nofun⟩
  | raised signal =>
    cases signal with
    | exit code => exact isVerdict_of_code code
    | failure | endProcess => exact ⟨nofun, nofun⟩

theorem callAddress_isVerdict {address : Nat} {argument : Option Word} {e : RunEnd}
    (h : callAddress l address argument = (some e, l')) : IsVerdict e := by
  rw [callAddress] at h
  split at h
  · obtain rfl := Option.some.inj (Prod.mk.inj h).1
    exact ⟨nofun, nofun⟩
  · split at h
    · split at h
      · cases h
      · obtain rfl := Option.some.inj (Prod.mk.inj h).1
        exact endOfFailure_isVerdict _
    · obtain rfl := Option.some.inj (Prod.mk.inj h).1
      exact ⟨nofun, nofun⟩

theorem callConstructors_isVerdict {addresses : List Nat} {e : RunEnd}
    (h : callConstructors l addresses = (some e, l')) : IsVerdict e := by
  induction addresses generalizing l with
  | nil => cases h
  | cons address rest ih =>
    rw [callConstructors] at h
    split at h
    · exact ih h
    · rename_i e' l'' heq
      obtain ⟨he, -⟩ := Prod.mk.inj h
      rw [he] at heq
      exact callAddress_isVerdict heq

theorem callDestructors_isVerdict {destructors : List Destructor} {e : RunEnd}
    (h : callDestructors l destructors = (some e, l')) : IsVerdict e := by
  induction destructors generalizing l with
  | nil => cases h
  | cons d rest ih =>
    rw [callDestructors] at h
    split at h
    · exact ih h
    · rename_i e' l'' heq
      obtain ⟨he, -⟩ := Prod.mk.inj h
      rw [he] at heq
      exact callAddress_isVerdict heq

theorem finish_isVerdict (l : Loader) {e : RunEnd} (he : IsVerdict e) :
    IsVerdict (finish l e).1 := by
  unfold finish
  split
  · exact he
  · exact he
  · exact he
  · dsimp only
    split
    · exact he
    · rename_i heq
      exact callDestructors_isVerdict heq

theorem callEntry_isVerdict (l : Loader) (ref : FuncRef Native) (arguments : List Word) :
    IsVerdict (callEntry l ref arguments).1 := by
  rw [callEntry]
  split
  · split <;> exact ⟨nofun, nofun⟩
  · exact ⟨nofun, nofun⟩
  · exact endOfFailure_isVerdict _

theorem execute_isVerdict (l : Loader) (ref : FuncRef Native) (arguments : List Word) :
    IsVerdict (execute l ref arguments).1 := by
  rw [execute]
  split
  · rename_i e l' heq
    exact finish_isVerdict l' (callConstructors_isVerdict heq)
  · rename_i l' heq
    exact finish_isVerdict _ (callEntry_isVerdict l' ref arguments)

theorem eq_of_conclude {e : RunEnd} {o : Outcome} (h : (conclude e l).1 = .outcome o) :
    e = .status o.status := by
  cases e with
  | processEnd code => cases h
  | status s => exact congrArg (fun o : Outcome => RunEnd.status o.status) (RunResult.outcome.inj h)

section

variable (programName : String) (test : Test)

theorem run_eq_of_loaded {image : Image} (himage : l.image = some image) :
    run programName l test = match prepareEntry (l.mapHost HostState.resetRun) programName test with
      | .error e => (.outcome ⟨.invalid, e.message⟩, l.mapHost HostState.resetRun)
      | .ok (ref, arguments, l') =>
        conclude (execute l' ref arguments).1 (execute l' ref arguments).2 := by
  have hloaded : l.isLoaded = true := by
    rw [Loader.isLoaded, himage]
    rfl
  unfold run
  exact if_pos hloaded

end

/-- No run says that it was saved. -/
theorem run_ne_failFast (programName : String) (l : Loader) (test : Test) (output : String) :
    (run programName l test).1 ≠ .outcome ⟨.failFast, output⟩ := by
  intro h
  rw [run] at h
  split at h
  · dsimp only at h
    split at h
    · cases h
    · exact (execute_isVerdict _ _ _).2 (eq_of_conclude h)
  · cases h

/-- A test that has a verdict can be run. -/
theorem canRun_of_hasVerdict (h : HasVerdict (run programName l test).1) :
    CanRun l programName test := by
  cases himage : l.image with
  | none =>
    have hloaded : ¬ l.isLoaded = true := by simp [Loader.isLoaded, himage]
    rw [run, if_neg hloaded] at h
    exact absurd rfl (h _)
  | some image =>
    rw [run_eq_of_loaded programName test himage] at h
    refine (canRun_iff_of_mayBecome
      ((Loader.mayBecome_self himage).mapHost HostState.resetRun)).mp ?_
    split at h
    · rename_i e _
      exact absurd rfl (h e.message)
    · rename_i hprepare
      exact canRun_of_prepareEntry hprepare

/-- A test that can be run has a verdict, in a memory of at least one page. -/
theorem hasVerdict_of_canRun {image : Image} (himage : l.image = some image)
    (hroom : pageSize ≤ image.memory.size) (h : CanRun l programName test) :
    HasVerdict (run programName l test).1 := by
  have himage' : (l.mapHost HostState.resetRun).image = some image := himage
  have h' :=
    (canRun_iff_of_mayBecome ((Loader.mayBecome_self himage).mapHost HostState.resetRun)).mpr h
  obtain ⟨⟨ref, arguments, l'⟩, hprepare⟩ := exists_prepareEntry himage' hroom h'
  rw [run_eq_of_loaded programName test himage, hprepare]
  exact fun output heq => (execute_isVerdict l' ref arguments).1 (eq_of_conclude heq)

end TestRun

end MutationAnalysis
