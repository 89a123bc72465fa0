/-
Runs of a test in two images.

A run of a test is a sequence of calls.  Where every call of the first loader that ends, and not
because the stack is used up, ends alike in the second (`Loader.RunsAs`), a run of the first that
ends in time does so in the second, too, as long as the second is given steps enough.  It is assumed
that no call leaves functions that are to run at the end.

* `TestRun.callConstructors_runsAs`: constructors, one after the other;
* `TestRun.run_runsAs`: a whole run.
-/
import MutationAnalysis.Proofs.TestRun.States

namespace MutationAnalysis

open Wasm

/-- At addresses of two loaders stands the same function of a type.  What calls of it end with in
the second, they do in the first, unless the stack is used up. -/
def Loader.RunsAs (l₀ l : Loader) (a₀ a : Nat) (type : FuncType) : Prop :=
  ∃ ref, l₀.function? a₀ = some ref ∧ l.function? a = some ref ∧ l₀.type? ref = some type ∧
    l.type? ref = some type ∧ ∀ arguments memory state r, arguments.length = type.params →
      r.1 ≠ .trapped .stackOverflow → state.destructors = [] →
      l.Finishes ref arguments memory state r → l₀.Finishes ref arguments memory state r ∧
        r.2.2.destructors = [] ∧ ∀ code, r.1 ≠ .raised (.endProcess code)

namespace TestRun

/-- A call of one of the constructors uses up the stack. -/
def ConstructorsOverflow (l : Loader) : List Nat → Prop
  | [] => False
  | address :: rest =>
    (∃ ref, l.function? address = some ref ∧ (l.call ref []).1 = .trapped .stackOverflow) ∨
      ((callAddress l address none).1 = none ∧
        ConstructorsOverflow (callAddress l address none).2 rest)

/-- A call of one of the constructors or of the entry uses up the stack in a run of a test. -/
def Overflows (programName : String) (l : Loader) (test : Test) : Prop :=
  ∃ ref arguments l', prepareEntry (l.mapHost HostState.resetRun) programName test
      = .ok (ref, arguments, l') ∧
    (ConstructorsOverflow l' l'.constructors ∨
      ((callConstructors l' l'.constructors).1 = none ∧
        ((callConstructors l' l'.constructors).2.call ref arguments).1 = .trapped .stackOverflow))

/-- What the end of a call says, if it did not return. -/
def endOf : Ending → Option RunEnd
  | .returned _ => none
  | e => some (endOfFailure e)

/-- What the end of the entry's call says. -/
def endOfEntry : Ending → RunEnd
  | .returned (result :: _) => .status (if result = 0 then .passed else .failed)
  | .returned [] => .status .passed
  | e => endOfFailure e

/-- What a run gives that ends where no functions are to run any more. -/
def resultOf (e : RunEnd) (state : HostState) : RunResult :=
  match e with
  | .processEnd code => .processEnd code
  | .status s => .outcome ⟨s, state.takeOutput.1⟩

theorem endOfFailure_ne {e : Ending} (h : ∀ code, e ≠ .raised (.endProcess code)) (code : Int32) :
    endOfFailure e ≠ .processEnd code := by
  cases e with
  | returned | stuck => exact RunEnd.noConfusion
  | trapped trap => cases trap <;> exact RunEnd.noConfusion
  | raised signal =>
    cases signal with
    | exit | failure => exact RunEnd.noConfusion
    | endProcess code' => exact absurd rfl (h code')

theorem endOfEntry_ne {e : Ending} (h : ∀ code, e ≠ .raised (.endProcess code)) (code : Int32) :
    endOfEntry e ≠ .processEnd code := by
  cases e with
  | returned results => cases results <;> exact RunEnd.noConfusion
  | trapped | raised | stuck => exact endOfFailure_ne h code

section

variable {l : Loader} {a : Nat} {ref : FuncRef Native} {type : FuncType}

theorem callAddress_eq {argument : Option Word} (href : l.function? a = some ref)
    (htype : l.type? ref = some type) (hparams : type.params = argument.toList.length) :
    callAddress l a argument
      = (endOf (l.call ref argument.toList).1, (l.call ref argument.toList).2) := by
  have hmatch : (l.type? ref).map (·.params) = some argument.toList.length := by
    rw [htype, Option.map_some, hparams]
  simp only [callAddress, href, hmatch, if_true]
  generalize l.call ref argument.toList = called
  obtain ⟨e, l'⟩ := called
  cases e <;> rfl

theorem callEntry_eq (l : Loader) (ref : FuncRef Native) (arguments : List Word) :
    callEntry l ref arguments
      = (endOfEntry (l.call ref arguments).1, (l.call ref arguments).2) := by
  rw [callEntry]
  generalize l.call ref arguments = called
  obtain ⟨e, l'⟩ := called
  cases e with
  | returned results => cases results <;> rfl
  | trapped | raised | stuck => rfl

theorem conclude_finish (hdestructors : l.host.destructors = []) (e : RunEnd) :
    (conclude (finish l e).1 (finish l e).2).1 = resultOf e l.host := by
  cases e with
  | processEnd code => rfl
  | status s =>
    cases s <;> simp only [finish, hdestructors, callDestructors] <;> rfl

end

section

variable {l : Loader}

/-- A constructor that uses up the stack crashes. -/
theorem callConstructors_of_overflow {addresses : List Nat} (h : ConstructorsOverflow l addresses) :
    (callConstructors l addresses).1 = some (.status .crashed) := by
  induction addresses generalizing l with
  | nil => cases h
  | cons address rest ih =>
    rw [callConstructors]
    -- this constructor uses up the stack, or one of the others does
    rcases h with ⟨ref, href, hcall⟩ | ⟨hreturned, hrest⟩
    · have hcrashed : (callAddress l address none).1 = some (.status .crashed) := by
        simp only [callAddress, href]
        split
        · generalize hcalled : l.call ref (none : Option Word).toList = called
          obtain ⟨e, l'⟩ := called
          replace hcalled : l.call ref [] = (e, l') := hcalled
          rw [hcalled] at hcall
          obtain rfl : e = .trapped .stackOverflow := hcall
          rfl
        · rfl
      generalize callAddress l address none = called at hcrashed ⊢
      obtain ⟨o, l'⟩ := called
      obtain rfl : o = some (.status .crashed) := hcrashed
      rfl
    · generalize callAddress l address none = called at hreturned hrest ⊢
      obtain ⟨o, l'⟩ := called
      obtain rfl : o = none := hreturned
      exact ih hrest

/-- A run that uses up the stack ends with a crash. -/
theorem run_of_overflows {image : Image} (himage : l.image = some image) {programName : String}
    {test : Test} (h : Overflows programName l test) :
    ∃ output, (run programName l test).1 = .outcome ⟨.crashed, output⟩ := by
  obtain ⟨ref, arguments, l₁, hprepare, hover⟩ := h
  have hcrashed : (execute l₁ ref arguments).1 = .status .crashed := by
    -- a constructor uses it up, or the entry after all constructors have returned
    rcases hover with hover | ⟨hreturned, hcall⟩
    · have hconstructors := callConstructors_of_overflow hover
      rw [execute]
      generalize callConstructors l₁ l₁.constructors = called at hconstructors ⊢
      obtain ⟨o, l₂⟩ := called
      obtain rfl : o = some (.status .crashed) := hconstructors
      rfl
    · rw [execute]
      generalize callConstructors l₁ l₁.constructors = called at hreturned hcall ⊢
      obtain ⟨o, l₂⟩ := called
      obtain rfl : o = none := hreturned
      dsimp only
      rw [callEntry_eq, hcall]
      rfl
  have hloaded : l.isLoaded = true := by
    rw [Loader.isLoaded, himage]
    rfl
  rw [run, if_pos hloaded]
  dsimp only
  rw [hprepare]
  dsimp only
  generalize execute l₁ ref arguments = executed at hcrashed ⊢
  obtain ⟨e, l₂⟩ := executed
  obtain rfl : e = .status .crashed := hcrashed
  exact ⟨_, rfl⟩

end

section

variable {l₀ l l' : Loader} {image₀ image : Image} {memory : Memory}
  {state : HostState} {steps : Nat}

/-- A call that ends in time, and not because the stack is used up,
ends alike in the first loader. -/
theorem call_runsAs (himage : l.image = some image) {ref : FuncRef Native} {arguments : List Word}
    {e : Ending}
    (hruns : ∀ r : Halt HostState, r.1 ≠ .trapped .stackOverflow →
      l.Finishes ref arguments memory state r → l₀.Finishes ref arguments memory state r ∧
        r.2.2.destructors = [] ∧ ∀ code, r.1 ≠ .raised (.endProcess code))
    (hcall : (l.inState memory state steps).call ref arguments = (e, l'))
    (htime : e ≠ .trapped .interrupt) (hstack : e ≠ .trapped .stackOverflow) :
    (∀ code, e ≠ .raised (.endProcess code)) ∧ ∃ memory' state' left,
      l' = l.inState memory' state' left ∧ state'.destructors = [] ∧
      ∃ n, ∀ k, (l₀.inState memory state (n + k)).call ref arguments
        = (e, l₀.inState memory' state' k) := by
  obtain ⟨memory', state', left, rfl, hfinishes⟩ := Loader.finishes_of_call himage hcall htime
  obtain ⟨hfinishes₀, hdestructors, hend⟩ := hruns _ hstack hfinishes
  exact ⟨hend, memory', state', left, rfl, hdestructors, hfinishes₀⟩

/-- Constructors that are called one after the other end alike, as long as the last call does
not run out of time or stack. -/
theorem callConstructors_runsAs (himage : l.image = some image) {addresses₀ addresses : List Nat}
    (h : List.Forall₂ (fun a₀ a => ∃ type : FuncType, type.params = 0 ∧ l₀.RunsAs l a₀ a type)
      addresses₀ addresses) (hstate : state.destructors = [])
    (hstack : ¬ ConstructorsOverflow (l.inState memory state steps) addresses) {o : Option RunEnd}
    (hcall : callConstructors (l.inState memory state steps) addresses = (o, l'))
    (htime : o ≠ some (.status .timeout)) :
    (∀ code, o ≠ some (.processEnd code)) ∧ ∃ memory' state' left,
      l' = l.inState memory' state' left ∧ state'.destructors = [] ∧
      ∃ n, ∀ k, callConstructors (l₀.inState memory state (n + k)) addresses₀
        = (o, l₀.inState memory' state' k) := by
  induction h generalizing memory state steps with
  | nil =>
    obtain ⟨rfl, rfl⟩ := Prod.mk.inj hcall
    exact ⟨by simp, memory, state, steps, rfl, hstate, 0, fun k => by rw [Nat.zero_add]; rfl⟩
  | @cons a₀ a rest₀ rest ha _ ih =>
    obtain ⟨type, hparams, ref, href₀, href, htype₀, htype, hruns⟩ := ha
    have hlength : type.params = (none : Option Word).toList.length := hparams
    have hcalled₀ : ∀ n, callAddress (l₀.inState memory state n) a₀ none
        = (endOf ((l₀.inState memory state n).call ref []).1,
          ((l₀.inState memory state n).call ref []).2) := fun n =>
      callAddress_eq (by rw [Loader.function?_inState, href₀])
        (by rw [Loader.type?_inState, htype₀]) hlength
    have hcalled : callAddress (l.inState memory state steps) a none
        = (endOf ((l.inState memory state steps).call ref []).1,
          ((l.inState memory state steps).call ref []).2) :=
      callAddress_eq (by rw [Loader.function?_inState, href]) (by rw [Loader.type?_inState, htype])
        hlength
    rw [ConstructorsOverflow, not_or] at hstack
    obtain ⟨hfirst, hothers⟩ := hstack
    rw [hcalled] at hothers
    rw [callConstructors, hcalled] at hcall
    cases he : (l.inState memory state steps).call ref [] with
    | mk e l₁ =>
      rw [he] at hothers hcall
      have hoverflow : e ≠ .trapped .stackOverflow := by
        rintro rfl
        exact hfirst ⟨ref, by rw [Loader.function?_inState, href], by rw [he]⟩
      have hinterrupt : e ≠ .trapped .interrupt := by
        rintro rfl
        exact htime (Prod.mk.inj hcall).1.symm
      obtain ⟨hend, memory₁, state₁, left, rfl, hstate₁, n, hn⟩ := call_runsAs himage
        (fun r hr hfinishes => hruns [] memory state r hparams.symm hr hstate hfinishes) he
          hinterrupt
        hoverflow
      cases e with
      | returned results =>
        -- the constructor returned: the others are called
        obtain ⟨hprocess, memory', state', left', hl', hstate', m, hm⟩ :=
          ih hstate₁ (fun hover => hothers ⟨rfl, hover⟩) hcall
        refine ⟨hprocess, memory', state', left', hl', hstate', n + m, fun k => ?_⟩
        rw [callConstructors, hcalled₀, Nat.add_assoc, hn]
        exact hm k
      | trapped trap | raised signal | stuck =>
        obtain ⟨rfl, rfl⟩ := Prod.mk.inj hcall
        refine ⟨fun code hcode => ?_, memory₁, state₁, left, rfl, hstate₁, n, fun k => ?_⟩
        · exact endOfFailure_ne hend code (Option.some.inj hcode)
        · rw [callConstructors, hcalled₀, hn]
          rfl

/-- Arguments are written to memory alike in both loaders. -/
theorem writeArguments_inState (himage₀ : l₀.image = some image₀) (himage : l.image = some image)
    {programName : String} {test : Test} {count : Nat}
    (h : writeArguments (l.inState memory state steps) programName test = .ok (count, l')) :
    ∃ memory', l' = l.inState memory' state steps ∧ ∀ n,
      writeArguments (l₀.inState memory state n) programName test
        = .ok (count, l₀.inState memory' state n) := by
  obtain ⟨config₀, generation₀, cells₀, host₀, steps₀, _⟩ := l₀
  obtain ⟨config, generation, cells, host, steps', _⟩ := l
  subst himage₀ himage
  simp only [writeArguments, Loader.inState, Loader.setMemory, Option.map_some] at h ⊢
  split at h
  · rename_i bytes hbytes
    split at h
    · rename_i memory' hmemory
      obtain ⟨rfl, rfl⟩ := Prod.mk.inj (Except.ok.inj h)
      exact ⟨memory', rfl, fun n => rfl⟩
    · cases h
  · cases h

/-- The entry of a test gets the same arguments in both loaders. -/
theorem prepareEntry_runsAs (himage₀ : l₀.image = some image₀) (himage : l.image = some image)
    {programName : String} {test : Test} {a₀ a : Nat} {type : FuncType}
    (ha₀ : l₀.address? test.entry = some a₀) (ha : l.address? test.entry = some a)
    (h : l₀.RunsAs l a₀ a type) {ref : FuncRef Native} {arguments : List Word}
    (hprepare : prepareEntry (l.inState memory state steps) programName test
      = .ok (ref, arguments, l')) :
    l.function? a = some ref ∧ arguments.length = type.params ∧
      ∃ memory', l' = l.inState memory' state steps ∧ ∀ n,
        prepareEntry (l₀.inState memory state n) programName test
          = .ok (ref, arguments, l₀.inState memory' state n) := by
  obtain ⟨ref', href₀, href, htype₀, htype, -⟩ := h
  obtain ⟨a', type', ha', href', htype', harguments⟩ := prepareEntry_eq_ok.mp hprepare
  rw [Loader.address?_inState] at ha'
  obtain rfl := Option.some.inj (ha.symm.trans ha')
  rw [Loader.function?_inState] at href'
  obtain rfl := Option.some.inj (href.symm.trans href')
  rw [Loader.type?_inState] at htype'
  obtain rfl := Option.some.inj (htype.symm.trans htype')
  -- whatever the entry takes, it is found in the other loader as well
  have hprepare₀ : ∀ n l₁, ((type.params = 0 ∧ arguments = [] ∧ l₁ = l₀.inState memory state n) ∨
      (type.params = 2 ∧ ∃ count,
        writeArguments (l₀.inState memory state n) programName test = .ok (count, l₁) ∧
          arguments = [UInt32.ofNat count, UInt32.ofNat argumentArea])) →
      prepareEntry (l₀.inState memory state n) programName test = .ok (ref', arguments, l₁) :=
    fun n l₁ h => prepareEntry_eq_ok.mpr ⟨a₀, type, by rwa [Loader.address?_inState],
      by rwa [Loader.function?_inState], by rwa [Loader.type?_inState], h⟩
  rcases harguments with ⟨hzero, rfl, rfl⟩ | ⟨htwo, count, hwrite, rfl⟩
  · exact ⟨href, hzero.symm, memory, rfl, fun n => hprepare₀ n _ (.inl ⟨hzero, rfl, rfl⟩)⟩
  · obtain ⟨memory', rfl, hwrite₀⟩ := writeArguments_inState himage₀ himage hwrite
    exact ⟨href, htwo.symm, memory', rfl,
      fun n => hprepare₀ n _ (.inr ⟨htwo, count, hwrite₀ n, rfl⟩)⟩

theorem execute_eq_of_some {ref : FuncRef Native} {arguments : List Word} {e : RunEnd}
    {l'' : Loader} (h : callConstructors l l.constructors = (some e, l'')) :
    execute l ref arguments = finish l'' e := by
  rw [execute, h]

theorem execute_eq_of_none {ref : FuncRef Native} {arguments : List Word} {l'' : Loader}
    (h : callConstructors l l.constructors = (none, l'')) :
    execute l ref arguments
      = finish (l''.call ref arguments).2 (endOfEntry (l''.call ref arguments).1) := by
  rw [execute, h]
  dsimp only
  rw [callEntry_eq]

theorem isLoaded_inState (himage : l.image = some image) :
    (l.inState memory state steps).isLoaded = true := by
  rw [Loader.isLoaded, Loader.inState, Loader.setMemory, himage]
  rfl

theorem mapHost_inState (f : HostState → HostState) :
    (l.inState memory state steps).mapHost f = l.inState memory (f state) steps := rfl

theorem run_eq (himage : l.image = some image) {programName : String} {test : Test}
    {ref : FuncRef Native} {arguments : List Word}
    (hprepare : prepareEntry (l.inState memory state.resetRun steps) programName test
      = .ok (ref, arguments, l')) :
    run programName (l.inState memory state steps) test
      = conclude (execute l' ref arguments).1 (execute l' ref arguments).2 := by
  rw [run, if_pos (isLoaded_inState himage)]
  dsimp only
  rw [mapHost_inState, hprepare]

/-- What a run does after its preparation ends alike in the first loader, as long as it does
not run out of time or stack. -/
theorem execute_runsAs (himage : l.image = some image)
    (hconstructors : List.Forall₂
      (fun a₀ a => ∃ type : FuncType, type.params = 0 ∧ l₀.RunsAs l a₀ a type)
      l₀.constructors l.constructors)
    {a₀ a : Nat} {type : FuncType} (hentry : l₀.RunsAs l a₀ a type) {ref : FuncRef Native}
    {arguments : List Word} (href : l.function? a = some ref)
    (hlength : arguments.length = type.params) (hstate : state.destructors = [])
    (hstack : ¬ ConstructorsOverflow (l.inState memory state steps) l.constructors)
    (hstack' : ¬ ((callConstructors (l.inState memory state steps) l.constructors).1 = none ∧
      ((callConstructors (l.inState memory state steps) l.constructors).2.call ref arguments).1
        = .trapped .stackOverflow)) {result : RunResult}
    (hrun : (conclude (execute (l.inState memory state steps) ref arguments).1
      (execute (l.inState memory state steps) ref arguments).2).1 = result)
    (htime : ∀ output, result ≠ .outcome ⟨.timeout, output⟩) :
    (∃ o, result = .outcome o) ∧ ∃ n, ∀ k,
      (conclude (execute (l₀.inState memory state (n + k)) ref arguments).1
        (execute (l₀.inState memory state (n + k)) ref arguments).2).1 = result := by
  cases hcalled : callConstructors (l.inState memory state steps) l.constructors with
  | mk o l₂ =>
    rw [hcalled] at hstack'
    have hcalled' : callConstructors (l.inState memory state steps)
        (l.inState memory state steps).constructors = (o, l₂) := by
      rw [Loader.constructors_inState, hcalled]
    have htime' : o ≠ some (.status .timeout) := by
      rintro rfl
      rw [execute_eq_of_some hcalled'] at hrun
      exact htime _ hrun.symm
    obtain ⟨hprocess, memory₂, state₂, left, rfl, hstate₂, n, hn⟩ :=
      callConstructors_runsAs himage hconstructors hstate hstack hcalled htime'
    have hn' : ∀ k, callConstructors (l₀.inState memory state (n + k))
        (l₀.inState memory state (n + k)).constructors
          = (o, l₀.inState memory₂ state₂ k) := fun k => by
      rw [Loader.constructors_inState, hn k]
    cases o with
    | some e =>
      -- a constructor ended the run
      rw [execute_eq_of_some hcalled', conclude_finish hstate₂] at hrun
      refine ⟨?_, n, fun k => ?_⟩
      · cases e with
        | status s => exact ⟨_, hrun.symm⟩
        | processEnd code => exact absurd rfl (hprocess code)
      · rw [execute_eq_of_some (hn' k), conclude_finish hstate₂]
        exact hrun
    | none =>
      obtain ⟨ref', -, href', -, -, hruns⟩ := hentry
      obtain rfl := Option.some.inj (href.symm.trans href')
      cases hcall : (l.inState memory₂ state₂ left).call ref arguments with
      | mk e l₃ =>
        rw [execute_eq_of_none hcalled', hcall] at hrun
        have hinterrupt : e ≠ .trapped .interrupt := by
          rintro rfl
          exact htime _ hrun.symm
        have hoverflow : e ≠ .trapped .stackOverflow := by
          rintro rfl
          exact hstack' ⟨rfl, by rw [hcall]⟩
        obtain ⟨hend, memory₃, state₃, left', rfl, hstate₃, m, hm⟩ := call_runsAs himage
          (fun r hr hfinishes => hruns arguments memory₂ state₂ r hlength hr hstate₂ hfinishes)
            hcall
          hinterrupt hoverflow
        rw [conclude_finish hstate₃] at hrun
        refine ⟨?_, n + m, fun k => ?_⟩
        · cases he : endOfEntry e with
          | status s =>
            rw [he] at hrun
            exact ⟨_, hrun.symm⟩
          | processEnd code => exact absurd he (endOfEntry_ne hend code)
        · rw [Nat.add_assoc, execute_eq_of_none (hn' (m + k)), hm k, conclude_finish hstate₃]
          exact hrun

/-- A run of a test that ends in time, and without using up the stack, ends alike in the first
loader, if that is given steps enough. -/
theorem run_runsAs (himage₀ : l₀.image = some image₀) (himage : l.image = some image)
    (hconstructors : List.Forall₂
      (fun a₀ a => ∃ type : FuncType, type.params = 0 ∧ l₀.RunsAs l a₀ a type)
      l₀.constructors l.constructors)
    {programName : String} {test : Test} {a₀ a : Nat} {type : FuncType}
    (ha₀ : l₀.address? test.entry = some a₀) (ha : l.address? test.entry = some a)
    (hentry : l₀.RunsAs l a₀ a type)
    (hstack : ¬ Overflows programName (l.inState memory state steps) test) {result : RunResult}
    (hrun : (run programName (l.inState memory state steps) test).1 = result)
    (htime : ∀ output, result ≠ .outcome ⟨.timeout, output⟩)
    (hvalid : ∀ output, result ≠ .outcome ⟨.invalid, output⟩) :
    (∃ o, result = .outcome o) ∧
      ∃ n, ∀ k, (run programName (l₀.inState memory state (n + k)) test).1 = result := by
  cases hprepare : prepareEntry (l.inState memory state.resetRun steps) programName test with
  | error e =>
    -- a run whose entry is not prepared is invalid
    refine absurd ?_ (hvalid e.message)
    rw [← hrun, run, if_pos (isLoaded_inState himage)]
    dsimp only
    rw [mapHost_inState, hprepare]
  | ok prepared =>
    obtain ⟨ref, arguments, l₁⟩ := prepared
    obtain ⟨href, hlength, memory₁, rfl, hprepare₀⟩ :=
      prepareEntry_runsAs himage₀ himage ha₀ ha hentry hprepare
    obtain ⟨hover, hover'⟩ := not_or.mp fun h => hstack ⟨ref, arguments, _, hprepare, h⟩
    rw [run_eq himage hprepare] at hrun
    simp only [fun n => run_eq himage₀ (hprepare₀ n)]
    rw [Loader.constructors_inState] at hover hover'
    exact execute_runsAs himage hconstructors hentry href hlength rfl hover hover' hrun htime

end

end TestRun

end MutationAnalysis
