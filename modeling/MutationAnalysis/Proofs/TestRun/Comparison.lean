/-
Runs of a test whose hosts keep different states.

Two loaders are compared call by call: what a call ends with in the first, it ends with in the
second, the same memory is left, and the states of both hosts go together.  From that it follows for
whole runs of tests.  A comparison can leave cases out, in which it says nothing of the second
loader: the record of the first one's host may tell that the run went astray, both may run out of
time, and, if the comparison says so, stacks may be used up.

* `Comparison.follows_callDestructors`: calls one after the other;
* `Comparison.follows_execute`: constructors, entry and destructors;
* `Comparison.follows_run`: a whole run;
* `Comparison.runsFollow`: runs of loaders whose hosts record different things.
-/
import MutationAnalysis.Proofs.Image.Natives
import MutationAnalysis.Proofs.TestRun.Runner
import MutationAnalysis.Proofs.Wasm.Preservation

namespace MutationAnalysis

open Wasm TestRun

/-- How the runs of two loaders are compared. -/
structure Comparison where
  /-- The states of both hosts go together. -/
  rel : HostState → HostState → Prop
  /-- The record of the first host tells that nothing is said of the second loader. -/
  lost : Recorder → Prop
  /-- Nothing is said of the second loader if the first uses up its stack. -/
  crash : Prop
  /-- The second loader may use up its stack where the first does not. -/
  small : Prop

namespace TestRun

/-- Some call uses up the stack, in calls one after the other. -/
def CallsOverflow (l : Loader) : List Destructor → Prop
  | [] => False
  | d :: rest =>
    (∃ ref, l.function? d.function = some ref ∧
      (l.call ref d.argument.toList).1 = .trapped .stackOverflow) ∨
      ((callAddress l d.function d.argument).1 = none ∧
        CallsOverflow (callAddress l d.function d.argument).2 rest)

/-- Constructors are called as destructors without arguments would be. -/
theorem callConstructors_eq (l : Loader) (addresses : List Nat) :
    callConstructors l addresses = callDestructors l (addresses.map (⟨·, none⟩)) := by
  induction addresses generalizing l with
  | nil => rfl
  | cons a rest ih => simp only [callConstructors, List.map_cons, callDestructors, ih]

theorem constructorsOverflow_of_callsOverflow {l : Loader} {addresses : List Nat}
    (h : CallsOverflow l (addresses.map (⟨·, none⟩))) : ConstructorsOverflow l addresses := by
  induction addresses generalizing l with
  | nil => exact h
  | cons a rest ih => exact h.imp_right (And.imp_right ih)

end TestRun

/-- What a test comes to in a loader, it comes to in another with the same memory,
whatever the hosts hold, if the first run ends in time and the second is given steps
enough; and the same memory is left. -/
def Loader.RunsFollow (l l' : Loader) : Prop :=
  ∀ programName test memory s t steps result l₁,
    TestRun.run programName (l.inState memory s steps) test = (result, l₁) →
    (∀ output, result ≠ .outcome ⟨.timeout, output⟩) →
      ∃ memory₁ s₁ t₁ left n, l₁ = l.inState memory₁ s₁ left ∧ ∀ k,
        TestRun.run programName (l'.inState memory t (n + k)) test
          = (result, l'.inState memory₁ t₁ k)

namespace Comparison

/-- What calls of a function end with in the first loader, they end with in the second. -/
def CallsFollow (c : Comparison) (l l' : Loader) (ref : FuncRef Native) : Prop :=
  ∀ arguments memory s t r, (l.type? ref).map (·.params) = some arguments.length → c.rel s t →
    l.Finishes ref arguments memory s r →
      c.lost r.2.2.recorder ∨ (r.1 = .trapped .stackOverflow ∧ c.crash) ∨
        (∃ t', l'.Finishes ref arguments memory t (r.1, r.2.1, t') ∧ c.rel r.2.2 t') ∨
        (c.small ∧ ∃ r', r'.1 = .trapped .stackOverflow ∧ l'.Finishes ref arguments memory t r')

/-- At addresses of both loaders stands the same function, whose calls are compared, or none. -/
inductive AtSame (c : Comparison) (l l' : Loader) (a a' : Nat) : Prop
  | none (h : l.function? a = .none) (h' : l'.function? a' = .none)
  | same {ref : FuncRef Native} (h : l.function? a = some ref) (h' : l'.function? a' = some ref)
      (htype : l'.type? ref = l.type? ref) (hcalls : c.CallsFollow l l' ref)

/-- All that the runs of two loaders call is compared. -/
structure Compares (c : Comparison) (l l' : Loader) : Prop where
  image : ∃ image, l.image = some image
  image' : ∃ image, l'.image = some image
  destructors_eq : ∀ s t, c.rel s t → t.destructors = s.destructors
  output_eq : ∀ s t, c.rel s t → t.output = s.output
  cleared : ∀ s t, c.rel s t → c.rel { s with destructors := [] } { t with destructors := [] }
  taken : ∀ s t, c.rel s t → c.rel { s with output := #[] } { t with output := #[] }
  constructors : List.Forall₂ (c.AtSame l l') l.constructors l'.constructors
  destructors : ∀ s t, c.rel s t → ∀ d ∈ s.destructors, c.AtSame l l' d.function d.function
  none_of_small : c.small → ∀ s t, c.rel s t → s.destructors = []
  keeps : ∀ n arguments memory s, c.lost s.recorder →
    (Native.host.call n arguments memory s).Keeps (fun _ s => c.lost s.recorder) fun _ => True

/-- What was computed with the first loader is computed with the second as well, given steps enough,
or its stack is used up, unless nothing is said of it. -/
inductive Follows (c : Comparison) (l l' : Loader) {X : Type} (excused : X → Prop)
    (f : Loader → X × Loader) (overflow : Loader → Prop) (memory : Memory) (t : HostState) :
    X × Loader → Prop
  | lost {r : X × Loader} (h : c.lost r.2.host.recorder) :
    Follows c l l' excused f overflow memory t r
  | excused {r : X × Loader} (h : excused r.1) : Follows c l l' excused f overflow memory t r
  | alike {x : X} {memory₁ : Memory} {s₁ t₁ : HostState} {left : Nat} (n : Nat)
      (h : ∀ k, f (l'.inState memory t (n + k)) = (x, l'.inState memory₁ t₁ k))
      (hrel : c.rel s₁ t₁) :
      Follows c l l' excused f overflow memory t (x, l.inState memory₁ s₁ left)
  | overflows {r : X × Loader} (hsmall : c.small) (n : Nat)
      (h : ∀ k, overflow (l'.inState memory t (n + k))) :
      Follows c l l' excused f overflow memory t r

variable {c : Comparison} {l l' : Loader} {memory memory₁ : Memory} {s t t₁ : HostState}
  {steps : Nat}

/-! ### Ends of which nothing is said -/

/-- Nothing is said of the second loader where a call ends so in the first. -/
def ExcusesCall (c : Comparison) (e : Ending) : Prop :=
  e = .trapped .interrupt ∨ (e = .trapped .stackOverflow ∧ c.crash)

/-- Nothing is said of the second loader where a run ends so in the first. -/
def Excuses (c : Comparison) (e : RunEnd) : Prop :=
  e = .status .timeout ∨ (e = .status .crashed ∧ c.crash)

/-- Nothing is said of the second loader where calls one after the other end so in the first. -/
def ExcusesCalls (c : Comparison) (o : Option RunEnd) : Prop := ∃ e, o = some e ∧ c.Excuses e

/-- Nothing is said of the second loader where a test has this result in the first. -/
def ExcusesResult (c : Comparison) (r : RunResult) : Prop :=
  ∃ status output, r = .outcome ⟨status, output⟩ ∧ c.Excuses (.status status)

theorem ExcusesCall.endOf {e : Ending} (h : c.ExcusesCall e) : c.ExcusesCalls (endOf e) := by
  rcases h with rfl | ⟨rfl, hcrash⟩
  · exact ⟨_, rfl, .inl rfl⟩
  · exact ⟨_, rfl, .inr ⟨rfl, hcrash⟩⟩

theorem ExcusesCall.endOfEntry {e : Ending} (h : c.ExcusesCall e) : c.Excuses (endOfEntry e) := by
  rcases h with rfl | ⟨rfl, hcrash⟩
  · exact .inl rfl
  · exact .inr ⟨rfl, hcrash⟩

/-- Destructors do not run where nothing is said. -/
theorem Excuses.finish {e : RunEnd} (h : c.Excuses e) (l₁ : Loader) : finish l₁ e = (e, l₁) := by
  rcases h with rfl | ⟨rfl, -⟩ <;> rfl

/-! ### What follows what -/

namespace Follows

variable {X Y : Type} {excused : X → Prop} {excused' : Y → Prop} {f f₁ : Loader → X × Loader}
  {f' : Loader → Y × Loader} {overflow overflow₁ : Loader → Prop} {r : X × Loader}

/-- What is made of the value does not matter. -/
theorem map (h : c.Follows l l' excused f overflow memory t r) (g : X → Y)
    (hexcused : ∀ x, excused x → excused' (g x))
    (hf : ∀ n, f' (l'.inState memory t n) = Prod.map g id (f (l'.inState memory t n)))
    (hover : c.small → ∀ n, overflow (l'.inState memory t n) → overflow₁ (l'.inState memory t n)) :
    c.Follows l l' excused' f' overflow₁ memory t (Prod.map g id r) := by
  cases h with
  | lost h => exact .lost h
  | excused h => exact .excused (hexcused _ h)
  | alike n h hrel => exact .alike n (fun k => by rw [hf, h k]; rfl) hrel
  | overflows hsmall n h => exact .overflows hsmall n fun k => hover hsmall _ (h k)

/-- What follows from where the second loader gets to follows from where it was. -/
theorem after (h : c.Follows l l' excused f overflow memory₁ t₁ r) (n : Nat)
    (hf : ∀ k, f₁ (l'.inState memory t (n + k)) = f (l'.inState memory₁ t₁ k))
    (hover : c.small → ∀ k, overflow (l'.inState memory₁ t₁ k) →
      overflow₁ (l'.inState memory t (n + k))) :
    c.Follows l l' excused f₁ overflow₁ memory t r := by
  cases h with
  | lost h => exact .lost h
  | excused h => exact .excused h
  | alike m h hrel => exact .alike (n + m) (fun k => by rw [Nat.add_assoc, hf, h k]) hrel
  | overflows hsmall m h =>
    exact .overflows hsmall (n + m) fun k => by
      rw [Nat.add_assoc]
      exact hover hsmall _ (h k)

end Follows

/-! ### Runs that went astray -/

section

variable (h : c.Compares l l') {l₁ : Loader} (hlost : c.lost l₁.host.recorder)

include h hlost

theorem lost_call (ref : FuncRef Native) (arguments : List Word) :
    c.lost (l₁.call ref arguments).2.host.recorder := by
  obtain ⟨config, generation, cells, host, steps, image⟩ := l₁
  cases image with
  | none => exact hlost
  | some image =>
    have hkeeps : (image.linkage cells config.maxDepth).Keeps (fun _ s => c.lost s.recorder)
        fun _ => True := ⟨fun n _ => h.keeps n, fun _ _ _ _ hs => hs⟩
    have hkept : c.lost ((image.linkage cells config.maxDepth).call steps ref arguments image.memory
        host).state.recorder ∧ _ :=
      Linkage.keeps_call hkeeps hlost (fun n _ => h.keeps n arguments image.memory host hlost) steps
    exact hkept.1

theorem lost_callAddress (address : Nat) (argument : Option Word) :
    c.lost (callAddress l₁ address argument).2.host.recorder := by
  rw [callAddress]
  split
  · exact hlost
  · rename_i ref _
    split
    · have hcall := lost_call h hlost ref argument.toList
      generalize l₁.call ref argument.toList = called at hcall ⊢
      obtain ⟨e, l₂⟩ := called
      cases e <;> exact hcall
    · exact hlost

theorem lost_callDestructors (ds : List Destructor) :
    c.lost (callDestructors l₁ ds).2.host.recorder := by
  induction ds generalizing l₁ with
  | nil => exact hlost
  | cons d rest ih =>
    have hcall := lost_callAddress h hlost d.function d.argument
    rw [callDestructors]
    generalize callAddress l₁ d.function d.argument = called at hcall ⊢
    obtain ⟨o, l₂⟩ := called
    cases o with
    | none => exact ih hcall
    | some e => exact hcall

theorem lost_callEntry (ref : FuncRef Native) (arguments : List Word) :
    c.lost (callEntry l₁ ref arguments).2.host.recorder := by
  rw [callEntry_eq]
  exact lost_call h hlost ref arguments

theorem lost_finish (e : RunEnd) : c.lost (finish l₁ e).2.host.recorder := by
  have hcleared : c.lost (l₁.mapHost fun s => { s with destructors := [] }).host.recorder := hlost
  have hpending := lost_callDestructors h hcleared l₁.host.destructors
  unfold finish
  split
  · exact hlost
  · exact hlost
  · exact hlost
  · dsimp only
    split <;> rename_i hcalled <;> rw [hcalled] at hpending <;> exact hpending

end

/-! ### Calls -/

theorem follows_call (h : c.Compares l l') {ref : FuncRef Native} (hcalls : c.CallsFollow l l' ref)
    {arguments : List Word} (hlength : (l.type? ref).map (·.params) = some arguments.length)
    (hrel : c.rel s t) : c.Follows l l' c.ExcusesCall (·.call ref arguments)
      (fun l => (l.call ref arguments).1 = .trapped .stackOverflow) memory t
      ((l.inState memory s steps).call ref arguments) := by
  obtain ⟨image, himage⟩ := h.image
  cases hcall : (l.inState memory s steps).call ref arguments with
  | mk e l₁ =>
    by_cases htime : e = .trapped .interrupt
    · exact .excused (.inl htime)
    · obtain ⟨memory₁, s₁, left, rfl, hfinishes⟩ := Loader.finishes_of_call himage hcall htime
      rcases hcalls arguments memory s t _ hlength hrel hfinishes with hlost | ⟨he, hcrash⟩ |
        ⟨t₁, ⟨n, hn⟩, hrel₁⟩ | ⟨hsmall, r', hr', n, hn⟩
      · exact .lost hlost
      · exact .excused (.inr ⟨he, hcrash⟩)
      · exact .alike n hn hrel₁
      · refine .overflows hsmall n fun k => ?_
        rw [hn k]
        exact hr'

theorem follows_callAddress (h : c.Compares l l') {a a' : Nat} (ha : c.AtSame l l' a a')
    (argument : Option Word) (hrel : c.rel s t) :
    c.Follows l l' c.ExcusesCalls (callAddress · a' argument)
      (fun l => ∃ ref, l.function? a' = some ref ∧
        (l.call ref argument.toList).1 = .trapped .stackOverflow) memory t
      (callAddress (l.inState memory s steps) a argument) := by
  cases ha with
  | none hnone hnone' =>
    -- there is no function on either side
    have hcalled : callAddress (l.inState memory s steps) a argument
        = (some (.status .crashed), l.inState memory s steps) := by
      simp only [callAddress, Loader.function?_inState, hnone]
    rw [hcalled]
    exact .alike 0 (fun k => by
      simp only [callAddress, Loader.function?_inState, hnone', Nat.zero_add]) hrel
  | @same ref href href' htype hcalls =>
    by_cases hlength : (l.type? ref).map (·.params) = some argument.toList.length
    · obtain ⟨type, hsome, hparams⟩ := Option.map_eq_some_iff.mp hlength
      have hcalled : callAddress (l.inState memory s steps) a argument
          = Prod.map endOf id ((l.inState memory s steps).call ref argument.toList) :=
        callAddress_eq (by rw [Loader.function?_inState, href])
          (by rw [Loader.type?_inState, hsome]) hparams
      rw [hcalled]
      refine (follows_call h hcalls hlength hrel).map endOf (fun e he => he.endOf)
        (fun n => callAddress_eq (by rw [Loader.function?_inState, href'])
          (by rw [Loader.type?_inState, htype, hsome]) hparams)
        fun _ n hover => ⟨ref, by rw [Loader.function?_inState, href'], hover⟩
    · have hcalled : callAddress (l.inState memory s steps) a argument
          = (some (.status .crashed), l.inState memory s steps) := by
        simp only [callAddress, Loader.function?_inState, href, Loader.type?_inState,
          if_neg hlength]
      rw [hcalled]
      exact .alike 0 (fun k => by
        simp only [callAddress, Loader.function?_inState, href', Loader.type?_inState, htype,
          if_neg hlength, Nat.zero_add]) hrel

/-- Calls one after the other, of functions that are compared with the same arguments. -/
theorem follows_callDestructors (h : c.Compares l l') {ds ds' : List Destructor}
    (hds : List.Forall₂ (fun d d' => c.AtSame l l' d.function d'.function ∧
      d'.argument = d.argument) ds ds') (hrel : c.rel s t) :
    c.Follows l l' c.ExcusesCalls (callDestructors · ds') (CallsOverflow · ds') memory t
      (callDestructors (l.inState memory s steps) ds) := by
  induction hds generalizing memory s t steps with
  | nil => exact .alike 0 (fun k => by rw [Nat.zero_add]; rfl) hrel
  | @cons d d' rest rest' hd _ ih =>
    obtain ⟨hsame, hargument⟩ := hd
    have hfirst : c.Follows l l' _ _ _ memory t
      (callAddress (l.inState memory s steps) d.function d.argument) :=
        follows_callAddress h hsame d.argument hrel
    rw [callDestructors]
    generalize callAddress (l.inState memory s steps) d.function d.argument = called at hfirst ⊢
    cases hfirst with
    | lost hlost =>
      obtain ⟨o, l₁⟩ := called
      cases o with
      | none => exact .lost (lost_callDestructors h hlost rest)
      | some e => exact .lost hlost
    | excused hexcused =>
      obtain ⟨o, l₁⟩ := called
      obtain ⟨e, rfl, he⟩ := hexcused
      exact .excused ⟨e, rfl, he⟩
    | @alike o memory₁ s₁ t₁ left n hn hrel₁ =>
      rw [← hargument] at hn
      cases o with
      | none =>
        -- the first call returned: the others are made
        refine (ih hrel₁).after n (fun k => ?_) fun _ k hover => .inr ?_
        · show callDestructors _ (d' :: rest') = _
          rw [callDestructors, hn k]
        · rw [hn k]
          exact ⟨rfl, hover⟩
      | some e =>
        refine .alike n (fun k => ?_) hrel₁
        show callDestructors _ (d' :: rest') = _
        rw [callDestructors, hn k]
    | overflows hsmall n hn =>
      rw [← hargument] at hn
      exact .overflows hsmall n fun k => .inl (hn k)

/-! ### Runs -/

theorem follows_callConstructors (h : c.Compares l l') (hrel : c.rel s t) :
    c.Follows l l' c.ExcusesCalls (callConstructors · l'.constructors)
      (ConstructorsOverflow · l'.constructors) memory t
      (callConstructors (l.inState memory s steps) l.constructors) := by
  simp only [callConstructors_eq]
  have hall : List.Forall₂
      (fun d d' : Destructor => c.AtSame l l' d.function d'.function ∧ d'.argument = d.argument)
      (l.constructors.map (⟨·, none⟩)) (l'.constructors.map (⟨·, none⟩)) := by
    rw [List.forall₂_map_left_iff, List.forall₂_map_right_iff]
    exact h.constructors.imp fun a a' ha => ⟨ha, rfl⟩
  exact (follows_callDestructors h hall hrel).after 0 (fun k => by rw [Nat.zero_add])
    fun _ k hover => constructorsOverflow_of_callsOverflow (by rwa [Nat.zero_add])

/-- The destructors that are pending run alike. -/
theorem follows_finish (h : c.Compares l l') (e : RunEnd) (hrel : c.rel s t) :
    c.Follows l l' c.Excuses (finish · e) (fun _ => False) memory t
      (finish (l.inState memory s steps) e) := by
  have hquiet : ∀ e', (∀ l₁, finish l₁ e' = (e', l₁)) → c.Follows l l' c.Excuses (finish · e')
      (fun _ => False) memory t (finish (l.inState memory s steps) e') := fun e' he' => by
    rw [he']
    exact .alike 0 (fun k => by rw [he', Nat.zero_add]) hrel
  have hpending : (∀ l₁, finish l₁ e = Prod.map (·.getD e) id (callDestructors
        (l₁.mapHost fun s => { s with destructors := [] }) l₁.host.destructors)) →
      c.Follows l l' c.Excuses (finish · e) (fun _ => False) memory t
        (finish (l.inState memory s steps) e) := by
    intro hfinish
    have hall : List.Forall₂
        (fun d d' : Destructor => c.AtSame l l' d.function d'.function ∧ d'.argument = d.argument)
        s.destructors t.destructors := by
      rw [h.destructors_eq s t hrel, List.forall₂_same]
      exact fun d hd => ⟨h.destructors s t hrel d hd, rfl⟩
    have hcalls : c.Follows l l' _ _ _ memory { t with destructors := [] }
        (callDestructors (l.inState memory { s with destructors := [] } steps) s.destructors) :=
      follows_callDestructors h hall (h.cleared s t hrel)
    have hdone : c.Follows l l' c.Excuses
        (fun l₁ => Prod.map (·.getD e) id (callDestructors l₁ t.destructors))
          (fun _ => False) memory
        { t with destructors := [] } (Prod.map (·.getD e) id (callDestructors
          (l.inState memory { s with destructors := [] } steps) s.destructors)) := by
      refine hcalls.map (·.getD e) ?_ (fun n => rfl) fun hsmall n hover => ?_
      · rintro o ⟨e', rfl, he'⟩
        exact he'
      · -- where the stack may be used up, none is pending
        rw [h.destructors_eq s t hrel, h.none_of_small hsmall s t hrel] at hover
        exact hover
    rw [hfinish]
    refine hdone.after 0 (fun k => ?_) fun _ k hover => hover
    rw [Nat.zero_add]
    exact hfinish _
  -- only a run that came to its own end calls the destructors
  cases e with
  | processEnd code => exact hquiet _ fun _ => rfl
  | status status =>
    cases status with
    | crashed => exact hquiet _ fun _ => rfl
    | timeout => exact hquiet _ fun _ => rfl
    | passed | failed | invalid | failFast =>
      refine hpending fun l₁ => ?_
      unfold finish
      dsimp only
      generalize callDestructors _ _ = called
      obtain ⟨o, l₂⟩ := called
      cases o <;> rfl

/-- Constructors, the entry, and what is to run at the end. -/
theorem follows_execute (h : c.Compares l l') {ref : FuncRef Native}
    (hentry : c.CallsFollow l l' ref)
    {arguments : List Word} (hlength : (l.type? ref).map (·.params) = some arguments.length)
    (hrel : c.rel s t) :
    c.Follows l l' c.Excuses (execute · ref arguments)
      (fun l => ConstructorsOverflow l l.constructors ∨
        ((callConstructors l l.constructors).1 = none ∧
          ((callConstructors l l.constructors).2.call ref arguments).1
            = .trapped .stackOverflow))
      memory t (execute (l.inState memory s steps) ref arguments) := by
  have hconstructors : c.Follows l l' _ _ _ memory t
      (callConstructors (l.inState memory s steps) l.constructors) :=
    follows_callConstructors h hrel
  have hcalled : ∀ n, callConstructors (l'.inState memory t n) (l'.inState memory t n).constructors
      = callConstructors (l'.inState memory t n) l'.constructors := fun n => by
    rw [Loader.constructors_inState]
  simp only [execute, Loader.constructors_inState]
  generalize callConstructors (l.inState memory s steps) l.constructors = called at hconstructors ⊢
  cases hconstructors with
  | lost hlost =>
    obtain ⟨o, l₁⟩ := called
    cases o with
    | none => exact .lost (lost_finish h (lost_callEntry h hlost ref arguments) _)
    | some e => exact .lost (lost_finish h hlost e)
  | excused hexcused =>
    obtain ⟨o, l₁⟩ := called
    obtain ⟨e, rfl, he⟩ := hexcused
    dsimp only
    rw [he.finish]
    exact .excused he
  | overflows hsmall n hn =>
    refine .overflows hsmall n fun k => .inl ?_
    rw [Loader.constructors_inState]
    exact hn k
  | @alike o memory₁ s₁ t₁ left n hn hrel₁ =>
    cases o with
    | some e =>
      -- a constructor ended the run
      exact (follows_finish h e hrel₁).after n (fun k => by
        simp only [Loader.constructors_inState, hn k]) fun _ _ => False.elim
    | none =>
      have hcall : c.Follows l l' _ _ _ memory₁ t₁
          ((l.inState memory₁ s₁ left).call ref arguments) :=
        follows_call h hentry hlength hrel₁
      dsimp only
      rw [callEntry_eq]
      dsimp only
      generalize (l.inState memory₁ s₁ left).call ref arguments = called at hcall ⊢
      cases hcall with
      | lost hlost => exact .lost (lost_finish h hlost _)
      | excused hexcused =>
        rw [hexcused.endOfEntry.finish]
        exact .excused hexcused.endOfEntry
      | overflows hsmall m hm =>
        refine .overflows hsmall (n + m) fun k => .inr ?_
        rw [Loader.constructors_inState, Nat.add_assoc, hn]
        exact ⟨rfl, hm k⟩
      | @alike e memory₂ s₂ t₂ left' m hm hrel₂ =>
        refine (follows_finish h (endOfEntry e) hrel₂).after (n + m) (fun k => ?_) fun _ _ =>
          False.elim
        simp only [Loader.constructors_inState, Nat.add_assoc, hn, callEntry_eq, hm k]

/-- Of two loaders, the entries of a test are found at the same function, or at none. -/
def SameEntry (c : Comparison) (l l' : Loader) (entry : String) : Prop :=
  (l.address? entry = none ∧ l'.address? entry = none) ∨
    ∃ a a', l.address? entry = some a ∧ l'.address? entry = some a' ∧ c.AtSame l l' a a'

/-- Whether arguments can be written, and what to, depends on the memory only. -/
theorem exists_writeArguments (programName : String) (test : Test) (memory : Memory) :
    ∃ written : Except Error (Nat × Memory), ∀ (l : Loader) (image : Image), l.image = some image →
      ∀ s n, writeArguments (l.inState memory s n) programName test
        = written.map fun w => (w.1, l.inState w.2 s n) := by
  -- the layout is the same for all loaders, and there is room for it or not
  cases hbytes : Arguments.layout? (programName :: test.arguments) with
  | none =>
    exact ⟨.error _, fun l image _ s n => by
      rw [writeArguments, hbytes]
      rfl⟩
  | some bytes =>
    cases hmemory : memory.write? argumentArea bytes with
    | none =>
      exact ⟨.error _, fun l image himage s n => by
        obtain ⟨_, _, _, _, _, _⟩ := l
        subst himage
        rw [writeArguments, hbytes]
        simp only [Loader.inState, Loader.setMemory, Option.map_some, hmemory]
        rfl⟩
    | some memory₁ =>
      refine ⟨.ok ((programName :: test.arguments).length, memory₁), fun l image himage s n => ?_⟩
      obtain ⟨_, _, _, _, _, _⟩ := l
      subst himage
      rw [writeArguments, hbytes]
      simp only [Loader.inState, Loader.setMemory, Option.map_some, hmemory]
      rfl

/-- The entry of a test is prepared alike in both, or in neither. -/
theorem prepareEntry_cases (h : c.Compares l l') {test : Test} (hsame : c.SameEntry l l' test.entry)
    (programName : String) (memory : Memory) :
    (∃ e, ∀ s t n m, prepareEntry (l.inState memory s n) programName test = .error e ∧
      prepareEntry (l'.inState memory t m) programName test = .error e) ∨
    ∃ ref arguments memory₁, c.CallsFollow l l' ref ∧
      (l.type? ref).map (·.params) = some arguments.length ∧ ∀ s t n m,
        prepareEntry (l.inState memory s n) programName test
          = .ok (ref, arguments, l.inState memory₁ s n) ∧
        prepareEntry (l'.inState memory t m) programName test
          = .ok (ref, arguments, l'.inState memory₁ t m) := by
  obtain ⟨image, himage⟩ := h.image
  obtain ⟨image', himage'⟩ := h.image'
  obtain ⟨written, hwritten⟩ := exists_writeArguments programName test memory
  -- the entry is in neither, or it is found at a function that both have
  rcases hsame with ⟨hnone, hnone'⟩ | ⟨a, a', ha, ha', hsame⟩
  · exact .inl ⟨_, fun s t n m => by
      simp only [prepareEntry, Loader.address?_inState, hnone, hnone', Option.bind_none]
      exact ⟨rfl, rfl⟩⟩
  · cases hsame with
    | none hnone hnone' =>
      exact .inl ⟨_, fun s t n m => by
        simp only [prepareEntry, Loader.address?_inState, ha, ha', Option.bind_some,
          Loader.function?_inState, hnone, hnone']
        exact ⟨rfl, rfl⟩⟩
    | @same ref href href' htype hcalls =>
      simp only [prepareEntry, Loader.address?_inState, ha, ha', Option.bind_some,
        Loader.function?_inState, href, href', Loader.type?_inState, htype, hwritten l image himage,
        hwritten l' image' himage']
      generalize hparams : (l.type? ref).map (·.params) = params
      split
      · exact .inr ⟨ref, [], memory, hcalls, hparams, fun s t n m => ⟨rfl, rfl⟩⟩
      · cases written with
        | error e => exact .inl ⟨e, fun s t n m => ⟨rfl, rfl⟩⟩
        | ok w =>
          exact .inr ⟨ref, [UInt32.ofNat w.1, UInt32.ofNat argumentArea], w.2, hcalls, hparams,
            fun s t n m => ⟨rfl, rfl⟩⟩
      · exact .inl ⟨_, fun s t n m => ⟨rfl, rfl⟩⟩

/-- What a run comes to once its entry is prepared. -/
theorem follows_conclude (h : c.Compares l l') {f : Loader → RunEnd × Loader}
    {overflow : Loader → Prop}
    {r : RunEnd × Loader} (hr : c.Follows l l' c.Excuses f overflow memory t r) :
    c.Follows l l' c.ExcusesResult (fun l => conclude (f l).1 (f l).2) overflow memory t
      (conclude r.1 r.2) := by
  cases hr with
  | lost hlost =>
    obtain ⟨e, l₁⟩ := r
    cases e <;> exact .lost hlost
  | excused hexcused =>
    obtain ⟨e, l₁⟩ := r
    refine .excused ?_
    rcases hexcused with he | ⟨he, hcrash⟩
    · obtain rfl : e = _ := he
      exact ⟨.timeout, _, rfl, .inl rfl⟩
    · obtain rfl : e = _ := he
      exact ⟨.crashed, _, rfl, .inr ⟨rfl, hcrash⟩⟩
  | overflows hsmall n hn => exact .overflows hsmall n hn
  | @alike e memory₁ s₁ t₁ left n hn hrel =>
    cases e with
    | processEnd code =>
      refine .alike n (fun k => ?_) hrel
      rw [hn k]
      rfl
    | status status =>
      -- both hosts have collected the same output
      refine .alike n (fun k => ?_) (h.taken s₁ t₁ hrel)
      rw [hn k]
      simp only [conclude, HostState.takeOutput, Loader.host_inState, h.output_eq s₁ t₁ hrel]
      rfl

/-- A run of a test in the first loader is followed by a run in the second. -/
theorem follows_run (h : c.Compares l l') {test : Test} (hsame : c.SameEntry l l' test.entry)
    (programName : String) (hrel : c.rel s.resetRun t.resetRun) :
    c.Follows l l' c.ExcusesResult (run programName · test) (Overflows programName · test) memory t
      (run programName (l.inState memory s steps) test) := by
  obtain ⟨image, himage⟩ := h.image
  obtain ⟨image', himage'⟩ := h.image'
  rcases prepareEntry_cases h hsame programName memory with ⟨e, he⟩ |
    ⟨ref, arguments, memory₁, hentry, hlength, hprepare⟩
  · -- there is no entry to call, or its arguments do not fit
    have hrun : ∀ n, run programName (l.inState memory s n) test
        = (.outcome ⟨.invalid, e.message⟩, l.inState memory s.resetRun n) := fun n => by
      rw [run, if_pos (isLoaded_inState himage)]
      simp only [mapHost_inState, (he s.resetRun t.resetRun n n).1]
    have hrun' : ∀ n, run programName (l'.inState memory t n) test
        = (.outcome ⟨.invalid, e.message⟩, l'.inState memory t.resetRun n) := fun n => by
      rw [run, if_pos (isLoaded_inState himage')]
      simp only [mapHost_inState, (he s.resetRun t.resetRun n n).2]
    rw [hrun]
    exact .alike 0 (fun k => by rw [Nat.zero_add, hrun']) hrel
  · have hexecute : c.Follows l l' _ _ _ memory₁ t.resetRun
        (execute (l.inState memory₁ s.resetRun steps) ref arguments) :=
      follows_execute h hentry hlength hrel
    have hrun' : ∀ n, run programName (l'.inState memory t n) test
        = conclude (execute (l'.inState memory₁ t.resetRun n) ref arguments).1
          (execute (l'.inState memory₁ t.resetRun n) ref arguments).2 := fun n =>
      run_eq himage' (hprepare s.resetRun t.resetRun n n).2
    rw [run_eq himage (hprepare s.resetRun t.resetRun steps steps).1]
    refine (follows_conclude h hexecute).after 0 (fun k => ?_) fun _ k hover => ?_
    · rw [Nat.zero_add]
      exact hrun' k
    · rw [Nat.zero_add]
      exact ⟨ref, arguments, _, (hprepare s.resetRun t.resetRun k k).2, hover⟩

/-- Loaders that do the same, whatever their hosts record. -/
def upToRecord : Comparison := ⟨HostState.AgreesWith, fun _ => False, False, False⟩

/-- If all that stands at the addresses of two loaders is compared, and nothing is left out, then
the runs of the first are followed by those of the second. -/
theorem runsFollow (himage : ∃ image, l.image = some image)
    (himage' : ∃ image, l'.image = some image)
    (haddress : ∀ name, l'.address? name = l.address? name)
    (hconstructors : l'.constructors = l.constructors) (hsame : ∀ a, upToRecord.AtSame l l' a a) :
    l.RunsFollow l' := by
  -- the two loaders agree on all but what the recorder holds, which no call looks at
  have h : upToRecord.Compares l l' := {
    image := himage
    image' := himage'
    destructors_eq := fun s t hrel => hrel.1
    output_eq := fun s t hrel => hrel.2
    cleared := fun s t hrel => ⟨rfl, hrel.2⟩
    taken := fun s t hrel => ⟨hrel.1, rfl⟩
    constructors := by
      rw [hconstructors, List.forall₂_same]
      exact fun a _ => hsame a
    destructors := fun s t _ d _ => hsame d.function
    none_of_small := False.elim
    keeps := fun _ _ _ _ => False.elim }
  intro programName test memory s t steps result l₁ hrun htime
  have hentry : upToRecord.SameEntry l l' test.entry := by
    rw [SameEntry, haddress]
    cases l.address? test.entry with
    | none => exact .inl ⟨rfl, rfl⟩
    | some a => exact .inr ⟨a, a, rfl, rfl, hsame a⟩
  have hfollows : upToRecord.Follows l l' _ _ _ memory t
      (run programName (l.inState memory s steps) test) :=
    follows_run h hentry programName ⟨rfl, rfl⟩
  rw [hrun] at hfollows
  cases hfollows with
  | lost hlost => cases hlost
  | excused hexcused =>
    obtain ⟨status, output, rfl, hstatus | ⟨-, hcrash⟩⟩ := hexcused
    · cases hstatus
      exact absurd rfl (htime output)
    · cases hcrash
  | alike n hn _ => exact ⟨_, _, _, _, n, rfl, hn⟩
  | overflows hsmall => cases hsmall

end Comparison

end MutationAnalysis
