/-
The calls that a run of a test makes.

A run calls the constructors, the entry and what is to run at the end, one after the other.  Each
call begins where the one before ended, with the record that it left.  A call that does not return
is the last one, unless it is that of a constructor or of the entry and ends by exit: then what is
to run at the end is called as well.

* `TestRun.calls`: the calls of a run;
* `TestRun.follow_calls`: each call of a run begins with the record that the one before it left.
-/
import MutationAnalysis.Proofs.TestRun.Comparison
import MutationAnalysis.Proofs.TestRun.States

namespace MutationAnalysis

open Wasm

namespace TestRun

/-- A call from outside of a function, with arguments, in a loader. -/
structure Invocation where
  loader : Loader
  ref : FuncRef Native
  arguments : List Word

namespace Invocation

/-- How the call ends. -/
def ending (c : Invocation) : Ending := (c.loader.call c.ref c.arguments).1

/-- What it leaves. -/
def after (c : Invocation) : Loader := (c.loader.call c.ref c.arguments).2

def Returns (c : Invocation) : Prop := ∃ results, c.ending = .returned results

/-- The call is ended by exit. -/
def Exits (c : Invocation) : Prop := ∃ code, c.ending = .raised (.exit code)

end Invocation

/-! ### The calls of a run -/

/-- Calls one after the other until one does not return. -/
def callsOf (l : Loader) : List Destructor → List Invocation
  | [] => []
  | d :: rest =>
    match l.function? d.function with
    | none => []
    | some ref =>
      if (l.type? ref).map (·.params) = some d.argument.toList.length then
        let c : Invocation := ⟨l, ref, d.argument.toList⟩
        match c.ending with
        | .returned _ => c :: callsOf c.after rest
        | _ => [c]
      else []

/-- The calls of what is to run when the program ends. -/
def callsAtEnd (l : Loader) (e : RunEnd) : List Invocation :=
  match e with
  | .processEnd _ | .status .crashed | .status .timeout => []
  | .status _ => callsOf (l.mapHost fun h => { h with destructors := [] }) l.host.destructors

/-- The calls of the constructors, of the entry, and of what is to run at the end. -/
def callsOfExecution (l : Loader) (ref : FuncRef Native) (arguments : List Word) :
    List Invocation :=
  callsOf l (l.constructors.map (⟨·, none⟩)) ++
    match callConstructors l l.constructors with
    | (some e, l) => callsAtEnd l e
    | (none, l) =>
      ⟨l, ref, arguments⟩ :: callsAtEnd (callEntry l ref arguments).2 (callEntry l ref arguments).1

/-- The calls that a run of a test makes, in order. -/
def calls (programName : String) (l : Loader) (test : Test) : List Invocation :=
  if l.isLoaded then
    match prepareEntry (l.mapHost HostState.resetRun) programName test with
    | .error _ => []
    | .ok (ref, arguments, l) => callsOfExecution l ref arguments
  else []

/-! ### One after the other -/

/-- The run goes on after the call: it returned, or it was that of a constructor or of a function
that has a name, and was ended by exit. -/
def Invocation.GoesOn (c : Invocation) (l : Loader) : Prop :=
  c.Returns ∨ c.Exits ∧ ∃ a, (a ∈ l.constructors ∨ ∃ name, l.address? name = some a) ∧
    l.function? a = some c.ref

/-- Calls in a loader that follow one another: each begins with the record that the one before left,
from the first record to the last. -/
inductive Follow (l : Loader) : Recorder → List Invocation → Recorder → Prop
  | nil (r : Recorder) : Follow l r [] r
  | cons {c : Invocation} {rest : List Invocation} {r : Recorder} (hloader : l.MayBecome c.loader)
      (href : ∃ a, l.function? a = some c.ref) (hgoes : rest ≠ [] → c.GoesOn l)
      (hrest : Follow l c.after.host.recorder rest r) :
      Follow l c.loader.host.recorder (c :: rest) r

variable {l l₁ : Loader} {r r' r'' : Recorder} {cs cs' : List Invocation} {programName : String}
  {test : Test}

theorem Follow.append (h : Follow l r cs r') (h' : Follow l r' cs' r'')
    (hgoes : cs' ≠ [] → ∀ c ∈ cs, c.GoesOn l) : Follow l r (cs ++ cs') r'' := by
  induction h with
  | nil => exact h'
  | @cons c rest _ hloader href hgoes₁ _ ih =>
    refine .cons hloader href (fun hne => ?_)
      (ih h' fun hne => (List.forall_mem_cons.mp (hgoes hne)).2)
    by_cases hrest : rest = []
    · subst hrest
      exact (List.forall_mem_cons.mp (hgoes hne)).1
    · exact hgoes₁ hrest

theorem Follow.of_cons {c : Invocation} (h : Follow l r (c :: cs) r') :
    c.loader.host.recorder = r ∧ l.MayBecome c.loader ∧ (∃ a, l.function? a = some c.ref) ∧
      (cs ≠ [] → c.GoesOn l) ∧ Follow l c.after.host.recorder cs r' := by
  cases h with
  | cons hloader href hgoes hrest => exact ⟨rfl, hloader, href, hgoes, hrest⟩

theorem Follow.split (h : Follow l r (cs ++ cs') r'') :
    ∃ r', Follow l r cs r' ∧ Follow l r' cs' r'' ∧
    (cs' ≠ [] → ∀ c ∈ cs, c.GoesOn l) := by
  induction cs generalizing r with
  | nil => exact ⟨r, .nil r, h, fun _ c hc => absurd hc List.not_mem_nil⟩
  | cons c rest ih =>
    obtain ⟨rfl, hloader, href, hgoes, hrest⟩ := h.of_cons
    obtain ⟨r', hfollow, hfollow', hall⟩ := ih hrest
    refine ⟨r', .cons hloader href (fun hne => hgoes ?_) hfollow, hfollow', fun hne => ?_⟩
    · exact fun hnil => hne (List.append_eq_nil_iff.mp hnil).1
    · refine List.forall_mem_cons.mpr ⟨hgoes ?_, hall hne⟩
      exact fun hnil => hne (List.append_eq_nil_iff.mp hnil).2

/-- What holds of the record before each call and after it, holds in the end
if it does at the beginning. -/
theorem Follow.keeps {P : Recorder → Prop} (h : Follow l r cs r')
    (hkeeps : ∀ c ∈ cs, l.MayBecome c.loader → (∃ a, l.function? a = some c.ref) →
      P c.loader.host.recorder → P c.after.host.recorder) (hr : P r) : P r' := by
  induction h with
  | nil => exact hr
  | cons hloader href _ _ ih =>
    rw [List.forall_mem_cons] at hkeeps
    exact ih hkeeps.2 (hkeeps.1 hloader href hr)

/-- All calls returned, or there is a last one that did not. -/
theorem returns_or_last (cs : List Invocation) : (∀ c ∈ cs, c.Returns) ∨
    ∃ before d between, cs = before ++ d :: between ∧ ¬ d.Returns ∧ ∀ c ∈ between, c.Returns := by
  induction cs with
  | nil => exact .inl fun c hc => absurd hc List.not_mem_nil
  | cons c rest ih =>
    rcases ih with hall | ⟨before, d, between, rfl, hd, hbetween⟩
    · by_cases hc : c.Returns
      · exact .inl (List.forall_mem_cons.mpr ⟨hc, hall⟩)
      · exact .inr ⟨[], c, rest, rfl, hc, hall⟩
    · exact .inr ⟨c :: before, d, between, rfl, hd, hbetween⟩

/-- The first of calls one after the other: there is none to make and the run crashes, or it does
not return and is the last one, or it returns and the others follow. -/
theorem callsOf_cons (l : Loader) (d : Destructor) (rest : List Destructor) :
    (callsOf l (d :: rest) = [] ∧ callDestructors l (d :: rest) = (some (.status .crashed), l)) ∨
      ∃ c : Invocation, c.loader = l ∧ l.function? d.function = some c.ref ∧
        c.arguments = d.argument.toList ∧
        ((¬ c.Returns ∧ callsOf l (d :: rest) = [c] ∧
            callDestructors l (d :: rest) = (some (endOfFailure c.ending), c.after)) ∨
          (c.Returns ∧ callsOf l (d :: rest) = c :: callsOf c.after rest ∧
            callDestructors l (d :: rest) = callDestructors c.after rest)) := by
  rw [callsOf, callDestructors]
  -- what is not there, or takes other arguments, is not called
  cases href : l.function? d.function with
  | none =>
    refine .inl ⟨rfl, ?_⟩
    simp only [callAddress, href]
  | some ref =>
    by_cases hparams : (l.type? ref).map (·.params) = some d.argument.toList.length
    · obtain ⟨type, htype, hlength⟩ := Option.map_eq_some_iff.mp hparams
      have hcalled : callAddress l d.function d.argument
          = (endOf (Invocation.mk l ref d.argument.toList).ending,
            (Invocation.mk l ref d.argument.toList).after) := callAddress_eq href htype hlength
      simp only [hcalled, if_pos hparams]
      refine .inr ⟨⟨l, ref, d.argument.toList⟩, rfl, rfl, rfl, ?_⟩
      generalize Invocation.mk l ref d.argument.toList = c
      cases hending : c.ending with
      | returned results => exact .inr ⟨⟨results, hending⟩, rfl, rfl⟩
      | trapped trap | raised signal | stuck =>
        refine .inl ⟨?_, rfl, rfl⟩
        rintro ⟨results, hreturned⟩
        rw [hending] at hreturned
        cases hreturned
    · refine .inl ⟨if_neg hparams, ?_⟩
      simp only [callAddress, href, if_neg hparams]

/-- Calls one after the other.  Each returned, or it is the reason why no more are made. -/
theorem follow_callsOf (h : l.MayBecome l₁) (ds : List Destructor) :
    Follow l l₁.host.recorder (callsOf l₁ ds) (callDestructors l₁ ds).2.host.recorder ∧
      ∀ c ∈ callsOf l₁ ds, (∃ d ∈ ds, l.function? d.function = some c.ref) ∧
        (c.Returns ∨ (callDestructors l₁ ds).1 = endOf c.ending) := by
  induction ds generalizing l₁ with
  | nil => exact ⟨.nil _, fun c hc => absurd hc List.not_mem_nil⟩
  | cons d rest ih =>
    rcases callsOf_cons l₁ d rest with ⟨hcalls, hended⟩ |
      ⟨c, rfl, href, -, ⟨hnot, hcalls, hended⟩ | ⟨hreturns, hcalls, hended⟩⟩
    · rw [hcalls, hended]
      exact ⟨.nil _, fun c hc => absurd hc List.not_mem_nil⟩
    · rw [h.function?_eq] at href
      rw [hcalls, hended]
      refine ⟨.cons h ⟨_, href⟩ (absurd rfl) (.nil _), List.forall_mem_singleton.mpr ?_⟩
      refine ⟨⟨d, List.mem_cons_self, href⟩, .inr ?_⟩
      cases hending : c.ending with
      | returned results => exact absurd ⟨results, hending⟩ hnot
      | trapped | raised | stuck => rfl
    · rw [h.function?_eq] at href
      rw [hcalls, hended]
      -- those after the first begin with what it left
      obtain ⟨hfollow, hall⟩ := ih (h.call c.ref c.arguments)
      refine ⟨.cons h ⟨_, href⟩ (fun _ => .inl hreturns) hfollow, ?_⟩
      refine List.forall_mem_cons.mpr ⟨⟨⟨d, List.mem_cons_self, href⟩, .inl hreturns⟩,
        fun c' hc' => ?_⟩
      obtain ⟨⟨d', hd', hfound⟩, hends⟩ := hall c' hc'
      exact ⟨⟨d', List.mem_cons_of_mem d hd', hfound⟩, hends⟩

theorem follow_callsAtEnd (h : l.MayBecome l₁) (e : RunEnd) :
    Follow l l₁.host.recorder (callsAtEnd l₁ e) (finish l₁ e).2.host.recorder := by
  have hpending := (follow_callsOf (h.mapHost fun s => { s with destructors := [] })
    l₁.host.destructors).1
  cases e with
  | processEnd code => exact .nil _
  | status s =>
    cases s with
    | crashed | timeout => exact .nil _
    | passed | failed | invalid | failFast =>
      unfold callsAtEnd finish
      dsimp only
      generalize callDestructors (l₁.mapHost fun s => { s with destructors := [] }) _ = called
        at hpending ⊢
      obtain ⟨o, l₂⟩ := called
      cases o <;> exact hpending

/-- What is to run at the end runs after an exit only, if a call did not return. -/
theorem exit_of_callsAtEnd {e : Ending} (h : callsAtEnd l (endOfFailure e) ≠ []) :
    ∃ code, e = .raised (.exit code) := by
  cases e with
  | returned | stuck => exact absurd rfl h
  | trapped trap => cases trap <;> exact absurd rfl h
  | raised signal =>
    cases signal with
    | exit code => exact ⟨code, rfl⟩
    | failure | endProcess => exact absurd rfl h

/-- What is to run at the end runs after the entry if that returned, or was ended by exit. -/
theorem returned_or_exit_of_callsAtEnd {e : Ending} (h : callsAtEnd l (endOfEntry e) ≠ []) :
    (∃ results, e = .returned results) ∨ ∃ code, e = .raised (.exit code) := by
  cases e with
  | returned results => exact .inl ⟨results, rfl⟩
  | trapped trap => exact .inr (exit_of_callsAtEnd (e := .trapped trap) h)
  | raised signal => exact .inr (exit_of_callsAtEnd (e := .raised signal) h)
  | stuck => exact absurd rfl h

theorem follow_callsOfExecution (h : l.MayBecome l₁) {ref : FuncRef Native} {a : Nat}
    (ha : l.address? test.entry = some a) (href : l.function? a = some ref)
    (arguments : List Word) :
    Follow l l₁.host.recorder (callsOfExecution l₁ ref arguments)
      (execute l₁ ref arguments).2.host.recorder := by
  have hconstructors : l₁.constructors = l.constructors := by
    obtain ⟨_, _, _, _, -, -, rfl⟩ := h
    exact Loader.constructors_inState ..
  obtain ⟨hfollow, hall⟩ := follow_callsOf h (l₁.constructors.map (⟨·, none⟩))
  have hafter := mayBecome_callConstructors h l₁.constructors
  rw [← callConstructors_eq] at hfollow hall
  rw [callsOfExecution, execute]
  generalize callConstructors l₁ l₁.constructors = called at hfollow hall hafter ⊢
  obtain ⟨o, l₂⟩ := called
  cases o with
  | some e =>
    refine hfollow.append (follow_callsAtEnd hafter e) fun hne c hc => ?_
    obtain ⟨⟨d, hd, hfound⟩, hreturns | hends⟩ := hall c hc
    · exact .inl hreturns
    · -- a constructor that did not return ended the run
      obtain ⟨a', ha', rfl⟩ := List.mem_map.mp hd
      have hexit : c.Exits := by
        refine exit_of_callsAtEnd (l := l₂) ?_
        cases hending : c.ending with
        | returned results =>
          rw [hending] at hends
          cases hends
        | trapped | raised | stuck =>
          rw [hending] at hends
          exact Option.some.inj hends ▸ hne
      exact .inr ⟨hexit, a', .inl (hconstructors ▸ ha'), hfound⟩
  | none =>
    have hcalls := follow_callsAtEnd (mayBecome_callEntry hafter ref arguments)
      (callEntry l₂ ref arguments).1
    dsimp only at hfollow hafter ⊢
    refine hfollow.append (.cons (c := ⟨l₂, ref, arguments⟩) hafter ⟨a, href⟩ (fun hne => ?_) ?_)
      fun _ c hc => ?_
    · rw [callEntry_eq] at hne
      exact (returned_or_exit_of_callsAtEnd hne).imp_right fun hexit =>
        ⟨hexit, a, .inr ⟨_, ha⟩, href⟩
    · rw [callEntry_eq] at hcalls ⊢
      exact hcalls
    · obtain ⟨-, hreturns | hends⟩ := hall c hc
      · exact .inl hreturns
      · cases hending : c.ending with
        | returned results => exact .inl ⟨results, hending⟩
        | trapped | raised | stuck =>
          rw [hending] at hends
          cases hends

/-- The preparation of an entry finds it and leaves the host alone. -/
theorem host_of_prepareEntry {ref : FuncRef Native} {arguments : List Word}
    (h : prepareEntry l programName test = .ok (ref, arguments, l₁)) :
    l₁.host = l.host ∧ ∃ a, l.address? test.entry = some a ∧ l.function? a = some ref := by
  obtain ⟨a, type, ha, href, -, ⟨-, -, rfl⟩ | ⟨-, count, hwrite, -⟩⟩ := prepareEntry_eq_ok.mp h
  · exact ⟨rfl, a, ha, href⟩
  · obtain ⟨_, _, _, -, -, -, -, rfl⟩ := writeArguments_eq_ok.mp hwrite
    exact ⟨rfl, a, ha, href⟩

/-- Each call of a run begins with the record that the one before it left. -/
theorem follow_calls (h : l.MayBecome l₁) (programName : String) (test : Test) :
    Follow l l₁.host.resetRun.recorder (calls programName l₁ test)
      (run programName l₁ test).2.host.recorder := by
  obtain ⟨_, image, -, himage, -⟩ := h.exists_image
  have hloaded : l₁.isLoaded = true := by
    rw [Loader.isLoaded, himage]
    rfl
  have hreset := h.mapHost HostState.resetRun
  rw [calls, run, if_pos hloaded, if_pos hloaded]
  dsimp only
  cases hprepare : prepareEntry (l₁.mapHost HostState.resetRun) programName test with
  | error e => exact .nil _
  | ok prepared =>
    obtain ⟨ref, arguments, l₂⟩ := prepared
    obtain ⟨hhost, a, ha, href⟩ := host_of_prepareEntry hprepare
    rw [hreset.address?_eq] at ha
    rw [hreset.function?_eq] at href
    have hfollow := follow_callsOfExecution (mayBecome_prepareEntry hreset hprepare) ha
      href arguments
    rw [hhost] at hfollow
    dsimp only
    generalize execute l₂ ref arguments = executed at hfollow ⊢
    obtain ⟨e, l₃⟩ := executed
    cases e <;> exact hfollow

end TestRun

end MutationAnalysis
