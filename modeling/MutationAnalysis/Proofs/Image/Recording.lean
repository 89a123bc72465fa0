/-
What a call from outside leaves in the recorder.

A call that ends has told the recorder of its function first: of a whole call if it returned,
and if it was ended by a signal, of functions none of which was left.  A call that is
interrupted may have come to any place.  But it either came beyond the probe of its function or
has not yet told the recorder of anything else, so in any case the function is recorded under
the one that was under way before the call.

* `Interpreter.Agrees.recorder_of_finishes`: what a call tells the recorder that ends;
* `Interpreter.Agrees.extends_enter`: every call enters its function first.
-/
import MutationAnalysis.Proofs.Image.Probes
import MutationAnalysis.Proofs.Trace.Entries

namespace MutationAnalysis

open Wasm Lowering Recorder

/-- The host's functions leave the entries that there are as they are. -/
theorem Native.keeps_extends (n : Native) (arguments : List Word) (memory : Memory) {r : Recorder}
    {s : HostState} (h : r.Extends s.recorder) :
    (Native.host.call n arguments memory s).Keeps (fun _ s => r.Extends s.recorder) fun _ => True :=
  (Native.recorder_call n arguments memory s).imp
    (fun _ _ hrecorder => hrecorder ▸ h.trans (.foldl_record _ _)) fun _ _ => trivial

namespace Interpreter

variable {env : Environment Native HostState} {l : Linkage Native HostState} {home index : Nat}
  {f : Function}

/-- The probe of a function enters it in the recorder. -/
theorem Environment.HasNativeProbes.runProbe_enter (h : env.HasNativeProbes)
    (hf : env.function? home index = some f) (memory : Memory) (s : HostState) :
    env.runProbe Probes.enter home index memory s
      = .inl (memory, s.enter (env.number home index)) := by
  obtain ⟨offset, hprobes⟩ := h.probes_of_function hf
  rw [Environment.runProbe, Environment.number, hprobes, h.host]
  rfl

/-- The machine has the state that the interpreter has. -/
theorem Related.state_eq {s : State (Array Word) HostState} {m : Machine HostState}
    (h : Related l env s m) : m.state = s.state := by
  cases h
  rfl

/-- A function that starts leads to where it is entered. -/
theorem Agrees.leads_start (hag : Agrees l env) (hprobes : env.HasNativeProbes)
    (hf : env.function? home index = some f) {type : FuncType} {body : Body}
    (hbody : l.body? home index = some (type, body)) (arguments : List Word) (memory : Memory)
    (s : HostState) : ∃ x,
      Leads (Machine.stepper l) (.inl ⟨.start home type body arguments, [], 0, memory, s⟩) x ∧
        (Machine.leftOf x).2 = s.enter (env.number home index) := by
  obtain ⟨p, hp, hfunction⟩ := function?_eq_some.mp hf
  obtain ⟨layout, hprovides⟩ := hag.provides home p hp
  obtain ⟨codes, hcodes, hbody'⟩ := hprovides.body index f hfunction
  obtain ⟨rfl, rfl⟩ := Prod.mk.inj (Option.some.inj (hbody.symm.trans hbody'))
  -- the probe of entry stands before the first block, so the state is
  -- known wherever the start leads
  have harrives : Arrives l env (env.start .lowered home index f arguments [] memory s) _ :=
    arrives_start hag hprovides hfunction hcodes .nil arguments
  rw [Environment.start, hprobes.runProbe_enter hf] at harrives
  dsimp only at harrives
  cases hblock : (RegisterFile.lowered.first f (RegisterFile.lowered.start f arguments)).bind
      (f.blocks[·]?) with
  | none =>
    rw [hblock] at harrives
    obtain ⟨n, hends⟩ := harrives
    exact ⟨_, hends.leads, rfl⟩
  | some block =>
    rw [hblock] at harrives
    obtain ⟨m, hreaches, hrelated⟩ := harrives
    exact ⟨_, hreaches.leads, hrelated.state_eq⟩

/-- A call enters its function before it does anything else, and may not have come so far. -/
theorem Agrees.extends_enter (hag : Agrees l env) (hprobes : env.HasNativeProbes)
    (hf : env.function? home index = some f) (steps : Nat) (arguments : List Word) (memory : Memory)
    (s : HostState) :
    (s.recorder.enter (env.number home index)).Extends
        (l.call steps (.defined home index) arguments memory s).state.recorder ∨
      (l.call steps (.defined home index) arguments memory s).state.recorder.Extends
        (s.recorder.enter (env.number home index)) := by
  obtain ⟨p, hp, hfunction⟩ := function?_eq_some.mp hf
  obtain ⟨layout, hprovides⟩ := hag.provides home p hp
  obtain ⟨codes, -, hbody⟩ := hprovides.body index f hfunction
  by_cases hdepth : 0 < l.maxDepth
  · obtain ⟨x, hleads, hx⟩ := hag.leads_start hprobes hf hbody arguments memory s
    -- the run stops on the way to the entry, which then extends what it left, or goes on from there
    have hkeeps : ∀ state : HostState,
        l.Keeps (fun _ s => state.recorder.Extends s.recorder) fun _ => True := fun state =>
      ⟨fun n _ arguments memory s hs => by
        rw [hag.host, hprobes.host]
        exact n.keeps_extends arguments memory hs, fun _ _ _ _ hs => hs⟩
    have hrun := Machine.run_of_leads hkeeps (fun state => .refl state.recorder) hleads steps
    rw [hx] at hrun
    rw [Linkage.call_defined hbody hdepth]
    obtain ⟨recorder, destructors, output⟩ := s
    exact hrun
  · simp only [Linkage.call, hbody, if_neg hdepth]
    exact .inr (.record _ (.enter _))

/-- What a call of a function of the programs tells the recorder. -/
theorem Agrees.recorder_of_defined (hag : Agrees l env) (hprobes : env.HasNativeProbes)
    (hf : env.function? home index = some f) {arguments : List Word} {memory : Memory}
    {state : HostState} {r : Halt HostState}
    (hfinishes : l.Finishes (.defined home index) arguments memory state r) :
    ∃ events, r.2.2.recorder = events.foldl record state.recorder ∧ Numbered env env.number events ∧
      (∀ results, r.1 = .returned results → IsCall (env.number home index) events) ∧
      (∀ signal, r.1 = .raised signal →
        ∃ ks, Pending ks events ∧ ks.getLast? = some (env.number home index)) := by
  obtain ⟨p, hp, hfunction⟩ := function?_eq_some.mp hf
  obtain ⟨layout, hprovides⟩ := hag.provides home p hp
  obtain ⟨codes, -, hbody⟩ := hprovides.body index f hfunction
  by_cases hdepth : 0 < l.maxDepth
  · obtain ⟨n, hends⟩ := (Linkage.finishes_defined hbody hdepth).mp hfinishes
    have hprojects : Native.observed.Projects l.host Prod.fst := by
      rw [hag.host, hprobes.host]
      exact Native.projects_observed
    obtain ⟨⟨final, events⟩, hends', hfinal⟩ := Machine.ends_lift
      (m := ⟨.start home (funcType f.signature) (bodyOf layout index f codes) arguments,
        [], 0, memory, (state, [])⟩) hprojects hends
    have halone : Ends (Machine.stepper (l.under Native.observed 0)) n _ _ := hends'
    obtain ⟨hrecorder, hnumbered, hend⟩ := hag.records hprobes hf hbody halone
    refine ⟨events, hfinal ▸ hrecorder, hnumbered, fun results hr => ?_, fun signal hr => ?_⟩
    · exact (hend.resolve_right fun hnot => hnot.1 results hr).2
    · refine (hend.resolve_left fun hreturned => ?_).2
      obtain ⟨results, hr'⟩ := hreturned.1
      cases hr.symm.trans hr'
  · -- there is no room for any call
    have hr : r = (.trapped .stackOverflow, memory, state) :=
      (Linkage.finishes_of_call_eq fun n => by simp only [Linkage.call, hbody, if_neg hdepth]).mp
        hfinishes
    subst hr
    exact ⟨[], rfl, fun k hk => absurd hk List.not_mem_nil, fun _ hr => Ending.noConfusion hr,
      fun _ hr => Ending.noConfusion hr⟩

/-- What a call of whatever stands in the image tells the recorder: balanced events if it
returned, and if it was ended by a signal, what leaves functions under way unless the
host's own function was called. -/
theorem Agrees.recorder_of_finishes (hag : Agrees l env) (hprobes : env.HasNativeProbes)
    {ref : FuncRef Native} (hhost : ∀ n, ref = .host n → n.IsNoProbe) {arguments : List Word}
    {memory : Memory} {state : HostState} {r : Halt HostState}
    (hfinishes : l.Finishes ref arguments memory state r) :
    ∃ events, r.2.2.recorder = events.foldl record state.recorder ∧ Numbered env env.number events ∧
      (∀ results, r.1 = .returned results → Balanced events) ∧
      (∀ signal, r.1 = .raised signal →
        ∃ ks, Pending ks events ∧ (ks = [] → ∃ n, ref = .host n)) := by
  cases ref with
  | host n =>
    have hcall : (Native.host.call n arguments memory state).Keeps _ _ :=
      Native.recorder_call n arguments memory state
    rw [Native.told_of_isNoProbe (hhost n rfl)] at hcall
    rw [finishes_iff hag, Environment.Finishes, hprobes.host] at hfinishes
    refine ⟨[], ?_, fun k hk => absurd hk List.not_mem_nil, fun _ _ => .nil, fun _ _ =>
      ⟨[], .nil, fun _ => ⟨n, rfl⟩⟩⟩
    cases hanswer : Native.host.call n arguments memory state with
    | returned results memory' state' =>
      rw [hanswer] at hfinishes hcall
      exact hfinishes ▸ hcall
    | raised signal memory' state' =>
      rw [hanswer] at hfinishes hcall
      exact hfinishes ▸ hcall.1
  | defined home index =>
    cases hf : env.function? home index with
    | none =>
      -- there is nothing to call
      have hr : r = (.stuck, memory, state) :=
        (Linkage.finishes_of_call_eq fun n => by rw [Linkage.call, hag.body?_eq_none hf]).mp
          hfinishes
      subst hr
      exact ⟨[], rfl, fun k hk => absurd hk List.not_mem_nil, fun _ hr => Ending.noConfusion hr,
        fun _ hr => Ending.noConfusion hr⟩
    | some f =>
      obtain ⟨events, hrecorder, hnumbered, hreturned, hraised⟩ :=
        hag.recorder_of_defined hprobes hf hfinishes
      refine ⟨events, hrecorder, hnumbered, fun results hr => (hreturned results hr).balanced,
        fun signal hr => ?_⟩
      obtain ⟨ks, hpending, hlast⟩ := hraised signal hr
      refine ⟨ks, hpending, fun hnil => ?_⟩
      rw [hnil] at hlast
      cases hlast

end Interpreter

end MutationAnalysis
