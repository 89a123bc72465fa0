/-
Programs with probes and without.

Of two environments, the first tells its host when a function is entered and when it is left, and
the second does not (`Unprobed`).  Both run the same instructions on the same registers and memory,
so they stay in step as long as their hosts do.  The second may have other functions in the place of
some that are avoided: once one of these is entered in the first, the state of its host says so ever
after, and nothing is claimed any more.

* `unprobed_step`: what a step of the first leads to, a step of the second does;
* `Unprobed.finishes`: what a call of the first ends with, the call of the second does, unless
  an avoided function was entered;
* `Unprobed.finishes_converse`: and the other way round, if nothing is ever lost.
-/
import MutationAnalysis.Proofs.Interpreter.Diversion
import MutationAnalysis.Proofs.Interpreter.Preservation

namespace MutationAnalysis.Interpreter

open Wasm Lowering

variable {η σ ρ : Type}

/-- Two hosts answer alike, and what they keep goes together then. -/
inductive AnswersAlike (rel : σ → σ → Prop) : HostAnswer σ → HostAnswer σ → Prop
  | returned {results : List Word} {memory : Memory} {s t : σ} (h : rel s t) :
      AnswersAlike rel (.returned results memory s) (.returned results memory t)
  | raised {signal : Signal} {memory : Memory} {s t : σ} (h : rel s t) :
      AnswersAlike rel (.raised signal memory s) (.raised signal memory t)

theorem AnswersAlike.imp {rel rel' : σ → σ → Prop} {x y : HostAnswer σ} (h : AnswersAlike rel x y)
    (himp : ∀ s t, rel s t → rel' s t) : AnswersAlike rel' x y := by
  cases h with
  | returned h => exact .returned (himp _ _ h)
  | raised h => exact .raised (himp _ _ h)

/-- The second environment does without probes what the first does with them.  What goes
together of the states of both hosts is given, and which states of the first tell that a
function was entered that is avoided. -/
structure Unprobed (env env' : Environment η σ) (rel : σ → σ → Prop) (lost : σ → Prop)
    (avoided : Nat → Nat → Prop) : Prop where
  type_eq : env'.host.type = env.host.type
  maxDepth_eq : env'.maxDepth = env.maxDepth
  noProbes : ∀ home, env'.probes home = none
  valid : ∀ p ∈ env.programs, p.IsValid
  function : ∀ (home index : Nat) (f : Function), env.function? home index = some f →
    ∃ g, env'.function? home index = some g ∧ g.signature = f.signature ∧
      (avoided home index ∨ g = f)
  callee : ∀ (home index : Nat) (f : Function) (p : Program), env.programs[home]? = some p →
    p.functions[index]? = some f → ¬ avoided home index → ∃ p', env'.programs[home]? = some p' ∧
      ∀ i ∈ f.instructions, ∀ name, i.callee = some name →
        i.opcode = .call ∧ SameCallee env env' home p p' name
  call : ∀ (a : Nat) (name : η), env.table[a]? = some (some (.host name)) →
    ∀ arguments memory s t, rel s t → AnswersAlike rel (env.host.call name arguments memory s)
      (env'.host.call name arguments memory t)
  enter : ∀ (home index : Nat) (f : Function), env.function? home index = some f →
    ∀ memory s t, rel s t → ∃ s', env.runProbe Probes.enter home index memory s
      = .inl (memory, s') ∧
      (lost s' ∨ ¬ avoided home index ∧ rel s' t)
  leave : ∀ (home index : Nat) (f : Function), env.function? home index = some f →
    ∀ memory s t, rel s t → ∃ s', env.runProbe Probes.leave home index memory s
      = .inl (memory, s') ∧
      rel s' t
  keeps : env.Keeps lost

/-- A function of one of the programs runs. -/
structure Activation.IsIn (a : Activation ρ) (env : Environment η σ) : Prop where
  function : env.function? a.home a.index = some a.function
  mem : ∀ i ∈ a.rest, i ∈ a.function.instructions

/-- A function of one of the programs runs that is not avoided. -/
structure Activation.IsWithin (a : Activation ρ) (env : Environment η σ)
    (avoided : Nat → Nat → Prop) :
    Prop extends a.IsIn env where
  avoids : ¬ avoided a.home a.index

/-- The same functions run in both, on the same registers and memory. -/
inductive InTime (env : Environment η σ) (rel : σ → σ → Prop) (avoided : Nat → Nat → Prop) :
    State ρ σ → State ρ σ → Prop
  | mk {a : Activation ρ} {callers : List (Activation ρ × Option Register)}
      {memory : Memory} {s t : σ}
      (ha : a.IsWithin env avoided) (hcallers : ∀ c ∈ callers, c.1.IsWithin env avoided)
        (hrel : rel s t) :
      InTime env rel avoided ⟨a, callers, memory, s⟩ ⟨a, callers, memory, t⟩

/-- Both go on in time or end alike, unless the first has entered what it should have avoided. -/
inductive KeepsTime (env : Environment η σ) (rel : σ → σ → Prop) (lost : σ → Prop)
    (avoided : Nat → Nat → Prop) : Next ρ σ → Next ρ σ → Prop
  | lost {next next' : Next ρ σ} (h : lost next.host) : KeepsTime env rel lost avoided next next'
  | go {s t : State ρ σ} (h : InTime env rel avoided s t) :
      KeepsTime env rel lost avoided (.inl s) (.inl t)
  | halt {e : Ending} {memory : Memory} {s t : σ} (h : rel s t) :
      KeepsTime env rel lost avoided (.inr (e, memory, s)) (.inr (e, memory, t))

/-- A function and its registers are alike to themselves. -/
theorem alike_refl (file : RegisterFile ρ) (f : Function) :
    Alike file file f f (fun _ => True) (fun x y => y = x) where
  blocks := rfl
  read := by
    rintro x _ r rfl -
    rfl
  write := by
    rintro x _ r w rfl -
    rfl
  goTo := by
    rintro _ y target rfl -
    cases file.goTo f y target with
    | none => exact .none
    | some u => exact .some ⟨rfl, rfl⟩

variable {env env' : Environment η σ} {rel : σ → σ → Prop} {lost : σ → Prop}
  {avoided : Nat → Nat → Prop} {file : RegisterFile ρ} {a : Activation ρ}
  {callers : List (Activation ρ × Option Register)} {rest : List Instruction}

/-- What is left of the block may change for a part of it or another block. -/
theorem Activation.IsIn.go (h : a.IsIn env) (registers : ρ)
    (hrest : (∀ i ∈ rest, i ∈ a.rest) ∨ ∃ block ∈ a.function.blocks, rest = block.instructions) :
    Activation.IsIn { a with registers, rest } env := by
  refine ⟨h.function, fun i hi => ?_⟩
  rcases hrest with hrest | ⟨block, hblock, rfl⟩
  · exact h.mem i (hrest i hi)
  · exact List.mem_flatMap.mpr ⟨block, hblock, hi⟩

theorem Activation.IsWithin.go (h : a.IsWithin env avoided) (registers : ρ)
    (hrest : (∀ i ∈ rest, i ∈ a.rest) ∨ ∃ block ∈ a.function.blocks, rest = block.instructions) :
    Activation.IsWithin { a with registers, rest } env avoided :=
  ⟨h.toIsIn.go registers hrest, h.avoids⟩

variable {home index : Nat} {f : Function} {arguments : List Word} {memory : Memory} {s t : σ}

/-- A function starts in time in both, unless it is avoided. -/
theorem unprobed_enter (h : Unprobed env env' rel lost avoided)
    (hf : env.function? home index = some f) {g : Function}
    (hg : env'.function? home index = some g) (hcallers : ∀ c ∈ callers, c.1.IsWithin env avoided)
    (hrel : rel s t) (arguments : List Word) (memory : Memory) :
    KeepsTime env rel lost avoided (env.enter file home index f arguments callers memory s)
      (env'.enter file home index g arguments callers memory t) := by
  rw [Environment.enter, Environment.enter, h.maxDepth_eq]
  split
  · obtain ⟨s', hprobe, hs'⟩ := h.enter home index f hf memory s t hrel
    rw [start_eq h.noProbes, Environment.start, hprobe]
    dsimp only
    rcases hs' with hlost | ⟨havoid, hrel'⟩
    · exact .lost (Environment.Keeps.atBlock hlost _ _ _ _ _ _ _)
    · -- the function is not avoided, so it is the same in both
      obtain ⟨g', hg', -, hsame⟩ := h.function home index f hf
      obtain rfl := Option.some.inj (hg.symm.trans hg')
      obtain rfl := hsame.resolve_left havoid
      cases hblock : (file.first g (file.start g arguments)).bind (g.blocks[·]?) with
      | none => exact .halt hrel'
      | some block =>
        obtain ⟨k, -, hk⟩ := Option.bind_eq_some_iff.mp hblock
        refine .go (.mk ⟨⟨hf, fun i hi => ?_⟩, havoid⟩ hcallers hrel')
        exact List.mem_flatMap.mpr ⟨block, List.mem_of_getElem? hk, hi⟩
  · exact .halt hrel

theorem unprobed_call (h : Unprobed env env' rel lost avoided) (ha : a.IsWithin env avoided)
    (hcallers : ∀ c ∈ callers, c.1.IsWithin env avoided) (hrel : rel s t)
    (hrest : ∀ i ∈ rest, i ∈ a.rest) {ref : FuncRef η}
    (hhost : ∀ name, ref = .host name → ∃ k : Nat, env.table[k]? = some (some (.host name)))
    (htype : (env.type? ref).isSome) (arguments : List Word) (dest : Option Register)
    (memory : Memory) :
    KeepsTime env rel lost avoided (env.call file ⟨a, callers, memory, s⟩ ref arguments dest rest)
      (env'.call file ⟨a, callers, memory, t⟩ ref arguments dest rest) := by
  -- functions of the host answer alike, and a function of the programs is one in both
  cases ref with
  | host name =>
    obtain ⟨k, hk⟩ := hhost name rfl
    have hcall := h.call k name hk arguments memory s t hrel
    rw [Environment.call, Environment.call]
    dsimp only
    generalize env.host.call name arguments memory s = answer at hcall ⊢
    generalize env'.host.call name arguments memory t = answer' at hcall ⊢
    cases hcall with
    | returned hrel' => exact .go (.mk (ha.go _ (.inl hrest)) hcallers hrel')
    | raised hrel' => exact .halt hrel'
  | defined home index =>
    rw [Environment.type?, Option.isSome_map] at htype
    obtain ⟨f, hf⟩ := Option.isSome_iff_exists.mp htype
    obtain ⟨g, hg, -⟩ := h.function home index f hf
    rw [call_defined hf, call_defined hg]
    exact unprobed_enter h hf hg
      (List.forall_mem_cons.mpr ⟨ha.go a.registers (.inl hrest), hcallers⟩) hrel arguments memory

theorem Unprobed.type?_eq (h : Unprobed env env' rel lost avoided) {ref : FuncRef η}
    (href : (env.type? ref).isSome) : env'.type? ref = env.type? ref := by
  cases ref with
  | host name => rw [Environment.type?, Environment.type?, h.type_eq]
  | defined home index =>
    rw [Environment.type?, Option.isSome_map] at href
    obtain ⟨f, hf⟩ := Option.isSome_iff_exists.mp href
    obtain ⟨g, hg, hsignature, -⟩ := h.function home index f hf
    rw [Environment.type?, Environment.type?, hf, hg, Option.map_some, Option.map_some, hsignature]

theorem unprobed_callName (h : Unprobed env env' rel lost avoided) (ha : a.IsWithin env avoided)
    (hcallers : ∀ c ∈ callers, c.1.IsWithin env avoided) (hrel : rel s t)
    (hrest : ∀ i ∈ rest, i ∈ a.rest)
    {p p' : Program} (hp : env.programs[a.home]? = some p) (hp' : env'.programs[a.home]? = some p')
    {name : String} (hcallee : SameCallee env env' a.home p p' name) (arguments : List Word)
    (dest : Option Register) (memory : Memory) :
    KeepsTime env rel lost avoided
      (env.callName file ⟨a, callers, memory, s⟩ name arguments dest rest)
      (env'.callName file ⟨a, callers, memory, t⟩ name arguments dest rest) := by
  rw [Environment.callName, Environment.callName]
  simp only [hp, hp']
  cases hcallee with
  | @own index hown hown' =>
    simp only [hown, hown']
    obtain ⟨f, hf, -⟩ := Program.exists_of_functionIndex? hown
    refine unprobed_call h ha hcallers hrel hrest (by simp) ?_ _ _ _
    rw [Environment.type?, function?_eq_some.mpr ⟨p, hp, hf⟩]
    rfl
  | other hnone hnone' hs hs' ht ht' href =>
    simp only [hnone, hnone', hs, hs']
    rw [Environment.callAddress, Environment.callAddress, ht, ht']
    simp only [h.type?_eq href]
    split
    · exact unprobed_call h ha hcallers hrel hrest (fun name hname => ⟨_, hname ▸ ht⟩) href _ _ _
    · exact .halt hrel

theorem unprobed_giveBack (h : Unprobed env env' rel lost avoided) (ha : a.IsWithin env avoided)
    (hcallers : ∀ c ∈ callers, c.1.IsWithin env avoided) (hrel : rel s t) (results : List Word)
    (memory : Memory) :
    KeepsTime env rel lost avoided (env.giveBack file ⟨a, callers, memory, s⟩ results)
      (env'.giveBack file ⟨a, callers, memory, t⟩ results) := by
  obtain ⟨s', hprobe, hrel'⟩ := h.leave a.home a.index a.function ha.function memory s t hrel
  rw [giveBack_eq h.noProbes, Environment.giveBack]
  simp only [hprobe]
  cases callers with
  | nil => exact .halt hrel'
  | cons caller callers =>
    obtain ⟨caller, dest⟩ := caller
    rw [List.forall_mem_cons] at hcallers
    exact .go (.mk (hcallers.1.go _ (.inl fun i hi => hi)) hcallers.2 hrel')

/-- What one step of the first environment leads to, one step of the second does. -/
theorem unprobed_step (h : Unprobed env env' rel lost avoided) {x y : State ρ σ}
    (hxy : InTime env rel avoided x y) :
    KeepsTime env rel lost avoided (env.step file x) (env'.step file y) := by
  obtain @⟨a, callers, memory, s, t, ha, hcallers, hrel⟩ := hxy
  obtain ⟨p, hp, hfunction⟩ := function?_eq_some.mp ha.function
  obtain ⟨p', hp', hcallees⟩ := h.callee _ _ _ _ hp hfunction ha.avoids
  have hvalid := h.valid p (List.mem_of_getElem? hp)
  rw [Environment.step, Environment.step]
  dsimp only
  cases hrest : a.rest with
  | nil => exact .halt hrel
  | cons i rest =>
    have hi : i ∈ a.function.instructions := ha.mem i (by simp [hrest])
    have hfits := (hvalid.functions _ (List.mem_of_getElem? hfunction)).fits hi
    have hsub : ∀ j ∈ rest, j ∈ a.rest := fun j hj => by
      rw [hrest]
      exact List.mem_cons_of_mem i hj
    have halike := alike_refl file a.function
    -- only calls and returns reach what surrounds the function
    rcases hfits.control with ⟨hcall, hret⟩ | ⟨dest, callee, arguments, location, sig, rfl, -, -⟩ |
      ⟨dest, cell, arguments, location, rfl⟩ | hret
    · refine (halike.instruction rfl rfl rfl env env' hfits (fun _ _ => trivial) hcall hret
        rest).elim (fun e memory _ => .halt hrel) fun u v instructions memory huv hor => ?_
      obtain rfl := huv
      refine .go (.mk (ha.go v ?_) hcallers hrel)
      rcases hor with rfl | hblock
      · exact .inl hsub
      · exact .inr hblock
    · obtain ⟨-, hcallee⟩ := hcallees _ hi callee rfl
      exact halike.withValues rfl (fun _ _ => trivial) (.halt hrel) fun words _ =>
        unprobed_callName h ha hcallers hrel hsub hp hp' hcallee words dest memory
    · exact absurd (hcallees _ hi cell rfl).1 (by simp)
    · simp only [Environment.instructionStep, hret]
      exact halike.withValues rfl (fun _ _ => trivial) (.halt hrel) fun words _ =>
        unprobed_giveBack h ha hcallers hrel words memory

/-- What the first environment ends with, the second does at the same step. -/
theorem Unprobed.ends (h : Unprobed env env' rel lost avoided) {x y : State ρ σ}
    {n : Nat} {r : Halt σ} (hxy : InTime env rel avoided x y) (hends : Ends (env.step file) n x r) :
    lost r.2.2 ∨ ∃ t, Ends (env'.step file) n y (r.1, r.2.1, t) ∧ rel r.2.2 t := by
  induction hends generalizing y with
  | halt hx =>
    have hstep : KeepsTime env rel _ avoided (env.step file _) (env'.step file _) :=
      unprobed_step h hxy
    rw [hx] at hstep
    generalize hy : env'.step file y = next at hstep
    cases hstep with
    | lost hlost => exact .inl hlost
    | halt hrel => exact .inr ⟨_, .halt hy, hrel⟩
  | next hx hrun ih =>
    have hstep : KeepsTime env rel _ avoided (env.step file _) (env'.step file _) :=
      unprobed_step h hxy
    rw [hx] at hstep
    generalize hy : env'.step file y = next at hstep
    cases hstep with
    | lost hlost => exact .inl (h.keeps.ends hlost hrun)
    | go hxy' =>
      rcases ih hxy' with hlost | ⟨t, hends, hrel⟩
      · exact .inl hlost
      · exact .inr ⟨t, .next hy hends, hrel⟩

/-- What the second environment ends with, the first does at the same
step, if nothing is ever lost. -/
theorem Unprobed.ends_converse (h : Unprobed env env' rel (fun _ => False) avoided)
    {x y : State ρ σ} {n : Nat} {r : Halt σ} (hxy : InTime env rel avoided x y)
    (hends : Ends (env'.step file) n y r) :
    ∃ s, Ends (env.step file) n x (r.1, r.2.1, s) ∧ rel s r.2.2 := by
  induction hends generalizing x with
  | halt hy =>
    have hstep : KeepsTime env rel _ avoided (env.step file _) (env'.step file _) :=
      unprobed_step h hxy
    rw [hy] at hstep
    generalize hx : env.step file x = next at hstep
    cases hstep with
    | lost hlost => cases hlost
    | halt hrel => exact ⟨_, .halt hx, hrel⟩
  | next hy hrun ih =>
    have hstep : KeepsTime env rel _ avoided (env.step file _) (env'.step file _) :=
      unprobed_step h hxy
    rw [hy] at hstep
    generalize hx : env.step file x = next at hstep
    cases hstep with
    | lost hlost => cases hlost
    | go hxy' =>
      obtain ⟨s, hends, hrel⟩ := ih hxy'
      exact ⟨s, .next hx hends, hrel⟩

/-- What a call ends with in the first environment, it ends with in the second, unless a function
was entered that is avoided. -/
theorem Unprobed.finishes (h : Unprobed env env' rel lost avoided)
    (hf : env.function? home index = some f) (hrel : rel s t) {r : Halt σ}
    (hfinishes : env.Finishes file (.defined home index) arguments memory s r) :
    lost r.2.2 ∨ ∃ t', env'.Finishes file (.defined home index) arguments memory t
      (r.1, r.2.1, t') ∧
      rel r.2.2 t' := by
  obtain ⟨g, hg, -⟩ := h.function home index f hf
  rw [finishes_defined_iff hf] at hfinishes
  simp only [finishes_defined_iff hg]
  have hstart : KeepsTime env rel _ avoided (env.enter file home index f arguments [] memory s)
      (env'.enter file home index g arguments [] memory t) :=
    unprobed_enter h hf hg (by simp) hrel arguments memory
  generalize env.enter file home index f arguments [] memory s = next at hstart hfinishes
  generalize env'.enter file home index g arguments [] memory t = next' at hstart ⊢
  cases hstart with
  | lost hlost => exact .inl (h.keeps.endsFrom hlost hfinishes)
  | go hxy =>
    obtain ⟨n, hn⟩ := hfinishes
    refine (h.ends hxy hn).imp_right ?_
    rintro ⟨t', hends, hrel'⟩
    exact ⟨t', ⟨n, hends⟩, hrel'⟩
  | halt hrel' =>
    obtain rfl := hfinishes
    exact .inr ⟨_, rfl, hrel'⟩

/-- What a call ends with in the second environment, it ends with in
the first, if nothing is lost. -/
theorem Unprobed.finishes_converse (h : Unprobed env env' rel (fun _ => False) avoided)
    (hf : env.function? home index = some f) (hrel : rel s t) {r : Halt σ}
    (hfinishes : env'.Finishes file (.defined home index) arguments memory t r) :
    ∃ s', env.Finishes file (.defined home index) arguments memory s (r.1, r.2.1, s') ∧
      rel s' r.2.2 := by
  obtain ⟨g, hg, -⟩ := h.function home index f hf
  rw [finishes_defined_iff hg] at hfinishes
  simp only [finishes_defined_iff hf]
  have hstart : KeepsTime env rel _ avoided (env.enter file home index f arguments [] memory s)
      (env'.enter file home index g arguments [] memory t) :=
    unprobed_enter h hf hg (by simp) hrel arguments memory
  generalize env.enter file home index f arguments [] memory s = next at hstart ⊢
  generalize env'.enter file home index g arguments [] memory t = next' at hstart hfinishes
  cases hstart with
  | lost hlost => cases hlost
  | go hxy =>
    obtain ⟨n, hn⟩ := hfinishes
    obtain ⟨s', hends, hrel'⟩ := h.ends_converse hxy hn
    exact ⟨s', ⟨n, hends⟩, hrel'⟩
  | halt hrel' =>
    obtain rfl := hfinishes
    exact ⟨_, rfl, hrel'⟩

/-- What a function of the programs or of the host's table ends with in the first environment,
it ends with in the second. -/
theorem Unprobed.finishes_ref (h : Unprobed env env' rel lost avoided) {ref : FuncRef η}
    (htable : ∀ name, ref = .host name → ∃ k : Nat, env.table[k]? = some (some (.host name)))
    (hnone : ∀ home index, ref = .defined home index → env.function? home index = none →
      env'.function? home index = none)
    (hrel : rel s t) {r : Halt σ} (hfinishes : env.Finishes file ref arguments memory s r) :
    lost r.2.2 ∨ ∃ t', env'.Finishes file ref arguments memory t (r.1, r.2.1, t') ∧
      rel r.2.2 t' := by
  cases ref with
  | host name =>
    obtain ⟨k, hk⟩ := htable name rfl
    have hcall := h.call k name hk arguments memory s t hrel
    rw [Environment.Finishes] at hfinishes
    simp only [Environment.Finishes]
    generalize env.host.call name arguments memory s = answer at hcall hfinishes
    generalize env'.host.call name arguments memory t = answer' at hcall ⊢
    cases hcall with
    | returned hrel' | raised hrel' =>
      obtain rfl := hfinishes
      exact .inr ⟨_, rfl, hrel'⟩
  | defined home index =>
    cases hf : env.function? home index with
    | some f => exact h.finishes hf hrel hfinishes
    | none =>
      simp only [Environment.Finishes, hf] at hfinishes
      simp only [Environment.Finishes, hnone home index rfl hf]
      obtain rfl := hfinishes
      exact .inr ⟨t, rfl, hrel⟩

/-- And the other way round, if nothing is ever lost. -/
theorem Unprobed.finishes_ref_converse (h : Unprobed env env' rel (fun _ => False) avoided)
    {ref : FuncRef η}
    (htable : ∀ name, ref = .host name → ∃ k : Nat, env.table[k]? = some (some (.host name)))
    (hnone : ∀ home index, ref = .defined home index → env.function? home index = none →
      env'.function? home index = none)
    (hrel : rel s t) {r : Halt σ} (hfinishes : env'.Finishes file ref arguments memory t r) :
    ∃ s', env.Finishes file ref arguments memory s (r.1, r.2.1, s') ∧ rel s' r.2.2 := by
  cases ref with
  | host name =>
    obtain ⟨k, hk⟩ := htable name rfl
    have hcall := h.call k name hk arguments memory s t hrel
    rw [Environment.Finishes] at hfinishes
    simp only [Environment.Finishes]
    generalize env.host.call name arguments memory s = answer at hcall ⊢
    generalize env'.host.call name arguments memory t = answer' at hcall hfinishes
    cases hcall with
    | returned hrel' | raised hrel' =>
      obtain rfl := hfinishes
      exact ⟨_, rfl, hrel'⟩
  | defined home index =>
    cases hf : env.function? home index with
    | some f => exact h.finishes_converse hf hrel hfinishes
    | none =>
      simp only [Environment.Finishes, hnone home index rfl hf] at hfinishes
      simp only [Environment.Finishes, hf]
      obtain rfl := hfinishes
      exact ⟨s, rfl, hrel⟩

end MutationAnalysis.Interpreter
