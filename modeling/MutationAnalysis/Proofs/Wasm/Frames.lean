/-
What becomes of the frame of a function.

From its start to its return a function has a frame, which stands beneath others while the function
waits for one that it called.  A step goes on in the frame on top, puts a new one on it, or takes it
away (`Machine.Moves`).  So what the steps of a function keep in its frame holds of the frame
whenever the function goes on, whatever the functions do that it calls (`Machine.Within.holds`).

* `Machine.moves_of_step`: what a step does to frames;
* `Machine.Within.holds`: what holds of a frame as long as it is there;
* `Machine.Within.isPassing`: a function whose code adds up what it passes to certain functions
  passes the sum, whatever else it does (`Frame.IsPassing.operands_eq`).
-/
import MutationAnalysis.Proofs.Wasm.Effects

namespace MutationAnalysis.Wasm

variable {η σ : Type} {l : Linkage η σ} {m m' : Machine σ}

/-! ### Steps -/

/-- What a machine may become in one step, as far as its frames go: the function that runs goes on,
it waits for another one, or it returns to its caller. -/
inductive Machine.Moves (m : Machine σ) : Machine σ → Prop
  | stay {m' : Machine σ} (hcallers : m'.callers = m.callers) (hhome : m'.frame.home = m.frame.home)
      (hgoes : m.frame.GoesOn m'.frame.code m'.frame.labels) : m.Moves m'
  | call {m' : Machine σ} {o : Op} {rest : Code} {operands : List Word}
      (hcode : m.frame.code = .op o rest) (ho : o.isCall = true)
      (hcallers : m'.callers = { m.frame with code := rest, operands } :: m.callers) : m.Moves m'
  | back {m' : Machine σ} {caller : Frame} {operands : List Word}
      (hcallers : m.callers = caller :: m'.callers) (hframe : m'.frame = { caller with operands }) :
      m.Moves m'

/-- What holds of the machine that a transition leads to, if it leads to one. -/
def Transition.Next (P : Machine σ → Prop) : Transition σ → Prop
  | .next m => P m
  | .halt _ _ _ => True

namespace Machine

theorem Effect.moves {t : Transition σ} (h : m.Effect l t) : t.Next m.Moves := by
  cases h with
  | stop | raise => trivial
  | goOn hhome hgoes | store hhome hgoes => exact .stay rfl hhome hgoes
  | answer hcode => exact .stay rfl rfl (.rest hcode)
  | call hcode ho => exact .call hcode ho rfl
  | back hcallers => exact .back hcallers rfl

theorem moves_of_step (h : m.step l = .next m') : m.Moves m' := by
  have hmoves : (m.step l).Next m.Moves := effect_step.moves
  rwa [h] at hmoves

/-- A step that leaves the callers as they are goes on in the frame on top. -/
theorem goesOn_of_step (h : m.step l = .next m') (hcallers : m'.callers = m.callers) :
    m'.frame.home = m.frame.home ∧ m.frame.GoesOn m'.frame.code m'.frame.labels := by
  cases moves_of_step h with
  | stay _ hhome hgoes => exact ⟨hhome, hgoes⟩
  | call _ _ hpushed => exact absurd (hcallers.symm.trans hpushed) (List.ne_cons_self)
  | back hpopped => exact absurd (hcallers.trans hpopped) (List.ne_cons_self)

/-! ### Runs of a function -/

/-- What is reached while there are so many callers at least: the frame on top of these stays, and
its function goes on whenever there are not more. -/
def Within (l : Linkage η σ) (callers : Nat) : Machine σ → Machine σ → Prop :=
  Relation.ReflTransGen fun m m' => m.step l = .next m' ∧ callers ≤ m'.callers.length

/-- What one step of a function keeps in its frame: while the function waits for another one it
holds whatever operands the frame has, since it goes on with what that function returns. -/
structure KeepsFrame (l : Linkage η σ) (P : Frame → Prop) : Prop where
  stay : ∀ m m' : Machine σ, P m.frame → m.step l = .next m' → m'.callers = m.callers → P m'.frame
  call : ∀ (f : Frame) (o : Op) (rest : Code), P f → f.code = .op o rest → o.isCall = true →
    ∀ operands, P { f with code := rest, operands }

/-- What holds of the frame above so many callers. -/
inductive OfFrame (P : Frame → Prop) (callers : Nat) (m : Machine σ) : Prop
  | top (h : m.callers.length = callers) (hframe : P m.frame)
  | beneath {above below : List Frame} {f : Frame} (h : m.callers = above ++ f :: below)
      (hbelow : below.length = callers) (hframe : ∀ operands, P { f with operands })

variable {P : Frame → Prop} {callers : Nat}

theorem OfFrame.step (hkeeps : KeepsFrame l P) (h : m.OfFrame P callers)
    (hstep : m.step l = .next m')
    (hcallers : callers ≤ m'.callers.length) : m'.OfFrame P callers := by
  cases h with
  | top hlength hframe =>
    cases moves_of_step hstep with
    | stay hsame => exact .top (hsame ▸ hlength) (hkeeps.stay m m' hframe hstep hsame)
    | call hcode ho hpushed =>
      have hsplit : m'.callers = [] ++ _ :: m.callers := hpushed
      exact .beneath hsplit hlength (hkeeps.call m.frame _ _ hframe hcode ho)
    | back hpopped =>
      rw [hpopped, List.length_cons] at hlength
      omega
  | @beneath above below f hsplit hbelow hframe =>
    cases moves_of_step hstep with
    | stay hsame => exact .beneath (hsame.trans hsplit) hbelow hframe
    | call _ _ hpushed =>
      rw [hsplit, ← List.cons_append] at hpushed
      exact .beneath hpushed hbelow hframe
    | back hpopped hreturned =>
      -- the function on top returns, to this one if there is no other between them
      rw [hsplit] at hpopped
      cases above with
      | nil =>
        obtain ⟨rfl, hrest⟩ := List.cons_eq_cons.mp hpopped
        exact .top (hrest ▸ hbelow) (hreturned ▸ hframe _)
      | cons _ above =>
        obtain ⟨-, hrest⟩ := List.cons_eq_cons.mp hpopped
        exact .beneath hrest.symm hbelow hframe

/-- What every step of a function keeps in its frame holds of the frame
whenever the function goes on. -/
theorem Within.holds (hkeeps : KeepsFrame l P) (h : m.Within l callers m')
    (hcallers : m.callers.length = callers) (hframe : P m.frame)
    (hlength : m'.callers.length = callers) :
    P m'.frame := by
  have hof : m'.OfFrame P callers := by
    clear hlength
    induction h with
    | refl => exact .top hcallers hframe
    | tail _ hstep ih => exact ih.step hkeeps hstep.1 hstep.2
  cases hof with
  | top _ hframe => exact hframe
  | beneath hsplit hbelow =>
    rw [hsplit, List.length_append, List.length_cons] at hlength
    omega

/-- The function that runs is about to call a function of the host, as one of
its module, with arguments. -/
inductive CallsHost (l : Linkage η σ) (m : Machine σ) (name : η) (arguments : List Word) : Prop
  | intro {function : Nat} {rest : Code} {inst : Instance η}
      (hcode : m.frame.code = .op (.call function) rest)
      (hinst : l.instances[m.frame.home]? = some inst)
      (hfunction : inst.functions[function]? = some (.host name))
      (harguments : arguments = (m.frame.operands.take (l.host.type name).params).reverse)
      (hlength : arguments.length = (l.host.type name).params)

/-- The next step is the call. -/
theorem CallsHost.exists_step_eq {name : η} {arguments : List Word}
    (h : m.CallsHost l name arguments) :
    ∃ rest operands, m.step l = m.enter l (.host name) arguments rest operands := by
  obtain ⟨hcode, hinst, hfunction, rfl, hlength⟩ := h
  rename_i function rest inst
  refine ⟨rest, m.frame.operands.drop (l.host.type name).params, ?_⟩
  have hfound : l.instances[m.frame.home]?.bind (·.functions[function]?) = some (.host name) := by
    rw [hinst, Option.bind_some, hfunction]
  rw [List.length_reverse] at hlength
  unfold step
  rw [hcode]
  show m.stepOp l (.call function) rest = _
  unfold stepOp
  simp only [hfound, Linkage.type?]
  rw [callWith, if_neg (by omega)]

end Machine

/-! ### Sums that are passed -/

/-- An operation that calls none of the first functions, so many in number, by its index. -/
def Op.spares (functions : Nat) : Op → Bool
  | .call function => decide (functions ≤ function)
  | _ => true

/-- Code that calls one of the first functions only right after it has
added a constant and a global. -/
inductive Code.PassesSums (functions : Nat) (value : Word) (global : Nat) : Code → Prop
  | done : PassesSums functions value global .done
  | call {function : Nat} {rest : Code} (hlt : function < functions)
      (hrest : PassesSums functions value global rest) :
      PassesSums functions value global (.op (.const value) (.op (.globalGet global)
        (.op (.binary .add) (.op (.call function) rest))))
  | op {o : Op} {rest : Code} (ho : o.spares functions = true)
      (hrest : PassesSums functions value global rest) :
      PassesSums functions value global (.op o rest)
  | block {body rest : Code} (hbody : PassesSums functions value global body)
      (hrest : PassesSums functions value global rest) :
      PassesSums functions value global (.block body rest)
  | loop {body rest : Code} (hbody : PassesSums functions value global body)
      (hrest : PassesSums functions value global rest) :
      PassesSums functions value global (.loop body rest)
  | ifElse {yes no rest : Code} (hyes : PassesSums functions value global yes)
      (hno : PassesSums functions value global no)
      (hrest : PassesSums functions value global rest) :
      PassesSums functions value global (.ifElse yes no rest)

section

variable {functions global home : Nat} {value addend : Word} {c k : Code} {f : Frame}

theorem Code.PassesSums.append (h : c.PassesSums functions value global)
    (hk : k.PassesSums functions value global) : (c ++ k).PassesSums functions value global := by
  induction h with
  | done => exact hk
  | call hlt _ ih => exact .call hlt ih
  | op ho _ ih => exact .op ho ih
  | block hbody _ _ ih => exact .block hbody ih
  | loop hbody _ _ ih => exact .loop hbody ih
  | ifElse hyes hno _ _ _ ih => exact .ifElse hyes hno ih

theorem Code.passesSums_ofOps {ops : List Op} (h : ∀ o ∈ ops, o.spares functions = true) :
    (Code.ofOps ops).PassesSums functions value global := by
  induction ops with
  | nil => exact .done
  | cons o rest ih =>
    rw [List.forall_mem_cons] at h
    exact .op h.1 (ih h.2)

/-- What is on the operand stack at a place of such code: on the way to a
call, the parts of the sum. -/
inductive Frame.AddsUp (functions : Nat) (value : Word) (global : Nat) (addend : Word) :
    Code → List Word → Prop
  | elsewhere {c : Code} {operands : List Word} (h : c.PassesSums functions value global) :
      AddsUp functions value global addend c operands
  | constant {function : Nat} {rest : Code} {operands : List Word} (hlt : function < functions)
      (hrest : rest.PassesSums functions value global) :
      AddsUp functions value global addend
        (.op (.globalGet global) (.op (.binary .add) (.op (.call function) rest)))
          (value :: operands)
  | both {function : Nat} {rest : Code} {operands : List Word} (hlt : function < functions)
      (hrest : rest.PassesSums functions value global) :
      AddsUp functions value global addend (.op (.binary .add) (.op (.call function) rest))
        (addend :: value :: operands)
  | sum {function : Nat} {rest : Code} {operands : List Word} (hlt : function < functions)
      (hrest : rest.PassesSums functions value global) :
      AddsUp functions value global addend (.op (.call function) rest)
        ((value + addend) :: operands)

/-- A frame of such code in an instance, in which the global has a value. -/
structure Frame.IsPassing (home functions : Nat) (value : Word) (global : Nat) (addend : Word)
    (f : Frame) : Prop where
  home : f.home = home
  labels : ∀ label ∈ f.labels, label.onBranch.PassesSums functions value global ∧
    label.onEnd.PassesSums functions value global
  code : Frame.AddsUp functions value global addend f.code f.operands

/-- Where a frame goes on that is on no way to a call, or at the call. -/
theorem Frame.GoesOn.passesSums {labels : List Label} (h : f.GoesOn c labels)
    (hlabels : ∀ label ∈ f.labels, label.onBranch.PassesSums functions value global ∧
      label.onEnd.PassesSums functions value global)
    (hop : ∀ (o : Op) (rest : Code), f.code = .op o rest → rest.PassesSums functions value global)
    (hother : (∀ (o : Op) (rest : Code), f.code ≠ .op o rest) →
      f.code.PassesSums functions value global) :
    c.PassesSums functions value global ∧ ∀ label ∈ labels,
      label.onBranch.PassesSums functions value global ∧
      label.onEnd.PassesSums functions value global := by
  -- control stays within the code, or goes where a label leads
  cases h with
  | rest hcode => exact ⟨hop _ _ hcode, hlabels⟩
  | block hcode =>
    have hpasses := hother (by simp [hcode])
    rw [hcode] at hpasses
    cases hpasses with
    | block hbody hrest => exact ⟨hbody, List.forall_mem_cons.mpr ⟨⟨hrest, hrest⟩, hlabels⟩⟩
  | loop hcode =>
    have hpasses := hother (by simp [hcode])
    rw [hcode] at hpasses
    cases hpasses with
    | loop hbody hrest =>
        exact ⟨hbody, List.forall_mem_cons.mpr ⟨⟨.loop hbody hrest, hrest⟩, hlabels⟩⟩
  | ifElse hcode hbranch =>
    have hpasses := hother (by simp [hcode])
    rw [hcode] at hpasses
    cases hpasses with
    | ifElse hyes hno hrest =>
      exact ⟨hbranch.elim (· ▸ hyes) (· ▸ hno), List.forall_mem_cons.mpr ⟨⟨hrest, hrest⟩, hlabels⟩⟩
  | @branch depth label labels hdrop =>
    have hmem : ∀ label' ∈ label :: labels, label' ∈ f.labels := fun label' hlabel' =>
      List.mem_of_mem_drop (hdrop ▸ hlabel')
    exact ⟨(hlabels _ (hmem _ List.mem_cons_self)).1,
      fun label' hlabel' => hlabels _ (hmem _ (List.mem_cons_of_mem _ hlabel'))⟩
  | done hcons =>
    rw [hcons, List.forall_mem_cons] at hlabels
    exact ⟨hlabels.1.2, hlabels.2⟩

/-- A function that goes on after a step does so on the way to a call, or elsewhere. -/
theorem Frame.IsPassing.stay (hglobal : l.global? home global = some addend)
    (h : m.frame.IsPassing home functions value global addend) (hstep : m.step l = .next m')
    (hcallers : m'.callers = m.callers) :
    m'.frame.IsPassing home functions value global addend := by
  obtain ⟨hhome, hlabels, hcode⟩ := h
  obtain ⟨hsame, hgoes⟩ := Machine.goesOn_of_step hstep hcallers
  rw [hhome] at hsame
  -- what comes after a call, or where none is prepared
  have helsewhere : (∀ (o : Op) (rest : Code), m.frame.code = .op o rest →
      rest.PassesSums functions value global) →
      ((∀ (o : Op) (rest : Code), m.frame.code ≠ .op o rest) →
        m.frame.code.PassesSums functions value global) →
      m'.frame.IsPassing home functions value global addend := fun hop hother => by
    obtain ⟨hcode', hlabels'⟩ := hgoes.passesSums hlabels hop hother
    exact ⟨hsame, hlabels', .elsewhere hcode'⟩
  obtain ⟨⟨code, labels, operands, locals, home', results⟩, callers, depth, memory, state⟩ := m
  obtain rfl : home' = home := hhome
  dsimp only at hlabels hcode helsewhere
  cases hcode with
  | elsewhere hpasses =>
    by_cases hconst : ∃ rest, code = .op (.const value) rest
    · obtain ⟨rest, rfl⟩ := hconst
      obtain rfl := Transition.next.inj hstep
      cases hpasses with
      | call hlt hrest => exact ⟨rfl, hlabels, .constant hlt hrest⟩
      | op _ hrest => exact ⟨rfl, hlabels, .elsewhere hrest⟩
    · refine helsewhere (fun o rest heq => ?_) fun _ => hpasses
      subst heq
      cases hpasses with
      | call => exact absurd ⟨_, rfl⟩ hconst
      | op _ hrest => exact hrest
  | @constant function rest operands hlt hrest =>
    have hnext := @Machine.step_globalGet_eq _ _ l ⟨labels, home', results, callers, depth⟩
      (.op (.binary .add) (.op (.call function) rest)) (value :: operands) locals
        memory state global
    rw [hglobal] at hnext
    obtain rfl := Transition.next.inj (hnext.symm.trans hstep)
    exact ⟨rfl, hlabels, .both hlt hrest⟩
  | both hlt hrest =>
    obtain rfl := Transition.next.inj hstep
    exact ⟨rfl, hlabels, .sum hlt hrest⟩
  | sum hlt hrest =>
    refine helsewhere (fun o rest heq => ?_) fun hnone => absurd rfl (hnone _ _)
    obtain ⟨-, rfl⟩ := Code.op.inj heq
    exact hrest

/-- A function that waits for another one goes on where no call is prepared. -/
theorem Frame.IsPassing.call (h : f.IsPassing home functions value global addend)
    {o : Op} {rest : Code} (hcode : f.code = .op o rest) (ho : o.isCall = true)
    (operands : List Word) :
    Frame.IsPassing home functions value global addend { f with code := rest, operands } := by
  refine ⟨h.home, h.labels, .elsewhere ?_⟩
  show rest.PassesSums functions value global
  have hadds := h.code
  rw [hcode] at hadds
  generalize f.operands = before at hadds
  cases hadds with
  | elsewhere hpasses =>
    cases hpasses with
    | call => cases ho
    | op _ hrest => exact hrest
  | constant | both => cases ho
  | sum _ hrest => exact hrest

/-- A function whose code passes sums goes on to do so, whatever the functions do that it calls. -/
theorem Machine.keepsFrame_isPassing (hglobal : l.global? home global = some addend) :
    KeepsFrame l (Frame.IsPassing home functions value global addend) where
  stay := fun _ _ hframe hstep hcallers => hframe.stay hglobal hstep hcallers
  call := fun _ _ _ hframe hcode ho operands => hframe.call hcode ho operands

/-- The operations before such a call put the sum on the stack. -/
theorem Machine.within_sum {p : Place} {rest : Code} {operands : List Word} {locals : Array Word}
    {memory : Memory} {state : σ} (hglobal : l.global? p.home global = some addend) :
    Within l p.callers.length
      (p.at (.op (.const value) (.op (.globalGet global) (.op (.binary .add) rest))) operands locals
        memory state)
      (p.at rest ((value + addend) :: operands) locals memory state) := by
  have hget := @step_globalGet_eq _ _ l p (.op (.binary .add) rest) (value :: operands)
    locals memory state global
  rw [hglobal] at hget
  exact ((Relation.ReflTransGen.single ⟨rfl, Nat.le_refl _⟩).tail ⟨hget, Nat.le_refl _⟩).tail
    ⟨rfl, Nat.le_refl _⟩

/-- A call of one of the first functions gets the sum. -/
theorem Frame.IsPassing.operands_eq (h : f.IsPassing home functions value global addend)
    {function : Nat} {rest : Code}
    (hcode : f.code = .op (.call function) rest) (hlt : function < functions) :
    ∃ operands, f.operands = (value + addend) :: operands := by
  have hadds := h.code
  rw [hcode] at hadds
  generalize f.operands = operands at hadds ⊢
  cases hadds with
  | elsewhere hpasses =>
    cases hpasses with
    | op ho => exact absurd hlt (Nat.not_lt.mpr (of_decide_eq_true ho))
  | sum => exact ⟨_, rfl⟩

/-- While a function runs whose code passes sums, its frame is one of such code. -/
theorem Machine.Within.isPassing (hglobal : l.global? home global = some addend) {type : FuncType}
    {body : Body} (hbody : body.code.PassesSums functions value global) {arguments : List Word}
    {callers : List Frame} {depth : Nat} {memory : Memory} {state : σ}
    (h : Within l callers.length ⟨.start home type body arguments, callers, depth, memory, state⟩ m)
    (hcallers : m.callers.length = callers.length) :
    m.frame.IsPassing home functions value global addend :=
  h.holds (keepsFrame_isPassing hglobal) rfl
    ⟨rfl, fun _ hlabel => absurd hlabel List.not_mem_nil, .elsewhere hbody⟩ hcallers

end

end MutationAnalysis.Wasm
