/-
Typing of code.

`Code.Typed s labels c n m` says that code inside `labels` constructs finds `n` words on the operand
stack of its construct and leaves `m`.  The rules say when code is well typed without saying how to
find out: an instruction that never continues leaves whatever is wanted.  A module is well typed
when its functions are, under the types that it declares for them.

* `Code.Typed.append`: typed code may be put after typed code;
* `Code.check_of_typed`: the checker of `Code.check` accepts typed code;
* `Module.isValid_of_isTyped`: a well-typed module that keeps within the
  limits of the machine is accepted.
-/
import MutationAnalysis.Wasm.Validity
import Mathlib.Tactic.Common

namespace MutationAnalysis.Wasm

/-- A plain instruction, inside so many constructs, finds so many words and leaves so many. -/
inductive Op.Typed (s : Scope) (labels : Nat) : Op → Nat → Nat → Prop
  | const {v : Word} {n : Nat} : Typed s labels (.const v) n (n + 1)
  | localGet {i n : Nat} (hi : i < s.locals) : Typed s labels (.localGet i) n (n + 1)
  | localSet {i n : Nat} (hi : i < s.locals) : Typed s labels (.localSet i) (n + 1) n
  | drop {n : Nat} : Typed s labels .drop (n + 1) n
  | binary {op : BinaryOp} {n : Nat} : Typed s labels (.binary op) (n + 2) (n + 1)
  | eqz {n : Nat} : Typed s labels .eqz (n + 1) (n + 1)
  | load {n : Nat} : Typed s labels .load (n + 1) (n + 1)
  | store {n : Nat} : Typed s labels .store (n + 2) n
  | globalGet {i n : Nat} (hi : i < s.globals) : Typed s labels (.globalGet i) n (n + 1)
  | call {i n : Nat} {t : FuncType} (ht : s.functions[i]? = some t) :
      Typed s labels (.call i) (n + t.params) (n + t.results)
  | callIndirect {i n : Nat} {t : FuncType} (ht : s.types[i]? = some t) :
      Typed s labels (.callIndirect i) (n + t.params + 1) (n + t.results)
  | ret {n m : Nat} : Typed s labels .ret (n + s.results) m
  | unreachable {n m : Nat} : Typed s labels .unreachable n m
  | br {depth n m : Nat} (hd : depth < labels) : Typed s labels (.br depth) n m
  | brTable {depths : List Nat} {fallback n m : Nat} (hd : ∀ d ∈ depths, d < labels)
      (hf : fallback < labels) : Typed s labels (.brTable depths fallback) (n + 1) m

/-- Code inside so many constructs finds so many words and leaves so many. -/
inductive Code.Typed (s : Scope) : Nat → Code → Nat → Nat → Prop
  | done {labels n : Nat} : Typed s labels .done n n
  | op {labels n m k : Nat} {o : Op} {rest : Code} (ho : o.Typed s labels n m)
      (hr : Typed s labels rest m k) : Typed s labels (.op o rest) n k
  | block {labels n k : Nat} {body rest : Code} (hb : Typed s (labels + 1) body 0 0)
      (hr : Typed s labels rest n k) : Typed s labels (.block body rest) n k
  | loop {labels n k : Nat} {body rest : Code} (hb : Typed s (labels + 1) body 0 0)
      (hr : Typed s labels rest n k) : Typed s labels (.loop body rest) n k
  | ifElse {labels n k : Nat} {yes no rest : Code} (hy : Typed s (labels + 1) yes 0 0)
      (hn : Typed s (labels + 1) no 0 0) (hr : Typed s labels rest n k) :
      Typed s labels (.ifElse yes no rest) (n + 1) k

namespace Code

variable {s : Scope} {labels n m k : Nat}

theorem Typed.append {a b : Code} (ha : a.Typed s labels n m) (hb : b.Typed s labels m k) :
    (a ++ b).Typed s labels n k := by
  induction ha with
  | done => exact hb
  | op ho _ ih => exact .op ho (ih hb)
  | block hbody _ _ ih => exact .block hbody (ih hb)
  | loop hbody _ _ ih => exact .loop hbody (ih hb)
  | ifElse hy hn _ _ _ ih => exact .ifElse hy hn (ih hb)

/-- Plain instructions in order, each with the heights before and after it. -/
theorem Typed.ofOps_cons {o : Op} {ops : List Op} (ho : o.Typed s labels n m)
    (hops : (ofOps ops).Typed s labels m k) : (ofOps (o :: ops)).Typed s labels n k :=
  .op ho hops

theorem ofOps_append (a b : List Op) : ofOps (a ++ b) = ofOps a ++ ofOps b := by
  induction a with
  | nil => rfl
  | cons o a ih =>
    rw [List.cons_append, ofOps, ih, ofOps, op_append]

theorem Typed.ofOps_append {a b : List Op} (ha : (ofOps a).Typed s labels n m)
    (hb : (ofOps b).Typed s labels m k) : (ofOps (a ++ b)).Typed s labels n k := by
  rw [Code.ofOps_append]
  exact ha.append hb

theorem Typed.ofOps_singleton {o : Op} (ho : o.Typed s labels n m) :
    (ofOps [o]).Typed s labels n m :=
  .op ho .done

/-- Every plain branch in the code goes to the construct that stands
so many constructs around it. -/
def BranchesTo (depth : Nat) : Code → Prop
  | done => True
  | op o rest => (∀ d, o = .br d → d = depth) ∧ rest.BranchesTo depth
  | block body rest | loop body rest => body.BranchesTo (depth + 1) ∧ rest.BranchesTo depth
  | ifElse yes no rest =>
    yes.BranchesTo (depth + 1) ∧ no.BranchesTo (depth + 1) ∧ rest.BranchesTo depth

theorem BranchesTo.append {depth : Nat} {a b : Code} (ha : a.BranchesTo depth)
    (hb : b.BranchesTo depth) : (a ++ b).BranchesTo depth := by
  induction a with
  | done => exact hb
  | op o rest ih => exact ⟨ha.1, ih ha.2⟩
  | block body rest _ ih | loop body rest _ ih => exact ⟨ha.1, ih ha.2⟩
  | ifElse yes no rest _ _ ih => exact ⟨ha.1, ha.2.1, ih ha.2.2⟩

theorem branchesTo_ofOps {depth : Nat} {ops : List Op} :
    (ofOps ops).BranchesTo depth ↔ ∀ d, .br d ∈ ops → d = depth := by
  induction ops with
  | nil => simp [ofOps, BranchesTo]
  | cons o rest ih =>
    rw [ofOps, BranchesTo, ih]
    constructor
    · rintro ⟨ho, hrest⟩ d hd
      rcases List.mem_cons.mp hd with heq | hd
      · exact ho d heq.symm
      · exact hrest d hd
    · intro h
      exact ⟨fun d hd => h d (by simp [hd]), fun d hd => h d (by simp [hd])⟩

end Code

/-! ### The checker accepts what is typed -/

namespace Height

theorem isExactly_iff {h : Height} {n : Nat} :
    h.isExactly n = true ↔ h.count = n ∨ (h.isOpen = true ∧ h.count ≤ n) := by
  rw [isExactly, Bool.or_eq_true, Bool.and_eq_true, beq_iff_eq, decide_eq_true_iff]

theorem isExactly_push {h : Height} {n : Nat} (hn : h.isExactly n = true) (k : Nat) :
    (h.push k).isExactly (n + k) = true := by
  rw [isExactly_iff] at *
  rcases hn with hn | ⟨hopen, hn⟩
  · exact .inl (by simp [push, hn])
  · exact .inr ⟨hopen, by simpa [push] using hn⟩

theorem isExactly_pop {h : Height} {n k : Nat} (hn : h.isExactly (n + k) = true) :
    ∃ h', h.pop k = some h' ∧ h'.isExactly n = true := by
  rw [isExactly_iff] at hn
  rw [pop]
  by_cases hk : k ≤ h.count
  · refine ⟨_, if_pos hk, ?_⟩
    rw [isExactly_iff]
    rcases hn with hn | ⟨hopen, hn⟩
    · exact .inl (by simp only; omega)
    · exact .inr ⟨hopen, by simp only; omega⟩
  · rcases hn with hn | ⟨hopen, -⟩
    · omega
    · refine ⟨_, by rw [if_neg hk, if_pos hopen], ?_⟩
      rw [isExactly_iff]
      exact .inr ⟨hopen, Nat.zero_le n⟩

theorem isExactly_anything (n : Nat) : anything.isExactly n = true :=
  isExactly_iff.mpr (.inr ⟨rfl, Nat.zero_le n⟩)

end Height

theorem Op.checkBranch_of_lt {s : Scope} {labels depth : Nat} (h : Height)
    (hd : depth < labels) : checkBranch s labels h depth = some .anything := by
  rw [checkBranch, if_pos hd]

theorem Op.checkCall_of_isExactly {h : Height} {t : FuncType} {n : Nat}
    (hn : h.isExactly (n + t.params) = true) :
    ∃ h', checkCall h t = some h' ∧ h'.isExactly (n + t.results) = true := by
  obtain ⟨popped, hpop, hexact⟩ := Height.isExactly_pop hn
  exact ⟨popped.push t.results, by rw [checkCall, hpop]; rfl,
    Height.isExactly_push hexact t.results⟩

theorem Op.check_of_typed {s : Scope} {labels n m : Nat} {o : Op} (ho : o.Typed s labels n m)
    {h : Height} (hn : h.isExactly n = true) :
    ∃ h', o.check s labels h = some h' ∧ h'.isExactly m = true := by
  cases ho with
  | const => exact ⟨_, rfl, Height.isExactly_push hn 1⟩
  | localGet hi => exact ⟨_, if_pos hi, Height.isExactly_push hn 1⟩
  | localSet hi =>
    rw [check, if_pos hi]
    exact Height.isExactly_pop hn
  | drop => exact Height.isExactly_pop hn
  | @binary op n =>
    obtain ⟨popped, hpop, hexact⟩ := Height.isExactly_pop hn
    exact ⟨_, by rw [check, hpop]; rfl, Height.isExactly_push hexact 1⟩
  | eqz | load =>
    obtain ⟨popped, hpop, hexact⟩ := Height.isExactly_pop hn
    exact ⟨_, by rw [check, hpop]; rfl, Height.isExactly_push hexact 1⟩
  | store => exact Height.isExactly_pop hn
  | globalGet hi => exact ⟨_, if_pos hi, Height.isExactly_push hn 1⟩
  | call ht =>
    rw [check, ht]
    exact checkCall_of_isExactly hn
  | callIndirect ht =>
    obtain ⟨popped, hpop, hexact⟩ := Height.isExactly_pop hn
    obtain ⟨h', hcall, hexact'⟩ := checkCall_of_isExactly hexact
    refine ⟨h', ?_, hexact'⟩
    rw [check, ht, hpop]
    exact hcall
  | ret =>
    obtain ⟨popped, hpop, -⟩ := Height.isExactly_pop hn
    exact ⟨_, by rw [check, hpop]; rfl, Height.isExactly_anything _⟩
  | unreachable => exact ⟨_, rfl, Height.isExactly_anything _⟩
  | br hd => exact ⟨_, checkBranch_of_lt h hd, Height.isExactly_anything _⟩
  | brTable hd hf =>
    obtain ⟨popped, hpop, -⟩ := Height.isExactly_pop hn
    refine ⟨_, ?_, Height.isExactly_anything _⟩
    rw [check, hpop]
    simp only [Option.bind_eq_bind, Option.bind_some]
    rw [if_pos, checkBranch_of_lt popped hf]
    rw [List.all_eq_true]
    intro d hmem
    rw [checkBranch_of_lt popped (hd d hmem)]
    rfl

/-- The checker finds a height for typed code that allows the one it is typed with. -/
theorem Code.check_of_typed {s : Scope} {labels n m : Nat} {c : Code} (hc : c.Typed s labels n m)
    {h : Height} (hn : h.isExactly n = true) :
    ∃ h', c.check s labels h = some h' ∧ h'.isExactly m = true := by
  induction hc generalizing h with
  | done => exact ⟨h, rfl, hn⟩
  | op ho _ ih =>
    obtain ⟨h₁, hcheck, hexact⟩ := Op.check_of_typed ho hn
    obtain ⟨h₂, hrest, hexact'⟩ := ih hexact
    exact ⟨h₂, by rw [check, hcheck, Option.bind_some, hrest], hexact'⟩
  | block _ _ ihb ihr | loop _ _ ihb ihr =>
    obtain ⟨inner, hbody, hinner⟩ := ihb (h := .empty) rfl
    obtain ⟨h', hrest, hexact⟩ := ihr hn
    refine ⟨h', ?_, hexact⟩
    rw [check, hbody]
    simp only [hinner, if_true, hrest]
  | ifElse _ _ _ ihy ihn ihr =>
    obtain ⟨popped, hpop, hexact⟩ := Height.isExactly_pop hn
    obtain ⟨a, hyes, ha⟩ := ihy (h := .empty) rfl
    obtain ⟨b, hno, hb⟩ := ihn (h := .empty) rfl
    obtain ⟨h', hrest, hexact'⟩ := ihr hexact
    refine ⟨h', ?_, hexact'⟩
    rw [check, hpop, hyes, hno]
    simp only [ha, hb, Bool.and_true, if_true, hrest]

/-! ### Modules -/

/-- The types of the function index space. -/
def Module.functionSpace (m : Module) : List FuncType :=
  m.functionTypes.filterMap (m.types[·]?)

theorem Module.functionSpace_getElem? {m : Module} (h : ∀ t ∈ m.functionTypes, t < m.types.length)
    (i : Nat) : m.functionSpace[i]? = (m.functionTypes[i]?).bind (m.types[·]?) := by
  rw [functionSpace]
  generalize m.functionTypes = indices at h
  induction indices generalizing i with
  | nil => simp
  | cons t rest ih =>
    rw [List.forall_mem_cons] at h
    rw [List.filterMap_cons, List.getElem?_eq_getElem h.1]
    cases i with
    | zero => simp [List.getElem?_eq_getElem h.1]
    | succ i =>
      rw [List.getElem?_cons_succ, List.getElem?_cons_succ]
      exact ih i h.2

/-- What stands among the imported globals is a global. -/
theorem Module.importedGlobals_getElem? {m : Module} {g : Nat} (hg : g < m.importedGlobals.length) :
    ∃ i b, m.importedGlobals[g]? = some i ∧ i.kind = .global b := by
  have hmem := List.getElem_mem hg
  generalize hi : m.importedGlobals[g] = i at hmem
  refine ⟨i, ?_⟩
  rw [List.getElem?_eq_getElem hg, hi]
  rw [importedGlobals, List.mem_filter] at hmem
  cases hkind : i.kind with
  | global b => exact ⟨b, rfl, rfl⟩
  | memory | table | function => simp [hkind] at hmem

/-- A body is typed when its code gives back what its type says. -/
def Module.BodyTyped (m : Module) (b : Body) : Prop :=
  ∃ t, m.types[b.type]? = some t ∧ b.code.Typed (m.scope t b) 0 0 t.results

/-- The rules of a well-formed module: types stand once, every index that the module declares is in
range, no two exports share a name, and the bodies are typed. -/
structure Module.IsTyped (m : Module) : Prop where
  types_nodup : m.types.Nodup
  functionTypes : ∀ t ∈ m.functionTypes, t < m.types.length
  exports : ∀ e ∈ m.exports, e.function < m.functionTypes.length
  names_nodup : (m.exports.map (·.name)).Nodup
  bodies : ∀ b ∈ m.functions, m.BodyTyped b

/-- The limits that the machine puts on a module. -/
structure Module.WithinLimits (m : Module) : Prop where
  params : ∀ t ∈ m.types, t.params ≤ maxParams
  importNames : ∀ i ∈ m.imports, i.name.utf8ByteSize ≤ maxNameBytes
  pages : ∀ i ∈ m.imports, ∀ n, i.kind = .memory n → n ≤ maxPages
  exportNames : ∀ e ∈ m.exports, e.name.utf8ByteSize ≤ maxNameBytes
  locals : ∀ b ∈ m.functions, ∀ t, m.types[b.type]? = some t → t.params + b.locals ≤ maxLocals

theorem distinctNames_iff {names : List String} : distinctNames names = true ↔ names.Nodup := by
  induction names with
  | nil => simp [distinctNames]
  | cons name rest ih =>
    rw [distinctNames, Bool.and_eq_true, ih, List.nodup_cons]
    simp

theorem Module.checksBody_of_typed {m : Module} {b : Body} (hb : m.BodyTyped b)
    (hl : ∀ t, m.types[b.type]? = some t → t.params + b.locals ≤ maxLocals) :
    m.checksBody m.functionSpace b = true := by
  obtain ⟨t, ht, hcode⟩ := hb
  obtain ⟨h', hcheck, hexact⟩ := Code.check_of_typed hcode (h := .empty) rfl
  have hscope : { m.scope t b with functions := m.functionSpace } = m.scope t b := rfl
  rw [checksBody, ht]
  simp only [Bool.and_eq_true, decide_eq_true_iff, hscope, hcheck]
  exact ⟨hl t ht, hexact⟩

theorem Module.mem_importedFunctions {m : Module} {i : Import} {t : Nat} (hi : i ∈ m.imports)
    (ht : i.kind = .function t) : t ∈ m.importedFunctions := by
  rw [importedFunctions, List.mem_filterMap]
  exact ⟨i, hi, by rw [ht]⟩

/-- A well-typed module within the limits is accepted. -/
theorem Module.isValid_of_isTyped {m : Module} (ht : m.IsTyped) (hl : m.WithinLimits) :
    m.isValid = true := by
  rw [isValid]
  simp only [Bool.and_eq_true, List.all_eq_true, decide_eq_true_iff]
  refine ⟨⟨⟨⟨hl.params, fun i hi => ?_⟩, fun e he => ⟨ht.exports e he, hl.exportNames e he⟩⟩,
    distinctNames_iff.mpr ht.names_nodup⟩,
    fun b hb => checksBody_of_typed (ht.bodies b hb) (hl.locals b hb)⟩
  rw [checksImport, Bool.and_eq_true, decide_eq_true_iff]
  refine ⟨hl.importNames i hi, ?_⟩
  cases hk : i.kind with
  | memory n => exact decide_eq_true_iff.mpr (hl.pages i hi n hk)
  | function t =>
    refine decide_eq_true_iff.mpr (ht.functionTypes t ?_)
    exact List.mem_append_left _ (mem_importedFunctions hi hk)
  | table => rfl
  | global => rfl

/-- What is accepted keeps within the limits. -/
theorem Module.withinLimits_of_isValid {m : Module} (h : m.isValid = true) : m.WithinLimits := by
  rw [isValid] at h
  simp only [Bool.and_eq_true, List.all_eq_true, decide_eq_true_iff] at h
  obtain ⟨⟨⟨⟨hparams, himports⟩, hexports⟩, -⟩, hbodies⟩ := h
  refine ⟨hparams, fun i hi => ?_, fun i hi n hk => ?_, fun e he => (hexports e he).2,
    fun b hb t ht => ?_⟩
  · have := himports i hi
    rw [checksImport, Bool.and_eq_true, decide_eq_true_iff] at this
    exact this.1
  · have := himports i hi
    rw [checksImport, Bool.and_eq_true, hk] at this
    exact decide_eq_true_iff.mp this.2
  · have := hbodies b hb
    rw [checksBody, ht] at this
    simp only [Bool.and_eq_true, decide_eq_true_iff] at this
    exact this.1

end MutationAnalysis.Wasm
