/-
The index spaces of a compiled program.

`Layout.of` succeeds on valid programs, and what it gives is described by `Layout.Describes`: the
undefined callees with the signatures that the program declares for them, the cells, and every
needed type once.  From this follows what each index stands for.

* `Layout.exists_of_isValid`: valid programs have a layout;
* `Layout.Describes.types_typeIndex`: the index of a needed type is that type's;
* `Layout.Describes.functionIndex?_eq_some`: the functions defined come after the probes;
* `Layout.Describes.globalIndex?_of_mem_cells` and
  `globalIndex?_of_mem_undefined`: which global a name has.
-/
import MutationAnalysis.Lowering.Layout
import MutationAnalysis.Proofs.Distinct
import MutationAnalysis.Proofs.Program.Names
import MutationAnalysis.Proofs.Program.Validity

namespace MutationAnalysis

namespace Lowering

open Wasm

namespace Layout

variable {p : Program} {b : Bool} {l : Layout} {name : String}

/-- What a layout of a program consists of. -/
structure Describes (l : Layout) (p : Program) (probed : Bool) : Prop where
  program : l.program = p
  isInstrumented : l.isInstrumented = probed
  undefined : l.undefined.map (·.1) = p.undefinedSymbols
  signatures : ∀ u ∈ l.undefined, p.signature? u.1 = some u.2
  cells : l.cells = p.cells
  types : l.types = neededTypes p probed

theorem undefined_of_mapM {names : List String} {undefined : List (String × Signature)}
    (h : names.mapM (fun name => match p.signature? name with
      | some s => (.ok (name, s) : Except Defect _)
      | none => .error (.undeclared name)) = .ok undefined) :
    undefined.map (·.1) = names ∧ ∀ u ∈ undefined, p.signature? u.1 = some u.2 := by
  have hall := mapM_eq_ok.mp h
  clear h
  induction hall with
  | nil => simp
  | @cons name u _ _ hu _ ih =>
    cases hs : p.signature? name with
    | none =>
      rw [hs] at hu
      exact absurd hu (by simp)
    | some s =>
      rw [hs] at hu
      obtain rfl : (name, s) = u := by injection hu
      exact ⟨by rw [List.map_cons, ih.1], List.forall_mem_cons.mpr ⟨hs, ih.2⟩⟩

theorem describes_of (h : Layout.of p b = .ok l) : l.Describes p b := by
  rw [Layout.of, bind_eq_ok] at h
  obtain ⟨undefined, hmap, h⟩ := h
  obtain rfl : (⟨p, b, undefined, p.cells, neededTypes p b⟩ : Layout) = l := by injection h
  obtain ⟨hnames, hsignatures⟩ := undefined_of_mapM hmap
  exact ⟨rfl, rfl, hnames, hsignatures, rfl, rfl⟩

/-- Every direct callee of a valid program has a signature. -/
theorem exists_signature_of_call (hp : p.IsValid) {i : Instruction} (hi : i ∈ p.instructions)
    (hop : i.opcode = .call) (hc : i.callee = some name) : ∃ s, p.signature? name = some s := by
  obtain ⟨f, hf, hi⟩ := List.mem_flatMap.mp hi
  obtain ⟨block, hb, hi⟩ := List.mem_flatMap.mp hi
  cases ((hp.functions f hf).blocks block hb).fits i hi with
  | call _ hs =>
    obtain rfl : _ = name := by simpa [Instruction.callee, Opcode.isCall] using hc
    exact ⟨_, hs⟩
  | binary hop' =>
    simp only at hop
    rw [hop] at hop'
    exact absurd hop' (by simp [Opcode.isBinary])
  | unary hop' | branch hop' | branchIf hop' | unreachable hop' => simp_all
  | loadConst | store | callIndirect | retNothing | retValue => simp at hop

theorem exists_of_isValid (hp : p.IsValid) (b : Bool) : ∃ l, Layout.of p b = .ok l := by
  have : ∀ name ∈ p.undefinedSymbols, ∃ u, (match p.signature? name with
      | some s => (.ok (name, s) : Except Defect _)
      | none => .error (.undeclared name)) = .ok u := by
    intro name hname
    obtain ⟨i, hi, hop, hc, -⟩ := Program.mem_undefinedSymbols.mp hname
    obtain ⟨s, hs⟩ := exists_signature_of_call hp hi hop hc
    exact ⟨(name, s), by rw [hs]⟩
  obtain ⟨undefined, hmap⟩ := exists_mapM_eq_ok this
  exact ⟨_, bind_eq_ok.mpr ⟨undefined, hmap, rfl⟩⟩

namespace Describes

variable (h : l.Describes p b)

include h

theorem types_nodup : l.types.Nodup := by
  rw [h.types]
  exact nodup_eraseDups _

theorem mem_types {t : FuncType} : t ∈ l.types ↔
    (b = true ∧ t = probeType) ∨ (∃ f ∈ p.functions, funcType f.signature = t) ∨
      ∃ i ∈ p.instructions, neededType? p i = some t := by
  rw [h.types, neededTypes, List.mem_eraseDups, List.mem_append, List.mem_append, List.mem_map,
    List.mem_filterMap, or_assoc]
  cases b <;> simp

omit h in
theorem types_typeIndex {t : FuncType} (ht : t ∈ l.types) : l.types[l.typeIndex t]? = some t :=
  List.getElem?_idxOf ht

theorem funcType_mem {f : Function} (hf : f ∈ p.functions) : funcType f.signature ∈ l.types :=
  h.mem_types.mpr (.inr (.inl ⟨f, hf, rfl⟩))

theorem probeType_mem (hb : b = true) : probeType ∈ l.types :=
  h.mem_types.mpr (.inl ⟨hb, rfl⟩)

theorem neededType_mem {i : Instruction} {t : FuncType} (hi : i ∈ p.instructions)
    (ht : neededType? p i = some t) : t ∈ l.types :=
  h.mem_types.mpr (.inr (.inr ⟨i, hi, ht⟩))

theorem functionIndex?_eq_some (hp : p.IsValid) {i : Nat} {f : Function}
    (hf : p.functions[i]? = some f) : l.functionIndex? f.name = some (l.probes + i) := by
  obtain ⟨hi, hget⟩ := List.getElem?_eq_some_iff.mp hf
  have hlen : p.functions.length - 1 - i < p.functions.reverse.length := by
    rw [List.length_reverse]
    omega
  have hidx : p.functions.reverse.findIdx? (·.name == f.name)
      = some (p.functions.length - 1 - i) := by
    rw [List.findIdx?_eq_some_iff_getElem]
    refine ⟨hlen, ?_, fun j hj => ?_⟩
    · rw [List.getElem_reverse]
      have : p.functions.length - 1 - (p.functions.length - 1 - i) = i := by omega
      simp only [this, hget, beq_self_eq_true]
    · have hj' : p.functions.length - 1 - j < p.functions.length := by omega
      rw [List.getElem_reverse]
      have hne : p.functions[p.functions.length - 1 - j].name ≠ f.name := fun heq => by
        have := Program.index_unique hp.names_nodup (List.getElem?_eq_getElem hj') hf heq
        omega
      simpa using hne
  rw [functionIndex?, h.program, hidx]
  show some (l.probes + (p.functions.length - 1 - (p.functions.length - 1 - i))) = _
  congr 2
  omega

theorem functionIndex?_eq_none (hname : p.function? name = none) :
    l.functionIndex? name = none := by
  have : p.functions.reverse.findIdx? (·.name == name) = none := by
    rw [List.findIdx?_eq_none_iff]
    intro f hf
    simpa using Program.function?_eq_none.mp hname f (List.mem_reverse.mp hf)
  rw [functionIndex?, h.program, this]
  rfl

/-- A cell has the global after all addresses that is its own. -/
theorem globalIndex?_of_mem_cells (hname : name ∈ p.cells) :
    ∃ i : Nat, l.cells[i]? = some name ∧ l.globalIndex? name = some (l.undefined.length + i) := by
  rw [← h.cells] at hname
  refine ⟨l.cells.idxOf name, List.getElem?_idxOf hname, ?_⟩
  have hidx : l.cells.idxOf? name = some (l.cells.idxOf name) := by
    rw [List.idxOf?_eq_some_iff]
    exact ⟨List.idxOf_lt_length_of_mem hname, by simp,
      fun j hj => by simpa using List.not_of_lt_findIdx hj⟩
  rw [globalIndex?, hidx]

/-- A name that is no cell has the global of its address. -/
theorem globalIndex?_of_mem_undefined (hname : name ∈ p.undefinedSymbols)
    (hcell : name ∉ p.cells) :
    ∃ (i : Nat) (s : Signature), l.undefined[i]? = some (name, s) ∧ p.signature? name = some s ∧
      l.globalIndex? name = some i := by
  rw [← h.undefined] at hname
  obtain ⟨u, hu, rfl⟩ := List.mem_map.mp hname
  have hidx : l.cells.idxOf? u.1 = none := by
    rw [List.idxOf?_eq_none_iff, h.cells]
    exact hcell
  cases hfind : l.undefined.findIdx? (·.1 == u.1) with
  | none =>
    rw [List.findIdx?_eq_none_iff] at hfind
    exact absurd (hfind u hu) (by simp)
  | some i =>
    obtain ⟨hi, hname, -⟩ := List.findIdx?_eq_some_iff_getElem.mp hfind
    have hfst : l.undefined[i].1 = u.1 := by simpa using hname
    refine ⟨i, l.undefined[i].2, ?_, ?_, ?_⟩
    · rw [List.getElem?_eq_getElem hi, ← hfst]
    · rw [← hfst]
      exact h.signatures _ (List.getElem_mem hi)
    · rw [globalIndex?, hidx]
      exact hfind

end Describes

end Layout

end Lowering

end MutationAnalysis
