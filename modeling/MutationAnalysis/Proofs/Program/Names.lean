/-
Names of a program.

Sorted lists of names are strictly ascending and keep every name, so the undefined callees and the
cells of a program stand once each in the lists that the lowering numbers.  In a program of distinct
function names, looking a function up by its name finds it at its own index.
-/
import MutationAnalysis.Program.Basic
import Mathlib.Data.List.Basic
import Mathlib.Tactic.Common

namespace MutationAnalysis

/-- What is read of the entries of a list stays when one is replaced by
another of which the same is read. -/
theorem map_set_eq {α β : Type} {f : α → β} {l : List α} {k : Nat} {a b : α} (ha : l[k]? = some a)
    (hb : f b = f a) : (l.set k b).map f = l.map f := by
  obtain ⟨hk, rfl⟩ := List.getElem?_eq_some_iff.mp ha
  rw [List.map_set, hb, ← List.getElem_map f, List.set_getElem_self]
  rwa [List.length_map]

theorem mem_insertName {x name : String} {names : List String} :
    x ∈ insertName name names ↔ x = name ∨ x ∈ names := by
  induction names with
  | nil => simp [insertName]
  | cons n rest ih =>
    rw [insertName]
    split
    · rw [List.mem_cons]
    · split
      · rename_i heq
        rw [heq, List.mem_cons]
        exact ⟨.inr, fun h => h.elim .inl id⟩
      · rw [List.mem_cons, ih, List.mem_cons]
        exact ⟨fun h => by tauto, fun h => by tauto⟩

theorem pairwise_insertName {name : String} {names : List String}
    (h : names.Pairwise (· < ·)) : (insertName name names).Pairwise (· < ·) := by
  induction names with
  | nil => simp [insertName]
  | cons n rest ih =>
    rw [List.pairwise_cons] at h
    rw [insertName]
    split
    · rename_i hlt
      refine List.pairwise_cons.mpr ⟨fun x hx => ?_, List.pairwise_cons.mpr h⟩
      rcases List.mem_cons.mp hx with rfl | hx
      · exact hlt
      · exact String.lt_trans hlt (h.1 x hx)
    · split
      · exact List.pairwise_cons.mpr h
      · rename_i hnot hne
        refine List.pairwise_cons.mpr ⟨fun x hx => ?_, ih h.2⟩
        rcases mem_insertName.mp hx with rfl | hx
        · have hle : n ≤ x := String.not_lt.mp hnot
          by_contra hlt
          exact hne (String.le_antisymm (String.not_lt.mp hlt) hle)
        · exact h.1 x hx

theorem foldl_insertName {x : String} {names acc : List String} :
    x ∈ names.foldl (fun acc name => insertName name acc) acc ↔ x ∈ names ∨ x ∈ acc := by
  induction names generalizing acc with
  | nil => simp
  | cons n rest ih =>
    rw [List.foldl_cons, ih, mem_insertName, List.mem_cons]
    exact ⟨fun h => by tauto, fun h => by tauto⟩

theorem mem_sortedNames {x : String} {names : List String} : x ∈ sortedNames names ↔ x ∈ names := by
  rw [sortedNames, foldl_insertName]
  simp

/-- Sorted names are strictly ascending. -/
theorem pairwise_sortedNames (names : List String) : (sortedNames names).Pairwise (· < ·) := by
  suffices ∀ acc : List String, acc.Pairwise (· < ·) →
      (names.foldl (fun acc name => insertName name acc) acc).Pairwise (· < ·) from this [] .nil
  induction names with
  | nil => exact fun acc h => h
  | cons n rest ih => exact fun acc h => ih _ (pairwise_insertName h)

theorem nodup_sortedNames (names : List String) : (sortedNames names).Nodup := by
  refine (pairwise_sortedNames names).imp fun {a b} hlt => ?_
  rintro rfl
  exact String.lt_irrefl a hlt

/-- Each sorted name is at its own number. -/
theorem idxOf_sortedNames {names : List String} {name : String} {i : Nat}
    (h : (sortedNames names)[i]? = some name) : (sortedNames names).idxOf name = i := by
  obtain ⟨hi, rfl⟩ := List.getElem?_eq_some_iff.mp h
  exact List.Nodup.idxOf_getElem (nodup_sortedNames names) i hi

namespace Program

/-- The names of a program's functions. -/
def names (p : Program) : List String := p.functions.map (·.name)

variable {p : Program} {name : String} {f : Function} {i : Nat}

theorem mem_undefinedSymbols : name ∈ p.undefinedSymbols ↔
    ∃ i ∈ p.instructions, i.opcode = .call ∧ i.callee = some name ∧ p.function? name = none := by
  rw [undefinedSymbols, mem_sortedNames, List.mem_filterMap]
  refine exists_congr fun i => and_congr_right fun _ => ?_
  by_cases hop : i.opcode = .call
  · rw [if_pos hop, Option.filter_eq_some_iff]
    simp [hop]
  · simp [hop]

theorem mem_cells : name ∈ p.cells ↔
    ∃ i ∈ p.instructions, i.opcode = .callIndirect ∧ i.callee = some name := by
  rw [cells, mem_sortedNames, List.mem_filterMap]
  refine exists_congr fun i => and_congr_right fun _ => ?_
  by_cases hop : i.opcode = .callIndirect <;> simp [hop]

theorem mem_instructions {i : Instruction} {b : Block} (hf : f ∈ p.functions)
    (hb : b ∈ f.blocks) (hi : i ∈ b.instructions) : i ∈ p.instructions :=
  List.mem_flatMap.mpr ⟨f, hf, List.mem_flatMap.mpr ⟨b, hb, hi⟩⟩

theorem function?_eq_none : p.function? name = none ↔ ∀ f ∈ p.functions, f.name ≠ name := by
  simp [function?]

theorem name_of_function? (h : p.function? name = some f) : f.name = name := by
  simpa using List.find?_some h

theorem mem_of_function? (h : p.function? name = some f) : f ∈ p.functions :=
  List.mem_of_find?_eq_some h

/-- The index of a name is its place among the names. -/
theorem functionIndex?_eq_findIdx? (p : Program) (name : String) :
    p.functionIndex? name = (p.functions.map (·.name)).findIdx? (· == name) := by
  rw [functionIndex?, List.findIdx?_map]
  rfl

/-- Names that are added last do not hide others. -/
theorem functionIndex?_append {p' : Program} {added : List String}
    (hnames : p'.functions.map (·.name) = p.functions.map (·.name) ++ added)
    (hname : name ∉ added) :
    p'.functionIndex? name = p.functionIndex? name := by
  have hadded : added.findIdx? (· == name) = none := by
    rw [List.findIdx?_eq_none_iff]
    intro n hn
    simp only [beq_eq_false_iff_ne, ne_eq]
    rintro rfl
    exact hname hn
  rw [functionIndex?_eq_findIdx?, functionIndex?_eq_findIdx?, hnames, List.findIdx?_append, hadded,
    Option.map_none, Option.or_none]

theorem functionIndex?_eq_none : p.functionIndex? name = none ↔ p.function? name = none := by
  rw [functionIndex?, List.findIdx?_eq_none_iff, function?_eq_none]
  simp

/-- Where names are distinct, a name leads to one index only. -/
theorem index_unique (hnames : (p.functions.map (·.name)).Nodup) {i j : Nat} {f g : Function}
    (hf : p.functions[i]? = some f) (hg : p.functions[j]? = some g) (hname : f.name = g.name) :
    i = j := by
  obtain ⟨hi, -⟩ := List.getElem?_eq_some_iff.mp hf
  refine (List.getElem?_inj (by simpa using hi) hnames).mp ?_
  rw [List.getElem?_map, List.getElem?_map, hf, hg, Option.map_some, Option.map_some, hname]

theorem functionIndex?_eq_some (hnames : (p.functions.map (·.name)).Nodup)
    (hf : p.functions[i]? = some f) : p.functionIndex? f.name = some i := by
  obtain ⟨hi, hget⟩ := List.getElem?_eq_some_iff.mp hf
  rw [functionIndex?, List.findIdx?_eq_some_iff_getElem]
  refine ⟨hi, by simp [hget], fun j hj => ?_⟩
  have hne : p.functions[j].name ≠ f.name := fun heq =>
    absurd
    (index_unique hnames (List.getElem?_eq_getElem (Nat.lt_trans hj hi)) hf heq) (Nat.ne_of_lt hj)
  simpa using hne

theorem exists_of_functionIndex? (h : p.functionIndex? name = some i) :
    ∃ f, p.functions[i]? = some f ∧ f.name = name := by
  rw [functionIndex?, List.findIdx?_eq_some_iff_getElem] at h
  obtain ⟨hlt, hfound, -⟩ := h
  exact ⟨_, List.getElem?_eq_getElem hlt, by simpa using hfound⟩

theorem function?_eq_some (hnames : (p.functions.map (·.name)).Nodup)
    (hf : p.functions[i]? = some f) : p.function? f.name = some f := by
  obtain ⟨hi, -⟩ := List.getElem?_eq_some_iff.mp hf
  cases h : p.function? f.name with
  | none => exact absurd rfl (function?_eq_none.mp h f (List.mem_of_getElem? hf))
  | some g =>
    obtain ⟨j, hj⟩ := List.mem_iff_getElem?.mp (mem_of_function? h)
    have := index_unique hnames hf hj (name_of_function? h).symm
    rw [← this, hf] at hj
    exact hj.symm

/-- Where names are distinct, one function only has the name of a function. -/
theorem filter_name_eq (hnames : p.names.Nodup) (hf : f ∈ p.functions) :
    p.functions.filter (·.name == f.name) = [f] := by
  have hall : ∀ functions : List Function, (functions.map (·.name)).Nodup → f ∈ functions →
      functions.filter (·.name == f.name) = [f] := by
    intro functions hnames hf
    induction functions with
    | nil => cases hf
    | cons g rest ih =>
      rw [List.map_cons, List.nodup_cons] at hnames
      rcases List.mem_cons.mp hf with rfl | hf
      · have hrest : rest.filter (·.name == f.name) = [] := by
          refine List.filter_eq_nil_iff.mpr fun g hg heq => hnames.1 ?_
          exact beq_iff_eq.mp heq ▸ List.mem_map_of_mem hg
        rw [List.filter_cons_of_pos (by simp), hrest]
      · rw [List.filter_cons_of_neg, ih hnames.2 hf]
        intro heq
        exact hnames.1 (beq_iff_eq.mp heq ▸ List.mem_map_of_mem hf)
  exact hall p.functions hnames hf

theorem exists_index_of_function? (h : p.function? name = some f) :
    ∃ i : Nat, p.functions[i]? = some f ∧ f.name = name := by
  obtain ⟨i, hi⟩ := List.mem_iff_getElem?.mp (mem_of_function? h)
  exact ⟨i, hi, name_of_function? h⟩

theorem signature?_of_function? (h : p.function? name = some f) :
    p.signature? name = some f.signature := by
  rw [signature?, h]

/-- Programs that declare the same and have the same names at the same places, with the same
signatures, call under a name alike. -/
theorem signature?_congr {p' : Program} (hnames : (p'.functions.map (·.name)).Nodup)
    (hdeclarations : p'.declarations = p.declarations)
    (hindex : p'.functionIndex? name = p.functionIndex? name)
    (hfunction : ∀ (i : Nat) (f : Function), p.functions[i]? = some f → ∃ g,
      p'.functions[i]? = some g ∧
      g.name = f.name ∧ g.signature = f.signature) : p'.signature? name = p.signature? name := by
  cases hf : p.function? name with
  | none =>
    have hf' : p'.function? name = none := by
      rw [← functionIndex?_eq_none, hindex, functionIndex?_eq_none, hf]
    rw [signature?, signature?, hf, hf', hdeclarations]
  | some f =>
    obtain ⟨i, hi, rfl⟩ := exists_index_of_function? hf
    obtain ⟨g, hg, hgname, hsignature⟩ := hfunction i f hi
    have hfound := function?_eq_some hnames hg
    rw [hgname] at hfound
    rw [signature?_of_function? hf, signature?_of_function? hfound, hsignature]

/-- A constructor of one program is one of another program that has the same names at the same
places, with the same signatures. -/
theorem exists_constructor {p' : Program} (hnames : (p'.functions.map (·.name)).Nodup)
    (hfunction : ∀ (i : Nat) (f : Function), p.functions[i]? = some f → ∃ g,
      p'.functions[i]? = some g ∧
      g.name = f.name ∧ g.signature = f.signature)
    (h : ∃ f, p.function? name = some f ∧ f.numParams = 0) :
    ∃ g, p'.function? name = some g ∧ g.numParams = 0 := by
  obtain ⟨f, hf, hparams⟩ := h
  obtain ⟨i, hi, rfl⟩ := exists_index_of_function? hf
  obtain ⟨g, hg, hgname, hgsignature⟩ := hfunction i f hi
  exact ⟨g, hgname ▸ function?_eq_some hnames hg,
    (congrArg Signature.numParams hgsignature).trans hparams⟩

end Program

end MutationAnalysis
