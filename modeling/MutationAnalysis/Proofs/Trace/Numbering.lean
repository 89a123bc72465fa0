/-
Numbers of functions.

Objects are numbered one after the other, so the functions stand in the order of the
objects that define them.  Where objects have different identifiers, a function's place in
its module has but one number.

* `Numbering.functions_of`: the functions in order of their numbers;
* `Numbering.eq_of_place`: two numbers of one place are the same;
* `Numbering.function?_of_offset`: the number of a function, counted from the offset of its module;
* `Numbering.exists_function?`: each number is that of a function;
* `Trace.nodup_testees`: a trace lists no place twice.
-/
import MutationAnalysis.Proofs.Trace.CallTree
import MutationAnalysis.Trace.Tracer
import Mathlib.Data.List.Nodup
import Mathlib.Tactic.Common

namespace MutationAnalysis

/-- Where a function stands: its module and its index there. -/
def TracedFunction.place (f : TracedFunction) : String × Nat := (f.moduleId, f.localIndex)

namespace Numbering

variable {objects : List Object}

/-- The functions of an object that are numbered. -/
def ofObject (o : Object) : List TracedFunction :=
  o.defined.zipIdx.map fun (name, i) => ⟨o.moduleId, i, name⟩

theorem functions_of (objects : List Object) :
    (Numbering.of objects).functions.toList = objects.flatMap ofObject := by
  have hfold : ∀ (objects : List Object) (n : Numbering),
      (objects.foldl (fun n o => n.add o.moduleId o.defined) n).functions.toList
        = n.functions.toList ++ objects.flatMap ofObject := by
    intro objects
    induction objects with
    | nil => exact fun n => (List.append_nil _).symm
    | cons o rest ih =>
      intro n
      rw [List.foldl_cons, ih, List.flatMap_cons, ← List.append_assoc, add, Array.toList_append]
      rfl
  exact hfold objects ⟨[], #[]⟩

theorem places_ofObject (o : Object) :
    (ofObject o).map TracedFunction.place = (List.range o.defined.length).map (o.moduleId, ·) := by
  rw [List.range_eq_range', ← List.zipIdx_map_snd, List.map_map, ofObject, List.map_map]
  rfl

/-- Objects of different identifiers have no place in common. -/
theorem nodup_places (h : (objects.map (·.moduleId)).Nodup) :
    ((Numbering.of objects).functions.toList.map TracedFunction.place).Nodup := by
  rw [functions_of, List.map_flatMap, List.nodup_flatMap]
  constructor
  · intro o _
    rw [places_ofObject]
    exact List.nodup_range.map fun i j hij => (Prod.mk.inj hij).2
  · rw [List.Nodup, List.pairwise_map] at h
    refine h.imp fun {o o'} hne => ?_
    show List.Disjoint ((ofObject o).map _) ((ofObject o').map _)
    intro place hplace hplace'
    rw [places_ofObject] at hplace hplace'
    obtain ⟨i, -, rfl⟩ := List.mem_map.mp hplace
    obtain ⟨j, -, heq⟩ := List.mem_map.mp hplace'
    exact hne (Prod.mk.inj heq).1.symm

/-- A place has one number. -/
theorem eq_of_place (h : (objects.map (·.moduleId)).Nodup) {m n : Nat} {f g : TracedFunction}
    (hf : (Numbering.of objects).function? m = some f)
    (hg : (Numbering.of objects).function? n = some g) (hplace : f.place = g.place) : m = n := by
  have hposition : ∀ k f, (Numbering.of objects).function? k = some f → k ≠ 0 ∧
      ((Numbering.of objects).functions.toList.map TracedFunction.place)[k - 1]?
        = some f.place := by
    intro k f hk
    rw [function?] at hk
    split at hk
    · cases hk
    · rename_i hzero
      rw [List.getElem?_map, Array.getElem?_toList, hk]
      exact ⟨hzero, rfl⟩
  obtain ⟨hm, hf⟩ := hposition m f hf
  obtain ⟨hn, hg⟩ := hposition n g hg
  have hlt := (List.getElem?_eq_some_iff.mp hf).1
  have heq : m - 1 = n - 1 := (List.getElem?_inj hlt (nodup_places h)).mp (by rw [hf, hg, hplace])
  omega

/-- Each object that is numbered adds an offset of its module. -/
theorem exists_offsets (objects : List Object) (n : Numbering) : ∃ added,
    (objects.foldl (fun n o => n.add o.moduleId o.defined) n).offsets = n.offsets ++ added ∧
      added.map (·.1) = objects.map (·.moduleId) := by
  induction objects generalizing n with
  | nil => exact ⟨[], (List.append_nil _).symm, rfl⟩
  | cons o rest ih =>
    obtain ⟨added, hoffsets, hmodules⟩ := ih (n.add o.moduleId o.defined)
    refine ⟨(o.moduleId, n.functions.size + 1) :: added, ?_, ?_⟩
    · rw [List.foldl_cons, hoffsets, add, List.append_assoc]
      rfl
    · rw [List.map_cons, List.map_cons, hmodules]

/-- Every module that is numbered has an offset. -/
theorem exists_offset {o : Object} (ho : o ∈ objects) :
    ∃ offset, (Numbering.of objects).offset? o.moduleId = some offset := by
  obtain ⟨added, hoffsets, hmodules⟩ := exists_offsets objects ⟨[], #[]⟩
  have hmem : o.moduleId ∈ (Numbering.of objects).offsets.reverse.map (·.1) := by
    rw [List.map_reverse, List.mem_reverse, of, hoffsets, List.nil_append, hmodules]
    exact List.mem_map_of_mem ho
  rw [offset?]
  cases hlookup : (Numbering.of objects).offsets.reverse.lookup o.moduleId with
  | some offset => exact ⟨offset, rfl⟩
  | none =>
    obtain ⟨e, he, heq⟩ := List.mem_map.mp hmem
    exact absurd (beq_iff_eq.mpr heq.symm) (by simpa using List.lookup_eq_none_iff.mp hlookup e he)

/-- A function has the number of its index, counted from the offset of its module, if no
other object is of that module. -/
theorem function?_of_offset {j i : Nat} {o : Object} {name : String} (hj : objects[j]? = some o)
    (hi : o.defined[i]? = some name)
    (hunique : ∀ (k : Nat) (o' : Object), objects[k]? = some o' → o'.moduleId = o.moduleId → k = j)
    {offset : Nat} (hoffset : (Numbering.of objects).offset? o.moduleId = some offset) :
    (Numbering.of objects).function? (offset + i) = some ⟨o.moduleId, i, name⟩ := by
  obtain ⟨hlt, rfl⟩ := List.getElem?_eq_some_iff.mp hj
  have hsplit : objects = objects.take j ++ objects[j] :: objects.drop (j + 1) := by
    rw [← List.drop_eq_getElem_cons hlt, List.take_append_drop]
  generalize hpre : objects.take j = pre at hsplit
  generalize hpost : objects.drop (j + 1) = post at hsplit
  generalize objects[j] = o at hj hi hunique hoffset hsplit
  -- no object after this one is of its module
  have hlater : ∀ o' ∈ post, o'.moduleId ≠ o.moduleId := by
    intro o' ho' heq
    obtain ⟨k, hk⟩ := List.mem_iff_getElem?.mp ho'
    rw [← hpost, List.getElem?_drop] at hk
    have := hunique _ o' hk heq
    omega
  have hsize : (Numbering.of pre).functions.size = (pre.flatMap ofObject).length := by
    rw [← functions_of, Array.length_toList]
  have hof : Numbering.of objects = post.foldl (fun n o => n.add o.moduleId o.defined)
      ((Numbering.of pre).add o.moduleId o.defined) := by
    rw [hsplit, of, List.foldl_append]
    rfl
  obtain ⟨added, hoffsets, hmodules⟩ :=
    exists_offsets post ((Numbering.of pre).add o.moduleId o.defined)
  have hadded : added.reverse.lookup o.moduleId = none := by
    rw [List.lookup_eq_none_iff]
    intro e he
    have hmem : e.1 ∈ post.map (·.moduleId) :=
      hmodules ▸ List.mem_map_of_mem (List.mem_reverse.mp he)
    obtain ⟨o', ho', heq⟩ := List.mem_map.mp hmem
    simpa [heq] using (hlater o' ho').symm
  obtain rfl : (Numbering.of pre).functions.size + 1 = offset := by
    rw [offset?, hof, hoffsets, List.reverse_append, List.lookup_append, hadded, add,
      List.reverse_append] at hoffset
    simpa using hoffset
  have hself : (ofObject o)[i]? = some ⟨o.moduleId, i, name⟩ := by
    rw [ofObject, List.getElem?_map, List.getElem?_zipIdx, hi, Nat.zero_add]
    rfl
  have hindex : (pre.flatMap ofObject).length + 1 + i - 1
      = (pre.flatMap ofObject).length + i := by omega
  rw [function?, if_neg (by omega), ← Array.getElem?_toList, functions_of, hsplit,
    List.flatMap_append,
    List.flatMap_cons, hsize, hindex, List.getElem?_append_right (Nat.le_add_right _ _),
    Nat.add_sub_cancel_left, List.getElem?_append_left (List.getElem?_eq_some_iff.mp hself).1,
    hself]

theorem lt_mappingSize {n : Numbering} {k : Nat} {f : TracedFunction} (h : n.function? k = some f) :
    k ≠ 0 ∧ k < n.mappingSize := by
  rw [function?] at h
  split at h
  · cases h
  · rename_i hzero
    have hlt := (Array.getElem?_eq_some_iff.mp h).1
    rw [mappingSize]
    exact ⟨hzero, by omega⟩

theorem mappingSize_of (objects : List Object) :
    (Numbering.of objects).mappingSize = (objects.flatMap (·.defined)).length + 1 := by
  rw [mappingSize, ← Array.length_toList, functions_of, List.length_flatMap, List.length_flatMap]
  simp [ofObject]

/-- Every number below the number of slots, except that of the outside, is one
of a function of an object. -/
theorem exists_function? {k : Nat} (hpos : 1 ≤ k) (hlt : k < (Numbering.of objects).mappingSize) :
    ∃ (j i : Nat) (o : Object) (name : String), objects[j]? = some o ∧ o.defined[i]? = some name ∧
      (Numbering.of objects).function? k = some ⟨o.moduleId, i, name⟩ := by
  rw [mappingSize] at hlt
  have hk : k - 1 < (Numbering.of objects).functions.size := by omega
  have hfunction : (Numbering.of objects).function? k
      = some (Numbering.of objects).functions[k - 1] := by
    rw [function?, if_neg (by omega), Array.getElem?_eq_getElem hk]
  have hmem := Array.getElem_mem_toList hk
  rw [functions_of] at hmem
  obtain ⟨o, ho, hobject⟩ := List.mem_flatMap.mp hmem
  obtain ⟨⟨name, i⟩, hname, heq⟩ := List.mem_map.mp hobject
  obtain ⟨j, hj⟩ := List.mem_iff_getElem?.mp ho
  exact ⟨j, i, o, name, hj, List.mk_mem_zipIdx_iff_getElem?.mp hname, by rw [hfunction, ← heq]⟩

end Numbering

/-- A trace lists no place twice. -/
theorem Trace.nodup_testees {objects : List Object} (h : (objects.map (·.moduleId)).Nodup)
    {t : Trace} (ht : t.callTree.IsGrown) (entry : String) (maxDistance : Nat) :
    ((t.testees (.of objects) entry maxDistance).map fun f => f.1.place).Nodup := by
  have hnodup := CallTree.nodup_testees ht (((Numbering.of objects).number? entry).getD 0)
    maxDistance
  rw [List.Nodup, List.pairwise_map] at hnodup
  rw [testees, List.Nodup, List.pairwise_map, List.pairwise_filterMap]
  refine hnodup.imp fun {a a'} hne b hb b' hb' hplace => hne ?_
  obtain ⟨f, hf, rfl⟩ := Option.map_eq_some_iff.mp hb
  obtain ⟨f', hf', rfl⟩ := Option.map_eq_some_iff.mp hb'
  exact Numbering.eq_of_place h hf hf' hplace

end MutationAnalysis
