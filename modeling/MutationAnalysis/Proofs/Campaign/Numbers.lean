/-
The numbers that functions tell their probes.

What a probe is told is worked out while code runs, from a constant that the lowering put there and
a global that linking bound, and is read as a number by the host.  What it means is looked up in a
list that was made of the same objects.  Both agree: under its number each function is listed, and
the numbers are those of the list, each of one function (`Numbering.AgreesWithProbes`).

* `Numbering.IsFoundBy.tellsProbes`: what the functions of an image tell;
* `Numbering.agreesWithProbes`: for all objects whose modules differ.
-/
import MutationAnalysis.Proofs.Campaign.Pruning
import MutationAnalysis.Proofs.Image.Telling

namespace MutationAnalysis

open Wasm Lowering

namespace Numbering

/-- The resolver finds the probes and the offsets, as that of an engine does. -/
def IsFoundBy (n : Numbering) (resolve : Resolver) : Prop :=
  ∀ name d, n.resolver name = some d → resolve name = some d

/-- The functions of objects tell their probes the numbers under which they are listed. -/
structure AgreesWithProbes (objects : List Object) : Prop where
  /-- In every image of the objects the function at the address of a name tells its probes its
  index, counted from the offset of its module. -/
  tells : ∀ pages generation resolve image cells maxDepth,
    (Numbering.of objects).IsFoundBy resolve →
    Image.link pages generation objects resolve = .ok image →
    ∀ (home i : Nat) (o : Object) (name : String), objects[home]? = some o →
      o.defined[i]? = some name →
      (∃ a, image.address? name = some a ∧ image.function? a = some (.defined home i)) ∧
      (image.linkage cells maxDepth).TellsProbes home i
        ((Numbering.of objects).recordedAs o.moduleId i)
  /-- There is a slot for the number, and it is not that of the outside. -/
  bounds : ∀ (home i : Nat) (o : Object) (name : String), objects[home]? = some o →
    o.defined[i]? = some name → 1 ≤ (Numbering.of objects).recordedAs o.moduleId i ∧
      (Numbering.of objects).recordedAs o.moduleId i < (Numbering.of objects).mappingSize
  /-- The function is listed under it. -/
  function : ∀ (home i : Nat) (o : Object) (name : String), objects[home]? = some o →
    o.defined[i]? = some name →
      (Numbering.of objects).function? ((Numbering.of objects).recordedAs o.moduleId i)
        = some ⟨o.moduleId, i, name⟩
  injective : ∀ (home home' i i' : Nat) (o o' : Object) (name name' : String),
    objects[home]? = some o → o.defined[i]? = some name →
    objects[home']? = some o' → o'.defined[i']? = some name' →
    (Numbering.of objects).recordedAs o.moduleId i
      = (Numbering.of objects).recordedAs o'.moduleId i' →
      home = home' ∧ i = i'
  surjective : ∀ number, 1 ≤ number → number < (Numbering.of objects).mappingSize →
    ∃ (home i : Nat) (o : Object) (name : String), objects[home]? = some o ∧
      o.defined[i]? = some name ∧
      (Numbering.of objects).recordedAs o.moduleId i = number

section

variable {objects : List Object} {resolve : Resolver} {home home' : Nat} {o o' : Object}

/-- Where modules differ, an object is the only one of its module. -/
theorem eq_of_moduleId (hmodules : (objects.map (·.moduleId)).Nodup) (ho : objects[home]? = some o)
    (ho' : objects[home']? = some o') (heq : o'.moduleId = o.moduleId) : home' = home := by
  obtain ⟨hlt, -⟩ := List.getElem?_eq_some_iff.mp ho'
  refine (List.getElem?_inj (by rwa [List.length_map]) hmodules).mp ?_
  rw [List.getElem?_map, List.getElem?_map, ho, ho', Option.map_some, Option.map_some, heq]

namespace IsFoundBy

theorem probes {n : Numbering} (h : n.IsFoundBy resolve) : resolve.Probes resolve :=
  ⟨fun _ _ => rfl, h _ _ rfl, h _ _ rfl⟩

theorem hasOffset (h : (Numbering.of objects).IsFoundBy resolve) (ho : o ∈ objects) :
    resolve.HasOffset (Numbering.of objects).offsetWord o.moduleId := by
  obtain ⟨offset, hoffset⟩ := exists_offset ho
  exact h _ _ (resolver_indexOffset hoffset)

/-- What the functions of objects with probes tell these, whatever else
the objects are linked with. -/
theorem tellsProbes (h : (Numbering.of objects).IsFoundBy resolve)
    {pages generation : Nat} {image : Image}
    (hlink : Image.link pages generation objects resolve = .ok image) (hprobes : o.HasProbes)
    (ho : objects[home]? = some o) {i : Nat} {name : String} (hi : o.defined[i]? = some name)
    (cells : Array Word) (maxDepth : Nat) :
    (image.linkage cells maxDepth).TellsProbes home i
      ((Numbering.of objects).recordedAs o.moduleId i) :=
  Image.tellsProbes_of_link hlink h.probes ho hprobes (h.hasOffset (List.mem_of_getElem? ho))
    hi cells maxDepth

end IsFoundBy

/-- Objects with probes whose modules differ, and which have fewer functions than there are words,
tell the numbers under which their functions are listed. -/
theorem agreesWithProbes (hprobes : ∀ o ∈ objects, o.HasProbes)
    (hmodules : (objects.map (·.moduleId)).Nodup)
    (hsize : (objects.flatMap (·.defined)).length < UInt32.size) : AgreesWithProbes objects := by
  have hslots : (Numbering.of objects).mappingSize ≤ UInt32.size := by
    rw [mappingSize_of]
    exact hsize
  have hfunction : ∀ (home i : Nat) (o : Object) (name : String), objects[home]? = some o →
      o.defined[i]? = some name →
      (Numbering.of objects).function? ((Numbering.of objects).recordedAs o.moduleId i)
        = some ⟨o.moduleId, i, name⟩ := fun home i o name ho hi =>
    function?_recordedAs ho hi (fun _ _ ho' => eq_of_moduleId hmodules ho ho') hslots
  refine ⟨?tells, ?bounds, hfunction, ?injective, ?surjective⟩
  case tells =>
    intro pages generation resolve image cells maxDepth hfound hlink home i o name ho hi
    obtain ⟨natives, hlinked⟩ := Image.isLinked_of_link hlink
    exact ⟨hlinked.placed ho hi,
      hfound.tellsProbes hlink (hprobes o (List.mem_of_getElem? ho)) ho hi cells maxDepth⟩
  case bounds =>
    intro home i o name ho hi
    obtain ⟨hne, hlt⟩ := lt_mappingSize (hfunction home i o name ho hi)
    exact ⟨Nat.one_le_iff_ne_zero.mpr hne, hlt⟩
  case injective =>
    -- the list gives a function back for its number
    intro home home' i i' o o' name name' ho hi ho' hi' heq
    have hlisted := hfunction home i o name ho hi
    rw [heq, hfunction home' i' o' name' ho' hi'] at hlisted
    obtain ⟨hmodule, hindex, -⟩ := TracedFunction.mk.inj (Option.some.inj hlisted)
    exact ⟨eq_of_moduleId hmodules ho' ho hmodule.symm, hindex.symm⟩
  case surjective =>
    -- and a number for its function, since it lists each function once
    intro number hpos hlt
    obtain ⟨home, i, o, name, ho, hi, hnumber⟩ := exists_function? hpos hlt
    exact ⟨home, i, o, name, ho, hi,
      eq_of_place hmodules (hfunction home i o name ho hi) hnumber rfl⟩

end

end Numbering

/-! ### Three modules -/

/-- A program without functions. -/
def functionless : Program := ⟨[], [], [], 1⟩

/-- The objects of three programs, the second of which has no function to be numbered. -/
def numberedObjects : List Object :=
  [(doubling, "m"), (functionless, "e"), (doublingTest, "n")].filterMap fun (p, moduleId) =>
    (Object.compile p moduleId true).toOption

theorem numberedObjects_agreesWithProbes : Numbering.AgreesWithProbes numberedObjects ∧
    numberedObjects.map (·.moduleId) = ["m", "e", "n"] ∧
    ∃ image, Image.link 1 0 numberedObjects (.withProbes (.of numberedObjects)) = .ok image ∧
      (image.linkage #[] 8).TellsProbes 0 0 1 ∧ (image.linkage #[] 8).TellsProbes 2 0 2 ∧
      (Numbering.of numberedObjects).function? 2 = some ⟨"n", 0, "check"⟩ := by
  have hprobes : ∀ o ∈ numberedObjects, o.HasProbes := by
    intro o ho
    obtain ⟨⟨p, moduleId⟩, -, hcompile⟩ := List.mem_filterMap.mp ho
    cases hresult : Object.compile p moduleId true with
    | error e => simp [hresult, Except.toOption] at hcompile
    | ok o' =>
      obtain rfl : o' = o := by simpa [hresult, Except.toOption] using hcompile
      exact ⟨p, moduleId, 1, hresult⟩
  have hmodules : numberedObjects.map (·.moduleId) = ["m", "e", "n"] := by decide +kernel
  have hagrees := Numbering.agreesWithProbes hprobes (by rw [hmodules]; decide) (by decide +kernel)
  obtain ⟨image, hlink, -⟩ := exists_of_any (p := fun _ => true)
    (x := Image.link 1 0 numberedObjects (.withProbes (.of numberedObjects))) (by decide +kernel)
  have htells : ∀ home name number, (numberedObjects[home]?.any fun o => o.defined[0]? = some name ∧
      (Numbering.of numberedObjects).recordedAs o.moduleId 0 = number) = true →
      (image.linkage #[] 8).TellsProbes home 0 number := by
    intro home name number hany
    obtain ⟨o, ho, hfirst⟩ := (Option.any_eq_true ..).mp hany
    obtain ⟨hname, rfl⟩ := of_decide_eq_true hfirst
    exact (hagrees.tells 1 0 _ image #[] 8 (fun _ _ => Resolver.withProbes_of_resolver) hlink
      home 0 o name ho hname).2
  exact ⟨hagrees, hmodules, image, hlink, htells 0 "double" 1 (by decide +kernel),
    htells 2 "check" 2 (by decide +kernel), by decide +kernel⟩

end MutationAnalysis
