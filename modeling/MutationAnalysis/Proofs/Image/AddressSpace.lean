/-
One address space for all objects.

Addresses are given out before any object is linked, so an object may ask for the address of a
function whose object comes later.  When all objects are linked, each function is where its address
says, the host's functions that were asked for come after them, one entry each, and every object
finds the same address under the same name (`Image.HasAddressSpace`).

* `Image.IsLinked.function?_eq_host_iff`: a function of the host has one address;
* `Image.IsLinked.exported?_eq_some`: what an instance exports is what its address leads to;
* `Image.IsLinked.exists_finds`: what the imports of an object are bound to;
* `Loader.exists_addressSpace_of_load`: all of it, for a load that succeeds.
-/
import MutationAnalysis.Proofs.Image.Realization

namespace MutationAnalysis

open Wasm Lowering

/-! ### Compiled objects -/

namespace Object

/-- The object comes of a program that was compiled, as every object of a campaign does. -/
def IsCompiled (o : Object) : Prop :=
  ∃ p moduleId isInstrumented minPages, compileWith p moduleId isInstrumented minPages = .ok o

variable {o : Object}

theorem IsCompiled.exists_comes (h : o.IsCompiled) : ∃ c p moduleId probed minPages l,
    CompiledProgram.Comes c p moduleId probed minPages l ∧ o.code = c.code ∧ o.defined = c.defined ∧
      o.undefined = c.undefined := by
  obtain ⟨p, moduleId, probed, minPages, hcompile⟩ := h
  obtain ⟨c, hc, -, rfl⟩ := compileWith_eq_ok.mp hcompile
  obtain ⟨l, hl⟩ := Program.comes_of_compile hc
  exact ⟨c, p, moduleId, probed, minPages, l, hl, rfl, rfl, rfl⟩

/-- A compiled object knows how it calls what it asks the address of. -/
theorem IsCompiled.exists_expectedSignature (h : o.IsCompiled) {i : Import}
    (hi : i ∈ o.code.importedGlobals) (hspace : i.space = SymbolName.addresses) :
    ∃ s, o.expectedSignature i.name = some s := by
  obtain ⟨c, p, moduleId, probed, minPages, l, hc, hcode, -, hundefined⟩ := h.exists_comes
  have henvironment : SymbolName.environment ≠ SymbolName.addresses := by decide
  have hname : ∃ u ∈ l.undefined, u.1 = i.name := by
    rw [hcode, hc.importedGlobals, List.mem_append, List.mem_append] at hi
    rcases hi with (hi | hi) | hi
    · obtain ⟨u, hu, rfl⟩ := List.mem_map.mp hi
      exact ⟨u, hu, rfl⟩
    · obtain ⟨cell, -, rfl⟩ := List.mem_map.mp hi
      exact absurd hspace henvironment
    · split at hi
      · obtain rfl := List.mem_singleton.mp hi
        exact absurd hspace henvironment
      · cases hi
  obtain ⟨u, hu, hname⟩ := hname
  rw [expectedSignature, hundefined, hc.undefined]
  cases hfind : l.undefined.find? (·.1 == i.name) with
  | none => exact absurd (List.find?_eq_none.mp hfind u hu) (by simp [hname])
  | some v => exact ⟨v.2, rfl⟩

end Object

/-! ### Functions that are bound -/

/-- Every function that a module imports is bound to one. -/
theorem Linking.length_boundFunctions {symbols : List (String × Nat)} {natives : List Native}
    {resolve : Resolver} {o : Object} {imports : List Import} {bindings : List Binding}
    (h : List.Forall₂ (Binds symbols natives resolve o) imports bindings) :
    (bindings.filterMap boundFunction?).length
      = (imports.filterMap fun i => match i.kind with
          | .function type => some type
          | _ => none).length := by
  induction h with
  | nil => rfl
  | @cons i b _ _ hb _ ih =>
    rw [List.filterMap_cons, List.filterMap_cons]
    cases hb with
    | function hkind hn =>
      simp only [hkind, boundFunction?, List.length_cons, ih]
    | memory hkind | table hkind | address hkind | cell hkind | constant hkind =>
      simp only [hkind, boundFunction?]
      exact ih

namespace Image

open Linking

/-- The function that the instance of an object exports under a name. -/
def exported? (image : Image) (objects : List Object) (j : Nat) (name : String) :
    Option (FuncRef Native) := do
  let o ← objects[j]?
  let inst ← image.instances[j]?
  let e ← o.code.exports.find? (·.name == name)
  inst.functions[e.function]?

/-- What an instance has for its global of an index. -/
def global? (image : Image) (j k : Nat) : Option GlobalRef := do
  let inst ← image.instances[j]?
  inst.globals[k]?

/-- The address under which an object finds a name: that of the function defined under it,
whichever object defines it, or else what the resolver says.  A function of the host has the
signature with which the object calls it. -/
inductive Finds (image : Image) (resolve : Resolver) (o : Object) (name : String) (a : Nat) : Prop
  | defined (h : image.address? name = some a)
  | given (hnone : image.address? name = none) (h : resolve name = some (.address a))
  | native {n : Native} (hnone : image.address? name = none) (h : resolve name = some (.native n))
      (hfunction : image.function? a = some (.host n))
      (hsignature : ∀ s, o.expectedSignature name = some s → s = n.signature)
      (hexpected : o.IsCompiled → o.expectedSignature name = some n.signature)

/-- What addresses mean in an image of objects. -/
structure HasAddressSpace (image : Image) (objects : List Object) (resolve : Resolver) : Prop where
  /-- The functions that the objects define are numbered in order, from one on. -/
  address?_eq_some : ∀ name a, image.address? name = some a ↔
    ∃ i : Nat, (objects.flatMap (·.defined))[i]? = some name ∧ a = i + 1
  address?_inj : ∀ name name' a,
    image.address? name = some a → image.address? name' = some a → name = name'
  address?_eq_none : ∀ name, image.address? name = none ↔ ∀ o ∈ objects, name ∉ o.defined
  /-- The address of a name leads to the function that is exported under it. -/
  function?_eq_some : ∀ name a, image.address? name = some a → ∃ (j : Nat) (o : Object) (ref : _),
    objects[j]? = some o ∧ name ∈ o.defined ∧ image.function? a = some ref ∧
      (o.IsCompiled → image.exported? objects j name = some ref)
  function?_zero : image.function? 0 = none
  /-- A function of the host that some object asks the address of is at one address, after all
  functions that objects define. -/
  native : ∀ o ∈ objects, ∀ i ∈ o.code.importedGlobals, i.space = SymbolName.addresses →
    image.address? i.name = none → ∀ n, resolve i.name = some (.native n) →
      ∃ a, (objects.flatMap (·.defined)).length < a ∧
        ∀ a', image.function? a' = some (.host n) ↔ a' = a
  /-- The address that an object asks for is what its global holds. -/
  bound : ∀ (j : Nat) (o : Object), objects[j]? = some o → ∀ (k : Nat) (i : Import),
    o.code.importedGlobals[k]? = some i → i.space = SymbolName.addresses →
      ∃ a, a < UInt32.size ∧ image.global? j k = some (.constant (UInt32.ofNat a)) ∧
        image.Finds resolve o i.name a

namespace IsLinked

variable {pages : Nat} {objects : List Object} {resolve : Resolver} {image : Image}
  {natives : List Native} (h : IsLinked pages objects resolve image natives)
  {name : String} {a : Nat} {o : Object} {j k : Nat}

include h

theorem address?_eq_some : image.address? name = some a ↔
    ∃ i : Nat, (objects.flatMap (·.defined))[i]? = some name ∧ a = i + 1 := by
  rw [address?, h.symbols, lookup_zipIdx_eq_some h.names_nodup]
  constructor
  · rintro ⟨hle, ha⟩
    exact ⟨a - 1, ha, by omega⟩
  · rintro ⟨i, hi, rfl⟩
    exact ⟨by omega, hi⟩

/-- Every address leads to a function that an object defines, to one of the host, or to nothing. -/
theorem function?_cases (a : Nat) : (∃ j i, image.function? a = some (.defined j i)) ∨
    (∃ k n, natives[k]? = some n ∧ a = image.symbols.length + 1 + k) ∨
      image.function? a = none := by
  obtain ⟨s, htable, hlinks⟩ := h.links
  have hsize := hlinks.numbered.size
  have hlength := h.length_symbols
  by_cases hzero : a = 0
  · rw [hzero]
    exact .inr (.inr h.function?_zero)
  · by_cases hdefined : a - 1 < (objects.flatMap (·.defined)).length
    · have haddress := (h.address?_eq_some (a := a)).mpr
        ⟨a - 1, List.getElem?_eq_getElem hdefined, by omega⟩
      obtain ⟨j, i, _, -, -, hfunction⟩ := h.exists_of_address? haddress
      exact .inl ⟨j, i, hfunction⟩
    · by_cases hhost : a - image.symbols.length - 1 < natives.length
      · exact .inr
          (.inl ⟨a - image.symbols.length - 1, _, List.getElem?_eq_getElem hhost, by omega⟩)
      · right
        right
        rw [function?, ← htable, Array.getElem?_eq_none (by omega)]
        rfl

/-- A function of the host that has an address has no other. -/
theorem function?_eq_host_iff {n : Native} (hk : natives[k]? = some n) :
    image.function? a = some (.host n) ↔ a = image.symbols.length + 1 + k := by
  constructor
  · intro ha
    obtain ⟨j, i, hdefined⟩ | ⟨k', n', hk', rfl⟩ | hnone := h.function?_cases a
    · rw [hdefined] at ha
      cases ha
    · rw [h.function?_host hk'] at ha
      obtain rfl : n' = n := by simpa using ha
      -- a function of the host is listed once
      obtain ⟨_, -, hlinks⟩ := h.links
      obtain ⟨hlt, -⟩ := List.getElem?_eq_some_iff.mp hk'
      rw [(List.getElem?_inj hlt hlinks.numbered.nodup).mp (hk'.trans hk.symm)]
    · rw [hnone] at ha
      cases ha
  · rintro rfl
    exact h.function?_host hk

/-- What the instance of a compiled object exports under the name of a function is that function. -/
theorem exported?_eq_some {i : Nat} (ho : objects[j]? = some o) (hi : o.defined[i]? = some name)
    (hcompiled : o.IsCompiled) : image.exported? objects j name = some (.defined j i) := by
  obtain ⟨s, -, hlinks⟩ := h.links
  obtain ⟨bindings, hinst, hbinds⟩ := hlinks.bound j o ho
  rw [Array.getElem?_toList, Nat.zero_add] at hinst
  obtain ⟨c, p, moduleId, probed, minPages, l, hc, hcode, hdefined, -⟩ := hcompiled.exists_comes
  have hnames : (p.functions.map (·.name)).Nodup := by
    rw [← hc.defined, ← hdefined]
    exact (List.nodup_flatMap.mp h.names_nodup).1 o (List.mem_of_getElem? ho)
  rw [hdefined, hc.defined, List.getElem?_map, Option.map_eq_some_iff] at hi
  obtain ⟨f, hf, rfl⟩ := hi
  have hexport : o.code.exports.find? (·.name == f.name) = some ⟨f.name, l.probes + i⟩ := by
    rw [hcode, hc.find?_export hnames hf]
  have hprobes : (bindings.filterMap boundFunction?).length = l.probes := by
    rw [length_boundFunctions hbinds, hcode, ← hc.importedFunctions_length]
    rfl
  have hlt : i < o.code.functions.length := by
    rw [hcode, hc.functions_length]
    exact (List.getElem?_eq_some_iff.mp hf).1
  rw [exported?, ho, hinst]
  simp only [Option.bind_eq_bind, Option.bind_some, hexport]
  rw [instantiate, List.getElem?_toArray, List.getElem?_append_right (by omega), hprobes,
    Nat.add_sub_cancel_left, List.getElem?_map, List.getElem?_range hlt]
  rfl

/-- The address that an object asks for is in its global, as linking found it. -/
theorem exists_hasAddress {i : Import} (ho : objects[j]? = some o)
    (hi : o.code.importedGlobals[k]? = some i) (hspace : i.space = SymbolName.addresses) :
    ∃ a, a < UInt32.size ∧ image.global? j k = some (.constant (UInt32.ofNat a)) ∧
      HasAddress image.symbols natives resolve o i.name a := by
  obtain ⟨s, -, hlinks⟩ := h.links
  obtain ⟨bindings, hinst, hbinds⟩ := hlinks.bound j o ho
  rw [Array.getElem?_toList, Nat.zero_add] at hinst
  obtain ⟨g, hg, b, hb, hbound⟩ := exists_right_of_getElem? (boundGlobals hbinds) hi
  cases hb with
  | memory | table | function => cases hbound
  | cell _ hne => exact absurd hspace hne
  | constant _ hne => exact absurd hspace hne
  | @address _ a _ _ ha hlt =>
    obtain rfl := Option.some.inj hbound
    refine ⟨a, hlt, ?_, ha⟩
    rw [global?, hinst]
    simp only [Option.bind_eq_bind, Option.bind_some]
    rw [instantiate, List.getElem?_toArray, hg]

/-- What the imports of an object are bound to. -/
theorem finds {i : Import} (hi : i ∈ o.code.importedGlobals)
    (hspace : i.space = SymbolName.addresses)
    (ha : HasAddress image.symbols natives resolve o i.name a) :
    image.Finds resolve o i.name a := by
  cases ha with
  | defined ha => exact .defined ha
  | given hnone ha => exact .given hnone ha
  | native hnone hn hsignature hk ha =>
    refine .native hnone hn ?_ hsignature fun hcompiled => ?_
    · rw [ha, h.function?_host hk]
    · obtain ⟨s, hs⟩ := hcompiled.exists_expectedSignature hi hspace
      rw [hs, hsignature s hs]

theorem hasAddressSpace : image.HasAddressSpace objects resolve where
  address?_eq_some _ _ := h.address?_eq_some
  address?_inj name name' a ha ha' := by
    obtain ⟨i, hi, rfl⟩ := h.address?_eq_some.mp ha
    obtain ⟨i', hi', heq⟩ := h.address?_eq_some.mp ha'
    obtain rfl : i = i' := by omega
    exact Option.some.inj (hi.symm.trans hi')
  address?_eq_none _ := h.address?_eq_none
  function?_eq_some name a ha := by
    obtain ⟨j, i, o, ho, hi, hfunction⟩ := h.exists_of_address? ha
    exact ⟨j, o, _, ho, List.mem_of_getElem? hi, hfunction, h.exported?_eq_some ho hi⟩
  function?_zero := h.function?_zero
  native o ho i hi hspace hnone n hn := by
    obtain ⟨j, hj⟩ := List.mem_iff_getElem?.mp ho
    obtain ⟨k, hk⟩ := List.mem_iff_getElem?.mp hi
    obtain ⟨a, -, -, ha⟩ := h.exists_hasAddress hj hk hspace
    cases ha with
    | defined ha => exact absurd (hnone.symm.trans ha) (by simp)
    | given _ ha => exact absurd (hn.symm.trans ha) (by simp)
    | @native n' k' _ hn' _ hk' _ =>
      obtain rfl : n' = n := by simpa using hn'.symm.trans hn
      have hlength := h.length_symbols
      exact ⟨_, by omega, fun a' => h.function?_eq_host_iff hk'⟩
  bound j o ho k i hi hspace := by
    obtain ⟨a, hlt, hglobal, ha⟩ := h.exists_hasAddress ho hi hspace
    exact ⟨a, hlt, hglobal, h.finds (List.mem_of_getElem? hi) hspace ha⟩

end IsLinked

end Image

/-- A load that succeeds leaves an image that is linked. -/
theorem Loader.exists_isLinked_of_load {l l' : Loader} {objects : List Object} {resolve : Resolver}
    (h : l.load objects resolve = (l', .ok ())) :
    ∃ image natives, l'.image = some image ∧
      Image.IsLinked l.config.memoryPages objects resolve image natives := by
  have hconfig : (if l.image.isSome then l.unload else l).config = l.config := by split <;> rfl
  rw [load] at h
  dsimp only at h
  rw [hconfig] at h
  split at h
  · rename_i image hlink
    obtain ⟨rfl, -⟩ := Prod.mk.inj h
    obtain ⟨natives, hlinked⟩ := Image.isLinked_of_link hlink
    exact ⟨image, natives, rfl, hlinked⟩
  · cases (Prod.mk.inj h).2

/-- A load that succeeds leaves an image with one address space, whatever the loader held before. -/
theorem Loader.exists_addressSpace_of_load {l l' : Loader} {objects : List Object}
    {resolve : Resolver} (h : l.load objects resolve = (l', .ok ())) :
    ∃ image, l'.image = some image ∧ image.HasAddressSpace objects resolve := by
  obtain ⟨image, natives, himage, hlinked⟩ := exists_isLinked_of_load h
  exact ⟨image, himage, hlinked.hasAddressSpace⟩

/-! ### Two programs that call each other -/

/-- A program with a function that prints what the other program's function gives. -/
def ping : Program where
  functions := [{
    name := "ping", numParams := 0, numLocals := 1, returnType := .int
    blocks := [⟨[⟨.call, some 0, [.symbol "pong"], none⟩,
      ⟨.call, some 0, [.symbol "putchar", .register 0], none⟩, .returning (some 0)]⟩] }]
  declarations := [⟨"pong", 0, .int⟩, ⟨"putchar", 1, .int⟩]
  constructors := []
  version := 1

/-- The other way round. -/
def pong : Program where
  functions := [{
    name := "pong", numParams := 0, numLocals := 1, returnType := .int
    blocks := [⟨[⟨.call, some 0, [.symbol "ping"], none⟩,
      ⟨.call, some 0, [.symbol "putchar", .register 0], none⟩, .returning (some 0)]⟩] }]
  declarations := [⟨"ping", 0, .int⟩, ⟨"putchar", 1, .int⟩]
  constructors := []
  version := 1

def pingPong : List Object :=
  (Object.compile ping "p" false).toOption.toList ++ (Object.compile pong "q" false).toOption.toList

/-- Each program finds the other one's function, and both find the same `putchar`. -/
theorem pingPong_addressSpace : ∃ l image,
    (Loader.new ⟨1, 8⟩).load pingPong .hostProcess = (l, .ok ()) ∧ l.image = some image ∧
      image.address? "pong" = some 2 ∧ image.global? 0 0 = some (.constant 2) ∧
      image.global? 1 0 = some (.constant 1) ∧
      ∃ a, 2 < a ∧ ∀ a', image.function? a' = some (.host .putChar) ↔ a' = a := by
  have hload : (Loader.new ⟨1, 8⟩).load pingPong .hostProcess
      = (((Loader.new ⟨1, 8⟩).load pingPong .hostProcess).1, .ok ()) :=
    Prod.ext rfl (eq_ok_of_isOk (by decide +kernel) ())
  obtain ⟨image, himage, hspace⟩ := Loader.exists_addressSpace_of_load hload
  have heval : ∀ {α : Type} (f : Image → Option α),
      ((Loader.new ⟨1, 8⟩).load pingPong .hostProcess).1.image.bind f = f image := by
    intro α f
    rw [himage, Option.bind_some]
  have hobject : ∃ o ∈ pingPong, ⟨SymbolName.addresses, "putchar", .global false⟩
      ∈ o.code.importedGlobals := by
    decide +kernel
  obtain ⟨o, ho, hi⟩ := hobject
  have hnone : image.address? "putchar" = none :=
    (heval (·.address? "putchar")).symm.trans (by decide +kernel)
  have hputchar := hspace.native o ho _ hi rfl hnone .putChar rfl
  refine ⟨_, image, hload, himage, (heval (·.address? "pong")).symm.trans ?_,
    (heval (·.global? 0 0)).symm.trans ?_,
    (heval (·.global? 1 0)).symm.trans ?_, hputchar⟩ <;> decide +kernel

end MutationAnalysis
