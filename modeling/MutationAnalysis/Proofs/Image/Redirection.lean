/-
Images of programs with stubs, and of the programs that they stand for.

Of two linked images, the second is linked from programs that do through stubs what those of the
first do directly.  Then names lead to the same functions in both, so calls end alike
(`Image.diverts_of_redirects`); and if the second can be linked, the first can be, too.

* `Program.Redirects.exists_object`: programs that are edited in place compile to accepted objects;
* `Image.exists_link_of_redirects`: these can be linked;
* `Image.diverts_of_redirects`: what one image does through stubs, the other does directly.
-/
import MutationAnalysis.Proofs.Image.Linkable
import MutationAnalysis.Proofs.Image.Realization
import MutationAnalysis.Proofs.Interpreter.Diversion
import MutationAnalysis.Proofs.Lowering.Locals
import MutationAnalysis.Proofs.Unit.Redirection

namespace MutationAnalysis

open Wasm Lowering Interpreter

/-! ### Objects -/

namespace Program.Redirects

variable {e p : Program} {holds : String → String → Prop} {fresh : String → Prop}

theorem neededType?_eq (h : e.Redirects p holds fresh) (hp : p.IsValid) {i : Instruction}
    (hi : i ∈ e.instructions) : neededType? e i = neededType? p i := by
  unfold neededType?
  split
  · rename_i callee hop hcallee
    have hnot := h.not_fresh hi hcallee
    have hsome : (e.function? callee).isSome = (p.function? callee).isSome := by
      rw [Bool.eq_iff_iff, Option.isSome_iff_ne_none, Option.isSome_iff_ne_none, ne_eq, ne_eq,
        h.function?_eq_none hnot]
    rw [hsome, h.signature?_eq hp.names_nodup hnot]
  · rfl
  · rfl

/-- A program that another does through stubs compiles to an accepted object if the other does. -/
theorem exists_object (h : e.Redirects p holds fresh) (hp : p.IsValid) {o' : Object} {l' : Layout}
    (ho' : o'.IsOf p l') (moduleId : String) :
    ∃ o, Object.compile e moduleId false = .ok o := by
  have he := h.isValid hp
  obtain ⟨c, hcompile⟩ := Program.exists_compile he moduleId false 1
  obtain ⟨l, hc⟩ := Program.comes_of_compile hcompile
  obtain ⟨c', _, -, hc', hcode'⟩ := ho'.comes
  have hvalid' := ho'.isValid
  rw [← hcode'] at hvalid'
  have hlimits := Module.withinLimits_of_isValid hvalid'
  -- a function of the one has a twin among those of the other, which has its locals
  have hlocals : ∀ f ∈ e.functions, f.HasLocals (f.numParams.toNat + extraLocals f) := by
    intro f hf
    obtain ⟨name, hg⟩ := h.exists_body hf
    have := hc'.hasLocals_of_isValid hp hvalid' hg
    exact ⟨this.registers, this.counter⟩
  refine ⟨_, Object.compile_eq_ok.mpr ⟨c, hcompile, ?_, rfl⟩⟩
  refine Module.isValid_of_isTyped (hc.isTyped he hlocals) ⟨?_, ?_, ?_, ?_, ?_⟩
  · intro t ht
    rw [hc.types, hc.describes.mem_types] at ht
    refine hlimits.params t ?_
    rw [hc'.types]
    rcases ht with ⟨hfalse, -⟩ | ⟨f, hf, rfl⟩ | ⟨i, hi, ht⟩
    · cases hfalse
    · obtain ⟨name, hg⟩ := h.exists_body hf
      have hmem := hc'.describes.funcType_mem hg
      exact hmem
    · rw [h.neededType?_eq hp hi] at ht
      exact hc'.describes.neededType_mem (h.mem_instructions hi) ht
  · intro i hi
    refine hlimits.importNames i ?_
    rw [hc.imports_plain, h.cells_eq_nil] at hi
    rw [hc'.imports_plain]
    simp only [List.map_nil, List.append_nil, List.mem_append, List.mem_map] at hi ⊢
    rcases hi with hi | ⟨name, hname, rfl⟩
    · exact .inl (.inl hi)
    · exact .inl (.inr ⟨name, (h.mem_undefinedSymbols hname).1, rfl⟩)
  · intro i hi n hkind
    rw [hc.imports_plain] at hi
    simp only [List.mem_append, List.mem_cons, List.not_mem_nil, or_false, List.mem_map] at hi
    rcases hi with ((rfl | rfl) | ⟨_, -, rfl⟩) | ⟨_, -, rfl⟩ <;> cases hkind
    decide
  · intro x hx
    rw [hc.exports] at hx
    obtain ⟨⟨f, i⟩, hmem, rfl⟩ := List.mem_map.mp hx
    obtain ⟨g, hg, hname, -⟩ := h.exists_function (List.mem_zipIdx_iff_getElem?.mp hmem)
    have hexport : (⟨g.name, l'.probes + i⟩ : Export) ∈ c'.code.exports := by
      rw [hc'.exports]
      exact List.mem_map.mpr ⟨(g, i), List.mem_zipIdx_iff_getElem?.mpr hg, rfl⟩
    have := hlimits.exportNames _ hexport
    rwa [hname] at this
  · intro body hbody t ht
    obtain ⟨i, hi⟩ := List.mem_iff_getElem?.mp hbody
    obtain ⟨f, codes, hf, -, rfl⟩ := hc.exists_function hi
    have hmem := List.mem_of_getElem? hf
    rw [hc.types] at ht
    obtain rfl := Option.some.inj
      ((Layout.Describes.types_typeIndex (hc.describes.funcType_mem hmem)).symm.trans ht)
    obtain ⟨name, hg⟩ := h.exists_body hmem
    obtain ⟨j, hj⟩ := List.mem_iff_getElem?.mp hg
    obtain ⟨codes', -, hbody'⟩ := hc'.body hj
    refine hlimits.locals _ (List.mem_of_getElem? hbody') _ ?_
    rw [hc'.types]
    exact Layout.Describes.types_typeIndex (hc'.describes.funcType_mem hg)

end Program.Redirects

/-! ### Names -/

/-- In a part of a list of distinct names that is in order, a name stands no later. -/
theorem index_le_of_sublist {names names' : List String} (h : names.Sublist names')
    (hnodup : names'.Nodup) {k k' : Nat} {name : String} (hk : names[k]? = some name)
    (hk' : names'[k']? = some name) : k ≤ k' := by
  -- induction on how the shorter list is left of the longer one; a skipped name moves later ones on
  induction h generalizing k k' with
  | slnil => cases hk
  | @cons rest rest' n _ ih =>
    rw [List.nodup_cons] at hnodup
    cases k' with
    | zero =>
      obtain rfl := Option.some.inj hk'
      exact absurd (List.Sublist.subset ‹_› (List.mem_of_getElem? hk)) hnodup.1
    | succ k' =>
      rw [List.getElem?_cons_succ] at hk'
      have := ih hnodup.2 hk hk'
      omega
  | @cons_cons rest rest' n _ ih =>
    rw [List.nodup_cons] at hnodup
    cases k with
    | zero => exact Nat.zero_le k'
    | succ k =>
      cases k' with
      | zero =>
        obtain rfl := Option.some.inj hk'
        rw [List.getElem?_cons_succ] at hk
        exact absurd (List.Sublist.subset ‹_› (List.mem_of_getElem? hk)) hnodup.1
      | succ k' =>
        rw [List.getElem?_cons_succ] at hk hk'
        have := ih hnodup.2 hk hk'
        omega

namespace Image

open Linking

variable {es ps : List Program} {objects objects' : List Object}
  {holds : String → String → Prop} {fresh : String → Prop} {name : String}

/-- The objects of programs that are compiled without probes. -/
abbrev AreOf (ps : List Program) (objects : List Object) : Prop :=
  List.Forall₂ (fun p o => ∃ l, Object.IsOf o p l) ps objects

theorem represent_of_areOf (h : AreOf ps objects) : Represent false ps objects :=
  h.imp fun _ _ ⟨l, hl⟩ => hl.represents.imp fun _ hrepresents => ⟨l, hrepresents⟩

/-- What objects have of their programs, the programs have. -/
theorem map_of_areOf {β : Type} {f : Object → β} {g : Program → β} (h : AreOf ps objects)
    (hfg : ∀ o p l, Object.IsOf o p l → f o = g p) : objects.map f = ps.map g := by
  induction h with
  | nil => rfl
  | cons hof _ ih =>
    obtain ⟨l, hof⟩ := hof
    rw [List.map_cons, List.map_cons, ih, hfg _ _ l hof]

theorem constructors_of_areOf (h : AreOf ps objects) :
    objects.flatMap (·.constructors) = (ps.map (·.constructors)).flatten := by
  rw [List.flatMap_def]
  exact congrArg List.flatten (map_of_areOf h fun _ _ _ hof => hof.constructors)

theorem names_of_areOf (h : AreOf ps objects) :
    objects.flatMap (·.defined) = ps.flatMap fun p => p.functions.map (·.name) :=
  names_of_represent (represent_of_areOf h)

theorem names_sublist (h : List.Forall₂ (fun e p => e.Redirects p holds fresh) es ps) :
    (es.flatMap fun e => e.functions.map (·.name)).Sublist
      (ps.flatMap fun p => p.functions.map (·.name)) := by
  induction h with
  | nil => exact .slnil
  | cons hr _ ih =>
    obtain ⟨added, hnames, -⟩ := hr.names
    rw [List.flatMap_cons, List.flatMap_cons, hnames]
    exact (List.sublist_append_left _ _).append ih

section

variable (ho : AreOf es objects) (ho' : AreOf ps objects')
  (h : List.Forall₂ (fun e p => e.Redirects p holds fresh) es ps)

include ho ho' h

/-- A name that is not fresh is defined by the objects of both sides or of none. -/
theorem mem_defined_iff {j : Nat} {o o' : Object} (hj : objects[j]? = some o)
    (hj' : objects'[j]? = some o') (hname : ¬ fresh name) :
    name ∈ o'.defined ↔ name ∈ o.defined := by
  obtain ⟨e, he, l, hl⟩ := exists_right_of_getElem? ho.flip hj
  obtain ⟨p, hp, l', hl'⟩ := exists_right_of_getElem? ho'.flip hj'
  obtain ⟨p', hp', hr⟩ := exists_right_of_getElem? h he
  obtain rfl := Option.some.inj (hp.symm.trans hp')
  obtain ⟨added, hnames, hfresh⟩ := hr.names
  rw [hl'.defined, hl.defined, hnames, List.mem_append]
  exact or_iff_left fun hadded => hname (hfresh name hadded)

/-- A name that is not fresh leads to the same function on both sides. -/
theorem LeadsTo.redirect {resolve resolve' : Resolver} {ref : FuncRef Native}
    (hnatives : ∀ name n, resolve name = some (.native n) ↔ resolve' name = some (.native n))
    (hleads : LeadsTo objects resolve name ref) (hname : ¬ fresh name) :
    LeadsTo objects' resolve' name ref := by
  cases hleads with
  | @defined j i o hj hi =>
    obtain ⟨e, f, he, hf, rfl⟩ := exists_function_of_defined (represent_of_areOf ho) hj hi
    obtain ⟨p, hp, hr⟩ := exists_right_of_getElem? h he
    obtain ⟨g, hg, hgname, -⟩ := hr.exists_function hf
    obtain ⟨o', hj', hdefined⟩ := exists_defined (represent_of_areOf ho') hp hg
    exact .defined hj' (hgname ▸ hdefined)
  | native hnot hn =>
    refine .native (fun o' hmem hdefined => ?_) ((hnatives _ _).mp hn)
    obtain ⟨j, hj'⟩ := List.mem_iff_getElem?.mp hmem
    obtain ⟨p, hp, -⟩ := exists_right_of_getElem? ho'.flip hj'
    obtain ⟨e, he, -⟩ := exists_right_of_getElem? h.flip hp
    obtain ⟨o, hj, -⟩ := exists_right_of_getElem? ho he
    exact hnot o (List.mem_of_getElem? hj) ((mem_defined_iff ho ho' h hj hj' hname).mp hdefined)

end

namespace IsLinked

variable {pages : Nat} {resolve : Resolver} {image : Image} {natives : List Native}

/-- A name leads to one function at most. -/
theorem leadsTo_unique (h : IsLinked pages objects resolve image natives) {r r' : FuncRef Native}
    (hr : LeadsTo objects resolve name r) (hr' : LeadsTo objects resolve name r') : r = r' := by
  cases hr with
  | defined hj hi =>
    cases hr' with
    | defined hj' hi' =>
      obtain ⟨a, ha, hfunction⟩ := h.placed hj hi
      obtain ⟨a', ha', hfunction'⟩ := h.placed hj' hi'
      obtain rfl := Option.some.inj (ha.symm.trans ha')
      exact Option.some.inj (hfunction.symm.trans hfunction')
    | native hnot =>
      exact absurd (List.mem_of_getElem? hi) (hnot _ (List.mem_of_getElem? hj))
  | native hnot hn =>
    cases hr' with
    | defined hj hi => exact absurd (List.mem_of_getElem? hi) (hnot _ (List.mem_of_getElem? hj))
    | native _ hn' =>
      rw [hn] at hn'
      cases hn'
      rfl

end IsLinked

/-! ### Linking -/

section

variable {pages : Nat} {resolve resolve' : Resolver} {image' : Image} {natives' : List Native}
  (ho : AreOf es objects) (ho' : AreOf ps objects')
  (h : List.Forall₂ (fun e p => e.Redirects p holds fresh) es ps) (hp : ∀ p ∈ ps, p.IsValid)
  (hlinked : IsLinked pages objects' resolve' image' natives')
  (hnoAddress : ∀ name a, resolve' name ≠ some (.address a))
  (hnatives : ∀ name n, resolve name = some (.native n) ↔ resolve' name = some (.native n))

include ho ho' h

theorem defined_sublist :
    (objects.flatMap (·.defined)).Sublist (objects'.flatMap (·.defined)) := by
  rw [names_of_areOf ho, names_of_areOf ho']
  exact names_sublist h

include hlinked hnoAddress hnatives

/-- What a program calls has something to lead to if it has among stubs. -/
theorem importable_of_redirects {generation j : Nat} {e p : Program} {o o' : Object} {l l' : Layout}
    (hl : o.IsOf e l) (hp : p.IsValid) (hj' : objects'[j]? = some o') (hl' : o'.IsOf p l')
    (hr : e.Redirects p holds fresh) (hname : name ∈ e.undefinedSymbols) :
    Importable ((objects.flatMap (·.defined)).zipIdx 1) natives' resolve pages generation o
      ⟨SymbolName.addresses, name, .global false⟩ := by
  have hsub := defined_sublist ho ho' h
  obtain ⟨hname', hnot⟩ := hr.mem_undefinedSymbols hname
  obtain ⟨s, -, hlinks⟩ := hlinked.links
  obtain ⟨bindings, -, hbinds⟩ := hlinks.bound j o' hj'
  have himport : (⟨SymbolName.addresses, name, .global false⟩ : Import) ∈ o'.code.imports := by
    rw [hl'.imports]
    exact List.mem_append_left _ (List.mem_append_right _ (List.mem_map_of_mem hname'))
  obtain ⟨b, -, hb⟩ := exists_right_of_mem hbinds himport
  -- what the larger objects found under the name, the smaller ones find at
  -- an address that is no higher
  cases hb with
  | memory hkind | table hkind | function hkind | cell hkind => cases hkind
  | constant _ hspace => exact absurd rfl hspace
  | address _ _ ha hlt =>
    cases ha with
    | given _ hgiven => exact absurd hgiven (hnoAddress name _)
    | defined ha =>
      rw [hlinked.symbols] at ha
      obtain ⟨hle, ha⟩ := (lookup_zipIdx_eq_some hlinked.names_nodup).mp ha
      obtain ⟨x', hx', hdefined⟩ := List.mem_flatMap.mp (List.mem_of_getElem? ha)
      obtain ⟨k, hk⟩ := List.mem_iff_getElem?.mp hx'
      obtain ⟨q, hq, -⟩ := exists_right_of_getElem? ho'.flip hk
      obtain ⟨e', he', -⟩ := exists_right_of_getElem? h.flip hq
      obtain ⟨x, hx, -⟩ := exists_right_of_getElem? ho he'
      have hmem : name ∈ objects.flatMap (·.defined) := List.mem_flatMap.mpr
        ⟨x, List.mem_of_getElem? hx, (mem_defined_iff ho ho' h hx hk hnot).mp hdefined⟩
      obtain ⟨i, hi⟩ := List.mem_iff_getElem?.mp hmem
      have hindex := index_le_of_sublist hsub hlinked.names_nodup hi ha
      refine .defined rfl rfl (a := i + 1) ?_ (by omega)
      exact (lookup_zipIdx_eq_some (hsub.nodup hlinked.names_nodup)).mpr ⟨by omega, hi⟩
    | native hnone hn hsignature hk =>
      refine .native rfl rfl ?_ ((hnatives _ _).mpr hn) (fun s hs => ?_) (List.mem_of_getElem? hk)
      · rw [hlinked.symbols, lookup_zipIdx_eq_none] at hnone
        exact lookup_zipIdx_eq_none.mpr fun hmem => hnone (hsub.subset hmem)
      · refine hsignature s (hl'.expectedSignature.mpr ⟨hname', ?_⟩)
        rw [hr.signature?_eq hp.names_nodup hnot]
        exact (hl.expectedSignature.mp hs).2

include hp

/-- If programs with stubs can be linked, so can the programs that they stand for. -/
theorem exists_link_of_redirects (generation : Nat) :
    ∃ image, Image.link pages generation objects resolve = .ok image := by
  have hsub := defined_sublist ho ho' h
  obtain ⟨s, -, hlinks⟩ := hlinked.links
  -- the larger objects left room for the host's functions after more functions than these
  have hroom : HasRoom ((objects.flatMap (·.defined)).zipIdx 1) natives' := by
    intro k hk
    have hsmall := hlinks.numbered.small k hk
    have hlength := hsub.length_le
    rw [hlinked.symbols, List.length_zipIdx] at hsmall
    rw [List.length_zipIdx]
    omega
  refine Image.exists_link hlinked.pages_le (hsub.nodup hlinked.names_nodup) hroom ?_ ?_
  · intro o hmem i hi
    obtain ⟨j, hj⟩ := List.mem_iff_getElem?.mp hmem
    obtain ⟨e, he, l, hl⟩ := exists_right_of_getElem? ho.flip hj
    obtain ⟨p, hpj, hr⟩ := exists_right_of_getElem? h he
    obtain ⟨o', hj', l', hl'⟩ := exists_right_of_getElem? ho' hpj
    rw [hl.imports, hr.cells_eq_nil] at hi
    simp only [List.map_nil, List.append_nil, List.mem_append, List.mem_cons, List.not_mem_nil,
      or_false, List.mem_map] at hi
    rcases hi with (rfl | rfl) | ⟨name, hname, rfl⟩
    · refine .memory rfl (hlinks.pages_le o' (List.mem_of_getElem? hj')
        ⟨SymbolName.environment, SymbolName.memory, .memory 1⟩ ?_ 1 rfl)
      rw [hl'.imports]
      simp
    · exact .table rfl
    · exact importable_of_redirects ho ho' h hlinked hnoAddress hnatives hl
        (hp p (List.mem_of_getElem? hpj)) hj' hl' hr hname
  · intro o hmem name hname
    obtain ⟨j, hj⟩ := List.mem_iff_getElem?.mp hmem
    obtain ⟨e, he, l, hl⟩ := exists_right_of_getElem? ho.flip hj
    obtain ⟨p, hpj, hr⟩ := exists_right_of_getElem? h he
    rw [hl.constructors] at hname
    obtain ⟨f, hf, -⟩ := (hr.isValid (hp p (List.mem_of_getElem? hpj))).constructors name hname
    have hdefined : name ∈ objects.flatMap (·.defined) := by
      refine List.mem_flatMap.mpr ⟨o, hmem, ?_⟩
      rw [hl.defined, ← Program.name_of_function? hf]
      exact List.mem_map_of_mem (Program.mem_of_function? hf)
    obtain ⟨i, hi⟩ := List.mem_iff_getElem?.mp hdefined
    exact ⟨i + 1, (lookup_zipIdx_eq_some (hsub.nodup hlinked.names_nodup)).mpr ⟨by omega, hi⟩⟩

end

/-! ### Execution -/

/-- A cell of an image holds the address of a name. -/
def CellHolds (image : Image) (resolve : Resolver) (cells : Array Word) (cell name : String) :
    Prop :=
  ∃ c a, resolve cell = some (.cell c) ∧ image.address? name = some a ∧ a < UInt32.size ∧
    cells[c.index]? = some (UInt32.ofNat a)

section

variable {pages pages' maxDepth maxDepth' : Nat} {resolve resolve' : Resolver}
  {image image' : Image} {natives natives' : List Native} {cells cells' : Array Word}

/-- A stub leads through its cell to the body that the cell is bound to. -/
theorem isDiverted_of_redirects {home i : Nat} {e p : Program} {f : Function}
    (ho' : AreOf ps objects') (hlinked' : IsLinked pages' objects' resolve' image' natives')
    (hsuits' : IsLinked.Suits resolve' cells') (hp : ps[home]? = some p)
    (hr : e.Redirects p (image'.CellHolds resolve' cells') fresh) (hf : e.functions[i]? = some f) :
    IsDiverted (image'.environment ps cells' maxDepth') home i f := by
  rcases hr.function i f hf with hsame | ⟨cell, name, j, hparams, hstub, htarget, hholds⟩
  · exact .same (function?_eq_some.mpr ⟨p, hp, hsame⟩)
  · refine .stub hparams (function?_eq_some.mpr ⟨p, hp, hstub⟩)
      (function?_eq_some.mpr ⟨p, hp, htarget⟩) ?_
    obtain ⟨c, a, hc, ha, hlt, hcell⟩ := hholds
    -- the stub calls through the cell, so the program has it
    have hmem : cell ∈ p.cells := by
      refine Program.mem_cells.mpr
        ⟨.throughCell cell (stubArguments f) (stubResult f), ?_, rfl, rfl⟩
      exact Program.mem_instructions (List.mem_of_getElem? hstub)
        (b := ⟨[.throughCell cell (stubArguments f) (stubResult f), .returning (stubResult f)]⟩)
        List.mem_cons_self List.mem_cons_self
    obtain ⟨c', hc', hvalue⟩ := hlinked'.cell_eq ho' hsuits' hp hmem maxDepth'
    obtain rfl : c' = c := by
      rw [hc] at hc'
      cases hc'
      rfl
    obtain ⟨a', ha', hfunction⟩ :=
      hlinked'.exists_address?_of_function (represent_of_areOf ho') hp htarget
    obtain rfl := Option.some.inj (ha.symm.trans ha')
    rw [hvalue, Array.getD_eq_getD_getElem?, hcell, Option.getD_some, UInt32.toNat_ofNat_of_lt' hlt]
    exact Option.join_eq_some_iff.mp hfunction

/-- What the image of programs with stubs does through them, the image of the programs that they
stand for does directly. -/
theorem diverts_of_redirects (ho : AreOf es objects) (ho' : AreOf ps objects')
    (h : List.Forall₂ (fun e p => e.Redirects p (image'.CellHolds resolve' cells') fresh) es ps)
    (hp : ∀ p ∈ ps, p.IsValid) (hlinked : IsLinked pages objects resolve image natives)
    (hlinked' : IsLinked pages' objects' resolve' image' natives')
    (hsuits : IsLinked.Suits resolve cells) (hsuits' : IsLinked.Suits resolve' cells')
    (hnatives : ∀ name n, resolve name = some (.native n) ↔ resolve' name = some (.native n)) :
    Diverts (image.environment es cells maxDepth) (image'.environment ps cells' maxDepth') where
  host := rfl
  noProbes _ := rfl
  noProbes' _ := rfl
  valid := by
    intro e he
    obtain ⟨p, hmem, hr⟩ := exists_right_of_mem h he
    exact hr.isValid (hp p hmem)
  function := by
    intro home i f hf
    obtain ⟨e, he, hfunction⟩ := function?_eq_some.mp hf
    obtain ⟨p, hpj, hr⟩ := exists_right_of_getElem? h he
    exact isDiverted_of_redirects ho' hlinked' hsuits' hpj hr hfunction
  callee := by
    intro home e he
    replace he : es[home]? = some e := he
    obtain ⟨p, hpj, hr⟩ := exists_right_of_getElem? h he
    refine ⟨p, hpj, fun i hi name hname => ⟨hr.calls i hi name hname, ?_⟩⟩
    have hnot := hr.not_fresh hi hname
    have hvalid := hr.isValid (hp p (List.mem_of_getElem? hpj))
    -- a callee is a function of the program, or it is found by its address
    cases hindex : e.functionIndex? name with
    | some k => exact .own hindex ((hr.functionIndex?_eq hnot).trans hindex)
    | none =>
      have hnone := Program.functionIndex?_eq_none.mp hindex
      have hundefined : name ∈ e.undefinedSymbols :=
        Program.mem_undefinedSymbols.mpr ⟨i, hi, hr.calls i hi name hname, hname, hnone⟩
      obtain ⟨s, hs⟩ := Layout.exists_signature_of_call hvalid hi (hr.calls i hi name hname) hname
      obtain ⟨ref, hleads, hentry⟩ :=
        hlinked.address_leadsTo ho hsuits he hundefined maxDepth
      obtain ⟨ref', hleads', hentry'⟩ := hlinked'.address_leadsTo ho' hsuits' hpj
        (hr.mem_undefinedSymbols hundefined).1 maxDepth'
      obtain rfl := hlinked'.leadsTo_unique (hleads.redirect ho ho' h hnatives hnot) hleads'
      refine .other hindex ((hr.functionIndex?_eq hnot).trans hindex) hs ?_ hentry hentry'
        (hleads.type?_isSome (represent_of_areOf ho) rfl)
      rw [hr.signature?_eq (hp p (List.mem_of_getElem? hpj)).names_nodup hnot, hs]

end

/-- Calls of a function of the one image and of the other end alike, unless the stack is used up.
In the first, it is not if it has as much room as in the second; in the second, it is not if it has
room for a stub in each call of the first. -/
structure CallsAlike (l l' : Linkage Native HostState) (ref : FuncRef Native) (params : Nat) :
    Prop where
  first : ∀ arguments memory state r, arguments.length = params → r.1 ≠ .trapped .stackOverflow →
    l'.Finishes ref arguments memory state r → ∃ r', l.Finishes ref arguments memory state r' ∧
      (r' = r ∨ (r'.1 = .trapped .stackOverflow ∧ l.maxDepth < l'.maxDepth))
  second : ∀ arguments memory state r, arguments.length = params → r.1 ≠ .trapped .stackOverflow →
    l.Finishes ref arguments memory state r → ∃ r', l'.Finishes ref arguments memory state r' ∧
      (r' = r ∨ (r'.1 = .trapped .stackOverflow ∧ l'.maxDepth < 2 * l.maxDepth + 1))

section

variable (h : List.Forall₂ (fun e p => e.Redirects p holds fresh) es ps) (hp : ∀ p ∈ ps, p.IsValid)

include h hp

theorem valid_of_redirects : ∀ e ∈ es, e.IsValid ∧ e.SeparatesCells := by
  intro e he
  obtain ⟨p, hmem, hr⟩ := exists_right_of_mem h he
  exact ⟨hr.isValid (hp p hmem), hr.separatesCells⟩

theorem valid_of_redirects' : ∀ p ∈ ps, p.IsValid ∧ p.SeparatesCells := by
  intro p hmem
  obtain ⟨e, he, hr⟩ := exists_left_of_mem h hmem
  exact ⟨hp p hmem, hr.separatesCells'⟩

end

/-- Calls of functions in an image of programs with stubs end as in the image of the
programs that they stand for. -/
theorem callsAlike_of_redirects {pages pages' : Nat} {resolve resolve' : Resolver}
    {image image' : Image} {natives natives' : List Native} {cells cells' : Array Word}
    (ho : AreOf es objects) (ho' : AreOf ps objects')
    (h : List.Forall₂ (fun e p => e.Redirects p (image'.CellHolds resolve' cells') fresh) es ps)
    (hp : ∀ p ∈ ps, p.IsValid) (hlinked : IsLinked pages objects resolve image natives)
    (hlinked' : IsLinked pages' objects' resolve' image' natives')
    (hsuits : IsLinked.Suits resolve cells) (hsuits' : IsLinked.Suits resolve' cells')
    (hnatives : ∀ name n, resolve name = some (.native n) ↔ resolve' name = some (.native n))
    {home i : Nat} {e : Program} {f : Function} (he : es[home]? = some e)
    (hf : e.functions[i]? = some f) (maxDepth maxDepth' : Nat) :
    CallsAlike (image.linkage cells maxDepth) (image'.linkage cells' maxDepth') (.defined home i)
      f.numParams.toNat := by
  have hd : Diverts (image.environment es cells maxDepth)
      (image'.environment ps cells' maxDepth') :=
    diverts_of_redirects ho ho' h hp hlinked hlinked' hsuits hsuits' hnatives
  have hag := hlinked.agrees ho hsuits (valid_of_redirects h hp) maxDepth
  have hag' := hlinked'.agrees ho' hsuits' (valid_of_redirects' h hp) maxDepth'
  have hfunction : (image.environment es cells maxDepth).function? home i = some f :=
    function?_eq_some.mpr ⟨e, he, hf⟩
  constructor
  · intro arguments memory state r hlength hr hfinishes
    rw [finishes_iff hag'] at hfinishes
    simp only [finishes_iff hag]
    exact hd.finishes_first hfunction hlength hr hfinishes
  · intro arguments memory state r hlength hr hfinishes
    rw [finishes_iff hag] at hfinishes
    simp only [finishes_iff hag']
    exact hd.finishes_second hfunction hlength hr hfinishes

end Image

end MutationAnalysis
