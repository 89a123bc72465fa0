/-
Which programs can be linked.

Programs can be linked with the functions of the host and the cells of a table if their
functions have different names, what they call is defined by one of them or by the host, and
they call through cells of the table only (`Image.CanLink`).  Conversely, programs that are
linked without cells satisfy this.

* `Image.canLink_of_isLinked`: what programs satisfy that are linked;
* `Image.CanLink.exists_link`: programs that satisfy it can be linked.
-/
import MutationAnalysis.Proofs.Image.Cells
import MutationAnalysis.Proofs.Unit.Names

namespace MutationAnalysis

open Wasm Lowering

namespace Image

open Linking

/-- What programs need to be linked with the functions of the host and the cells of keys. -/
structure CanLink (pages : Nat) (keys : List String) (programs : List Program) : Prop where
  pages_le : pages ≤ maxPages
  pages_pos : programs ≠ [] → 1 ≤ pages
  names_nodup : (programs.flatMap Program.names).Nodup
  cells : ∀ p ∈ programs, ∀ name ∈ p.cells, ∃ key ∈ keys, name = SymbolName.cell key
  calls : ∀ p ∈ programs, ∀ name ∈ p.undefinedSymbols, name ∈ programs.flatMap Program.names ∨
    ∃ n, Resolver.plain name = some (.native n) ∧ p.signature? name = some n.signature

/-- Without keys there are no cells. -/
theorem CanLink.cells_eq_nil {pages : Nat} {programs : List Program} {p : Program}
    (h : CanLink pages [] programs) (hp : p ∈ programs) : p.cells = [] := by
  refine List.eq_nil_iff_forall_not_mem.mpr fun name hname => ?_
  obtain ⟨key, hkey, -⟩ := h.cells p hp name hname
  cases hkey

variable {pages home i : Nat} {probed : Bool} {programs : List Program} {objects : List Object}
  {resolve : Resolver} {image : Image} {natives : List Native} {p : Program} {f : Function}

/-- What the imports of a linked program are bound to. -/
theorem IsLinked.exists_binds (h : IsLinked pages objects resolve image natives)
    (ho : Represent probed programs objects) (hp : p ∈ programs) :
    ∃ moduleId o l, o ∈ objects ∧ Object.Represents o p moduleId probed l ∧
      ∀ x ∈ o.code.imports, ∃ b, Binds image.symbols natives resolve o x b := by
  obtain ⟨s, -, hlinks⟩ := h.links
  obtain ⟨o, hmem, moduleId, l, hl⟩ := exists_right_of_mem ho hp
  obtain ⟨j, hj⟩ := List.mem_iff_getElem?.mp hmem
  obtain ⟨bindings, -, hbinds⟩ := hlinks.bound j o hj
  refine ⟨moduleId, o, l, hmem, hl, fun x hx => ?_⟩
  obtain ⟨b, -, hb⟩ := exists_right_of_mem hbinds hx
  exact ⟨b, hb⟩

/-- Programs that are linked without cells call through none. -/
theorem IsLinked.cells_eq_nil (h : IsLinked pages objects resolve image natives)
    (ho : Represent probed programs objects) (hresolve : ∀ name c, resolve name ≠ some (.cell c))
    (hp : p ∈ programs) : p.cells = [] := by
  refine List.eq_nil_iff_forall_not_mem.mpr fun name hname => ?_
  obtain ⟨moduleId, o, l, -, hl, hbinds⟩ := h.exists_binds ho hp
  obtain ⟨b, hb⟩ := hbinds _ (hl.cell_mem_imports hname)
  cases hb with
  | memory hkind | table hkind | function hkind | constant hkind => cases hkind
  | address _ hspace =>
    have hne : SymbolName.environment ≠ SymbolName.addresses := by decide
    exact absurd hspace hne
  | cell _ _ hc => exact absurd hc (hresolve _ _)

/-- What programs satisfy that are linked without cells. -/
theorem canLink_of_isLinked (ho : Represent probed programs objects)
    (h : IsLinked pages objects resolve image natives)
    (hresolve : ∀ name, (∀ c, resolve name ≠ some (.cell c)) ∧ ∀ a,
      resolve name ≠ some (.address a))
    (hplain : ∀ p ∈ programs, ∀ name ∈ p.undefinedSymbols, resolve name = Resolver.plain name) :
    CanLink pages [] programs := by
  have hnames := names_of_represent ho
  refine ⟨h.pages_le, fun hne => ?_, hnames ▸ h.names_nodup, fun p hp name hname => ?_,
    fun p hp name hname => ?_⟩
  · obtain ⟨p, hp⟩ := List.exists_mem_of_ne_nil _ hne
    obtain ⟨moduleId, o, l, hmem, hl, -⟩ := h.exists_binds ho hp
    obtain ⟨s, -, hlinks⟩ := h.links
    exact hlinks.pages_le o hmem _ hl.memory_mem_imports 1 rfl
  · rw [h.cells_eq_nil ho (fun name => (hresolve name).1) hp] at hname
    cases hname
  · obtain ⟨moduleId, o, l, hmem, hl, hbinds⟩ := h.exists_binds ho hp
    obtain ⟨b, hb⟩ := hbinds _ (hl.address_mem_imports hname)
    -- a name that is undefined is bound to an address, of a function of the programs or of the host
    cases hb with
    | memory hkind | table hkind | function hkind | cell hkind => cases hkind
    | constant _ hspace => exact absurd rfl hspace
    | address _ _ ha _ =>
      cases ha with
      | defined ha =>
        rw [h.symbols] at ha
        obtain ⟨-, ha⟩ := (lookup_zipIdx_eq_some h.names_nodup).mp ha
        exact .inl (hnames ▸ List.mem_of_getElem? ha)
      | given _ hgiven => exact absurd hgiven ((hresolve name).2 _)
      | @native n _ _ hn hsignature _ _ =>
        rw [hplain p hp name hname] at hn
        have hdeclared := hname
        rw [← hl.describes.undefined] at hdeclared
        obtain ⟨u, hu, rfl⟩ := List.mem_map.mp hdeclared
        have hs := hl.describes.signatures u hu
        rw [hsignature u.2 (hl.expectedSignature.mpr ⟨hname, hs⟩)] at hs
        exact .inr ⟨n, hn, hs⟩

/-- What programs that can be linked import has something to lead to. -/
theorem CanLink.importable {keys : List String} {t : Trampolines} {generation : Nat} {o : Object}
    {moduleId : String} {l : Layout} {x : Import} (h : CanLink pages keys programs)
    (hcells : ∀ key ∈ keys, key ∈ t.keys) (hgeneration : t.generation = some generation)
    (hroom : (programs.flatMap Program.names).length < UInt32.size) (hp : p ∈ programs)
    (hl : o.Represents p moduleId false l) (hx : x ∈ o.code.imports) :
    Importable ((programs.flatMap Program.names).zipIdx 1) (Resolver.offered.map (·.2))
      (Resolver.withCells t) pages generation o x := by
  rw [hl.imports, Lowering.imports, hl.describes.isInstrumented, hl.describes.cells] at hx
  simp only [Bool.false_eq_true, if_false, List.append_nil, List.mem_append, List.mem_cons,
    List.not_mem_nil, or_false, List.mem_map] at hx
  -- the memory, the table, the addresses of undefined names, and the cells
  rcases hx with ((rfl | rfl) | ⟨u, hu, rfl⟩) | ⟨name, hname, rfl⟩
  · exact .memory rfl (h.pages_pos (List.ne_nil_of_mem hp))
  · exact .table rfl
  · have hname : u.1 ∈ p.undefinedSymbols := hl.describes.undefined ▸ List.mem_map_of_mem hu
    by_cases hmem : u.1 ∈ programs.flatMap Program.names
    · obtain ⟨i, hi⟩ := List.mem_iff_getElem?.mp hmem
      have hlt := (List.getElem?_eq_some_iff.mp hi).1
      exact .defined rfl rfl ((lookup_zipIdx_eq_some h.names_nodup).mpr ⟨Nat.le_add_left 1 i, hi⟩)
        (by omega)
    · obtain ⟨n, hn, hsignature⟩ := (h.calls p hp u.1 hname).resolve_left hmem
      obtain ⟨_, heq, hoffered⟩ := Resolver.exists_offered_of_plain hn
      obtain rfl := Definition.native.inj heq
      refine .native rfl rfl (lookup_zipIdx_eq_none.mpr hmem) ((IsSetUp.native_iff t u.1 n).mp hn)
        (fun s hs => ?_) (List.mem_map.mpr ⟨_, hoffered, rfl⟩)
      rw [(hl.expectedSignature.mp hs).2] at hsignature
      exact Option.some.inj hsignature
  · obtain ⟨key, hkey, rfl⟩ := h.cells p hp name hname
    obtain ⟨i, hi⟩ := Option.isSome_iff_exists.mp (Trampolines.lookup_isSome.mpr (hcells key hkey))
    have hne : SymbolName.environment ≠ SymbolName.addresses := by decide
    exact .cell rfl hne (Resolver.withCells_cell hi) (by rw [hgeneration]; rfl)

/-- Programs that can be linked are linked, if there is room for the addresses of their
functions and of those of the host. -/
theorem CanLink.exists_link {keys : List String} {t : Trampolines} {generation : Nat}
    (h : CanLink pages keys programs) (ho : Represent false programs objects)
    (hvalid : ∀ p ∈ programs, p.IsValid) (hcells : ∀ key ∈ keys, key ∈ t.keys)
    (hgeneration : t.generation = some generation)
    (hroom : (programs.flatMap Program.names).length + Resolver.offered.length < UInt32.size) :
    ∃ image, Image.link pages generation objects (Resolver.withCells t) = .ok image := by
  have hnames := names_of_represent ho
  -- addresses begin at one, and those of the host's functions follow
  have hfits : HasRoom ((objects.flatMap (·.defined)).zipIdx 1) (Resolver.offered.map (·.2)) := by
    intro k hk
    rw [List.length_map] at hk
    rw [List.length_zipIdx, hnames]
    omega
  refine Image.exists_link h.pages_le (hnames ▸ h.names_nodup) hfits ?_ ?_
  · intro o hmem x hx
    obtain ⟨p, hp, moduleId, l, hl⟩ := exists_left_of_mem ho hmem
    rw [hnames]
    exact h.importable hcells hgeneration (by omega) hp hl hx
  · intro o hmem name hname
    obtain ⟨p, hp, moduleId, l, hl⟩ := exists_left_of_mem ho hmem
    rw [hl.constructors] at hname
    obtain ⟨f, hf, -⟩ := (hvalid p hp).constructors name hname
    have hdefined : name ∈ programs.flatMap Program.names := by
      rw [← Program.name_of_function? hf]
      exact List.mem_flatMap.mpr ⟨p, hp, List.mem_map_of_mem (Program.mem_of_function? hf)⟩
    obtain ⟨i, hi⟩ := List.mem_iff_getElem?.mp hdefined
    rw [hnames]
    exact ⟨i + 1, (lookup_zipIdx_eq_some h.names_nodup).mpr ⟨Nat.le_add_left 1 i, hi⟩⟩

end Image

end MutationAnalysis
