/-
What can be linked.

Objects of distinct names can be linked if every import has something to lead to.  The
host's functions that they need are from a list that is known beforehand, so the
addresses that they get fit in a word.

* `Linking.exists_bindImports`: imports that all lead somewhere can be bound;
* `Image.exists_link`: objects can be linked.
-/
import MutationAnalysis.Proofs.Image.Linking

namespace MutationAnalysis

open Wasm

namespace Linking

/-- An import of compiled code that has something to lead to: a function of the host has to be one
of a list, and a cell one of the generation at hand. -/
inductive Importable (symbols : List (String × Nat)) (allowed : List Native) (resolve : Resolver)
    (pages generation : Nat) (o : Object) (i : Import) : Prop
  | memory {minimum : Nat} (hkind : i.kind = .memory minimum) (hle : minimum ≤ pages)
  | table (hkind : i.kind = .table)
  | defined {isMutable : Bool} {a : Nat} (hkind : i.kind = .global isMutable)
      (hspace : i.space = SymbolName.addresses) (ha : symbols.lookup i.name = some a)
      (hlt : a < UInt32.size)
  | native {isMutable : Bool} {n : Native} (hkind : i.kind = .global isMutable)
      (hspace : i.space = SymbolName.addresses) (hnone : symbols.lookup i.name = none)
      (hn : resolve i.name = some (.native n))
      (hsignature : ∀ s, o.expectedSignature i.name = some s → s = n.signature) (hmem : n ∈ allowed)
  | cell {c : CellRef} (hkind : i.kind = .global true) (hspace : i.space ≠ SymbolName.addresses)
      (hc : resolve i.name = some (.cell c)) (hgeneration : c.generation = generation)

variable {s : Linking} {symbols : List (String × Nat)} {natives allowed : List Native} {o : Object}
  {resolve : Resolver} {pages generation : Nat} {i : Import}

/-- The addresses of so many functions of the host fit in a word. -/
def HasRoom (symbols : List (String × Nat)) (allowed : List Native) : Prop :=
  ∀ k < allowed.length, symbols.length + 1 + k < UInt32.size

theorem IsNumbered.nativeAddress_lt (hs : s.IsNumbered symbols natives) (hsub : natives ⊆ allowed)
    (hroom : HasRoom symbols allowed) {n : Native} (hn : n ∈ allowed) :
    (s.nativeAddress n).1 < UInt32.size := by
  have hlookup : s.natives.lookup n = (natives.zipIdx (symbols.length + 1)).lookup n := by
    rw [hs.natives_eq]
  rw [Linking.nativeAddress]
  cases hfound : s.natives.lookup n with
  | some a =>
    rw [hfound] at hlookup
    obtain ⟨hle, ha⟩ := (lookup_zipIdx_eq_some hs.nodup).mp hlookup.symm
    obtain ⟨hlt, -⟩ := List.getElem?_eq_some_iff.mp ha
    have hsmall := hs.small _ hlt
    show a < _
    omega
  | none =>
    rw [hfound] at hlookup
    have hnew : n ∉ natives := lookup_zipIdx_eq_none.mp hlookup.symm
    have hlength : (n :: natives).length ≤ allowed.length :=
      (List.nodup_cons.mpr ⟨hnew, hs.nodup⟩).length_le_of_subset (List.cons_subset.mpr ⟨hn, hsub⟩)
    show s.table.size < _
    rw [hs.size]
    exact hroom _ hlength

theorem exists_functionAddress {name : String} (hs : s.IsNumbered symbols natives)
    (hsub : natives ⊆ allowed) (hroom : HasRoom symbols allowed)
    (h : (∃ a, symbols.lookup name = some a ∧ a < UInt32.size) ∨
      (symbols.lookup name = none ∧ ∃ n, resolve name = some (.native n) ∧
        (∀ e, o.expectedSignature name = some e → e = n.signature) ∧ n ∈ allowed)) :
    ∃ r natives', s.functionAddress o resolve name = .ok r ∧ r.1 < UInt32.size ∧
      r.2.IsNumbered symbols natives' ∧ natives' ⊆ allowed := by
  rw [functionAddress, hs.symbols_eq]
  rcases h with ⟨a, ha, hlt⟩ | ⟨hnone, n, hn, hsignature, hmem⟩
  · rw [ha]
    exact ⟨_, natives, rfl, hlt, hs, hsub⟩
  · have hlt := hs.nativeAddress_lt hsub hroom hmem
    obtain ⟨natives', hs', -, hnatives, -⟩ := hs.nativeAddress hlt
    refine ⟨s.nativeAddress n, natives', ?_, hlt, hs', fun m hm => ?_⟩
    · rw [hnone, hn]
      cases he : o.expectedSignature name with
      | none => rfl
      | some e => exact if_pos (hsignature e he)
    · rcases hnatives m hm with hm | rfl
      · exact hsub hm
      · exact hmem

theorem exists_bindImport (hs : s.IsNumbered symbols natives) (hsub : natives ⊆ allowed)
    (hroom : HasRoom symbols allowed)
    (hi : Importable symbols allowed resolve pages generation o i) :
    ∃ b s' natives', s.bindImport o resolve i = .ok (b, s') ∧ s'.IsNumbered symbols natives' ∧
      natives' ⊆ allowed ∧ accepts pages generation i b = true := by
  -- functions that objects define and those of the host are both bound to an address
  have haddress : ∀ isMutable, i.kind = .global isMutable → i.space = SymbolName.addresses →
      ((∃ a, symbols.lookup i.name = some a ∧ a < UInt32.size) ∨
        (symbols.lookup i.name = none ∧ ∃ n, resolve i.name = some (.native n) ∧
          (∀ e, o.expectedSignature i.name = some e → e = n.signature) ∧ n ∈ allowed)) →
      ∃ b s' natives', s.bindImport o resolve i = .ok (b, s') ∧ s'.IsNumbered symbols natives' ∧
        natives' ⊆ allowed ∧ accepts pages generation i b = true := by
    intro isMutable hkind hspace h
    obtain ⟨r, natives', hr, hlt, hs', hsub'⟩ := exists_functionAddress hs hsub hroom h
    refine ⟨.constant (UInt32.ofNat r.1), r.2, natives', ?_, hs', hsub', ?_⟩
    · rw [bindImport, hkind]
      dsimp only
      rw [if_pos hspace, hr]
      show (addressWord i.name r.1 >>= fun w => pure (Binding.constant w, r.2)) = _
      rw [addressWord_eq_ok.mpr ⟨hlt, rfl⟩]
      rfl
    · simp only [accepts, hkind]
  cases hi with
  | memory hkind hle =>
    refine ⟨.shared, s, natives, by rw [bindImport, hkind], hs, hsub, ?_⟩
    simp only [accepts, hkind]
    exact decide_eq_true hle
  | table hkind =>
    exact ⟨.shared, s, natives, by rw [bindImport, hkind], hs, hsub, by simp only [accepts, hkind]⟩
  | defined hkind hspace ha hlt => exact haddress _ hkind hspace (.inl ⟨_, ha, hlt⟩)
  | native hkind hspace hnone hn hsignature hmem =>
    exact haddress _ hkind hspace (.inr ⟨hnone, _, hn, hsignature, hmem⟩)
  | @cell c hkind hspace hc hgeneration =>
    refine ⟨.cell c, s, natives, ?_, hs, hsub, ?_⟩
    · simp only [bindImport, hkind, if_neg hspace, bindGlobal, hc]
      rfl
    · simp only [accepts, hkind]
      exact beq_iff_eq.mpr hgeneration

/-- Imports that all have something to lead to can be bound, and accept what they are bound to. -/
theorem exists_bindImports {imports : List Import} (hs : s.IsNumbered symbols natives)
    (hsub : natives ⊆ allowed) (hroom : HasRoom symbols allowed)
    (hi : ∀ i ∈ imports, Importable symbols allowed resolve pages generation o i) :
    ∃ bs s' natives', s.bindImports o resolve imports = .ok (bs, s') ∧
      s'.IsNumbered symbols natives' ∧ natives' ⊆ allowed ∧
      (imports.zip bs).all (fun (i, b) => accepts pages generation i b) = true := by
  induction imports generalizing s natives with
  | nil => exact ⟨[], s, natives, rfl, hs, hsub, rfl⟩
  | cons i rest ih =>
    rw [List.forall_mem_cons] at hi
    obtain ⟨b, s₁, natives₁, hb, hs₁, hsub₁, haccepts⟩ := exists_bindImport hs hsub hroom hi.1
    obtain ⟨bs, s₂, natives₂, hbs, hs₂, hsub₂, hall⟩ := ih hs₁ hsub₁ hi.2
    refine ⟨b :: bs, s₂, natives₂, ?_, hs₂, hsub₂, ?_⟩
    · exact bindImports_cons_eq_ok.mpr ⟨b, s₁, bs, hb, hbs, rfl⟩
    · rw [List.zip_cons_cons, List.all_cons, hall, Bool.and_true]
      exact haccepts

theorem exists_linkObjects {objects : List Object} {home first : Nat}
    (hs : s.IsNumbered symbols natives) (hsub : natives ⊆ allowed) (hroom : HasRoom symbols allowed)
    (hend : first + (objects.flatMap (·.defined)).length ≤ symbols.length + 1)
    (himports : ∀ o ∈ objects, ∀ i ∈ o.code.imports,
      Importable symbols allowed resolve pages generation o i)
    (hconstructors : ∀ o ∈ objects, ∀ name ∈ o.constructors, ∃ a, symbols.lookup name = some a) :
    ∃ r, s.linkObjects pages generation resolve home first objects = .ok r := by
  induction objects generalizing s natives home first with
  | nil => exact ⟨_, rfl⟩
  | cons o rest ih =>
    rw [List.forall_mem_cons] at himports hconstructors
    rw [List.flatMap_cons, List.length_append] at hend
    obtain ⟨bs, s₁, natives₁, hbs, hs₁, hsub₁, hall⟩ := exists_bindImports hs hsub hroom himports.1
    have hplaced := hs₁.place home first o.defined.length (by omega)
    obtain ⟨addresses, haddresses⟩ : ∃ addresses,
        (s₁.place home first o.defined.length).constructorAddresses o = .ok addresses := by
      refine exists_mapM_eq_ok fun name hname => ?_
      obtain ⟨a, ha⟩ := hconstructors.1 name hname
      exact ⟨a, by rw [hplaced.symbols_eq, ha]⟩
    obtain ⟨r, hr⟩ : ∃ r, (s₁.place home first o.defined.length).linkObjects pages
      generation resolve
        (home + 1) (first + o.defined.length) rest = .ok r :=
      ih hplaced hsub₁ (by omega) himports.2 hconstructors.2
    exact ⟨(instantiate home o bs :: r.1, addresses ++ r.2.1, r.2.2), linkObjects_cons_eq_ok.mpr
      ⟨bs, s₁, addresses, r.1, r.2.1, hbs, hall, haddresses, hr, rfl, rfl⟩⟩

end Linking

open Linking in
/-- Objects of distinct names whose imports all have something to lead to can be linked. -/
theorem Image.exists_link {pages generation : Nat} {objects : List Object} {allowed : List Native}
    {resolve : Resolver} (hpages : pages ≤ maxPages)
    (hnodup : (objects.flatMap (·.defined)).Nodup)
    (hroom : HasRoom ((objects.flatMap (·.defined)).zipIdx 1) allowed)
    (himports : ∀ o ∈ objects, ∀ i ∈ o.code.imports,
      Importable ((objects.flatMap (·.defined)).zipIdx 1) allowed resolve pages generation o i)
    (hconstructors : ∀ o ∈ objects, ∀ name ∈ o.constructors,
      ∃ a, ((objects.flatMap (·.defined)).zipIdx 1).lookup name = some a) :
    ∃ image, Image.link pages generation objects resolve = .ok image := by
  have hassign : assign [] objects = .ok ((objects.flatMap (·.defined)).zipIdx 1) :=
    (assign_eq_ok List.nodup_nil).mpr ⟨hnodup, rfl⟩
  generalize hsymbols : (objects.flatMap (·.defined)).zipIdx 1 = symbols at *
  have hs : IsNumbered ⟨Array.replicate (symbols.length + 1) none, symbols, []⟩ symbols [] :=
    ⟨rfl, rfl, List.nodup_nil, Array.size_replicate, by simp, by simp⟩
  have hend : 1 + (objects.flatMap (·.defined)).length ≤ symbols.length + 1 := by
    rw [← hsymbols, List.length_zipIdx]
    omega
  obtain ⟨⟨instances, constructors, s⟩, hlink⟩ : ∃ r, linkObjects
      ⟨Array.replicate (symbols.length + 1) none, symbols, []⟩ pages generation resolve 0 1 objects
        = .ok r :=
    exists_linkObjects hs (List.nil_subset allowed) hroom hend himports hconstructors
  exact ⟨_, link_eq_ok.mpr ⟨hpages, symbols, instances, constructors, s, hassign, hlink, rfl⟩⟩

end MutationAnalysis
