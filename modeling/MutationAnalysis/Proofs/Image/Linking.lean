/-
What linking makes of objects.

The functions of all objects are numbered in order, from one on, and the functions of the host that
are needed come after them in the table, in the order in which they are first needed
(`Linking.IsNumbered`).  An import is bound to what its name leads to (`Linking.Binds`); numbers
that were given stay, so what is bound once is right in the end.

* `Linking.assign_eq_ok`: names are distinct and numbered in order;
* `Linking.bindImports_spec`, `Linking.linkObjects_spec`: what one object after the other adds;
* `Image.isLinked_of_link`: what a linked image holds.
-/
import MutationAnalysis.Image.Loader
import MutationAnalysis.Proofs.Except
import Mathlib.Data.List.Basic
import Mathlib.Data.List.Forall2
import Mathlib.Data.List.Nodup
import Mathlib.Tactic.Common

namespace MutationAnalysis

open Wasm

namespace Linking

/-! ### Names -/

section

variable {α : Type} [BEq α] [LawfulBEq α] {names : List α} {name : α} {k a : Nat}

theorem lookup_zipIdx_eq_none : (names.zipIdx k).lookup name = none ↔ name ∉ names := by
  rw [List.lookup_eq_none_iff]
  constructor
  · intro h hmem
    obtain ⟨i, hi⟩ := List.mem_iff_getElem?.mp hmem
    have := h _ (List.mk_add_mem_zipIdx_iff_getElem?.mpr hi)
    simp at this
  · rintro h ⟨x, i⟩ hx
    have hmem := List.fst_mem_of_mem_zipIdx hx
    simp only [bne_iff_ne, ne_eq]
    rintro rfl
    exact h hmem

/-- In a list of distinct names that are numbered in order, each name has its own number. -/
theorem lookup_zipIdx_eq_some (h : names.Nodup) :
    (names.zipIdx k).lookup name = some a ↔ k ≤ a ∧ names[a - k]? = some name := by
  induction names generalizing k with
  | nil => simp
  | cons x rest ih =>
    rw [List.nodup_cons] at h
    rw [List.zipIdx_cons, List.lookup_cons]
    -- the name is the first one, or it is among the others, whose numbers are higher
    by_cases hx : name = x
    · subst hx
      have hself : (name == name) = true := by simp
      rw [hself]
      constructor
      · intro ha
        obtain rfl := Option.some.inj ha
        exact ⟨Nat.le_refl k, by simp⟩
      · rintro ⟨hle, ha⟩
        obtain rfl | hlt := Nat.eq_or_lt_of_le hle
        · rfl
        · rw [show a - k = (a - k - 1) + 1 by omega, List.getElem?_cons_succ] at ha
          exact absurd (List.mem_of_getElem? ha) h.1
    · have hne : (name == x) = false := by simpa using hx
      rw [hne]
      simp only [ih h.2]
      constructor
      · rintro ⟨hle, ha⟩
        refine ⟨by omega, ?_⟩
        rw [show a - k = (a - (k + 1)) + 1 by omega, List.getElem?_cons_succ]
        exact ha
      · rintro ⟨hle, ha⟩
        obtain rfl | hlt := Nat.eq_or_lt_of_le hle
        · rw [Nat.sub_self, List.getElem?_cons_zero] at ha
          exact absurd (Option.some.inj ha).symm hx
        · rw [show a - k = (a - (k + 1)) + 1 by omega, List.getElem?_cons_succ] at ha
          exact ⟨by omega, ha⟩

end

section

variable {names : List String} {name : String} {symbols symbols' : List (String × Nat)} {k a : Nat}

theorem assignNames_eq_ok {moduleId : String} :
    assignNames moduleId symbols k names = .ok symbols' ↔
      (names.Nodup ∧ ∀ n ∈ names, symbols.lookup n = none) ∧
        symbols' = symbols ++ names.zipIdx k := by
  induction names generalizing symbols k with
  | nil =>
    rw [assignNames, List.zipIdx_nil, List.append_nil]
    constructor
    · intro h
      exact ⟨⟨List.nodup_nil, by simp⟩, (Except.ok.inj h).symm⟩
    · rintro ⟨-, rfl⟩
      rfl
  | cons n rest ih =>
    rw [assignNames]
    -- a name that has an address already is an error
    by_cases hn : (symbols.lookup n).isSome = true
    · rw [if_pos hn]
      refine iff_of_false (by simp) fun h => ?_
      rw [h.1.2 n (by simp)] at hn
      cases hn
    · rw [if_neg hn, ih, List.zipIdx_cons, List.append_assoc, List.nodup_cons, List.forall_mem_cons]
      refine and_congr_left fun _ => ?_
      have hnone : symbols.lookup n = none := Option.not_isSome_iff_eq_none.mp hn
      have hlookup : ∀ m, (symbols ++ [(n, k)]).lookup m = none ↔
          symbols.lookup m = none ∧ m ≠ n := by
        intro m
        rw [List.lookup_append, Option.or_eq_none_iff, List.lookup_eq_none_iff (l := [(n, k)])]
        simp
      simp only [hlookup, hnone, true_and]
      constructor
      · rintro ⟨hnodup, hrest⟩
        exact ⟨⟨fun hmem => (hrest n hmem).2 rfl, hnodup⟩, fun m hm => (hrest m hm).1⟩
      · rintro ⟨⟨hnot, hnodup⟩, hrest⟩
        exact ⟨hnodup, fun m hm => ⟨hrest m hm, fun heq => hnot (heq ▸ hm)⟩⟩

/-- The functions of objects get addresses exactly if their names are distinct. -/
theorem assign_eq_ok {objects : List Object} (hnames : names.Nodup) :
    assign (names.zipIdx 1) objects = .ok symbols ↔
      (names ++ objects.flatMap (·.defined)).Nodup ∧
        symbols = (names ++ objects.flatMap (·.defined)).zipIdx 1 := by
  induction objects generalizing names with
  | nil =>
    rw [assign, List.flatMap_nil, List.append_nil]
    constructor
    · intro h
      exact ⟨hnames, (Except.ok.inj h).symm⟩
    · rintro ⟨-, rfl⟩
      rfl
  | cons o rest ih =>
    rw [assign, bind_eq_ok, List.flatMap_cons, ← List.append_assoc]
    have hnext : (names.zipIdx 1).length + 1 = 1 + names.length := by
      rw [List.length_zipIdx, Nat.add_comm]
    simp only [assignNames_eq_ok, hnext, ← List.zipIdx_append, lookup_zipIdx_eq_none]
    constructor
    · rintro ⟨_, ⟨⟨hnodup, hnew⟩, rfl⟩, hrest⟩
      exact (ih (List.nodup_append'.mpr ⟨hnames, hnodup, fun n hn hn' => hnew n hn' hn⟩)).mp hrest
    · rintro ⟨hnodup, rfl⟩
      have hprefix := (List.nodup_append'.mp hnodup).1
      obtain ⟨-, hdefined, hdisjoint⟩ := List.nodup_append'.mp hprefix
      exact ⟨_, ⟨⟨hdefined, fun n hn hn' => hdisjoint hn' hn⟩, rfl⟩, (ih hprefix).mpr ⟨hnodup, rfl⟩⟩

end

/-! ### Functions of the host -/

/-- The host's functions that have an address: they come after the functions of the
objects, in the order of the list. -/
structure IsNumbered (s : Linking) (symbols : List (String × Nat)) (natives : List Native) :
    Prop where
  symbols_eq : s.symbols = symbols
  natives_eq : s.natives = natives.zipIdx (symbols.length + 1)
  nodup : natives.Nodup
  size : s.table.size = symbols.length + 1 + natives.length
  small : ∀ k < natives.length, symbols.length + 1 + k < UInt32.size
  host : ∀ (k : Nat) (n : Native), natives[k]? = some n →
    s.table[symbols.length + 1 + k]? = some (some (.host n))

section

variable {s s' : Linking} {symbols : List (String × Nat)} {natives natives' allowed : List Native}
  {o : Object} {resolve : Resolver} {name : String} {a : Nat} {i : Import} {b : Binding}

/-- What follows from one state of linking for a later one. -/
structure Extends (s : Linking) (natives : List Native) (s' : Linking) (natives' : List Native) :
    Prop where
  natives : natives <+: natives'
  table : ∀ a < s.table.size, s'.table[a]? = s.table[a]?
  size : s.table.size ≤ s'.table.size

theorem Extends.refl (s : Linking) (natives : List Native) : Extends s natives s natives :=
  ⟨List.prefix_rfl, fun _ _ => rfl, Nat.le_refl _⟩

theorem Extends.trans {s₁ s₂ s₃ : Linking} {l₁ l₂ l₃ : List Native} (h : Extends s₁ l₁ s₂ l₂)
    (h' : Extends s₂ l₂ s₃ l₃) : Extends s₁ l₁ s₃ l₃ where
  natives := h.natives.trans h'.natives
  table := fun a ha => by rw [h'.table a (Nat.lt_of_lt_of_le ha h.size), h.table a ha]
  size := Nat.le_trans h.size h'.size

/-- A new function of the host is put after all others. -/
theorem IsNumbered.push (hs : s.IsNumbered symbols natives) {n : Native} (hnew : n ∉ natives)
    (hlt : s.table.size < UInt32.size) :
    IsNumbered { s with
      table := s.table.push (some (.host n)), natives := s.natives ++ [(n, s.table.size)] }
      symbols (natives ++ [n]) where
  symbols_eq := hs.symbols_eq
  natives_eq := by
    rw [hs.natives_eq, List.zipIdx_append, hs.size]
    rfl
  nodup := by
    rw [List.nodup_append]
    refine ⟨hs.nodup, List.nodup_singleton n, fun m hm k hk => ?_⟩
    obtain rfl := List.mem_singleton.mp hk
    exact fun heq => hnew (heq ▸ hm)
  size := by
    rw [Array.size_push, hs.size, List.length_append, List.length_singleton]
    omega
  small k hk := by
    rw [List.length_append, List.length_singleton] at hk
    rw [hs.size] at hlt
    omega
  host k m hk := by
    have hsize := hs.size
    -- the entry is an earlier one, or the one that was pushed
    by_cases hold : k < natives.length
    · rw [List.getElem?_append_left hold] at hk
      rw [Array.getElem?_push, if_neg (by omega)]
      exact hs.host k m hk
    · obtain ⟨hlast, -⟩ := List.getElem?_eq_some_iff.mp hk
      rw [List.length_append, List.length_singleton] at hlast
      obtain rfl : k = natives.length := by omega
      rw [List.getElem?_concat_length] at hk
      obtain rfl := Option.some.inj hk
      rw [Array.getElem?_push, if_pos hsize.symm]

/-- A function of the host gets the next address unless it has one. -/
theorem IsNumbered.nativeAddress (hs : s.IsNumbered symbols natives) {n : Native}
    (hlt : (s.nativeAddress n).1 < UInt32.size) : ∃ natives',
      (s.nativeAddress n).2.IsNumbered symbols natives' ∧
      Extends s natives (s.nativeAddress n).2 natives' ∧ (∀ m ∈ natives', m ∈ natives ∨ m = n) ∧
      ∃ k : Nat, natives'[k]? = some n ∧ (s.nativeAddress n).1 = symbols.length + 1 + k := by
  have hlookup : s.natives.lookup n = (natives.zipIdx (symbols.length + 1)).lookup n := by
    rw [hs.natives_eq]
  rw [Linking.nativeAddress] at hlt ⊢
  cases hn : s.natives.lookup n with
  | some a =>
    rw [hn] at hlookup
    obtain ⟨hle, ha⟩ := (lookup_zipIdx_eq_some hs.nodup).mp hlookup.symm
    exact ⟨natives, hs, .refl s natives, fun m hm => .inl hm, _, ha, by dsimp only; omega⟩
  | none =>
    rw [hn] at hlookup hlt
    have hnew : n ∉ natives := lookup_zipIdx_eq_none.mp hlookup.symm
    refine ⟨natives ++ [n], hs.push hnew hlt, ⟨List.prefix_append _ _, fun a ha => ?_, ?_⟩, ?_,
      natives.length, List.getElem?_concat_length, hs.size⟩
    · rw [Array.getElem?_push, if_neg (Nat.ne_of_lt ha)]
    · rw [Array.size_push]
      omega
    · intro m hm
      rw [List.mem_append, List.mem_singleton] at hm
      exact hm

/-! ### Imports -/

/-- The address under which an object finds a function that it calls. -/
inductive HasAddress (symbols : List (String × Nat)) (natives : List Native) (resolve : Resolver)
    (o : Object) (name : String) (a : Nat) : Prop
  | defined (h : symbols.lookup name = some a)
  | given (hnone : symbols.lookup name = none) (h : resolve name = some (.address a))
  | native {n : Native} {k : Nat} (hnone : symbols.lookup name = none)
      (hn : resolve name = some (.native n))
      (hsignature : ∀ s, o.expectedSignature name = some s → s = n.signature)
      (hk : natives[k]? = some n) (ha : a = symbols.length + 1 + k)

/-- What an import may be bound to. -/
inductive Binds (symbols : List (String × Nat)) (natives : List Native) (resolve : Resolver)
    (o : Object) (i : Import) : Binding → Prop
  | memory {pages : Nat} (hkind : i.kind = .memory pages) :
      Binds symbols natives resolve o i .shared
  | table (hkind : i.kind = .table) : Binds symbols natives resolve o i .shared
  | address {isMutable : Bool} {a : Nat} (hkind : i.kind = .global isMutable)
      (hspace : i.space = SymbolName.addresses) (ha : HasAddress symbols natives resolve o i.name a)
      (hlt : a < UInt32.size) : Binds symbols natives resolve o i (.constant (UInt32.ofNat a))
  | cell {c : CellRef} (hkind : i.kind = .global true) (hspace : i.space ≠ SymbolName.addresses)
      (hc : resolve i.name = some (.cell c)) : Binds symbols natives resolve o i (.cell c)
  | constant {w : Word} (hkind : i.kind = .global false) (hspace : i.space ≠ SymbolName.addresses) :
      Binds symbols natives resolve o i (.constant w)
  | function {type : Nat} {n : Native} (hkind : i.kind = .function type)
      (hn : resolve i.name = some (.native n)) : Binds symbols natives resolve o i (.native n)

theorem HasAddress.mono (h : HasAddress symbols natives resolve o name a)
    (hnatives : natives <+: natives') : HasAddress symbols natives' resolve o name a := by
  cases h with
  | defined h => exact .defined h
  | given hnone h => exact .given hnone h
  | native hnone hn hsignature hk ha =>
    refine .native hnone hn hsignature ?_ ha
    obtain ⟨hlt, -⟩ := List.getElem?_eq_some_iff.mp hk
    obtain ⟨more, rfl⟩ := hnatives
    rw [List.getElem?_append_left hlt, hk]

theorem Binds.mono (h : Binds symbols natives resolve o i b) (hnatives : natives <+: natives') :
    Binds symbols natives' resolve o i b := by
  cases h with
  | memory hkind => exact .memory hkind
  | table hkind => exact .table hkind
  | address hkind hspace ha hlt => exact .address hkind hspace (ha.mono hnatives) hlt
  | cell hkind hspace hc => exact .cell hkind hspace hc
  | constant hkind hspace => exact .constant hkind hspace
  | function hkind hn => exact .function hkind hn

/-- An address is found among the symbols, or where the name leads; a function of the host that the
object expects as it is has one of its own. -/
theorem functionAddress_cases {r : Nat × Linking} (h : s.functionAddress o resolve name = .ok r) :
    (∃ a, s.symbols.lookup name = some a ∧ r = (a, s)) ∨
      s.symbols.lookup name = none ∧ ((∃ a, resolve name = some (.address a) ∧ r = (a, s)) ∨
        ∃ n, resolve name = some (.native n) ∧
          (∀ e, o.expectedSignature name = some e → e = n.signature) ∧ r = s.nativeAddress n) := by
  rw [functionAddress] at h
  split at h
  · rename_i a hname
    exact .inl ⟨a, hname, (Except.ok.inj h).symm⟩
  · rename_i hnone
    refine .inr ⟨hnone, ?_⟩
    split at h
    · rename_i a ha
      exact .inl ⟨a, ha, (Except.ok.inj h).symm⟩
    · rename_i n hn
      refine .inr ⟨n, hn, ?_⟩
      -- the signature is checked only if the object expects one; the address is the same
      split at h
      · rename_i expected hexpected
        split at h
        · rename_i heq
          refine ⟨fun e he => ?_, (Except.ok.inj h).symm⟩
          rw [hexpected] at he
          exact (Option.some.inj he).symm.trans heq
        · cases h
      · rename_i hexpected
        refine ⟨fun e he => ?_, (Except.ok.inj h).symm⟩
        rw [hexpected] at he
        cases he
    · cases h
    · cases h

theorem functionAddress_spec {r : Nat × Linking} (hs : s.IsNumbered symbols natives)
    (h : s.functionAddress o resolve name = .ok r) (hlt : r.1 < UInt32.size) :
    ∃ natives', r.2.IsNumbered symbols natives' ∧ Extends s natives r.2 natives' ∧
      HasAddress symbols natives' resolve o name r.1 := by
  have hcases := functionAddress_cases h
  rw [hs.symbols_eq] at hcases
  rcases hcases with ⟨a, hname, rfl⟩ | ⟨hnone, ⟨a, ha, rfl⟩ | ⟨n, hn, hsignature, rfl⟩⟩
  · exact ⟨natives, hs, .refl s natives, .defined hname⟩
  · exact ⟨natives, hs, .refl s natives, .given hnone ha⟩
  · obtain ⟨natives', hs', hextends, -, k, hk, ha⟩ := hs.nativeAddress hlt
    exact ⟨natives', hs', hextends, .native hnone hn hsignature hk ha⟩

theorem addressWord_eq_ok {w : Word} :
    addressWord name a = .ok w ↔ a < UInt32.size ∧ w = UInt32.ofNat a := by
  rw [addressWord]
  split
  · rename_i hlt
    exact ⟨fun h => ⟨hlt, (Except.ok.inj h).symm⟩, fun h => by rw [h.2]⟩
  · rename_i hlt
    exact iff_of_false (by simp) fun h => hlt h.1

/-- A global is bound to a cell if it is mutable, and to a constant if not. -/
theorem bindGlobal_cases {isMutable : Bool} (h : bindGlobal resolve name isMutable = .ok b) :
    (isMutable = true ∧ ∃ c, resolve name = some (.cell c) ∧ b = .cell c) ∨
      isMutable = false ∧ ∃ w, b = .constant w := by
  unfold bindGlobal at h
  split at h
  · rename_i c hc
    exact .inl ⟨rfl, c, hc, (Except.ok.inj h).symm⟩
  · exact .inr ⟨rfl, _, (Except.ok.inj h).symm⟩
  · obtain ⟨w, -, rfl⟩ := map_eq_ok.mp h
    exact .inr ⟨rfl, w, rfl⟩
  · cases h
  · cases h

theorem bindFunction_eq_ok :
    bindFunction resolve name = .ok b ↔ ∃ n, resolve name = some (.native n) ∧ b = .native n := by
  rw [bindFunction]
  split
  · rename_i n hn
    rw [hn]
    exact ⟨fun h => ⟨n, rfl, (Except.ok.inj h).symm⟩, fun ⟨m, hm, hb⟩ => by cases hm; rw [hb]⟩
  · rename_i other hother hne
    refine iff_of_false (by simp) ?_
    rintro ⟨n, hn, -⟩
    exact hother n (Option.some.inj (hne.symm.trans hn))
  · rename_i hnone
    rw [hnone]
    simp

/-- How an import is bound: only the address of a function may be new to the linking. -/
inductive BindsImport (s : Linking) (o : Object) (resolve : Resolver) (i : Import) :
    Binding × Linking → Prop
  | memory {pages : Nat} (hkind : i.kind = .memory pages) : BindsImport s o resolve i (.shared, s)
  | table (hkind : i.kind = .table) : BindsImport s o resolve i (.shared, s)
  | address {isMutable : Bool} {r : Nat × Linking} (hkind : i.kind = .global isMutable)
      (hspace : i.space = SymbolName.addresses) (hr : s.functionAddress o resolve i.name = .ok r)
      (hlt : r.1 < UInt32.size) : BindsImport s o resolve i (.constant (UInt32.ofNat r.1), r.2)
  | cell {c : CellRef} (hkind : i.kind = .global true) (hspace : i.space ≠ SymbolName.addresses)
      (hc : resolve i.name = some (.cell c)) : BindsImport s o resolve i (.cell c, s)
  | constant {w : Word} (hkind : i.kind = .global false) (hspace : i.space ≠ SymbolName.addresses) :
      BindsImport s o resolve i (.constant w, s)
  | function {type : Nat} {n : Native} (hkind : i.kind = .function type)
      (hn : resolve i.name = some (.native n)) : BindsImport s o resolve i (.native n, s)

theorem bindsImport_of_bindImport {x : Binding × Linking} (h : s.bindImport o resolve i = .ok x) :
    BindsImport s o resolve i x := by
  rw [bindImport] at h
  cases hkind : i.kind with
  | memory pages =>
    rw [hkind] at h
    obtain rfl := Except.ok.inj h
    exact .memory hkind
  | table =>
    rw [hkind] at h
    obtain rfl := Except.ok.inj h
    exact .table hkind
  | global isMutable =>
    rw [hkind] at h
    dsimp only at h
    by_cases hspace : i.space = SymbolName.addresses
    · rw [if_pos hspace] at h
      obtain ⟨r, hr, h⟩ := bind_eq_ok.mp h
      obtain ⟨w, hw, h⟩ := bind_eq_ok.mp h
      obtain rfl := Except.ok.inj h
      obtain ⟨hlt, rfl⟩ := addressWord_eq_ok.mp hw
      exact .address hkind hspace hr hlt
    · rw [if_neg hspace] at h
      obtain ⟨b, hb, rfl⟩ := map_eq_ok.mp h
      rcases bindGlobal_cases hb with ⟨rfl, c, hc, rfl⟩ | ⟨rfl, w, rfl⟩
      · exact .cell hkind hspace hc
      · exact .constant hkind hspace
  | function type =>
    rw [hkind] at h
    obtain ⟨b, hb, rfl⟩ := map_eq_ok.mp h
    obtain ⟨n, hn, rfl⟩ := bindFunction_eq_ok.mp hb
    exact .function hkind hn

/-- One import is bound and then the others. -/
theorem bindImports_cons_eq_ok {imports : List Import} {bindings : List Binding} :
    s.bindImports o resolve (i :: imports) = .ok (bindings, s') ↔
      ∃ b s₁ others, s.bindImport o resolve i = .ok (b, s₁) ∧
        s₁.bindImports o resolve imports = .ok (others, s') ∧ bindings = b :: others := by
  rw [bindImports]
  constructor
  · intro h
    obtain ⟨⟨b, s₁⟩, hb, h⟩ := bind_eq_ok.mp h
    obtain ⟨⟨others, s₂⟩, hothers, h⟩ := bind_eq_ok.mp h
    obtain ⟨rfl, rfl⟩ := Prod.mk.inj (Except.ok.inj h)
    exact ⟨b, s₁, others, hb, hothers, rfl⟩
  · rintro ⟨b, s₁, others, hb, hothers, rfl⟩
    exact bind_eq_ok.mpr ⟨_, hb, bind_eq_ok.mpr ⟨_, hothers, rfl⟩⟩

/-- An import is bound to what its name leads to. -/
theorem bindImport_spec (hs : s.IsNumbered symbols natives)
    (h : s.bindImport o resolve i = .ok (b, s')) :
    ∃ natives', s'.IsNumbered symbols natives' ∧ Extends s natives s' natives' ∧
      Binds symbols natives' resolve o i b := by
  cases bindsImport_of_bindImport h with
  | memory hkind => exact ⟨natives, hs, .refl s natives, .memory hkind⟩
  | table hkind => exact ⟨natives, hs, .refl s natives, .table hkind⟩
  | address hkind hspace hr hlt =>
    obtain ⟨natives', hs', hextends, ha⟩ := functionAddress_spec hs hr hlt
    exact ⟨natives', hs', hextends, .address hkind hspace ha hlt⟩
  | cell hkind hspace hc => exact ⟨natives, hs, .refl s natives, .cell hkind hspace hc⟩
  | constant hkind hspace => exact ⟨natives, hs, .refl s natives, .constant hkind hspace⟩
  | function hkind hn => exact ⟨natives, hs, .refl s natives, .function hkind hn⟩

theorem bindImports_spec {imports : List Import} {bindings : List Binding}
    (hs : s.IsNumbered symbols natives) (h : s.bindImports o resolve imports = .ok (bindings, s')) :
    ∃ natives', s'.IsNumbered symbols natives' ∧ Extends s natives s' natives' ∧
      List.Forall₂ (Binds symbols natives' resolve o) imports bindings := by
  induction imports generalizing s natives bindings with
  | nil =>
    rw [bindImports] at h
    obtain ⟨rfl, rfl⟩ := Prod.mk.inj (Except.ok.inj h)
    exact ⟨natives, hs, .refl s natives, .nil⟩
  | cons i rest ih =>
    obtain ⟨b, s₁, bs, hb, hbs, rfl⟩ := bindImports_cons_eq_ok.mp h
    obtain ⟨natives₁, hs₁, hextends, hbinds⟩ := bindImport_spec hs hb
    obtain ⟨natives₂, hs₂, hextends', hrest⟩ := ih hs₁ hbs
    exact ⟨natives₂, hs₂, hextends.trans hextends', .cons (hbinds.mono hextends'.natives) hrest⟩

/-! ### Objects -/

section

variable {home first count : Nat}

theorem size_place : (s.place home first count).table.size = s.table.size := by
  rw [place]
  induction count with
  | zero => rfl
  | succ count ih =>
    rw [List.range_succ, List.foldl_append, List.foldl_cons, List.foldl_nil,
      Array.size_setIfInBounds]
    exact ih

/-- Placing the functions of an object leaves all other addresses alone. -/
theorem getElem?_place_of_not (ha : a < first ∨ first + count ≤ a) :
    (s.place home first count).table[a]? = s.table[a]? := by
  rw [place]
  induction count with
  | zero => rfl
  | succ count ih =>
    rw [List.range_succ, List.foldl_append, List.foldl_cons, List.foldl_nil,
      Array.getElem?_setIfInBounds_ne (by omega)]
    exact ih (by omega)

theorem getElem?_place {k : Nat} (hk : k < count) (hsize : first + k < s.table.size) :
    (s.place home first count).table[first + k]? = some (some (.defined home k)) := by
  induction count with
  | zero => exact absurd hk (Nat.not_lt_zero k)
  | succ count ih =>
    have hstep : (s.place home first (count + 1)).table
        = (s.place home first count).table.setIfInBounds
        (first + count) (some (.defined home count)) := by
      rw [place, List.range_succ, List.foldl_append]
      rfl
    rw [hstep]
    by_cases heq : k = count
    · subst heq
      rw [Array.getElem?_setIfInBounds_self_of_lt]
      rw [size_place]
      exact hsize
    · rw [Array.getElem?_setIfInBounds_ne (by omega)]
      exact ih (by omega)

theorem IsNumbered.place (hs : s.IsNumbered symbols natives) (home first count : Nat)
    (hend : first + count ≤ symbols.length + 1) :
    (s.place home first count).IsNumbered symbols natives where
  symbols_eq := hs.symbols_eq
  natives_eq := hs.natives_eq
  nodup := hs.nodup
  size := size_place.trans hs.size
  small := hs.small
  host := fun k n hk => by
    rw [getElem?_place_of_not (by omega)]
    exact hs.host k n hk

end

/-- What is known of objects that are linked one after the other, from an instance number on. -/
structure Links (s : Linking) (symbols : List (String × Nat)) (natives : List Native)
    (resolve : Resolver) (pages home : Nat) (objects : List Object)
    (instances : List (Instance Native)) (constructors : List Nat) : Prop where
  numbered : s.IsNumbered symbols natives
  length_eq : instances.length = objects.length
  bound : ∀ (j : Nat) (o : Object), objects[j]? = some o →
    ∃ bindings, instances[j]? = some (instantiate (home + j) o bindings) ∧
      List.Forall₂ (Binds symbols natives resolve o) o.code.imports bindings
  pages_le : ∀ o ∈ objects, ∀ i ∈ o.code.imports, ∀ n, i.kind = .memory n → n ≤ pages
  placed : ∀ (j i : Nat) (o : Object) (name : String), objects[j]? = some o →
    o.defined[i]? = some name → ∃ a, symbols.lookup name = some a ∧
      s.table[a]? = some (some (.defined (home + j) i))
  constructors : List.Forall₂ (fun name a => symbols.lookup name = some a)
    (objects.flatMap (·.constructors)) constructors

theorem constructorAddresses_eq_ok {addresses : List Nat} :
    s.constructorAddresses o = .ok addresses ↔
      List.Forall₂ (fun name a => s.symbols.lookup name = some a) o.constructors addresses := by
  rw [constructorAddresses, mapM_eq_ok]
  refine iff_of_eq (congrArg (List.Forall₂ · _ _) (funext₂ fun name a => ?_))
  cases s.symbols.lookup name <;> simp

theorem memory_le_of_accepts {imports : List Import} {bindings : List Binding}
    {pages generation : Nat} (hlength : imports.length ≤ bindings.length)
    (h : (imports.zip bindings).all (fun (i, b) => accepts pages generation i b) = true) :
    ∀ i ∈ imports, ∀ n, i.kind = .memory n → n ≤ pages := by
  intro i hi n hkind
  obtain ⟨k, hk⟩ := List.mem_iff_getElem?.mp hi
  obtain ⟨hlt, -⟩ := List.getElem?_eq_some_iff.mp hk
  have hlt' : k < bindings.length := by omega
  have hmem : (i, bindings[k]) ∈ imports.zip bindings :=
    List.mem_of_getElem? (i := k)
      (List.getElem?_zip_eq_some.mpr ⟨hk, List.getElem?_eq_getElem hlt'⟩)
  have haccepts := List.all_eq_true.mp h _ hmem
  simp only [accepts, hkind] at haccepts
  exact of_decide_eq_true haccepts

section

variable {pages generation home first : Nat} {objects rest : List Object}
  {instances : List (Instance Native)} {constructors : List Nat}

/-- One object is linked and then the others. -/
theorem linkObjects_cons_eq_ok :
    s.linkObjects pages generation resolve home first (o :: rest)
      = .ok (instances, constructors, s') ↔
      ∃ bindings s₁ addresses others more,
        s.bindImports o resolve o.code.imports = .ok (bindings, s₁) ∧
        (o.code.imports.zip bindings).all (fun (i, b) => accepts pages generation i b) = true ∧
        (s₁.place home first o.defined.length).constructorAddresses o = .ok addresses ∧
        (s₁.place home first o.defined.length).linkObjects pages generation resolve (home + 1)
          (first + o.defined.length) rest = .ok (others, more, s') ∧
        instances = instantiate home o bindings :: others ∧ constructors = addresses ++ more := by
  rw [linkObjects]
  constructor
  · intro h
    obtain ⟨⟨bindings, s₁⟩, hbindings, h⟩ := bind_eq_ok.mp h
    dsimp only at h
    cases hall : (o.code.imports.zip bindings).all fun (i, b) => accepts pages generation i b with
    | false =>
      rw [hall] at h
      cases h
    | true =>
      rw [hall] at h
      obtain ⟨addresses, haddresses, h⟩ := bind_eq_ok.mp h
      obtain ⟨⟨others, more, s₂⟩, hothers, h⟩ := bind_eq_ok.mp h
      obtain ⟨rfl, hrest⟩ := Prod.mk.inj (Except.ok.inj h)
      obtain ⟨rfl, rfl⟩ := Prod.mk.inj hrest
      exact ⟨bindings, s₁, addresses, others, more, hbindings, hall, haddresses, hothers, rfl, rfl⟩
  · rintro ⟨bindings, s₁, addresses, others, more, hbindings, hall, haddresses, hothers, rfl, rfl⟩
    refine bind_eq_ok.mpr ⟨_, hbindings, ?_⟩
    dsimp only
    rw [hall]
    exact bind_eq_ok.mpr ⟨_, haddresses, bind_eq_ok.mpr ⟨_, hothers, rfl⟩⟩

/-- What is known of the first object joins what is known of the others. -/
theorem Links.cons {bindings : List Binding} {addresses : List Nat}
    (h : s.Links symbols natives resolve pages (home + 1) rest instances constructors)
    (hbinds : List.Forall₂ (Binds symbols natives resolve o) o.code.imports bindings)
    (hpages : ∀ i ∈ o.code.imports, ∀ n, i.kind = .memory n → n ≤ pages)
    (hplaced : ∀ (i : Nat) (name : String), o.defined[i]? = some name →
      ∃ a, symbols.lookup name = some a ∧ s.table[a]? = some (some (.defined home i)))
    (haddresses : List.Forall₂ (fun name a => symbols.lookup name = some a)
      o.constructors addresses) :
    s.Links symbols natives resolve pages home (o :: rest)
      (instantiate home o bindings :: instances) (addresses ++ constructors) where
  numbered := h.numbered
  length_eq := by rw [List.length_cons, List.length_cons, h.length_eq]
  bound j p hj := by
    cases j with
    | zero =>
      obtain rfl := Option.some.inj hj
      exact ⟨bindings, rfl, hbinds⟩
    | succ j =>
      obtain ⟨bs, hbs, hbound⟩ := h.bound j p hj
      exact ⟨bs, by rw [List.getElem?_cons_succ, hbs, Nat.add_right_comm, Nat.add_assoc], hbound⟩
  pages_le := List.forall_mem_cons.mpr ⟨hpages, h.pages_le⟩
  placed j i p name hj hi := by
    cases j with
    | zero =>
      obtain rfl := Option.some.inj hj
      exact hplaced i name hi
    | succ j =>
      obtain ⟨a, ha, hentry⟩ := h.placed j i p name hj hi
      exact ⟨a, ha, by rw [hentry, Nat.add_right_comm, Nat.add_assoc]⟩
  constructors := by
    rw [List.flatMap_cons]
    exact List.rel_append haddresses h.constructors

/-- Objects are linked one after the other; what is in the table for earlier ones stays. -/
theorem linkObjects_spec (before : List String) (hs : s.IsNumbered symbols natives)
    (hsymbols : symbols = (before ++ objects.flatMap (·.defined)).zipIdx 1)
    (hnodup : (before ++ objects.flatMap (·.defined)).Nodup) (hfirst : first = before.length + 1)
    (h : s.linkObjects pages generation resolve home first objects
      = .ok (instances, constructors, s')) :
    ∃ natives', natives <+: natives' ∧ (∀ a < first, s'.table[a]? = s.table[a]?) ∧
      s'.Links symbols natives' resolve pages home objects instances constructors := by
  induction objects generalizing s natives home first before instances constructors with
  | nil =>
    rw [linkObjects] at h
    obtain ⟨rfl, hrest⟩ := Prod.mk.inj (Except.ok.inj h)
    obtain ⟨rfl, rfl⟩ := Prod.mk.inj hrest
    refine ⟨natives, List.prefix_rfl, fun _ _ => rfl, hs, rfl, ?_, ?_, ?_, .nil⟩ <;> simp
  | cons o rest ih =>
    obtain ⟨bindings, s₁, addresses, others, more, hbindings, hall, haddresses,
      hothers, rfl, rfl⟩ :=
      linkObjects_cons_eq_ok.mp h
    obtain ⟨natives₁, hs₁, hextends, hbinds⟩ := bindImports_spec hs hbindings
    have hsplit : before ++ (o :: rest).flatMap (·.defined)
        = (before ++ o.defined) ++ rest.flatMap (·.defined) := by
      rw [List.flatMap_cons, List.append_assoc]
    rw [hsplit] at hsymbols hnodup
    have hlength : symbols.length
        = before.length + o.defined.length + (rest.flatMap (·.defined)).length := by
      rw [hsymbols, List.length_zipIdx, List.length_append, List.length_append]
    have hplaced := hs₁.place home first o.defined.length (by omega)
    obtain ⟨natives₂, hnatives, htable, hlinks⟩ := ih _ hplaced hsymbols hnodup
      (by rw [List.length_append]; omega) hothers
    have hsize := hs.size
    have hsize₁ := hs₁.size
    refine ⟨natives₂, hextends.natives.trans hnatives, ?_, hlinks.cons ?_ ?_ ?_ ?_⟩
    · -- the addresses before the object's are neither the host's nor those of later objects
      intro a ha
      rw [htable a (by omega), getElem?_place_of_not (.inl ha), hextends.table a (by omega)]
    · exact hbinds.imp fun _ _ hb => hb.mono hnatives
    · exact memory_le_of_accepts (Nat.le_of_eq hbinds.length_eq) hall
    · intro i name hi
      obtain ⟨hlt, -⟩ := List.getElem?_eq_some_iff.mp hi
      refine ⟨first + i, ?_, ?_⟩
      · rw [hsymbols]
        refine (lookup_zipIdx_eq_some hnodup).mpr ⟨by omega, ?_⟩
        rw [List.append_assoc, List.getElem?_append_right (by omega),
          List.getElem?_append_left (by omega), ← hi]
        congr 1
        omega
      · rw [htable _ (by omega), getElem?_place hlt (by omega)]
    · have haddresses' := constructorAddresses_eq_ok.mp haddresses
      rwa [hplaced.symbols_eq] at haddresses'

end

end

end Linking

/-! ### Images -/

namespace Image

open Linking

/-- The function that a name leads to: one that an object defines, or else one of the host. -/
inductive LeadsTo (objects : List Object) (resolve : Resolver) (name : String) :
    FuncRef Native → Prop
  | defined {j i : Nat} {o : Object} (ho : objects[j]? = some o) (hi : o.defined[i]? = some name) :
      LeadsTo objects resolve name (.defined j i)
  | native {n : Native} (hnot : ∀ o ∈ objects, name ∉ o.defined)
      (hn : resolve name = some (.native n)) : LeadsTo objects resolve name (.host n)

variable {pages generation : Nat} {objects : List Object} {resolve : Resolver} {image : Image}
  {natives : List Native} {name : String} {a : Nat}

/-- What a linked image holds. -/
structure IsLinked (pages : Nat) (objects : List Object) (resolve : Resolver) (image : Image)
    (natives : List Native) : Prop where
  memory : image.memory = .blank pages
  pages_le : pages ≤ maxPages
  names_nodup : (objects.flatMap (·.defined)).Nodup
  symbols : image.symbols = (objects.flatMap (·.defined)).zipIdx 1
  function?_zero : image.function? 0 = none
  links : ∃ s : Linking, s.table = image.table ∧
    s.Links image.symbols natives resolve pages 0 objects image.instances.toList image.constructors

/-- Linking gives the functions of all objects their addresses and then links
one object after the other. -/
theorem link_eq_ok : Image.link pages generation objects resolve = .ok image ↔
    pages ≤ maxPages ∧ ∃ symbols instances constructors s, assign [] objects = .ok symbols ∧
      linkObjects ⟨Array.replicate (symbols.length + 1) none, symbols, []⟩ pages
        generation resolve 0 1 objects = .ok (instances, constructors, s) ∧
      image = ⟨.blank pages, instances.toArray, s.table, s.symbols, constructors⟩ := by
  unfold Image.link
  by_cases hpages : maxPages < pages
  · rw [if_pos hpages]
    exact iff_of_false (fun h => by cases h) fun h => Nat.not_le.mpr hpages h.1
  · rw [if_neg hpages]
    constructor
    · intro h
      obtain ⟨symbols, hassign, h⟩ := bind_eq_ok.mp h
      obtain ⟨⟨instances, constructors, s⟩, hlink, h⟩ := bind_eq_ok.mp h
      exact ⟨Nat.le_of_not_lt hpages, symbols, instances, constructors, s, hassign, hlink,
        (Except.ok.inj h).symm⟩
    · rintro ⟨-, symbols, instances, constructors, s, hassign, hlink, rfl⟩
      exact bind_eq_ok.mpr ⟨_, hassign, bind_eq_ok.mpr ⟨_, hlink, rfl⟩⟩

theorem isLinked_of_link (h : Image.link pages generation objects resolve = .ok image) :
    ∃ natives, IsLinked pages objects resolve image natives := by
  obtain ⟨hpages, symbols, instances, constructors, s, hassign, hlink, rfl⟩ := link_eq_ok.mp h
  obtain ⟨hnodup, hsymbols⟩ := (assign_eq_ok List.nodup_nil).mp hassign
  rw [List.nil_append] at hnodup hsymbols
  have hs : Linking.IsNumbered ⟨Array.replicate (symbols.length + 1) none, symbols, []⟩
      symbols [] :=
    ⟨rfl, rfl, List.nodup_nil, Array.size_replicate, by simp, by simp⟩
  obtain ⟨natives, -, htable, hlinks⟩ := linkObjects_spec [] hs hsymbols hnodup rfl hlink
  refine ⟨natives, rfl, hpages, hnodup, hlinks.numbered.symbols_eq.trans hsymbols, ?_,
    s, rfl, ?_⟩
  · -- the first function is put at address one, and the entry before it stays empty
    rw [Image.function?]
    dsimp only
    rw [htable 0 Nat.one_pos, Array.getElem?_replicate, if_pos (Nat.succ_pos _)]
    rfl
  · rw [hlinks.numbered.symbols_eq]
    exact hlinks

namespace IsLinked

variable (h : IsLinked pages objects resolve image natives)

include h

/-- Every function of an object has an address, where the function is. -/
theorem placed {j i : Nat} {o : Object} (ho : objects[j]? = some o)
    (hi : o.defined[i]? = some name) :
    ∃ a, image.address? name = some a ∧ image.function? a = some (.defined j i) := by
  obtain ⟨s, htable, hlinks⟩ := h.links
  obtain ⟨a, ha, hentry⟩ := hlinks.placed j i o name ho hi
  refine ⟨a, ha, ?_⟩
  rw [Image.function?, ← htable, hentry, Nat.zero_add]
  rfl

theorem address?_eq_none : image.address? name = none ↔ ∀ o ∈ objects, name ∉ o.defined := by
  rw [Image.address?, h.symbols, lookup_zipIdx_eq_none, List.mem_flatMap]
  simp

theorem exists_of_address? (ha : image.address? name = some a) :
    ∃ (j i : Nat) (o : Object), objects[j]? = some o ∧ o.defined[i]? = some name ∧
      image.function? a = some (.defined j i) := by
  have hmem : ∃ o ∈ objects, name ∈ o.defined := by
    by_contra hnot
    rw [h.address?_eq_none.mpr fun o ho hname => hnot ⟨o, ho, hname⟩] at ha
    cases ha
  obtain ⟨o, ho, hname⟩ := hmem
  obtain ⟨j, hj⟩ := List.mem_iff_getElem?.mp ho
  obtain ⟨i, hi⟩ := List.mem_iff_getElem?.mp hname
  obtain ⟨a', ha', hfunction⟩ := h.placed hj hi
  obtain rfl := Option.some.inj (ha.symm.trans ha')
  exact ⟨j, i, o, hj, hi, hfunction⟩

theorem length_symbols : image.symbols.length = (objects.flatMap (·.defined)).length := by
  rw [h.symbols, List.length_zipIdx]

/-- The functions of the host that are asked for come after all functions that objects define. -/
theorem function?_host {k : Nat} {n : Native} (hk : natives[k]? = some n) :
    image.function? (image.symbols.length + 1 + k) = some (.host n) := by
  obtain ⟨s, htable, hlinks⟩ := h.links
  rw [Image.function?, ← htable, hlinks.numbered.host k n hk]
  rfl

/-- The address under which an object finds a function that it calls is that of the
function to which the name leads. -/
theorem leadsTo {o : Object} (hresolve : ∀ n, resolve name ≠ some (.address n))
    (ha : HasAddress image.symbols natives resolve o name a) :
    ∃ ref, LeadsTo objects resolve name ref ∧ image.function? a = some ref := by
  cases ha with
  | defined ha =>
    obtain ⟨j, i, p, hj, hi, hfunction⟩ := h.exists_of_address? ha
    exact ⟨_, .defined hj hi, hfunction⟩
  | given _ hgiven => exact absurd hgiven (hresolve a)
  | native hnone hn _ hk ha =>
    refine ⟨_, .native (h.address?_eq_none.mp hnone) hn, ?_⟩
    rw [ha, h.function?_host hk]

end IsLinked

end Image

end MutationAnalysis
