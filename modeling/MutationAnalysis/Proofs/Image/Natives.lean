/-
Which functions of the host an image can call.

A function of the host gets an address only when an import needs it.  So if no program calls a
name that leads to a function of some kind, the table of the image has none of that kind.  In
an image of programs that do not register functions to be run at the end, no call registers
one, and none ends the process.

* `Image.offers_of_link`: the host's functions in the table are those that imports lead to;
* `Image.keeps_of_link`: what calls in such an image do not do.
-/
import MutationAnalysis.Proofs.Image.Cells
import MutationAnalysis.Proofs.Wasm.Preservation

namespace MutationAnalysis

open Wasm

/-- A function that neither registers another one nor ends the process. -/
def Native.IsQuiet (n : Native) : Prop :=
  n ≠ .emulatedAtExit ∧ n ≠ .emulatedCxaAtExit ∧ n ≠ .processExit

/-- States of a host that differ in what was recorded only. -/
def HostState.AgreesWith (s t : HostState) : Prop :=
  t.destructors = s.destructors ∧ t.output = s.output

/-- A program that does not call the functions that register others. -/
def Program.RegistersNothing (p : Program) : Prop :=
  ∀ i ∈ p.instructions, i.callee ≠ some "atexit" ∧ i.callee ≠ some "__cxa_atexit"

/-- The host's own way to end the process is never what a name leads to. -/
theorem Resolver.isQuiet_of_plain {name : String} {n : Native}
    (h : Resolver.plain name = some (.native n)) (hatexit : name ≠ "atexit")
    (hcxa : name ≠ "__cxa_atexit") : n.IsQuiet := by
  obtain ⟨_, heq, hmem⟩ := exists_offered_of_plain h
  obtain rfl := Definition.native.inj heq
  have hquiet : ∀ e ∈ offered, e.1 ≠ "atexit" → e.1 ≠ "__cxa_atexit" → e.2.IsQuiet := by
    unfold Native.IsQuiet
    decide
  exact hquiet _ hmem hatexit hcxa

/-- What a quiet function leaves registered: nothing new. -/
theorem Native.keeps_of_isQuiet {n : Native} (h : n.IsQuiet) (arguments : List Word)
    (memory : Memory) {state : HostState} (hstate : state.destructors = []) :
    (Native.host.call n arguments memory state).Keeps (fun _ s => s.destructors = [])
      (fun signal => ∀ code, signal ≠ .endProcess code) := by
  obtain ⟨hatexit, hcxa, hexit⟩ := h
  cases n <;> rcases arguments with _ | ⟨a, _ | ⟨b, _ | ⟨c, _ | ⟨d, rest⟩⟩⟩⟩ <;>
    first
    | exact absurd rfl hatexit
    | exact absurd rfl hcxa
    | exact absurd rfl hexit
    | exact hstate
    | exact ⟨hstate, by simp⟩

namespace Linking

/-- The functions of the host that have an address are of a kind. -/
def Offers (s : Linking) (ok : Native → Prop) : Prop :=
  ∀ (a : Nat) (n : Native), s.table[a]? = some (some (.host n)) → ok n

/-- The functions of the host that an object's calls lead to are of a kind. -/
def Asks (o : Object) (resolve : Resolver) (ok : Native → Prop) : Prop :=
  ∀ i ∈ o.code.imports, i.space = SymbolName.addresses → ∀ n,
    resolve i.name = some (.native n) → ok n

variable {s s' : Linking} {ok : Native → Prop} {resolve : Resolver} {o : Object} {name : String}
  {i : Import} {b : Binding}

theorem offers_nativeAddress (hs : s.Offers ok) {n : Native} (hn : ok n) :
    (s.nativeAddress n).2.Offers ok := by
  rw [nativeAddress]
  split
  · exact hs
  · intro a m ha
    replace ha : (s.table.push (some (.host n)))[a]? = some (some (.host m)) := ha
    rw [Array.getElem?_push] at ha
    split at ha
    · obtain rfl := FuncRef.host.inj (Option.some.inj (Option.some.inj ha))
      exact hn
    · exact hs a m ha

theorem offers_functionAddress (hs : s.Offers ok)
    (hname : ∀ n, resolve name = some (.native n) → ok n) {r : Nat × Linking}
    (h : s.functionAddress o resolve name = .ok r) : r.2.Offers ok := by
  rcases functionAddress_cases h with ⟨a, -, rfl⟩ | ⟨-, ⟨a, -, rfl⟩ | ⟨n, hn, -, rfl⟩⟩
  · exact hs
  · exact hs
  · exact offers_nativeAddress hs (hname n hn)

theorem offers_bindImport (hs : s.Offers ok)
    (hi : i.space = SymbolName.addresses → ∀ n, resolve i.name = some (.native n) → ok n)
    (h : s.bindImport o resolve i = .ok (b, s')) : s'.Offers ok := by
  cases bindsImport_of_bindImport h with
  | memory | table | cell | constant | function => exact hs
  | address hkind hspace hr => exact offers_functionAddress hs (hi hspace) hr

theorem offers_bindImports {imports : List Import} {bindings : List Binding} (hs : s.Offers ok)
    (hi : ∀ i ∈ imports, i.space = SymbolName.addresses → ∀ n,
      resolve i.name = some (.native n) → ok n)
    (h : s.bindImports o resolve imports = .ok (bindings, s')) : s'.Offers ok := by
  induction imports generalizing s bindings with
  | nil =>
    obtain ⟨-, rfl⟩ := Prod.mk.inj (Except.ok.inj h)
    exact hs
  | cons i rest ih =>
    rw [List.forall_mem_cons] at hi
    obtain ⟨b, s₁, bs, hb, hbs, rfl⟩ := bindImports_cons_eq_ok.mp h
    exact ih (offers_bindImport hs hi.1 hb) hi.2 hbs

theorem offers_place (hs : s.Offers ok) (home first count : Nat) :
    (s.place home first count).Offers ok := by
  intro a n ha
  by_cases hin : first ≤ a ∧ a < first + count
  · by_cases hsize : a < s.table.size
    · have hplaced : (s.place home first count).table[first + (a - first)]?
          = some (some (.defined home (a - first))) := getElem?_place (by omega) (by omega)
      rw [show first + (a - first) = a by omega, ha] at hplaced
      cases hplaced
    · rw [Array.getElem?_eq_none (by rw [size_place]; omega)] at ha
      cases ha
  · rw [getElem?_place_of_not (by omega)] at ha
    exact hs a n ha

/-- Linking objects gives addresses only to functions of the host that their calls lead to. -/
theorem offers_linkObjects {pages generation home first : Nat} {objects : List Object}
    {instances : List (Instance Native)} {constructors : List Nat} (hs : s.Offers ok)
    (ho : ∀ o ∈ objects, Asks o resolve ok)
    (h : s.linkObjects pages generation resolve home first objects
      = .ok (instances, constructors, s')) : s'.Offers ok := by
  induction objects generalizing s home first instances constructors with
  | nil =>
    obtain ⟨-, hrest⟩ := Prod.mk.inj (Except.ok.inj h)
    obtain ⟨-, rfl⟩ := Prod.mk.inj hrest
    exact hs
  | cons o rest ih =>
    rw [List.forall_mem_cons] at ho
    obtain ⟨bindings, s₁, _, _, _, hbindings, -, -, hothers, -, -⟩ := linkObjects_cons_eq_ok.mp h
    exact ih (offers_place (offers_bindImports hs ho.1 hbindings) _ _ _) ho.2 hothers

end Linking

namespace Image

open Linking

variable {pages generation : Nat} {objects : List Object} {resolve : Resolver} {image : Image}
  {ps : List Program} {ok : Native → Prop}

/-- The functions of the host in a linked image's table are among those that imports lead to. -/
theorem offers_of_link (ho : ∀ o ∈ objects, Asks o resolve ok)
    (h : Image.link pages generation objects resolve = .ok image) {a : Nat} {n : Native}
    (ha : image.table[a]? = some (some (.host n))) : ok n := by
  obtain ⟨-, symbols, instances, constructors, s, -, hlink, rfl⟩ := link_eq_ok.mp h
  refine offers_linkObjects (fun a n ha => ?_) ho hlink a n ha
  rw [Array.getElem?_replicate] at ha
  split at ha <;> cases ha

/-- The imports of programs that register no functions lead to none that registers any. -/
theorem asks_isQuiet (ho : AreOf ps objects) (hps : ∀ p ∈ ps, p.RegistersNothing) :
    ∀ o ∈ objects, Asks o Resolver.plain Native.IsQuiet := by
  intro o hmem i hi hspace n hn
  obtain ⟨p, hp, layout, hof⟩ := exists_left_of_mem ho hmem
  rw [hof.imports] at hi
  simp only [List.mem_append, List.mem_cons, List.not_mem_nil, or_false, List.mem_map] at hi
  have hspaces : SymbolName.environment ≠ SymbolName.addresses := by decide
  rcases hi with ((rfl | rfl) | ⟨name, hname, rfl⟩) | ⟨cell, -, rfl⟩
  · exact absurd hspace hspaces
  · exact absurd hspace hspaces
  · obtain ⟨x, hx, -, hcallee, -⟩ := Program.mem_undefinedSymbols.mp hname
    obtain ⟨hatexit, hcxa⟩ := hps p hp x hx
    refine Resolver.isQuiet_of_plain hn ?_ ?_
    · rintro rfl
      exact hatexit hcallee
    · rintro rfl
      exact hcxa hcallee
  · exact absurd hspace hspaces

/-- In an image of programs that register no functions, calls leave none to run at the
end, and none ends the process. -/
theorem keeps_of_link (ho : AreOf ps objects) (hps : ∀ p ∈ ps, p.RegistersNothing)
    (h : Image.link pages generation objects Resolver.plain = .ok image) (cells : Array Word)
    (maxDepth : Nat) :
    (image.linkage cells maxDepth).Keeps (fun _ s => s.destructors = [])
      (fun signal => ∀ code, signal ≠ .endProcess code) := by
  obtain ⟨natives, hlinked⟩ := isLinked_of_link h
  refine ⟨fun n hoffers arguments memory state hstate => ?_, fun _ _ _ _ hstate => hstate⟩
  have hquiet : n.IsQuiet := by
    cases hoffers with
    | table hentry => exact offers_of_link (asks_isQuiet ho hps) h hentry
    | @«import» home index inst hinst hfunction =>
      cases hprogram : ps[home]? with
      | none =>
        have hrealizes : Interpreter.Realizes (image.linkage cells maxDepth)
            (image.environment ps cells maxDepth) := hlinked.realizes ho IsSetUp.suits_plain
        rw [hrealizes.only home hprogram] at hinst
        cases hinst
      | some p =>
        obtain ⟨o, layout, inst', -, -, hinst', -, -, hfunctions, -⟩ :=
          hlinked.exists_instance ho hprogram
        obtain rfl := Option.some.inj (hinst.symm.trans hinst')
        rw [hfunctions, List.getElem?_toArray, List.getElem?_map] at hfunction
        obtain ⟨_, -, hdefined⟩ := Option.map_eq_some_iff.mp hfunction
        cases hdefined
  exact Native.keeps_of_isQuiet hquiet arguments memory hstate

end Image

end MutationAnalysis
