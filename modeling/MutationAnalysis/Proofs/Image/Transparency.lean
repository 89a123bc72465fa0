/-
Images of programs with probes and without.

An instrumented image is compared with a plain one, of the same programs or of programs that
differ from them in the bodies of some functions (`Program.DiffersIn`).  Names lead to the same
functions in both, and the host answers alike, whatever its recorder was told
(`Native.answersAlike`).  So the plain image does without probes what the instrumented one does
with them, until one of these functions is entered.

* `Image.hasNativeProbes_of_link`: instrumented programs call no probes themselves;
* `Image.unprobed_of_differs`: what the plain image does without probes.
-/
import MutationAnalysis.Proofs.Image.Natives
import MutationAnalysis.Proofs.Image.Probes
import MutationAnalysis.Proofs.Image.Programs

namespace MutationAnalysis

open Wasm Lowering Interpreter

/-! ### Programs -/

/-- The second program differs from the first in the bodies of some
functions, and in nothing else. -/
structure Program.DiffersIn (p p' : Program) (differs : Nat → Prop) : Prop where
  declarations_eq : p'.declarations = p.declarations
  constructors_eq : p'.constructors = p.constructors
  names_eq : p'.functions.map (·.name) = p.functions.map (·.name)
  function : ∀ (i : Nat) (f : Function), p.functions[i]? = some f → ∃ g, p'.functions[i]? = some g ∧
    g.name = f.name ∧ g.signature = f.signature ∧ (differs i ∨ g = f)

namespace Program.DiffersIn

variable {p p' : Program} {differs : Nat → Prop} {name : String}

theorem refl (p : Program) : p.DiffersIn p differs :=
  ⟨rfl, rfl, rfl, fun _ f hf => ⟨f, hf, rfl, rfl, .inr rfl⟩⟩

variable (h : p.DiffersIn p' differs)

include h

theorem functionIndex?_eq (name : String) : p'.functionIndex? name = p.functionIndex? name := by
  rw [functionIndex?_eq_findIdx?, functionIndex?_eq_findIdx?, h.names_eq]

theorem function?_eq_none (name : String) : p'.function? name = none ↔ p.function? name = none := by
  rw [← functionIndex?_eq_none, ← functionIndex?_eq_none, h.functionIndex?_eq]

theorem signature?_eq (hp : p.IsValid) (name : String) :
    p'.signature? name = p.signature? name := by
  refine signature?_congr (h.names_eq ▸ hp.names_nodup) h.declarations_eq (h.functionIndex?_eq name)
    fun i f hf => ?_
  obtain ⟨g, hg, hname, hsignature, -⟩ := h.function i f hf
  exact ⟨g, hg, hname, hsignature⟩

end Program.DiffersIn

/-- Without cells, what calls by name calls directly. -/
theorem Program.opcode_of_callee {p : Program} (hcells : p.cells = []) {i : Instruction}
    (hi : i ∈ p.instructions) {name : String} (hname : i.callee = some name) :
    i.opcode = .call := by
  refine (Instruction.opcode_of_callee hname).resolve_right fun hop => ?_
  have hcell := Program.mem_cells.mpr ⟨i, hi, hop, hname⟩
  rw [hcells] at hcell
  exact List.not_mem_nil hcell

/-! ### The host -/

/-- What was recorded makes no difference to the functions of the host. -/
theorem Native.answersAlike {n : Native} (hn : n.IsNoProbe) (arguments : List Word)
    (memory : Memory) {s t : HostState} (h : s.AgreesWith t) :
    AnswersAlike HostState.AgreesWith (Native.host.call n arguments memory s)
      (Native.host.call n arguments memory t) := by
  obtain ⟨henter, hleave⟩ := hn
  obtain ⟨r, destructors, output⟩ := s
  obtain ⟨r', destructors', output'⟩ := t
  obtain ⟨rfl, rfl⟩ := h
  cases n <;> rcases arguments with _ | ⟨a, _ | ⟨b, _ | ⟨c, _ | ⟨d, rest⟩⟩⟩⟩ <;>
    first
    | exact absurd rfl henter
    | exact absurd rfl hleave
    | exact .returned ⟨rfl, rfl⟩
    | exact .raised ⟨rfl, rfl⟩

/-- Names of the host lead to no probes. -/
theorem Resolver.isNoProbe_of_plain {name : String} {n : Native}
    (h : Resolver.plain name = some (.native n)) : n.IsNoProbe := by
  obtain ⟨_, heq, hmem⟩ := exists_offered_of_plain h
  obtain rfl := Definition.native.inj heq
  have hoffered : ∀ e ∈ offered, e.2.IsNoProbe := by
    unfold Native.IsNoProbe
    decide
  exact hoffered _ hmem

/-- Without cells, no name leads to one. -/
theorem Resolver.plain_ne_cell (name : String) (c : CellRef) :
    Resolver.plain name ≠ some (.cell c) := by
  intro h
  obtain ⟨⟨n, hn⟩, -⟩ := plain_eq_some h
  cases hn

/-- What one of two answers that are alike keeps, the other may be compared with. -/
theorem Interpreter.AnswersAlike.keeps {σ : Type} {rel : σ → σ → Prop} {x y : HostAnswer σ}
    {P : σ → Prop} {Q : Signal → Prop} (h : AnswersAlike rel x y)
    (hx : x.Keeps (fun _ s => P s) Q) :
    AnswersAlike (fun s t => rel s t ∧ P s) x y := by
  cases h with
  | returned h => exact .returned ⟨h, hx⟩
  | raised h => exact .raised ⟨h, hx.1⟩

/-! ### Images -/

namespace Image

variable {pages pages' generation : Nat} {ps ps' : List Program}
  {plain objects objects' : List Object}
  {resolve' : Resolver} {offset : String → Word} {image image' : Image}
  {natives natives' : List Native} {maxDepth : Nat} {avoided : Nat → Nat → Prop}

theorem probes_probedEnvironment {home : Nat} {o : Object} (ho : plain[home]? = some o)
    {cells : Array Word} : (image.probedEnvironment ps plain offset cells maxDepth).probes home
      = some ⟨.enterFunction, .leaveFunction, offset o.moduleId⟩ := by
  show (plain[home]?).map _ = _
  rw [ho]
  rfl

/-- In the image of instrumented programs, all have probes, and none calls any. -/
theorem hasNativeProbes_of_link (h : Instrumented resolve' offset ps plain objects)
    (hlink : Image.link pages generation plain Resolver.plain = .ok image) (cells : Array Word)
    (maxDepth : Nat) :
    (image.probedEnvironment ps plain offset cells maxDepth).HasNativeProbes where
  host := rfl
  probes := by
    intro home p hp
    obtain ⟨o, -, ho, -⟩ := h.exists_objects hp
    exact ⟨offset o.moduleId, probes_probedEnvironment ho⟩
  table := fun a n ha => offers_of_link
    (fun o _ i _ _ n hn => Resolver.isNoProbe_of_plain hn) hlink ha

/-- A name leads to the same function where objects define the same names. -/
theorem LeadsTo.of_defined {resolve : Resolver} {name : String} {ref : FuncRef Native}
    (h : LeadsTo plain resolve name ref)
    (hdefined : objects'.map (·.defined) = plain.map (·.defined)) :
    LeadsTo objects' resolve name ref := by
  cases h with
  | @defined j i o hj hi =>
    have hj' : (objects'.map (·.defined))[j]? = some o.defined := by
      rw [hdefined, List.getElem?_map, hj]
      rfl
    rw [List.getElem?_map, Option.map_eq_some_iff] at hj'
    obtain ⟨o', hj', heq⟩ := hj'
    exact .defined hj' (heq ▸ hi)
  | native hnot hn =>
    refine .native (fun o' ho' hmem => ?_) hn
    have hmem' : o'.defined ∈ plain.map (·.defined) := hdefined ▸ List.mem_map_of_mem ho'
    obtain ⟨o, ho, heq⟩ := List.mem_map.mp hmem'
    exact hnot o ho (heq ▸ hmem)

section

variable (h : Instrumented resolve' offset ps plain objects)
  (hlinked : IsLinked pages plain Resolver.plain image natives) (ho' : AreOf ps' objects')
  (hlinked' : IsLinked pages' objects' Resolver.plain image' natives')
  (hlength : ps'.length = ps.length)
  (hdiffers : ∀ (home : Nat) (p : Program), ps[home]? = some p →
    ∃ p', ps'[home]? = some p' ∧ p.DiffersIn p' (avoided home))

include hlength hdiffers

/-- Programs that differ in bodies only have the same of all that bodies do not matter to. -/
theorem map_eq_of_differs {β : Type} (g : Program → β)
    (hg : ∀ p p' differs, p.DiffersIn p' differs → g p' = g p) : ps'.map g = ps.map g := by
  refine List.ext_getElem? fun home => ?_
  rw [List.getElem?_map, List.getElem?_map]
  cases hp : ps[home]? with
  | none =>
    rw [List.getElem?_eq_none_iff, ← hlength, ← List.getElem?_eq_none_iff] at hp
    rw [hp]
  | some p =>
    obtain ⟨p', hp', hd⟩ := hdiffers home p hp
    rw [hp', Option.map_some, Option.map_some, hg p p' _ hd]

include h ho'

/-- Programs that differ in bodies only define the same names. -/
theorem defined_of_differs : objects'.map (·.defined) = plain.map (·.defined) := by
  rw [map_of_areOf ho' (fun _ _ _ hof => hof.defined),
    map_of_areOf h.areOf (fun _ _ _ hof => hof.defined)]
  exact map_eq_of_differs hlength hdiffers _ fun _ _ _ hd => hd.names_eq

/-- And they have the same constructors. -/
theorem constructors_of_differs :
    objects'.flatMap (·.constructors) = plain.flatMap (·.constructors) := by
  rw [constructors_of_areOf ho', constructors_of_areOf h.areOf,
    map_eq_of_differs hlength hdiffers _ fun _ _ _ hd => hd.constructors_eq]

include hlinked hlinked'

/-- The names that a function calls that is the same in both lead to the same functions. -/
theorem sameCallee_of_differs (hvalid : ∀ p ∈ ps, p.IsValid) {home index : Nat} {p : Program}
    {f : Function} (hp : ps[home]? = some p) (hf : p.functions[index]? = some f)
    (havoid : ¬ avoided home index) : ∃ p', ps'[home]? = some p' ∧
      ∀ i ∈ f.instructions, ∀ name, i.callee = some name → i.opcode = .call ∧
        SameCallee (image.probedEnvironment ps plain offset #[] maxDepth)
          (image'.environment ps' #[] maxDepth) home p p' name := by
  obtain ⟨p', hp', hd⟩ := hdiffers home p hp
  have hmem := List.mem_of_getElem? hp
  have hcells : p.cells = [] :=
    hlinked.cells_eq_nil (represent_of_areOf h.areOf) Resolver.plain_ne_cell hmem
  refine ⟨p', hp', fun i hi name hname => ?_⟩
  have hi' : i ∈ p.instructions := List.mem_flatMap.mpr ⟨f, List.mem_of_getElem? hf, hi⟩
  have hop := Program.opcode_of_callee hcells hi' hname
  refine ⟨hop, ?_⟩
  -- a name is that of a function of the program, or it is found at an address
  cases hindex : p.functionIndex? name with
  | some k => exact .own hindex ((hd.functionIndex?_eq name).trans hindex)
  | none =>
    have hnone := Program.functionIndex?_eq_none.mp hindex
    obtain ⟨g, hg, -, -, hsame⟩ := hd.function index f hf
    obtain rfl := hsame.resolve_left havoid
    have hi'' : i ∈ p'.instructions := List.mem_flatMap.mpr ⟨g, List.mem_of_getElem? hg, hi⟩
    obtain ⟨s, hs⟩ := Layout.exists_signature_of_call (hvalid p hmem) hi' hop hname
    obtain ⟨ref, hleads, hentry⟩ := hlinked.address_leadsTo h.areOf IsSetUp.suits_plain hp
      (Program.mem_undefinedSymbols.mpr ⟨i, hi', hop, hname, hnone⟩) maxDepth
    obtain ⟨ref', hleads', hentry'⟩ := hlinked'.address_leadsTo ho' IsSetUp.suits_plain hp'
      (Program.mem_undefinedSymbols.mpr
        ⟨i, hi'', hop, hname, (hd.function?_eq_none name).mpr hnone⟩)
      maxDepth
    obtain rfl := hlinked'.leadsTo_unique
      (hleads.of_defined (defined_of_differs h ho' hlength hdiffers)) hleads'
    refine .other hindex ((hd.functionIndex?_eq name).trans hindex) hs
      ((hd.signature?_eq (hvalid p hmem) name).trans hs) hentry hentry'
      (hleads.type?_isSome (represent_of_areOf h.areOf) rfl)

/-- What the image of instrumented programs does with probes, that of plain programs does
without, if what is recorded goes together with that, and tells when a function is
entered in which both differ. -/
theorem unprobed_of_differs (hvalid : ∀ p ∈ ps, p.IsValid) {rel : HostState → HostState → Prop}
    (lost : Recorder → Prop)
    (hcall : ∀ (a : Nat) (n : Native), image.table[a]? = some (some (.host n)) →
      ∀ arguments memory s t, rel s t → AnswersAlike rel (Native.host.call n arguments memory s)
        (Native.host.call n arguments memory t))
    (henter : ∀ (home index : Nat) (p : Program) (f : Function) (o : Object), ps[home]? = some p →
      p.functions[index]? = some f → plain[home]? = some o → ∀ s t, rel s t →
        lost (s.enter (UInt32.ofNat index + offset o.moduleId).toNat).recorder ∨
          ¬ avoided home index ∧ rel (s.enter (UInt32.ofNat index + offset o.moduleId).toNat) t)
    (hleave : ∀ s t, rel s t → rel s.leave t)
    (hkeeps : ∀ n arguments memory s, lost s.recorder →
      (Native.host.call n arguments memory s).Keeps (fun _ s => lost s.recorder) fun _ => True) :
    Unprobed (image.probedEnvironment ps plain offset #[] maxDepth)
      (image'.environment ps' #[] maxDepth) rel (fun s => lost s.recorder) avoided where
  type_eq := rfl
  maxDepth_eq := rfl
  noProbes _ := rfl
  valid := hvalid
  function := by
    intro home index f hf
    obtain ⟨p, hp, hf⟩ := function?_eq_some.mp hf
    obtain ⟨p', hp', hd⟩ := hdiffers home p hp
    obtain ⟨g, hg, -, hsignature, hsame⟩ := hd.function index f hf
    exact ⟨g, function?_eq_some.mpr ⟨p', hp', hg⟩, hsignature, hsame⟩
  callee := fun home index f p hp hf havoid =>
    sameCallee_of_differs h hlinked ho' hlinked' hlength hdiffers hvalid hp hf havoid
  call := hcall
  -- the probes of the instrumented image change its state only, in the way that is assumed
  enter := by
    intro home index f hf memory s t hrel
    obtain ⟨p, hp, hf⟩ := function?_eq_some.mp hf
    obtain ⟨o, -, ho, -⟩ := h.exists_objects hp
    refine ⟨s.enter (UInt32.ofNat index + offset o.moduleId).toNat, ?_,
      henter home index p f o hp hf ho s t hrel⟩
    rw [Environment.runProbe, probes_probedEnvironment ho]
    rfl
  leave := by
    intro home index f hf memory s t hrel
    obtain ⟨p, hp, hf⟩ := function?_eq_some.mp hf
    obtain ⟨o, -, ho, -⟩ := h.exists_objects hp
    refine ⟨s.leave, ?_, hleave s t hrel⟩
    rw [Environment.runProbe, probes_probedEnvironment ho]
    rfl
  keeps := hkeeps

end

end Image

end MutationAnalysis
