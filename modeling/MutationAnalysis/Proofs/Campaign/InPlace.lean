/-
Going through a cell is editing in place.

A loader that is set up for prepared units calls what its cells are bound to.  `Loads` says what it
stands for: a fresh image of units that are not prepared, and in which at most one point's edit is
made where it stands.  Such an image can be loaded, and calls of the functions that the units define
end alike in both (`Loader.CallsAlike`), if the stack of neither is used up.

* `IsSetUp.exists_loads`: what a loader stands for can be loaded, and does the same;
* `WorkerContext.actsAs_inPlace`: a prepared unit, with its cells bound to preserved bodies or one
  of them to a mutant, does what the untouched or the edited program does.
-/
import MutationAnalysis.Campaign.Engine
import MutationAnalysis.Proofs.Image.Calls
import MutationAnalysis.Proofs.Image.Cells
import MutationAnalysis.Proofs.Lowering.WellFormed

namespace MutationAnalysis

open Wasm Interpreter

/-! ### Units -/

/-- The cell of a name is that of a key that is bound to another name. -/
def Trampolines.Holds (t : Trampolines) (l : Loader) (cell name : String) : Prop :=
  ∃ key, cell = SymbolName.cell key ∧ t.BoundTo l key name

/-- The units of a list do through stubs what those of another do directly, where the
cells are those of a table. -/
abbrev RedirectsUnits (t : Trampolines) (l : Loader) (fresh : String → Prop)
    (units prepared : List ProgramUnit) : Prop :=
  List.Forall₂ (fun u u' => u.program.Redirects u'.program (t.Holds l) fresh) units prepared

/-- A loader holds a fresh image of units that are not instrumented. -/
def Loads (config : LoaderConfig) (units : List ProgramUnit) (l : Loader) : Prop :=
  ∃ objects, Engine.compileUnits units false = .ok objects ∧
    (Loader.new config).load objects Resolver.plain = (l, .ok ())

theorem Program.Redirects.imp {p p' : Program} {holds holds' : String → String → Prop}
    {fresh : String → Prop} (h : p.Redirects p' holds fresh)
    (himp : ∀ cell name, holds cell name → holds' cell name) : p.Redirects p' holds' fresh where
  declarations_eq := h.declarations_eq
  constructors_eq := h.constructors_eq
  constructors_mem := h.constructors_mem
  names := h.names
  function := fun i f hf => (h.function i f hf).imp_right
    fun ⟨cell, name, j, hparams, hstub, htarget, hholds⟩ =>
      ⟨cell, name, j, hparams, hstub, htarget, himp cell name hholds⟩
  calls := h.calls
  calls' := h.calls'

theorem areOf_of_compileUnits {units : List ProgramUnit} {objects : List Object}
    (h : Engine.compileUnits units false = .ok objects) :
    Image.AreOf (units.map (·.program)) objects := by
  rw [Image.AreOf, List.forall₂_map_left_iff]
  exact (mapM_eq_ok.mp h).imp fun u o ho => Object.isOf_of_compile ho

theorem exists_compileUnits {t : Trampolines} {l : Loader} {fresh : String → Prop}
    {units prepared : List ProgramUnit} {objects : List Object}
    (h : RedirectsUnits t l fresh units prepared)
    (hobjects : Engine.compileUnits prepared false = .ok objects)
    (hvalid : ∀ u ∈ prepared, u.program.IsValid) :
    ∃ objects₀, Engine.compileUnits units false = .ok objects₀ := by
  refine exists_mapM_eq_ok fun u hu => ?_
  obtain ⟨u', hu', hr⟩ := exists_right_of_mem h hu
  obtain ⟨o', -, ho'⟩ := exists_right_of_mem (mapM_eq_ok.mp hobjects) hu'
  obtain ⟨layout, hof⟩ := Object.isOf_of_compile ho'
  exact hr.exists_object (hvalid u' hu') hof u.identifier

/-! ### Loaders -/

/-- Calls of the functions of a program end alike in two loaders. -/
def Loader.ActsAs (l₀ l : Loader) (p : Program) : Prop :=
  ∀ f ∈ p.functions, ∃ a₀ a, l₀.address? f.name = some a₀ ∧ l.address? f.name = some a ∧
    l₀.SameAt l a₀ a (Lowering.funcType f.signature)

/-- A loader that holds an image of units does what another loader does. -/
structure Loader.StandsFor (l₀ l : Loader) (units : List ProgramUnit) : Prop where
  memory : ∃ image₀ image, l₀.image = some image₀ ∧ l.image = some image ∧
    image₀.memory = image.memory
  constructors : ∃ names, List.Forall₂ (fun name a => l₀.address? name = some a) names
    l₀.constructors ∧
    List.Forall₂ (fun name a => l.address? name = some a) names l.constructors ∧
    ∀ name ∈ names, ∃ u ∈ units, ∃ f ∈ u.program.functions, f.name = name ∧ f.numParams = 0
  actsAs : ∀ u ∈ units, l₀.ActsAs l u.program

/-- What holds of calls in images holds of calls of loaders that have the images. -/
theorem Loader.callsAlike_of_images {l l' : Loader} {image image' : Image} {ref : FuncRef Native}
    {params : Nat} (himage : l.image = some image) (himage' : l'.image = some image')
    (h : Image.CallsAlike (image.linkage l.cells l.config.maxDepth)
      (image'.linkage l'.cells l'.config.maxDepth) ref params) : l.CallsAlike l' ref params := by
  intro arguments memory state r hlength hr
  simp only [finishes_iff himage, finishes_iff himage']
  exact ⟨h.first arguments memory state r hlength hr, h.second arguments memory state r hlength hr⟩

/-- Both sides have the same constructors. -/
theorem constructors_of_redirects {es ps : List Program} {objects objects' : List Object}
    {holds : String → String → Prop} {fresh : String → Prop} (ho : Image.AreOf es objects)
    (ho' : Image.AreOf ps objects')
    (h : List.Forall₂ (fun e p => e.Redirects p holds fresh) es ps) :
    objects.flatMap (·.constructors) = objects'.flatMap (·.constructors) := by
  have hsame : es.map (·.constructors) = ps.map (·.constructors) := by
    clear ho ho'
    induction h with
    | nil => rfl
    | cons hr _ ih => rw [List.map_cons, List.map_cons, ih, hr.constructors_eq]
  rw [Image.constructors_of_areOf ho, Image.constructors_of_areOf ho', hsame]

section

variable {es ps : List Program} {objects₀ objects : List Object} {resolve₀ resolve : Resolver}
  {image₀ image : Image} {pages₀ pages : Nat} {natives₀ natives : List Native} {l₀ l : Loader}
  {fresh : String → Prop} (ho₀ : Image.AreOf es objects₀) (ho : Image.AreOf ps objects)
  (h : List.Forall₂ (fun e p => e.Redirects p (image.CellHolds resolve l.cells) fresh) es ps)
  (hvalid : ∀ p ∈ ps, p.IsValid)
  (hlinked₀ : Image.IsLinked pages₀ objects₀ resolve₀ image₀ natives₀)
  (hlinked : Image.IsLinked pages objects resolve image natives)
  (himage₀ : l₀.image = some image₀) (himage : l.image = some image)

include ho₀ ho h hvalid hlinked₀ hlinked himage₀ himage

/-- The images of programs and of those that do the same through stubs have the same
constructors, which the programs define. -/
theorem exists_constructors_of_redirects :
    ∃ names, List.Forall₂ (fun name a => l₀.address? name = some a) names l₀.constructors ∧
      List.Forall₂ (fun name a => l.address? name = some a) names l.constructors ∧
      ∀ name ∈ names, ∃ e ∈ es, ∃ f ∈ e.functions, f.name = name ∧ f.numParams = 0 := by
  have hsame := constructors_of_redirects ho₀ ho h
  obtain ⟨_, -, hlinks₀⟩ := hlinked₀.links
  obtain ⟨_, -, hlinks⟩ := hlinked.links
  refine ⟨objects.flatMap (·.constructors), ?_, ?_, fun name hname => ?_⟩
  · simp only [Loader.constructors_of_image himage₀, Loader.address?_of_image himage₀, ← hsame]
    exact hlinks₀.constructors
  · simp only [Loader.constructors_of_image himage, Loader.address?_of_image himage]
    exact hlinks.constructors
  · rw [← hsame] at hname
    obtain ⟨o₀, hmem, hname⟩ := List.mem_flatMap.mp hname
    obtain ⟨e, he, layout, hof⟩ := exists_left_of_mem ho₀ hmem
    rw [hof.constructors] at hname
    obtain ⟨f, hf, hparams⟩ := (Image.valid_of_redirects h hvalid e he).1.constructors name hname
    exact ⟨e, he, f, Program.mem_of_function? hf, Program.name_of_function? hf, hparams⟩

/-- Calls of the functions of a program end alike in its image and in that of the program that
does the same through stubs. -/
theorem actsAs_of_redirects (hsuits₀ : Image.IsLinked.Suits resolve₀ l₀.cells)
    (hsuits : Image.IsLinked.Suits resolve l.cells)
    (hnatives : ∀ name n, resolve₀ name = some (.native n) ↔ resolve name = some (.native n))
    {e : Program} (he : e ∈ es) : l₀.ActsAs l e := by
  intro f hf
  obtain ⟨home, hhome⟩ := List.mem_iff_getElem?.mp he
  obtain ⟨i, hi⟩ := List.mem_iff_getElem?.mp hf
  obtain ⟨p, hp, hr⟩ := exists_right_of_getElem? h hhome
  obtain ⟨g, hg, hname, hsignature⟩ := hr.exists_function hi
  have hrep₀ := Image.represent_of_areOf ho₀
  have hrep := Image.represent_of_areOf ho
  obtain ⟨a₀, ha₀, hfunction₀⟩ := hlinked₀.exists_address?_of_function hrep₀ hhome hi
  obtain ⟨a, ha, hfunction⟩ := hlinked.exists_address?_of_function hrep hp hg
  refine ⟨a₀, a, ?_, ?_, .defined home i, ?_, ?_, ?_, ?_, Loader.callsAlike_of_images himage₀ himage
    (Image.callsAlike_of_redirects ho₀ ho h hvalid hlinked₀ hlinked hsuits₀ hsuits hnatives
      hhome hi _ _)⟩
  · rw [Loader.address?_of_image himage₀, ha₀]
  · rw [Loader.address?_of_image himage, ← hname, ha]
  · rw [Loader.function?_of_image himage₀, hfunction₀]
  · rw [Loader.function?_of_image himage, hfunction]
  · rw [Loader.type?_of_image himage₀]
    exact hlinked₀.type?_of_represent hrep₀ hhome hi _ _
  · rw [Loader.type?_of_image himage, ← hsignature]
    exact hlinked.type?_of_represent hrep hp hg _ _

end

namespace IsSetUp

variable {config config₀ : LoaderConfig} {objects : List Object} {keys : List String}
  {t : Trampolines} {l : Loader} {bound : String → String} {units prepared : List ProgramUnit}
  {fresh : String → Prop}

/-- The units that a loader stands for can be loaded, and do the same. -/
theorem exists_loads (h : IsSetUp config objects keys t l bound)
    (hobjects : Engine.compileUnits prepared false = .ok objects)
    (hvalid : ∀ u ∈ prepared, u.program.IsValid) (hunits : RedirectsUnits t l fresh units prepared)
    (hpages : config₀.memoryPages = config.memoryPages) :
    ∃ l₀, Loads config₀ units l₀ ∧ l₀.StandsFor l units := by
  obtain ⟨image, natives, himage, hlinked⟩ := h.image
  obtain ⟨objects₀, hobjects₀⟩ := exists_compileUnits hunits hobjects hvalid
  have ho₀ := areOf_of_compileUnits hobjects₀
  have ho := areOf_of_compileUnits hobjects
  have hprograms : ∀ p ∈ prepared.map (·.program), p.IsValid := by
    intro p hp
    obtain ⟨u, hu, rfl⟩ := List.mem_map.mp hp
    exact hvalid u hu
  have hredirects : List.Forall₂ (fun e p => e.Redirects p
      (image.CellHolds (Resolver.withCells t) l.cells) fresh)
      (units.map (·.program)) (prepared.map (·.program)) := by
    rw [List.forall₂_map_left_iff, List.forall₂_map_right_iff]
    refine hunits.imp fun u u' hr => hr.imp fun cell name => ?_
    rintro ⟨key, rfl, hbound⟩
    exact IsSetUp.cellHolds himage hbound
  have hsuits := IsSetUp.suits h.numbers
  -- the edited units need no cells, so they link with the plain resolver
  obtain ⟨image₀, hlink₀⟩ := Image.exists_link_of_redirects ho₀ ho hredirects hprograms hlinked
    hsuits.noAddress (native_iff t) 0
  obtain ⟨natives₀, hlinked₀⟩ := Image.isLinked_of_link hlink₀
  obtain ⟨l₀, hload, himage₀⟩ : ∃ l₀, (Loader.new config₀).load objects₀ Resolver.plain
    = (l₀, .ok ()) ∧
      l₀.image = some image₀ := by
    refine ⟨_, (Loader.load_eq_ok rfl).mpr ⟨image₀, ?_, rfl⟩, rfl⟩
    rw [← hlink₀]
    exact congrArg (Image.link · 0 objects₀ Resolver.plain) hpages
  obtain ⟨names, hnames₀, hnames, hdefined⟩ :=
    exists_constructors_of_redirects ho₀ ho hredirects hprograms hlinked₀ hlinked himage₀ himage
  refine ⟨l₀, ⟨objects₀, hobjects₀, hload⟩, ⟨image₀, image, himage₀, himage, ?_⟩,
    ⟨names, hnames₀, hnames, fun name hname => ?_⟩, fun u hu => ?_⟩
  · rw [hlinked₀.memory, hlinked.memory]
  · obtain ⟨_, he, hf⟩ := hdefined name hname
    obtain ⟨u, hu, rfl⟩ := List.mem_map.mp he
    exact ⟨u, hu, hf⟩
  · exact actsAs_of_redirects ho₀ ho hredirects hprograms hlinked₀ hlinked himage₀
      himage suits_plain hsuits (native_iff t) (List.mem_map_of_mem hu)

end IsSetUp

/-! ### One unit -/

/-- The unit of `countdown`. -/
def countdownUnit : ProgramUnit := ⟨countdown, .source, "countdown.json", "m"⟩

/-- The subtraction of `countdown` made an addition. -/
def countdownPoints : List MutationPoint := countdownUnit.points [.mathSub] 0

def countdownPrepared : ProgramUnit := (countdownUnit.prepare countdownPoints).1

/-- What a worker needs to run the mutant. -/
def countdownContext : WorkerContext where
  loader := ⟨1, 100⟩
  objects := (Engine.compileUnits [countdownPrepared] false).toOption.getD []
  keys := ["countdown_m"]
  tests := []
  sandbox := .fork
  config := .default

/-- What a prepared unit does through its cells, the unit does when it is loaded afresh: the
untouched unit while every cell is bound to its preserved body, and the unit that is edited where a
point stands while the cell of the point's function is bound to the point's mutant. -/
theorem WorkerContext.actsAs_inPlace {c : WorkerContext} {config₀ : LoaderConfig}
    {unit unit' : ProgramUnit} {points : List MutationPoint} {t : Trampolines} {l : Loader}
    (hvalid : unit.program.validate = .ok ())
    (hindirect : ∀ i ∈ unit.program.instructions, i.opcode ≠ .callIndirect)
    (hpoints : ∀ q ∈ points, q.IsOf unit)
    (hfresh : ∀ name, Program.generated points name → ¬ unit.program.Mentions name)
    (hprepare : unit.prepare points = (unit', .ok c.keys))
    (hobjects : Engine.compileUnits [unit'] false = .ok c.objects) (hsetup : c.setup = .ok (t, l))
    (hpages : config₀.memoryPages = c.loader.memoryPages) :
    (∃ l₀, Loads config₀ [unit] l₀ ∧ l₀.ActsAs l unit.program) ∧
      ∀ q ∈ points, ∀ l', bindMutant t l q = .ok l' → ∃ edited,
        unit.program.editAt? q = some edited ∧
        ∃ l₀, Loads config₀ [{ unit with program := edited }] l₀ ∧ l₀.ActsAs l' unit.program := by
  have hown : unit.own points = points :=
    List.filter_eq_self.mpr fun q hq => beq_iff_eq.mpr (hpoints q hq).exists_function.1
  have hpoints' : ∀ q ∈ unit.own points, q.IsOf unit := hown.symm ▸ hpoints
  have hunit := Program.isValid_of_validate hvalid
  obtain ⟨-, hvalid', -, hkeys⟩ := ProgramUnit.prepared_of_isOf hpoints' hprepare
  have hmentions : ∀ name, unit.program.Mentions name → ¬ Program.generated points name :=
    fun name hmention hname => hfresh name hname hmention
  have hstart := isSetUp_of_setup hsetup
  constructor
  · have hredirects : unit.program.Redirects unit'.program (t.Holds l) (Program.generated points) :=
      ProgramUnit.redirects_self hunit hindirect hpoints' (fun _ h => h) hmentions hprepare
        fun q hq => ⟨q.key, rfl, hstart.boundTo q.key (hkeys q hq)⟩
    obtain ⟨l₀, hloads, hstands⟩ := hstart.exists_loads hobjects (by simpa using hvalid')
      (.cons hredirects .nil) hpages
    exact ⟨l₀, hloads, hstands.actsAs unit (by simp)⟩
  · intro q hq l' hbind
    have hbound := isSetUp_of_bindMutant hstart hbind
    have hself := hbound.boundTo q.key (hkeys q (hown.symm ▸ hq))
    rw [if_pos rfl] at hself
    obtain ⟨e, he, hredirects⟩ : ∃ e, unit.program.editAt? q = some e ∧
        e.Redirects unit'.program (t.Holds l') (Program.generated points) :=
      ProgramUnit.redirects_edit hunit hindirect hpoints' (fun _ h => h) hmentions hprepare
        (hown.symm ▸ hq) ⟨q.key, rfl, hself⟩ fun k hk hne => by
          have hother := hbound.boundTo k.key (hkeys k hk)
          rw [if_neg hne] at hother
          exact ⟨k.key, rfl, hother⟩
    have hunits : RedirectsUnits t l' (Program.generated points) [{ unit with program := e }]
        [unit'] :=
      .cons hredirects .nil
    obtain ⟨l₀, hloads, hstands⟩ :=
      hbound.exists_loads hobjects (by simpa using hvalid') hunits hpages
    refine ⟨e, he, l₀, hloads, fun f hf => ?_⟩
    obtain ⟨g, hg, hname, hsignature⟩ := Program.exists_function_of_editAt? he hf
    rw [← hname, ← hsignature]
    exact hstands.actsAs { unit with program := e } (by simp) g hg

theorem countdown_actsAs_inPlace : ∃ t l, countdownContext.setup = .ok (t, l) ∧
    (∃ l₀, Loads ⟨1, 50⟩ [countdownUnit] l₀ ∧ l₀.ActsAs l countdown) ∧
    ∀ q ∈ countdownPoints, ∃ l', WorkerContext.bindMutant t l q = .ok l' ∧
      ∃ edited, countdown.editAt? q = some edited ∧
        ∃ l₀, Loads ⟨1, 50⟩ [{ countdownUnit with program := edited }] l₀ ∧
          l₀.ActsAs l' countdown := by
  have hprepare : countdownUnit.prepare countdownPoints
      = (countdownPrepared, .ok countdownContext.keys) := by rfl
  have hobjects : Engine.compileUnits [countdownPrepared] false = .ok countdownContext.objects := by
    have hok : (Engine.compileUnits [countdownPrepared] false).isOk = true := by decide +kernel
    rw [countdownContext]
    cases hcompile : Engine.compileUnits [countdownPrepared] false with
    | ok objects => rfl
    | error e =>
      rw [hcompile] at hok
      cases hok
  have hpoints : ∀ q ∈ countdownPoints, q.operator.point? countdownUnit q.address
      = some { q with reachableTests := [] } := by decide +kernel
  have hnames : ∀ q ∈ countdownPoints, ∀ name ∈ [SymbolName.cell q.key, SymbolName.preserved q.key,
      q.identifier], (∀ f ∈ countdown.functions, f.name ≠ name) ∧
        ∀ i ∈ countdown.instructions, i.callee ≠ some name := by decide +kernel
  have hbinds : countdownContext.setup.toOption.any (fun s =>
      countdownPoints.all fun q => (WorkerContext.bindMutant s.1 s.2 q).isOk) = true := by
    decide +kernel
  cases hsetup : countdownContext.setup with
  | error e =>
    rw [hsetup] at hbinds
    cases hbinds
  | ok s =>
    obtain ⟨t, l⟩ := s
    rw [hsetup] at hbinds
    have hfresh : ∀ name, Program.generated countdownPoints name → ¬ countdown.Mentions name := by
      rintro name ⟨q, hq, hname⟩ hmention
      obtain ⟨hfunctions, hcalls⟩ := hnames q hq name (by simpa using hname)
      rcases hmention with ⟨f, hf, heq⟩ | ⟨i, hi, heq⟩
      · exact hfunctions f hf heq
      · exact hcalls i hi heq
    have hpages : (⟨1, 50⟩ : LoaderConfig).memoryPages = countdownContext.loader.memoryPages := rfl
    obtain ⟨hself, hedits⟩ := WorkerContext.actsAs_inPlace (by rfl) (by decide) hpoints hfresh
      hprepare hobjects hsetup hpages
    refine ⟨t, l, rfl, hself, fun q hq => ?_⟩
    have hok := List.all_eq_true.mp hbinds q hq
    cases hbind : WorkerContext.bindMutant t l q with
    | error e =>
      rw [hbind] at hok
      cases hok
    | ok l' => exact ⟨l', rfl, hedits q hq l' hbind⟩

end MutationAnalysis
