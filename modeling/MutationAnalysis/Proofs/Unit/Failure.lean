/-
What a preparation that fails leaves behind.

Preparation edits the program in place, and nothing takes back what it did when a later point
turns out to be one that cannot be prepared.  Whatever the outcome, a program only grows: its
functions keep their places, those of the groups that were finished as stubs, and what is new
stands after them.  It is left as it was exactly if preparation stops at the first point,
before anything is added for it.

* `Program.growsTo_of_prepareGroup_ok`, `Program.growsTo_of_prepareGroup_error`:
  what one group does to a program;
* `Program.growsTo_prepareGroups`: what groups do, as far as they get;
* `Program.prepareGroups_ofPoints_program_eq_iff`: when they do nothing;
* `ProgramUnit.prepare_failed`: what a failed preparation leaves.
-/
import MutationAnalysis.Proofs.Unit.Exactness

namespace MutationAnalysis

/-- A group of points of a list, in a function that some of them is in. -/
structure PointGroup.IsAmong (g : PointGroup) (points : List MutationPoint) : Prop where
  exists_point : ∃ q ∈ points, q.address.function = g.function
  subset : g.points ⊆ points

theorem PointGroup.isAmong_of_mem {points : List MutationPoint} {g : PointGroup}
    (hg : g ∈ ofPoints points) : g.IsAmong points :=
  have hcollects := collects_ofPoints points
  ⟨hcollects.exists_point hg, fun q hq => (hcollects.mem q).mpr ⟨g, hg, hq⟩⟩

/-- The first group is that of the first point. -/
theorem PointGroup.head?_ofPoints (points : List MutationPoint) :
    (ofPoints points).head?.map (·.function) = points.head?.map (·.address.function) := by
  rw [← List.head?_map, functions_ofPoints]
  cases points with
  | nil => rfl
  | cons q rest =>
    rw [List.map_cons, List.eraseDups_cons]
    rfl

namespace Program

variable {p p' p'' : Program} {moduleId : String} {g : PointGroup} {groups : List PointGroup}
  {f : Function} {points : List MutationPoint} {keys : List String} {stubbed stubbed' : List Nat}

/-! ### Programs that grow -/

/-- A program whose functions stand where they stood in another one, some of them as stubs, before
others that have names generated for points. -/
structure GrowsTo (p : Program) (moduleId : String) (points : List MutationPoint)
    (stubbed : List Nat) (p' : Program) : Prop where
  others : p' = { p with functions := p'.functions }
  standing : ∀ (i : Nat) (f : Function), p.functions[i]? = some f →
    p'.functions[i]? = some (if i ∈ stubbed then stubOf moduleId f else f)
  names : ∃ added, p'.names = p.names ++ added ∧
    ∀ name ∈ added, (∃ key, name = SymbolName.preserved key) ∨ ∃ q ∈ points, name = q.identifier

theorem GrowsTo.refl (p : Program) : p.GrowsTo moduleId points [] p :=
  ⟨rfl, fun _ _ hf => hf, [], (List.append_nil _).symm, by simp⟩

theorem GrowsTo.trans (h : p.GrowsTo moduleId points stubbed p')
    (h' : p'.GrowsTo moduleId points stubbed' p'') :
    p.GrowsTo moduleId points (stubbed ++ stubbed') p'' := by
  obtain ⟨added, hnames, hadded⟩ := h.names
  obtain ⟨added', hnames', hadded'⟩ := h'.names
  refine ⟨by rw [h'.others, h.others], fun i f hf => ?_, added ++ added', ?_, ?_⟩
  · rw [h'.standing i _ (h.standing i f hf)]
    -- the stub of a stub is that stub
    by_cases hi : i ∈ stubbed
    · rw [if_pos hi, if_pos (List.mem_append_left _ hi)]
      exact congrArg some (ite_self (stubOf moduleId f))
    · rw [if_neg hi]
      simp only [List.mem_append, hi, false_or]
  · rw [hnames', hnames, List.append_assoc]
  · intro name hname
    exact (List.mem_append.mp hname).elim (hadded name) (hadded' name)

theorem GrowsTo.length_le (h : p.GrowsTo moduleId points stubbed p') :
    p.functions.length ≤ p'.functions.length := by
  obtain ⟨added, hnames, -⟩ := h.names
  have hlength := congrArg List.length hnames
  rw [List.length_append, Program.names, Program.names, List.length_map, List.length_map] at hlength
  omega

/-- A function that is added under a generated name. -/
theorem growsTo_addFunction
    (hname : (∃ key, f.name = SymbolName.preserved key) ∨ ∃ q ∈ points, f.name = q.identifier) :
    p.GrowsTo moduleId points [] (p.addFunction f) := by
  refine ⟨rfl, fun i x hx => ?_, [f.name], List.map_append, fun name hmem => ?_⟩
  · obtain ⟨hlt, -⟩ := List.getElem?_eq_some_iff.mp hx
    exact (List.getElem?_append_left hlt).trans hx
  · rwa [List.mem_singleton.mp hmem]

/-- A function that becomes a stub. -/
theorem growsTo_set {i : Nat} (hf : p.functions[i]? = some f) :
    p.GrowsTo moduleId points [i]
      { p with functions := p.functions.set i (stubOf moduleId f) } := by
  refine ⟨rfl, fun j x hx => ?_, [], ?_, by simp⟩
  · by_cases heq : j = i
    · subst heq
      obtain rfl := Option.some.inj (hf.symm.trans hx)
      rw [if_pos (List.mem_singleton_self j)]
      exact List.getElem?_set_self (List.getElem?_eq_some_iff.mp hf).1
    · rw [if_neg (by simpa using heq)]
      exact (List.getElem?_set_ne (Ne.symm heq)).trans hx
  · rw [List.append_nil]
    exact map_set_eq hf rfl

/-! ### Groups -/

/-- Mutants are added until one cannot be made. -/
theorem growsTo_addMutants {rest : List MutationPoint} (hrest : rest ⊆ points)
    (f : Function) (p : Program) (moduleId : String) :
    p.GrowsTo moduleId points [] (addMutants f p rest).1 := by
  induction rest generalizing p with
  | nil => exact .refl p
  | cons q rest ih =>
    rw [List.cons_subset] at hrest
    rw [addMutants]
    split
    · exact .refl p
    · rename_i m hm
      have hname : m.name = q.identifier := by
        obtain ⟨x, -, rfl⟩ := mutant_eq_ok.mp hm
        rfl
      exact (growsTo_addFunction (.inr ⟨q, hrest.1, hname⟩)).trans (ih hrest.2 _)

/-- A group fails at once if there is no function for it, or one with too many parameters; else
functions are added, and the stub is made if all of them could be. -/
theorem prepareGroup_cases (hg : g.IsAmong points) (p : Program) (moduleId : String) :
    (∃ fault, p.prepareGroup moduleId g = (p, .error fault)) ∧
      (∀ f, p.functions[g.function]? = some f → maxParams < f.numParams) ∨
    ∃ f grown, p.functions[g.function]? = some f ∧ ¬ maxParams < f.numParams ∧
      p.GrowsTo moduleId points [] grown ∧ p.functions.length < grown.functions.length ∧
      ((∃ fault, p.prepareGroup moduleId g = (grown, .error fault)) ∨
        ∃ key, p.prepareGroup moduleId g
          = ({ grown with functions := grown.functions.set g.function (stubOf moduleId f) },
            .ok key)) := by
  rw [prepareGroup]
  split
  · rename_i hnone
    refine .inl ⟨⟨_, rfl⟩, fun f hf => ?_⟩
    rw [hnone] at hf
    cases hf
  · rename_i f hf
    split
    · rename_i hmany
      exact .inl ⟨⟨_, rfl⟩, fun f' hf' => Option.some.inj (hf.symm.trans hf') ▸ hmany⟩
    · rename_i hfew
      -- the preserved body is added first, and then the mutants, as far as they can be made
      have hpreserved : p.GrowsTo moduleId points [] (p.addFunction (preservedBody moduleId f)) :=
        growsTo_addFunction (.inl ⟨_, rfl⟩)
      have hmutants := growsTo_addMutants hg.subset f (p.addFunction (preservedBody moduleId f))
        moduleId
      refine .inr ⟨f, _, hf, hfew, hpreserved.trans hmutants, ?_, ?_⟩
      · have hle := hmutants.length_le
        rwa [addFunction, List.length_append] at hle
      · dsimp only [preservedBody]
        split
        · rename_i p' fault hadd
          exact .inl ⟨fault, by rw [hadd]⟩
        · rename_i p' hadd
          exact .inr ⟨_, by rw [hadd]; rfl⟩

/-- A group that is prepared makes its function a stub. -/
theorem growsTo_of_prepareGroup_ok {key : String} (hg : g.IsAmong points)
    (h : p.prepareGroup moduleId g = (p', .ok key)) :
    p.GrowsTo moduleId points [g.function] p' := by
  rcases prepareGroup_cases hg p moduleId with ⟨⟨fault, hfails⟩, -⟩
    | ⟨f, grown, hf, -, hgrows, -, hresult⟩
  · cases hfails.symm.trans h
  · rcases hresult with ⟨fault, hfails⟩ | ⟨key', hdone⟩
    · cases hfails.symm.trans h
    · obtain ⟨rfl, -⟩ := Prod.mk.inj (hdone.symm.trans h)
      exact hgrows.trans (growsTo_set (hgrows.standing _ _ hf))

/-- A group that fails makes no stub. -/
theorem growsTo_of_prepareGroup_error {fault : PreparationFault} (hg : g.IsAmong points)
    (h : p.prepareGroup moduleId g = (p', .error fault)) : p.GrowsTo moduleId points [] p' := by
  rcases prepareGroup_cases hg p moduleId with ⟨⟨fault', hfails⟩, -⟩
    | ⟨f, grown, -, -, hgrows, -, hresult⟩
  · obtain ⟨rfl, -⟩ := Prod.mk.inj (hfails.symm.trans h)
    exact .refl p
  · rcases hresult with ⟨fault', hfails⟩ | ⟨key, hdone⟩
    · obtain ⟨rfl, -⟩ := Prod.mk.inj (hfails.symm.trans h)
      exact hgrows
    · cases hdone.symm.trans h

/-- Groups are prepared up to the first one that fails, and the functions of
those before it become stubs. -/
theorem growsTo_prepareGroups (hgroups : ∀ g ∈ groups, g.IsAmong points) (p : Program)
    (moduleId : String) (keys : List String) :
    ∃ done rest p₁ keys₁, groups = done ++ rest ∧
      p.prepareGroups moduleId keys done = ⟨p₁, .ok keys₁⟩ ∧
      p.GrowsTo moduleId points (done.map (·.function))
        (p.prepareGroups moduleId keys groups).program ∧
      (rest = [] ∧ p.prepareGroups moduleId keys groups = ⟨p₁, .ok keys₁⟩ ∨
        ∃ g more p₂ fault, rest = g :: more ∧ p₁.prepareGroup moduleId g = (p₂, .error fault) ∧
          p.prepareGroups moduleId keys groups = ⟨p₂, .error fault⟩) := by
  induction groups generalizing p keys with
  | nil => exact ⟨[], [], p, keys, rfl, rfl, .refl p, .inl ⟨rfl, rfl⟩⟩
  | cons g more ih =>
    obtain ⟨hg, hmore⟩ := List.forall_mem_cons.mp hgroups
    rcases hgroup : p.prepareGroup moduleId g with ⟨p', fault | key⟩
    · rw [prepareGroups, hgroup]
      exact ⟨[], g :: more, p, keys, rfl, rfl, growsTo_of_prepareGroup_error hg hgroup,
        .inr ⟨g, more, p', fault, rfl, hgroup, rfl⟩⟩
    · rw [prepareGroups, hgroup]
      obtain ⟨done, rest, p₁, keys₁, rfl, hdone, hgrows, hend⟩ := ih hmore p' (keys ++ [key])
      refine ⟨g :: done, rest, p₁, keys₁, rfl, ?_,
        (growsTo_of_prepareGroup_ok hg hgroup).trans hgrows, hend⟩
      rw [prepareGroups, hgroup]
      exact hdone

/-- Groups leave a program as it is exactly if there is none, or the first one fails at once. -/
theorem prepareGroups_program_eq_iff (hgroups : ∀ g ∈ groups, g.IsAmong points) :
    (p.prepareGroups moduleId keys groups).program = p ↔
      ∀ g ∈ groups.head?, ∀ f, p.functions[g.function]? = some f → maxParams < f.numParams := by
  cases groups with
  | nil => simp [prepareGroups]
  | cons g rest =>
    simp only [List.head?_cons, Option.mem_def, Option.some.injEq, forall_eq']
    rw [prepareGroups]
    rcases prepareGroup_cases (List.forall_mem_cons.mp hgroups).1 p moduleId with
      ⟨⟨fault, hfails⟩, hmany⟩ | ⟨f, grown, hf, hfew, -, hgrew, hresult⟩
    · refine iff_of_true ?_ hmany
      rw [hfails]
    · refine iff_of_false (fun heq => ?_) fun hmany => hfew (hmany f hf)
      rcases hresult with ⟨fault, hfails⟩ | ⟨key, hdone⟩
      · rw [hfails] at heq
        exact absurd hgrew (heq ▸ Nat.lt_irrefl _)
      · rw [hdone] at heq
        obtain ⟨_, _, _, _, -, -, hmore, -⟩ :=
          growsTo_prepareGroups (List.forall_mem_cons.mp hgroups).2
          { grown with functions := grown.functions.set g.function (stubOf moduleId f) } moduleId
            (keys ++ [key])
        have hle := hmore.length_le
        rw [List.length_set, heq] at hle
        exact absurd hgrew (Nat.not_lt.mpr hle)

/-- Points leave a program as it is exactly if there is none, or the first one is in no function or
in one with too many parameters. -/
theorem prepareGroups_ofPoints_program_eq_iff :
    (p.prepareGroups moduleId keys (PointGroup.ofPoints points)).program = p ↔
      ∀ q ∈ points.head?, ∀ f, p.functions[q.address.function]? = some f →
        maxParams < f.numParams := by
  rw [prepareGroups_program_eq_iff fun g hg => PointGroup.isAmong_of_mem hg]
  have hfirst := PointGroup.head?_ofPoints points
  constructor
  · intro hgroup q hq
    rw [Option.mem_def.mp hq, Option.map_some, Option.map_eq_some_iff] at hfirst
    obtain ⟨g, hg, heq⟩ := hfirst
    exact heq ▸ hgroup g hg
  · intro hpoint g hg
    rw [Option.mem_def.mp hg, Option.map_some, eq_comm, Option.map_eq_some_iff] at hfirst
    obtain ⟨q, hq, heq⟩ := hfirst
    exact heq ▸ hpoint q hq

end Program

/-! ### Units -/

namespace ProgramUnit

variable {unit unit' : ProgramUnit} {points : List MutationPoint} {fault : PreparationFault}

/-- What preparation leaves, whether it fails or not. -/
theorem prepare_fst (unit : ProgramUnit) (points : List MutationPoint) :
    (unit.prepare points).1 = { unit with program := (unit.program.prepareGroups unit.identifier []
      (PointGroup.ofPoints (unit.own points))).program } :=
  rfl

/-- Where a group fails, preparation does. -/
theorem prepare_of_prepareGroups_error {program : Program}
    (h : unit.program.prepareGroups unit.identifier [] (PointGroup.ofPoints (unit.own points))
      = ⟨program, .error fault⟩) : unit.prepare points = ({ unit with program }, .error fault) := by
  rw [own] at h
  rw [prepare, h]
  rfl

/-- A preparation that fails leaves all functions of the unit in their places, those of the groups
before the one that fails as stubs, and after them functions under generated names; where no group
fails, what all of them make is invalid.  The unit is as it was exactly if it has no point to
prepare, or if the first one is in no function or in one with too many parameters. -/
theorem prepare_failed (h : unit.prepare points = (unit', .error fault)) :
    unit' = { unit with program := unit'.program } ∧
      (∃ done rest p₁ keys, PointGroup.ofPoints (unit.own points) = done ++ rest ∧
        unit.program.prepareGroups unit.identifier [] done = ⟨p₁, .ok keys⟩ ∧
        unit.program.GrowsTo unit.identifier (unit.own points) (done.map (·.function))
          unit'.program ∧
        ((rest = [] ∧ unit'.program = p₁ ∧ ∃ e, p₁.validate = .error e ∧ fault = .program e) ∨
          ∃ g more, rest = g :: more ∧
            p₁.prepareGroup unit.identifier g = (unit'.program, .error fault))) ∧
      (unit' = unit ↔ ∀ q ∈ (unit.own points).head?, ∀ f,
        unit.program.functions[q.address.function]? = some f → maxParams < f.numParams) := by
  have hunit : unit' = (unit.prepare points).1 := (congrArg Prod.fst h).symm
  rw [prepare_fst] at hunit
  have hamong : ∀ g ∈ PointGroup.ofPoints (unit.own points), g.IsAmong (unit.own points) :=
    fun g hg => PointGroup.isAmong_of_mem hg
  obtain ⟨done, rest, p₁, keys, hgroups, hdone, hgrows, hend⟩ :=
    Program.growsTo_prepareGroups hamong unit.program unit.identifier []
  refine ⟨by rw [hunit], ⟨done, rest, p₁, keys, hgroups, hdone, by rwa [hunit], ?_⟩, ?_⟩
  · rcases hend with ⟨hnil, hall⟩ | ⟨g, more, p₂, fault', hrest, hfails, hresult⟩
    · have hresult := prepare_snd hall
      rw [h] at hresult
      split at hresult
      · cases hresult
      · rename_i e hinvalid
        exact .inl ⟨hnil, by rw [hunit, hall], e, hinvalid, Except.error.inj hresult⟩
    · have hprepared := h.symm.trans (prepare_of_prepareGroups_error hresult)
      obtain rfl := Except.error.inj (Prod.mk.inj hprepared).2
      exact .inr ⟨g, more, hrest, by rw [hunit, hresult, hfails]⟩
  · have hprogram : ∀ program, ({ unit with program } : ProgramUnit) = unit ↔
        program = unit.program :=
      fun program => ⟨fun heq => congrArg ProgramUnit.program heq, fun heq => by rw [heq]⟩
    rw [hunit, hprogram, Program.prepareGroups_ofPoints_program_eq_iff]

end ProgramUnit

/-! ### A second point that cannot be prepared -/

/-- A point of one function, and one of another function whose operator does not apply there. -/
def slippingPoints : List MutationPoint :=
  [⟨"m", "next", ⟨0, 0, 1⟩, .mathAdd, "", none, [("t", 1)]⟩,
    ⟨"m", "start", ⟨1, 0, 0⟩, .mathAdd, "", none, [("t", 1)]⟩]

theorem counting_grows : ∃ unit' fault, countingUnit.prepare slippingPoints =
    (unit', .error fault) ∧
    unit' = { countingUnit with program := unit'.program } ∧ unit' ≠ countingUnit := by
  have hfails : countingUnit.prepare slippingPoints = ((countingUnit.prepare slippingPoints).1,
      .error (.edit (.wrongOpcode .mathAdd .call ⟨1, 0, 0⟩))) := Prod.ext rfl (by decide)
  obtain ⟨hunit, -, hsame⟩ := ProgramUnit.prepare_failed hfails
  exact ⟨_, _, hfails, hunit, fun heq => absurd (hsame.mp heq) (by decide)⟩

/-- The first function has become a stub, and its body and its mutant have been added. -/
theorem counting_slips : (countingUnit.prepare slippingPoints).2
      = .error (.edit (.wrongOpcode .mathAdd .call ⟨1, 0, 0⟩)) ∧
    (countingUnit.prepare slippingPoints).1.program ≠ countingUnit.program := by
  decide

end MutationAnalysis
