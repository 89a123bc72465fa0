/-
What preparation makes of a program.

Functions without points stay where they are.  A function with points becomes a stub in its place;
its body under the preserved name and its mutants are among the functions added at the end, and
nothing else is added (`Program.IsPrepared`).

* `PointGroup.collects_ofPoints`: the points by function;
* `Program.isPreparedBy_prepareGroup`: one more group leaves the
  program prepared for one more group;
* `ProgramUnit.isPrepared_of_prepare`: what a unit is prepared to.
-/
import MutationAnalysis.Proofs.Program.Names
import MutationAnalysis.Proofs.Program.Validity
import MutationAnalysis.Unit.Preparation
import Mathlib.Data.List.Basic
import Mathlib.Data.List.Forall2
import Mathlib.Tactic.Common

namespace MutationAnalysis

/-! ### Points by function -/

namespace PointGroup

/-- Groups hold all points of a list, those of one function in one group. -/
structure Collects (groups : List PointGroup) (points : List MutationPoint) : Prop where
  nodup : (groups.map (·.function)).Nodup
  own : ∀ g ∈ groups, ∀ p ∈ g.points, p.address.function = g.function
  ne_nil : ∀ g ∈ groups, g.points ≠ []
  mem : ∀ p, p ∈ points ↔ ∃ g ∈ groups, p ∈ g.points

variable {p : MutationPoint} {groups : List PointGroup} {points : List MutationPoint}

theorem mem_function_insert {i : Nat} :
    i ∈ (insert p groups).map (·.function) ↔
      i = p.address.function ∨ i ∈ groups.map (·.function) := by
  induction groups with
  | nil => simp [insert]
  | cons g rest ih =>
    rw [insert]
    split
    · rename_i heq
      rw [List.map_cons, List.map_cons, List.mem_cons, heq]
      tauto
    · rw [List.map_cons, List.mem_cons, ih, List.map_cons, List.mem_cons]
      tauto

theorem Collects.insert (h : Collects groups points) :
    Collects (PointGroup.insert p groups) (points ++ [p]) := by
  induction groups generalizing points with
  | nil =>
    have hnil : points = [] := List.eq_nil_iff_forall_not_mem.mpr fun q hq => by
      obtain ⟨g, hg, -⟩ := (h.mem q).mp hq
      cases hg
    subst hnil
    refine ⟨by simp [PointGroup.insert], ?_, ?_, ?_⟩ <;> simp [PointGroup.insert]
  | cons g rest ih =>
    have hnodup := h.nodup
    rw [List.map_cons, List.nodup_cons] at hnodup
    have hown := h.own
    have hne := h.ne_nil
    rw [List.forall_mem_cons] at hown hne
    rw [PointGroup.insert]
    -- the point joins the first group, or it is inserted among the others,
    -- which hold the other points
    by_cases heq : g.function = p.address.function
    · rw [if_pos heq]
      refine ⟨List.nodup_cons.mpr hnodup, ?_, ?_, fun q => ?_⟩
      · refine List.forall_mem_cons.mpr ⟨fun q hq => ?_, hown.2⟩
        rcases List.mem_append.mp hq with hq | hq
        · exact hown.1 q hq
        · obtain rfl := List.mem_singleton.mp hq
          exact heq.symm
      · exact List.forall_mem_cons.mpr ⟨by simp, hne.2⟩
      · rw [List.mem_append, List.mem_singleton, h.mem]
        simp only [List.mem_cons, exists_eq_or_imp, List.mem_append, List.not_mem_nil, or_false]
        exact or_right_comm
    · rw [if_neg heq]
      have hrest : Collects rest (points.filter fun q => q ∉ g.points) := by
        refine ⟨hnodup.2, hown.2, hne.2, fun q => ?_⟩
        rw [List.mem_filter, h.mem]
        simp only [List.mem_cons, exists_eq_or_imp, decide_eq_true_eq]
        constructor
        · rintro ⟨hq | hq, hnot⟩
          · exact absurd hq hnot
          · exact hq
        · rintro ⟨k, hk, hq⟩
          refine ⟨.inr ⟨k, hk, hq⟩, fun hqg => hnodup.1 ?_⟩
          rw [← hown.1 q hqg, hown.2 k hk q hq]
          exact List.mem_map_of_mem hk
      have hinsert := ih hrest
      refine ⟨?_, ?_, ?_, fun q => ?_⟩
      · rw [List.map_cons, List.nodup_cons, mem_function_insert]
        exact ⟨fun hor => hor.elim heq hnodup.1, hinsert.nodup⟩
      · exact List.forall_mem_cons.mpr ⟨hown.1, hinsert.own⟩
      · exact List.forall_mem_cons.mpr ⟨hne.1, hinsert.ne_nil⟩
      · have hmem := hinsert.mem q
        rw [List.mem_append, List.mem_filter, List.mem_singleton] at hmem
        rw [List.mem_append, List.mem_singleton]
        simp only [List.mem_cons, exists_eq_or_imp]
        rw [← hmem, decide_eq_true_eq]
        have hg : q ∈ g.points → q ∈ points := fun hq => (h.mem q).mpr ⟨g, by simp, hq⟩
        tauto

theorem collects_ofPoints (points : List MutationPoint) : Collects (ofPoints points) points := by
  have hfold : ∀ (rest seen : List MutationPoint) (groups : List PointGroup),
      Collects groups seen →
      Collects (rest.foldl (fun groups p => PointGroup.insert p groups) groups) (seen ++ rest) := by
    intro rest
    induction rest with
    | nil =>
      intro seen groups h
      rwa [List.append_nil]
    | cons p rest ih =>
      intro seen groups h
      have hnext := ih (seen ++ [p]) _ (h.insert (p := p))
      rwa [List.append_assoc] at hnext
  exact hfold points [] [] ⟨by simp, by simp, by simp, by simp⟩

/-- Every group is there for a point. -/
theorem Collects.exists_point (h : Collects groups points) {g : PointGroup} (hg : g ∈ groups) :
    ∃ q ∈ points, q.address.function = g.function := by
  obtain ⟨q, hq⟩ := List.exists_mem_of_ne_nil _ (h.ne_nil g hg)
  exact ⟨q, (h.mem q).mpr ⟨g, hg, hq⟩, h.own g hg q hq⟩

/-- Every point is in the group of its function. -/
theorem Collects.exists_group (h : Collects groups points) {q : MutationPoint} (hq : q ∈ points) :
    ∃ g ∈ groups, q ∈ g.points ∧ q.address.function = g.function := by
  obtain ⟨g, hg, hqg⟩ := (h.mem q).mp hq
  exact ⟨g, hg, hqg, h.own g hg q hqg⟩

end PointGroup

/-! ### One group after the other -/

namespace Program

/-- The body of a function that is kept. -/
def preservedBody (moduleId : String) (f : Function) : Function :=
  { f with name := SymbolName.preserved (SymbolName.key f.name moduleId) }

def stubOf (moduleId : String) (f : Function) : Function :=
  f.stub (SymbolName.cell (SymbolName.key f.name moduleId))

/-- A program with the functions of groups prepared. -/
structure IsPreparedBy (p : Program) (moduleId : String) (groups : List PointGroup)
    (p' : Program) : Prop where
  others : p' = { p with functions := p'.functions }
  length_le : p.functions.length ≤ p'.functions.length
  kept : ∀ (i : Nat) (f : Function), p.functions[i]? = some f → i ∉ groups.map (·.function) →
    p'.functions[i]? = some f
  stubbed : ∀ g ∈ groups, ∃ f, p.functions[g.function]? = some f ∧ f.numParams.toNat ≤ 255 ∧
    p'.functions[g.function]? = some (stubOf moduleId f) ∧
    (∃ j : Nat, p.functions.length ≤ j ∧ p'.functions[j]? = some (preservedBody moduleId f)) ∧
    ∀ q ∈ g.points, ∃ m, q.mutant f = .ok m ∧
      ∃ j : Nat, p.functions.length ≤ j ∧ p'.functions[j]? = some m
  added : ∀ (j : Nat) (h : Function), p.functions.length ≤ j → p'.functions[j]? = some h →
    ∃ g ∈ groups, ∃ f, p.functions[g.function]? = some f ∧
      (h = preservedBody moduleId f ∨ ∃ q ∈ g.points, q.mutant f = .ok h)

variable {p p' : Program} {moduleId key : String} {g : PointGroup} {groups : List PointGroup}
  {f : Function} {points : List MutationPoint}

theorem IsPreparedBy.nil : p.IsPreparedBy moduleId [] p :=
  ⟨rfl, Nat.le_refl _, fun _ _ hf _ => hf, by simp, fun j x hj hx => by
    rw [List.getElem?_eq_none hj] at hx
    cases hx⟩

theorem addMutants_eq_ok (h : addMutants f p points = (p', .ok ())) :
    ∃ mutants, List.Forall₂ (fun q m => q.mutant f = .ok m) points mutants ∧
      p' = { p with functions := p.functions ++ mutants } := by
  induction points generalizing p with
  | nil =>
    rw [addMutants] at h
    obtain ⟨rfl, -⟩ := Prod.mk.inj h
    exact ⟨[], .nil, by rw [List.append_nil]⟩
  | cons q rest ih =>
    rw [addMutants] at h
    split at h
    · exact absurd (Prod.mk.inj h).2 (by simp)
    · rename_i m hm
      obtain ⟨mutants, hmutants, rfl⟩ := ih h
      refine ⟨m :: mutants, .cons hm hmutants, ?_⟩
      rw [addFunction, List.append_assoc]
      rfl

theorem prepareGroup_eq_ok (h : p.prepareGroup moduleId g = (p', .ok key)) :
    ∃ f mutants, p.functions[g.function]? = some f ∧ f.numParams.toNat ≤ 255 ∧
      key = SymbolName.key f.name moduleId ∧
      List.Forall₂ (fun q m => q.mutant f = .ok m) g.points mutants ∧
      p' = { p with
        functions := (p.functions ++ preservedBody moduleId f :: mutants).set g.function
          (stubOf moduleId f) } := by
  rw [prepareGroup] at h
  split at h
  · exact absurd (Prod.mk.inj h).2 (by simp)
  · rename_i f hf
    split at h
    · exact absurd (Prod.mk.inj h).2 (by simp)
    · rename_i hparams
      dsimp only at h
      split at h
      · exact absurd (Prod.mk.inj h).2 (by simp)
      · rename_i kept hkept
        obtain ⟨mutants, hmutants, rfl⟩ := addMutants_eq_ok hkept
        obtain ⟨rfl, hkey⟩ := Prod.mk.inj h
        refine ⟨f, mutants, hf, ?_, (Except.ok.inj hkey).symm, hmutants, ?_⟩
        · have hle := UInt64.not_lt.mp hparams
          exact UInt64.le_iff_toNat_le.mp hle
        · rw [addFunction, List.append_assoc]
          rfl

/-- Preparing one more group keeps what was prepared before. -/
theorem isPreparedBy_prepareGroup {p₁ p₂ : Program} (h : p.IsPreparedBy moduleId groups p₁)
    (hnew : g.function ∉ groups.map (·.function)) (hlt : g.function < p.functions.length)
    (hprepare : p₁.prepareGroup moduleId g = (p₂, .ok key)) :
    p.IsPreparedBy moduleId (groups ++ [g]) p₂ ∧
      ∃ f, p.functions[g.function]? = some f ∧ key = SymbolName.key f.name moduleId := by
  obtain ⟨f, mutants, hf₁, hparams, hkey, hmutants, rfl⟩ := prepareGroup_eq_ok hprepare
  have hf : p.functions[g.function]? = some f := by
    have hkept := h.kept _ _ (List.getElem?_eq_getElem hlt) hnew
    rw [List.getElem?_eq_getElem hlt]
    exact hkept.symm.trans hf₁
  have hlength := h.length_le
  generalize hcopies : preservedBody moduleId f :: mutants = copies
  -- where the functions of the program stand that is left
  have hself : ((p₁.functions ++ copies).set g.function (stubOf moduleId f))[g.function]?
      = some (stubOf moduleId f) :=
    List.getElem?_set_self (by rw [List.length_append]; omega)
  have hold : ∀ (j : Nat) (x : Function), j ≠ g.function → p₁.functions[j]? = some x →
      ((p₁.functions ++ copies).set g.function (stubOf moduleId f))[j]? = some x := by
    intro j x hne hx
    obtain ⟨hj, -⟩ := List.getElem?_eq_some_iff.mp hx
    rw [List.getElem?_set_ne (Ne.symm hne), List.getElem?_append_left hj, hx]
  have hcopy : ∀ x ∈ copies, ∃ j : Nat, p.functions.length ≤ j ∧
      ((p₁.functions ++ copies).set g.function (stubOf moduleId f))[j]? = some x := by
    intro x hx
    obtain ⟨k, hk⟩ := List.mem_iff_getElem?.mp hx
    refine ⟨p₁.functions.length + k, by omega, ?_⟩
    rw [List.getElem?_set_ne (by omega), List.getElem?_append_right (by omega),
      Nat.add_sub_cancel_left, hk]
  refine ⟨⟨?_, ?_, ?_, ?_, ?_⟩, f, hf, hkey⟩
  · rw [h.others]
  · show _ ≤ (List.set _ _ _).length
    rw [List.length_set, List.length_append]
    omega
  · intro i x hx hi
    rw [List.map_append, List.mem_append, not_or, List.map_singleton, List.mem_singleton] at hi
    exact hold i x hi.2 (h.kept i x hx hi.1)
  · intro k hk
    rcases List.mem_append.mp hk with hk | hk
    · obtain ⟨x, hx, hn, hstub, ⟨j, hj, hpreserved⟩, hpoints⟩ := h.stubbed k hk
      have hne : k.function ≠ g.function := fun heq => hnew (heq ▸ List.mem_map_of_mem hk)
      refine ⟨x, hx, hn, hold _ _ hne hstub, ⟨j, hj, hold _ _ (by omega) hpreserved⟩,
        fun q hq => ?_⟩
      obtain ⟨m, hm, j, hj, hmutant⟩ := hpoints q hq
      exact ⟨m, hm, j, hj, hold _ _ (by omega) hmutant⟩
    · obtain rfl := List.mem_singleton.mp hk
      refine ⟨f, hf, hparams, hself, hcopy _ (by simp [← hcopies]), fun q hq => ?_⟩
      obtain ⟨m, hm, hmutant⟩ := exists_right_of_mem hmutants hq
      exact ⟨m, hmutant, hcopy m (by simp [← hcopies, hm])⟩
  · intro j x hj hx
    replace hx : ((p₁.functions ++ copies).set g.function (stubOf moduleId f))[j]? = some x := hx
    rw [List.getElem?_set_ne (by omega)] at hx
    by_cases hlt : j < p₁.functions.length
    · rw [List.getElem?_append_left hlt] at hx
      obtain ⟨k, hk, y, hy, hor⟩ := h.added j x hj hx
      exact ⟨k, List.mem_append_left _ hk, y, hy, hor⟩
    · rw [List.getElem?_append_right (by omega)] at hx
      refine ⟨g, by simp, f, hf, ?_⟩
      have hmem := List.mem_of_getElem? hx
      rw [← hcopies, List.mem_cons] at hmem
      refine hmem.imp id fun hm => ?_
      obtain ⟨q, hq, hmutant⟩ := exists_left_of_mem hmutants hm
      exact ⟨q, hq, hmutant⟩

/-- The keys of groups: each is that of the function of its group. -/
def KeysOf (p : Program) (moduleId : String) (groups : List PointGroup) (keys : List String) :
    Prop :=
  List.Forall₂ (fun g key => ∃ f, p.functions[g.function]? = some f ∧
    key = SymbolName.key f.name moduleId) groups keys

theorem isPreparedBy_prepareGroups {keys keys' : List String} {more : List PointGroup}
    {p₁ : Program} (h : p.IsPreparedBy moduleId groups p₁) (hkeys : p.KeysOf moduleId groups keys)
    (hnodup : ((groups ++ more).map (·.function)).Nodup)
    (hlt : ∀ g ∈ more, g.function < p.functions.length)
    (hprepare : p₁.prepareGroups moduleId keys more = ⟨p', .ok keys'⟩) :
    p.IsPreparedBy moduleId (groups ++ more) p' ∧ p.KeysOf moduleId (groups ++ more) keys' := by
  -- no function has two groups, so what is done for the groups before stays done
  induction more generalizing groups keys p₁ with
  | nil =>
    rw [prepareGroups] at hprepare
    obtain ⟨rfl, hk⟩ := Preparation.mk.inj hprepare
    obtain rfl := Except.ok.inj hk
    rw [List.append_nil]
    exact ⟨h, hkeys⟩
  | cons g rest ih =>
    rw [prepareGroups] at hprepare
    split at hprepare
    · exact absurd (Preparation.mk.inj hprepare).2 (by simp)
    · rename_i p₂ key hgroup
      rw [List.forall_mem_cons] at hlt
      have hsplit : groups ++ g :: rest = groups ++ [g] ++ rest := by
        rw [List.append_assoc]
        rfl
      rw [hsplit] at hnodup ⊢
      have hnew : g.function ∉ groups.map (·.function) := by
        rw [List.map_append, List.map_append, List.append_assoc, List.nodup_append] at hnodup
        exact fun hmem => hnodup.2.2 _ hmem _ (by simp) rfl
      obtain ⟨hnext, hkey⟩ := isPreparedBy_prepareGroup h hnew hlt.1 hgroup
      exact ih hnext (List.rel_append hkeys (.cons hkey .nil)) hnodup hlt.2 hprepare

/-- A program prepared for points: what stays, what the functions of points
become, and what else there is. -/
structure IsPrepared (p : Program) (moduleId : String) (points : List MutationPoint)
    (p' : Program) : Prop where
  others : p' = { p with functions := p'.functions }
  length_le : p.functions.length ≤ p'.functions.length
  kept : ∀ (i : Nat) (f : Function), p.functions[i]? = some f →
    (∀ q ∈ points, q.address.function ≠ i) → p'.functions[i]? = some f
  stubbed : ∀ q ∈ points, ∃ f, p.functions[q.address.function]? = some f ∧
    f.numParams.toNat ≤ 255 ∧ p'.functions[q.address.function]? = some (stubOf moduleId f) ∧
    (∃ j : Nat, p.functions.length ≤ j ∧ p'.functions[j]? = some (preservedBody moduleId f)) ∧
    ∃ m, q.mutant f = .ok m ∧ ∃ j : Nat, p.functions.length ≤ j ∧ p'.functions[j]? = some m
  added : ∀ (j : Nat) (h : Function), p.functions.length ≤ j → p'.functions[j]? = some h →
    ∃ q ∈ points, ∃ f, p.functions[q.address.function]? = some f ∧
      (h = preservedBody moduleId f ∨ q.mutant f = .ok h)

/-- A program with the groups of points prepared is prepared for the points. -/
theorem IsPreparedBy.isPrepared (h : p.IsPreparedBy moduleId groups p')
    (hcollects : PointGroup.Collects groups points) : p.IsPrepared moduleId points p' where
  others := h.others
  length_le := h.length_le
  kept i f hf hi := by
    refine h.kept i f hf fun hmem => ?_
    obtain ⟨g, hg, rfl⟩ := List.mem_map.mp hmem
    obtain ⟨q, hq, heq⟩ := hcollects.exists_point hg
    exact hi q hq heq
  stubbed q hq := by
    obtain ⟨g, hg, hqg, heq⟩ := hcollects.exists_group hq
    obtain ⟨f, hf, hparams, hstub, hpreserved, hmutants⟩ := h.stubbed g hg
    rw [heq]
    exact ⟨f, hf, hparams, hstub, hpreserved, hmutants q hqg⟩
  added j x hj hx := by
    obtain ⟨g, hg, f, hf, hor⟩ := h.added j x hj hx
    rcases hor with rfl | ⟨q, hq, hmutant⟩
    · obtain ⟨q, hq, heq⟩ := hcollects.exists_point hg
      exact ⟨q, hq, f, heq ▸ hf, .inl rfl⟩
    · exact ⟨q, (hcollects.mem q).mpr ⟨g, hg, hq⟩, f, hcollects.own g hg q hq ▸ hf, .inr hmutant⟩

/-- A program without points is prepared as it is. -/
theorem IsPrepared.nil : p.IsPrepared moduleId [] p :=
  IsPreparedBy.nil.isPrepared (PointGroup.collects_ofPoints [])

/-- Preparing the groups of points prepares the program for the points. -/
theorem isPrepared_of_prepareGroups {keys : List String}
    (hlt : ∀ q ∈ points, q.address.function < p.functions.length)
    (h : p.prepareGroups moduleId [] (PointGroup.ofPoints points) = ⟨p', .ok keys⟩) :
    p.IsPrepared moduleId points p' ∧ p.KeysOf moduleId (PointGroup.ofPoints points) keys := by
  have hcollects := PointGroup.collects_ofPoints points
  generalize PointGroup.ofPoints points = groups at h hcollects ⊢
  have hfunctions : ∀ g ∈ groups, g.function < p.functions.length := by
    intro g hg
    obtain ⟨q, hq, heq⟩ := hcollects.exists_point hg
    exact heq ▸ hlt q hq
  obtain ⟨hprepared, hkeys⟩ :=
    isPreparedBy_prepareGroups .nil .nil (by simpa using hcollects.nodup) hfunctions h
  exact ⟨hprepared.isPrepared hcollects, hkeys⟩

/-- The keys of the groups of points are those of the functions that the points are in. -/
theorem KeysOf.mem_iff {keys : List String}
    (h : p.KeysOf moduleId (PointGroup.ofPoints points) keys) :
    key ∈ keys ↔ ∃ q ∈ points, ∃ f, p.functions[q.address.function]? = some f ∧
      key = SymbolName.key f.name moduleId := by
  have hcollects := PointGroup.collects_ofPoints points
  constructor
  · intro hkey
    obtain ⟨g, hg, f, hf, hkey⟩ := exists_left_of_mem h hkey
    obtain ⟨q, hq, heq⟩ := hcollects.exists_point hg
    exact ⟨q, hq, f, heq ▸ hf, hkey⟩
  · rintro ⟨q, hq, f, hf, rfl⟩
    obtain ⟨g, hg, -, heq⟩ := hcollects.exists_group hq
    obtain ⟨key, hkey, f', hf', rfl⟩ := exists_right_of_mem h hg
    rw [heq, hf'] at hf
    obtain rfl := Option.some.inj hf
    exact hkey

end Program

/-! ### Units -/

namespace ProgramUnit

variable {unit unit' : ProgramUnit} {points : List MutationPoint} {keys : List String}

/-- The points of a list that are in the unit. -/
def own (unit : ProgramUnit) (points : List MutationPoint) : List MutationPoint :=
  points.filter (·.moduleId == unit.identifier)

theorem mem_own {q : MutationPoint} :
    q ∈ unit.own points ↔ q ∈ points ∧ q.moduleId = unit.identifier := by
  rw [own, List.mem_filter, beq_iff_eq]

/-- A unit that is prepared has the groups of its own points prepared, and a valid program. -/
theorem prepare_eq_ok (h : unit.prepare points = (unit', .ok keys)) :
    unit' = { unit with program := unit'.program } ∧ unit'.program.validate = .ok () ∧
      unit.program.prepareGroups unit.identifier [] (PointGroup.ofPoints (unit.own points))
        = ⟨unit'.program, .ok keys⟩ := by
  rw [prepare] at h
  rw [own]
  generalize unit.program.prepareGroups unit.identifier []
    (PointGroup.ofPoints (points.filter (·.moduleId == unit.identifier))) = preparation at h ⊢
  obtain ⟨program, result⟩ := preparation
  obtain ⟨rfl, hresult⟩ := Prod.mk.inj h
  obtain ⟨keys', rfl, hkeys⟩ := bind_eq_ok.mp hresult
  split at hkeys
  · rename_i hvalid
    obtain rfl := Except.ok.inj hkeys
    exact ⟨rfl, hvalid, rfl⟩
  · cases hkeys

/-- What a unit is prepared to, for points whose functions it has. -/
theorem isPrepared_of_prepare
    (hlt : ∀ q ∈ unit.own points, q.address.function < unit.program.functions.length)
    (h : unit.prepare points = (unit', .ok keys)) :
    unit' = { unit with program := unit'.program } ∧ unit'.program.validate = .ok () ∧
      unit.program.IsPrepared unit.identifier (unit.own points) unit'.program ∧
      ∀ key, key ∈ keys ↔ ∃ q ∈ unit.own points, ∃ f,
        unit.program.functions[q.address.function]? = some f ∧
        key = SymbolName.key f.name unit.identifier := by
  obtain ⟨hunit, hvalid, hgroups⟩ := prepare_eq_ok h
  obtain ⟨hprepared, hkeys⟩ := Program.isPrepared_of_prepareGroups hlt hgroups
  exact ⟨hunit, hvalid, hprepared, fun _ => hkeys.mem_iff⟩

end ProgramUnit

end MutationAnalysis
