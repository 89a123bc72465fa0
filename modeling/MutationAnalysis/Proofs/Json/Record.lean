/-
Documents that spell a record.

A record may be written as an object, its fields in any order among unknown ones, or as the array of
its fields in order of declaration.  A field whose value is its default may be left out, of an array
only together with all fields after it.  `Json.SpellsRecord` says this of the fields of any record,
each with the values that spell it, and `Json.SpellsRecord.fields?` that the reader finds what such
a document gives for every field.

* `Json.SpellsRecord`, `Json.SpellsList`, `Json.SpellsOption`: what
  spells a record, a list, an option;
* `Json.SpellsRecord.fields?`: a record, whatever the order of its fields;
* `Json.Fields.required_of_gives`, `Json.Fields.withDefault_of_gives`: its fields;
* `Json.SpellsList.list?`, `Json.SpellsOption.nullable?`: lists and options.
-/
import MutationAnalysis.Json.Record
import Mathlib.Data.List.Forall2
import Mathlib.Data.List.Perm.Basic
import Mathlib.Tactic.Common

namespace MutationAnalysis.Json

/-! ### What spells a record -/

/-- How one field of a record may be written. -/
structure FieldForm where
  name : String
  /-- Whether the field may be left out. -/
  omissible : Prop
  /-- The values that spell the field. -/
  spelled : Json → Prop

/-- A field that is always written. -/
def FieldForm.always (name : String) (spelled : Json → Prop) : FieldForm :=
  ⟨name, False, spelled⟩

/-- What a document gives for a field. -/
inductive FieldForm.Gives (f : FieldForm) : Option Json → Prop where
  | written {v : Json} (h : f.spelled v) : f.Gives (some v)
  | leftOut (h : f.omissible) : f.Gives none

/-- The fields of a record by their names, in order of declaration. -/
inductive SpellsFields : List FieldForm → List (JsonText × Json) → Prop where
  | nil : SpellsFields [] []
  | written {f : FieldForm} {forms : List FieldForm} {v : Json} {fields : List (JsonText × Json)}
      (hv : f.spelled v) (h : SpellsFields forms fields) :
      SpellsFields (f :: forms) ((some f.name, v) :: fields)
  | leftOut {f : FieldForm} {forms : List FieldForm} {fields : List (JsonText × Json)}
      (hf : f.omissible) (h : SpellsFields forms fields) : SpellsFields (f :: forms) fields

/-- The fields of a record by their places. -/
inductive SpellsItems : List FieldForm → List Json → Prop where
  | written {f : FieldForm} {forms : List FieldForm} {v : Json} {items : List Json}
      (hv : f.spelled v) (h : SpellsItems forms items) : SpellsItems (f :: forms) (v :: items)
  | leftOut {forms : List FieldForm} (h : ∀ f ∈ forms, f.omissible) : SpellsItems forms []

/-- The documents of a record with the given fields. -/
inductive SpellsRecord (forms : List FieldForm) : Json → Prop where
  | object {known unknown fields : List (JsonText × Json)} (hknown : SpellsFields forms known)
      (hunknown : ∀ f ∈ unknown, ∃ key, f.1 = some key ∧ key ∉ forms.map (·.name))
      (hfields : fields.Perm (known ++ unknown)) : SpellsRecord forms (.object fields)
  | array {items : List Json} (h : SpellsItems forms items) : SpellsRecord forms (.array items)

/-- An array that spells a list item by item. -/
def SpellsList {α : Type} (spells : α → Json → Prop) (items : List α) (v : Json) : Prop :=
  ∃ vs, v = .array vs ∧ List.Forall₂ spells items vs

/-- Null for none, else what spells the value. -/
def SpellsOption {α : Type} (spells : α → Json → Prop) (a : Option α) (v : Json) : Prop :=
  match a with
  | none => v = .null
  | some a => spells a v

variable {forms : List FieldForm}

/-- The object of the fields in any order. -/
theorem SpellsFields.object_of_perm {known fields : List (JsonText × Json)}
    (h : SpellsFields forms known)
    (hfields : fields.Perm known) : SpellsRecord forms (.object fields) := by
  have hunknown : ∀ f ∈ ([] : List (JsonText × Json)), ∃ key, f.1 = some key ∧
      key ∉ forms.map (·.name) := by
    simp
  exact .object h hunknown (by rwa [List.append_nil])

/-- The object of the fields in order of declaration. -/
theorem SpellsFields.record {fields : List (String × Json)}
    (h : SpellsFields forms (fields.map fun f => (some f.1, f.2))) :
    SpellsRecord forms (record fields) :=
  h.object_of_perm (List.Perm.refl _)

theorem SpellsRecord.ne_null {v : Json} (h : SpellsRecord forms v) : v ≠ .null := by
  cases h <;> simp

/-- What writes every item spells the list. -/
theorem spellsList_listOf {α : Type} {spells : α → Json → Prop} {f : α → Json} (items : List α)
    (h : ∀ a ∈ items, spells a (f a)) : SpellsList spells items (listOf f items) :=
  ⟨items.map f, rfl, List.forall₂_map_right_iff.mpr (List.forall₂_same.mpr h)⟩

theorem spellsOption_orNull {α : Type} {spells : α → Json → Prop} {f : α → Json} (a : Option α)
    (h : ∀ b ∈ a, spells b (f b)) : SpellsOption spells a (orNull f a) := by
  cases a with
  | none => rfl
  | some a => exact h a rfl

/-! ### Finding the fields -/

/-- What stands under the name of the field gives the field, and nothing stands there twice. -/
def FieldForm.StandsIn (f : FieldForm) (fields : List (JsonText × Json)) : Prop :=
  ∃ given, f.Gives given ∧
    fields.filter (·.1 == some f.name) = given.toList.map fun v => (some f.name, v)

/-- The fields of a key in an object. -/
theorem Fields.find_eq (fields : List (JsonText × Json)) (name : String) :
    Fields.find fields name = ((fields.filter (·.1 == some name)).map (·.2)).head? := by
  induction fields with
  | nil => rfl
  | cons f fields ih =>
    rw [Fields.find, List.findSome?_cons, List.filter_cons]
    by_cases hkey : (f.1 == some name) = true
    · simp [hkey]
    · rw [if_neg hkey, if_neg hkey, ← ih, Fields.find]

theorem FieldForm.StandsIn.gives_find {f : FieldForm} {fields : List (JsonText × Json)}
    (h : f.StandsIn fields) : f.Gives (Fields.find fields f.name) := by
  obtain ⟨given, hgiven, heq⟩ := h
  rw [Fields.find_eq, heq]
  cases given <;> exact hgiven

theorem FieldForm.StandsIn.length_le_one {f : FieldForm} {fields : List (JsonText × Json)}
    (h : f.StandsIn fields) : (fields.filter (·.1 == some f.name)).length ≤ 1 := by
  obtain ⟨given, -, heq⟩ := h
  rw [heq, List.length_map]
  cases given <;> simp

/-- Only fields of the record stand among the known ones. -/
theorem SpellsFields.mem_names {known : List (JsonText × Json)} (h : SpellsFields forms known)
    {f : JsonText × Json} (hf : f ∈ known) : ∃ key ∈ forms.map (·.name), f.1 = some key := by
  induction h with
  | nil => simp at hf
  | written hv _ ih =>
    rcases List.mem_cons.mp hf with rfl | hf
    · exact ⟨_, List.mem_cons_self, rfl⟩
    · obtain ⟨key, hkey, heq⟩ := ih hf
      exact ⟨key, List.mem_cons_of_mem _ hkey, heq⟩
  | leftOut _ _ ih =>
    obtain ⟨key, hkey, heq⟩ := ih hf
    exact ⟨key, List.mem_cons_of_mem _ hkey, heq⟩

/-- A key that is none of the names does not stand among the known fields. -/
theorem SpellsFields.filter_eq_nil {known : List (JsonText × Json)} (h : SpellsFields forms known)
    {name : String} (hname : name ∉ forms.map (·.name)) : known.filter (·.1 == some name) = [] := by
  refine List.filter_eq_nil_iff.mpr fun f hf heq => ?_
  obtain ⟨key, hkey, hf⟩ := h.mem_names hf
  rw [hf, beq_iff_eq, Option.some_inj] at heq
  exact hname (heq ▸ hkey)

/-- Every field of the record stands among the known ones. -/
theorem SpellsFields.standsIn {known : List (JsonText × Json)} (h : SpellsFields forms known)
    (hnames : (forms.map (·.name)).Nodup) {f : FieldForm} (hf : f ∈ forms) : f.StandsIn known := by
  induction h with
  | nil => simp at hf
  | @written g forms v fields hv h ih =>
    rw [List.map_cons, List.nodup_cons] at hnames
    rcases List.mem_cons.mp hf with rfl | hf
    · have hrest := h.filter_eq_nil hnames.1
      exact ⟨some v, .written hv, by simp [hrest]⟩
    · have hne : g.name ≠ f.name := fun heq => hnames.1 (heq ▸ List.mem_map_of_mem hf)
      obtain ⟨given, hgiven, heq⟩ := ih hnames.2 hf
      exact ⟨given, hgiven, by rw [List.filter_cons_of_neg (by simpa using hne), heq]⟩
  | @leftOut g forms fields hg h ih =>
    rw [List.map_cons, List.nodup_cons] at hnames
    rcases List.mem_cons.mp hf with rfl | hf
    · exact ⟨none, .leftOut hg, h.filter_eq_nil hnames.1⟩
    · exact ih hnames.2 hf

section Object

variable {known unknown fields : List (JsonText × Json)} (hknown : SpellsFields forms known)
  (hunknown : ∀ f ∈ unknown, ∃ key, f.1 = some key ∧ key ∉ forms.map (·.name))
  (hfields : fields.Perm (known ++ unknown))

include hknown hunknown hfields

/-- Every key of an object spells a text. -/
theorem SpellsFields.key_ne_none {f : JsonText × Json} (hf : f ∈ fields) : f.1 ≠ none := by
  intro hnone
  rcases List.mem_append.mp (hfields.mem_iff.mp hf) with hf | hf
  · obtain ⟨key, -, hsome⟩ := hknown.mem_names hf
    simp [hsome] at hnone
  · obtain ⟨key, hsome, -⟩ := hunknown f hf
    simp [hsome] at hnone

/-- Neither their order nor unknown fields change where a field stands. -/
theorem SpellsFields.standsIn_of_perm (hnames : (forms.map (·.name)).Nodup) {f : FieldForm}
    (hf : f ∈ forms) : f.StandsIn fields := by
  obtain ⟨given, hgiven, heq⟩ := hknown.standsIn hnames hf
  have hnone : unknown.filter (·.1 == some f.name) = [] := by
    refine List.filter_eq_nil_iff.mpr fun g hg hkey => ?_
    obtain ⟨key, hsome, hnot⟩ := hunknown g hg
    rw [hsome, beq_iff_eq, Option.some_inj] at hkey
    exact hnot (hkey ▸ List.mem_map_of_mem hf)
  have hperm := hfields.filter (·.1 == some f.name)
  rw [List.filter_append, hnone, List.append_nil, heq] at hperm
  -- at most one field has the key, so there is nothing to permute
  refine ⟨given, hgiven, ?_⟩
  cases given with
  | none => exact hperm.eq_nil
  | some v => exact List.perm_singleton.mp hperm

theorem SpellsFields.fields?_object (hnames : (forms.map (·.name)).Nodup) :
    ∃ r, (Json.object fields).fields? (forms.map (·.name)) = some r ∧
      List.Forall₂ FieldForm.Gives forms r.values := by
  have hstands := fun f => hknown.standsIn_of_perm hunknown hfields hnames (f := f)
  have htexts : fields.any (fun f => f.1 == none) = false := by
    refine List.any_eq_false.mpr fun f hf hnone => ?_
    exact hknown.key_ne_none hunknown hfields hf (beq_iff_eq.mp hnone)
  have honce : (forms.map (·.name)).any
      (fun name => 1 < (fields.filter fun f => f.1 == some name).length) = false := by
    refine List.any_eq_false.mpr fun name hname hmany => ?_
    obtain ⟨f, hf, rfl⟩ := List.mem_map.mp hname
    have hone := (hstands f hf).length_le_one
    exact absurd (of_decide_eq_true hmany) (Nat.not_lt.mpr hone)
  refine ⟨⟨false, (forms.map (·.name)).map (Fields.find fields)⟩, ?_, ?_⟩
  · rw [Json.fields?, htexts, honce]
    rfl
  · rw [List.map_map]
    exact List.forall₂_map_right_iff.mpr
      (List.forall₂_same.mpr fun f hf => (hstands f hf).gives_find)

end Object

theorem forall₂_gives_none (h : ∀ f ∈ forms, f.omissible) :
    List.Forall₂ FieldForm.Gives forms (List.replicate forms.length none) := by
  induction forms with
  | nil => exact .nil
  | cons f forms ih =>
    exact .cons (.leftOut (h f List.mem_cons_self)) (ih fun g hg => h g (List.mem_cons_of_mem _ hg))

/-- The items of an array give the fields in order, and leave out the last ones. -/
theorem SpellsItems.gives {items : List Json} (h : SpellsItems forms items) :
    items.length ≤ forms.length ∧ List.Forall₂ FieldForm.Gives forms
      (items.map some ++ List.replicate (forms.length - items.length) none) := by
  induction h with
  | written hv _ ih =>
    rw [List.length_cons, List.length_cons, Nat.add_sub_add_right]
    exact ⟨Nat.succ_le_succ ih.1, .cons (.written hv) ih.2⟩
  | leftOut h => exact ⟨Nat.zero_le _, forall₂_gives_none h⟩

/-- A record is read from every document that spells it, field by field. -/
theorem SpellsRecord.fields? {v : Json} (h : SpellsRecord forms v) (names : List String)
    (hforms : forms.map (·.name) = names) (hnames : names.Nodup) :
    ∃ r, v.fields? names = some r ∧ List.Forall₂ FieldForm.Gives forms r.values := by
  subst hforms
  cases h with
  | object hknown hunknown hfields => exact hknown.fields?_object hunknown hfields hnames
  | array h =>
    obtain ⟨hlength, hgives⟩ := h.gives
    refine ⟨⟨true, _⟩, ?_, hgives⟩
    rw [Json.fields?, List.length_map, if_pos hlength]

/-! ### Reading the fields -/

namespace Fields

variable {r : Fields} {f : FieldForm} {α : Type} {read : Json → Option α} {a : α}

/-- What a document gives for the field of an index. -/
theorem get_gives (h : List.Forall₂ FieldForm.Gives forms r.values) {i : Nat}
    (hf : forms[i]? = some f) :
    f.Gives (r.get i) := by
  obtain ⟨hi, rfl⟩ := List.getElem?_eq_some_iff.mp hf
  have hvalue : i < r.values.length := h.length_eq ▸ hi
  rw [get, List.getElem?_eq_getElem hvalue]
  exact h.get hi hvalue

/-- A field that may not be left out is there. -/
theorem get_of_always (h : List.Forall₂ FieldForm.Gives forms r.values) {i : Nat}
    (hf : forms[i]? = some f) (halways : ¬ f.omissible) : ∃ v, r.get i = some v ∧ f.spelled v := by
  have hgives := get_gives h hf
  generalize r.get i = given at hgives ⊢
  cases hgives with
  | written hv => exact ⟨_, rfl, hv⟩
  | leftOut homit => exact absurd homit halways

theorem required_of_gives (h : List.Forall₂ FieldForm.Gives forms r.values) (i : Nat)
    (hf : forms[i]? = some f) (halways : ¬ f.omissible)
    (hread : ∀ v, f.spelled v → read v = some a) :
    r.required i read = some a := by
  obtain ⟨v, hget, hv⟩ := get_of_always h hf halways
  rw [required, hget, Option.bind_some, hread v hv]

/-- A field that one value alone spells. -/
theorem required_of_exact (h : List.Forall₂ FieldForm.Gives forms r.values) (i : Nat)
    {name : String} {w : Json}
    (hf : forms[i]? = some (.always name (· = w))) (hread : read w = some a) :
    r.required i read = some a :=
  required_of_gives h i hf not_false fun v hv => by
    obtain rfl : v = w := hv
    exact hread

theorem optional_of_gives (h : List.Forall₂ FieldForm.Gives forms r.values) (i : Nat)
    (hf : forms[i]? = some f) (halways : ¬ f.omissible) {a : Option α}
    (hread : ∀ v, f.spelled v → v.nullable? read = some a) : r.optional i read = some a := by
  obtain ⟨v, hget, hv⟩ := get_of_always h hf halways
  rw [optional, hget]
  exact hread v hv

theorem withDefault_of_gives (h : List.Forall₂ FieldForm.Gives forms r.values) (i : Nat)
    (hf : forms[i]? = some f) {value : α} (hdefault : f.omissible → a = value)
    (hread : ∀ v, f.spelled v → read v = some a) : r.withDefault i read value = some a := by
  have hgives := get_gives h hf
  rw [withDefault]
  generalize r.get i = given at hgives ⊢
  cases hgives with
  | written hv => exact hread _ hv
  | leftOut homit => rw [hdefault homit]

end Fields

section Readers

variable {α : Type} {spells : α → Json → Prop} {read : Json → Option α} {v : Json}

theorem SpellsList.list? {items : List α} (h : SpellsList spells items v)
    (hread : ∀ a ∈ items, ∀ v, spells a v → read v = some a) : v.list? read = some items := by
  obtain ⟨vs, rfl, h⟩ := h
  show vs.mapM read = some items
  induction h with
  | nil => rfl
  | cons hv _ ih =>
    rw [List.mapM_cons, hread _ List.mem_cons_self _ hv, ih fun a ha =>
      hread a (List.mem_cons_of_mem _ ha)]
    rfl

/-- What is written for a list is read item by item. -/
theorem list?_listOf {f : α → Json} (items : List α) (h : ∀ a, read (f a) = some a) :
    (listOf f items).list? read = some items := by
  have hspelled : SpellsList (fun a v => v = f a) items (listOf f items) :=
    spellsList_listOf items fun _ _ => rfl
  exact hspelled.list? fun a _ v hv => by rw [hv, h a]

theorem SpellsOption.nullable? {a : Option α} (h : SpellsOption spells a v)
    (hnull : ∀ b, ¬ spells b .null) (hread : ∀ b ∈ a, ∀ v, spells b v → read v = some b) :
    v.nullable? read = some a := by
  cases a with
  | none =>
    obtain rfl : v = .null := h
    rfl
  | some a =>
    have hvalue : read v = some a := hread a rfl v h
    rw [Json.nullable?, hvalue]
    · rfl
    · rintro rfl
      exact hnull a h

end Readers

end MutationAnalysis.Json
