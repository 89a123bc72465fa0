/-
Who called whom first.

What a recorder is told is a list of events: functions are entered and left, and the two need
not match.  A function is first entered from whatever function is innermost at that moment, or
from outside, and following first callers leads outside in the end, since each of them was
entered before.  The tree made of the recorder's mapping is the tree of first callers.  Its
levels are the lengths of their chains in 32 bits, which are the lengths themselves unless
there are more slots than words.

* `Recorder.EntersFirst`, `Recorder.ChainLength`: the first caller of a function and the length of
  its chain of first callers, read off the events;
* `Recorder.getD_mapping_of_entersFirst`: a slot holds the first caller;
* `Recorder.orderly_mapping`: every recorded caller was entered strictly earlier;
* `Recorder.ChainLength.fromOutside`: a chain of first callers is in the slots;
* `HostState.isFirstCallerTree`: whatever the events, the tree is that of first callers, and no node
  has to be put under the root for want of its caller's.
-/
import MutationAnalysis.Proofs.Trace.Levels
import MutationAnalysis.Image.HostState
import Mathlib.Data.List.Induction

namespace MutationAnalysis

namespace Recorder

/-- What a recorder is told. -/
inductive Event where
  | enter (index : Nat)
  | leave (index : Nat)
  deriving Repr, DecidableEq

/-- The function that an event is about. -/
def Event.index : Event → Nat
  | .enter index | .leave index => index

/-- Tells a recorder of an event. -/
def record (r : Recorder) : Event → Recorder
  | .enter index => r.enter index
  | .leave _ => r.leave

/-- A recorder with so many slots after events. -/
def after (size : Nat) (events : List Event) : Recorder := events.foldl record (start size)

/-- The functions under way after events, the innermost first: one more after each entry, one less
after each return if there is one. -/
def underWay (events : List Event) : List Nat :=
  events.foldl (fun stack e => match e with
    | .enter index => index :: stack
    | .leave _ => stack.tail) []

/-- A function is entered, and the first time from the given one, or from outside. -/
def EntersFirst (events : List Event) (f : Nat) (caller : Option Nat) : Prop :=
  ∃ before rest, events = before ++ .enter f :: rest ∧ .enter f ∉ before ∧
    (underWay before).head? = caller

/-- How many functions there are from one up its first callers to the outside. -/
inductive ChainLength (events : List Event) : Nat → Nat → Prop
  | outside {f : Nat} : EntersFirst events f none → ChainLength events f 1
  | inside {f caller length : Nat} : EntersFirst events f (some caller) →
      ChainLength events caller length → ChainLength events f (length + 1)

variable {events : List Event} {e : Event} {f size : Nat} {caller : Option Nat}

/-! ### First entries -/

theorem underWay_concat (events : List Event) (e : Event) :
    underWay (events ++ [e]) = match e with
      | .enter index => index :: underWay events
      | .leave _ => (underWay events).tail :=
  List.foldl_concat ..

/-- Functions under way were entered. -/
theorem enter_mem_of_mem_underWay (h : f ∈ underWay events) : .enter f ∈ events := by
  induction events using List.reverseRecOn with
  | nil => cases h
  | append_singleton events e ih =>
    rw [underWay_concat] at h
    cases e with
    | enter index =>
      rcases List.mem_cons.mp h with rfl | h
      · simp
      · exact List.mem_append_left _ (ih h)
    | leave _ => exact List.mem_append_left _ (ih (List.mem_of_mem_tail h))

theorem entersFirst_concat : EntersFirst (events ++ [e]) f caller ↔
    EntersFirst events f caller ∨
      e = .enter f ∧ .enter f ∉ events ∧ (underWay events).head? = caller := by
  constructor
  · rintro ⟨before, rest, heq, hnot, hcaller⟩
    rcases List.eq_nil_or_concat rest with rfl | ⟨rest, last, rfl⟩
    · obtain ⟨rfl, h⟩ := List.append_inj' heq rfl
      exact .inr ⟨(List.cons.inj h).1, hnot, hcaller⟩
    · rw [List.concat_eq_append, ← List.cons_append, ← List.append_assoc] at heq
      exact .inl ⟨before, rest, (List.append_inj' heq rfl).1, hnot, hcaller⟩
  · rintro (⟨before, rest, rfl, hnot, hcaller⟩ | ⟨rfl, hnot, hcaller⟩)
    · exact ⟨before, rest ++ [e], by simp, hnot, hcaller⟩
    · exact ⟨events, [], rfl, hnot, hcaller⟩

/-- A function that is entered is entered for a first time. -/
theorem exists_entersFirst (h : .enter f ∈ events) : ∃ caller, EntersFirst events f caller := by
  obtain ⟨before, rest, rfl, hnot⟩ := List.eq_append_cons_of_mem h
  exact ⟨_, before, rest, rfl, hnot, rfl⟩

theorem EntersFirst.enter_mem (h : EntersFirst events f caller) : .enter f ∈ events := by
  obtain ⟨before, rest, rfl, -⟩ := h
  simp

theorem EntersFirst.unique {caller' : Option Nat} (h : EntersFirst events f caller)
    (h' : EntersFirst events f caller') : caller = caller' := by
  induction events using List.reverseRecOn with
  | nil =>
    have := h.enter_mem
    cases this
  | append_singleton events e ih =>
    rw [entersFirst_concat] at h h'
    rcases h with h | ⟨-, hnot, h⟩ <;> rcases h' with h' | ⟨-, hnot', h'⟩
    · exact ih h h'
    · exact absurd h.enter_mem hnot'
    · exact absurd h'.enter_mem hnot
    · exact h.symm.trans h'

/-- A first caller was entered strictly earlier. -/
theorem EntersFirst.earlier {c : Nat} (h : EntersFirst events f (some c)) :
    .enter c ∈ events ∧ events.idxOf (.enter c) < events.idxOf (.enter f) := by
  obtain ⟨before, rest, rfl, hnot, hcaller⟩ := h
  have hmem := enter_mem_of_mem_underWay (List.mem_of_mem_head? hcaller)
  refine ⟨List.mem_append_left _ hmem, ?_⟩
  rw [List.idxOf_append_of_mem hmem, List.idxOf_append_of_notMem hnot]
  exact Nat.lt_of_lt_of_le (List.idxOf_lt_length_of_mem hmem) (Nat.le_add_right ..)

theorem ChainLength.enter_mem {length : Nat} (h : ChainLength events f length) :
    .enter f ∈ events := by
  cases h with
  | outside h => exact h.enter_mem
  | inside h _ => exact h.enter_mem

theorem ChainLength.pos {length : Nat} (h : ChainLength events f length) : 0 < length := by
  cases h with
  | outside | inside => exact Nat.succ_pos _

/-- A function that is entered has a chain of first callers, each of which was entered earlier. -/
theorem exists_chainLength (h : .enter f ∈ events) : ∃ length, ChainLength events f length := by
  induction hn : events.idxOf (.enter f) using Nat.strong_induction_on generalizing f with
  | _ n ih =>
    obtain ⟨caller, hfirst⟩ := exists_entersFirst h
    cases caller with
    | none => exact ⟨1, .outside hfirst⟩
    | some c =>
      obtain ⟨hentered, hlt⟩ := hfirst.earlier
      obtain ⟨length, hchain⟩ := ih _ (hn ▸ hlt) hentered rfl
      exact ⟨length + 1, .inside hfirst hchain⟩

theorem ChainLength.unique {length length' : Nat} (h : ChainLength events f length)
    (h' : ChainLength events f length') : length = length' := by
  induction h generalizing length' with
  | outside h =>
    cases h' with
    | outside => rfl
    | inside h' _ => exact absurd (h.unique h') nofun
  | inside h _ ih =>
    cases h' with
    | outside h' => exact absurd (h.unique h') nofun
    | inside h' hchain =>
      obtain rfl := Option.some.inj (h.unique h')
      rw [ih hchain]

/-! ### What the slots hold -/

theorem after_concat (size : Nat) (events : List Event) (e : Event) :
    after size (events ++ [e]) = (after size events).record e :=
  List.foldl_concat ..

theorem stack_after (size : Nat) (events : List Event) :
    (after size events).stack = underWay events := by
  induction events using List.reverseRecOn with
  | nil => rfl
  | append_singleton events e ih =>
    rw [after_concat, underWay_concat]
    cases e with
    | enter index =>
      rw [← ih]
      show ((after size events).enter index).stack = _
      rw [enter]
      split <;> rfl
    | leave _ => exact congrArg List.tail ih

theorem size_enter (r : Recorder) (index : Nat) :
    (r.enter index).mapping.size = r.mapping.size := by
  obtain ⟨mapping, stack⟩ := r
  rw [enter]
  split
  · exact Array.size_setIfInBounds
  · rfl

theorem size_after (size : Nat) (events : List Event) :
    (after size events).mapping.size = size := by
  induction events using List.reverseRecOn with
  | nil => exact Array.size_replicate
  | append_singleton events e ih =>
    rw [after_concat]
    cases e with
    | enter index => exact (size_enter _ index).trans ih
    | leave _ => exact ih

/-- Entering a function fills its slot if that is empty. -/
theorem getD_mapping_enter (r : Recorder) (index f : Nat) :
    (r.enter index).mapping.getD f 0 =
      if index = f ∧ r.mapping[f]? = some 0 then r.stack.headD index else r.mapping.getD f 0 := by
  rw [enter]
  split
  · rename_i hempty
    have hlt := (Array.getElem?_eq_some_iff.mp hempty).1
    rw [Array.getD_eq_getD_getElem?, Array.getElem?_setIfInBounds, Array.getD_eq_getD_getElem?]
    by_cases hf : index = f
    · subst hf
      rw [if_pos rfl, if_pos hlt, if_pos ⟨rfl, hempty⟩]
      rfl
    · rw [if_neg hf, if_neg fun h => hf h.1]
  · rename_i hfull
    rw [if_neg]
    rintro ⟨rfl, h⟩
    exact hfull h

/-- Every function that is entered has a slot, which is not the first. -/
def InRange (size : Nat) (events : List Event) : Prop :=
  ∀ index, .enter index ∈ events → 1 ≤ index ∧ index < size

theorem InRange.of_concat (h : InRange size (events ++ [e])) : InRange size events :=
  fun index hmem => h index (List.mem_append_left _ hmem)

theorem InRange.getD_ne_zero (h : InRange size events) (hfirst : EntersFirst events f caller) :
    caller.getD f ≠ 0 := by
  have hpos : ∀ index, .enter index ∈ events → index ≠ 0 := fun index hmem =>
    Nat.one_le_iff_ne_zero.mp (h index hmem).1
  cases caller with
  | none => exact hpos f hfirst.enter_mem
  | some c => exact hpos c hfirst.earlier.1

/-- A slot holds the first caller of its function, or the function if it was called from outside,
and is empty as long as the function has not been entered. -/
theorem getD_mapping_after (h : InRange size events) (f : Nat) :
    (∀ caller, EntersFirst events f caller →
      (after size events).mapping.getD f 0 = caller.getD f) ∧
    (.enter f ∉ events → (after size events).mapping.getD f 0 = 0) := by
  -- induction on the events so far; the last one fills the entry of its
  -- function if that is still empty
  induction events using List.reverseRecOn with
  | nil =>
    refine ⟨fun caller hfirst => absurd hfirst.enter_mem (by simp), fun _ => ?_⟩
    show (Array.replicate size 0).getD f 0 = 0
    rw [Array.getD_eq_getD_getElem?, Array.getElem?_replicate]
    split <;> rfl
  | append_singleton events e ih =>
    obtain ⟨hfilled, hempty⟩ := ih h.of_concat
    rw [after_concat]
    cases e with
    | leave index =>
      refine ⟨fun caller hfirst => hfilled caller ?_, fun hnot => hempty ?_⟩
      · exact (entersFirst_concat.mp hfirst).resolve_right fun h => nomatch h.1
      · exact fun hmem => hnot (List.mem_append_left _ hmem)
    | enter index =>
      rw [record, getD_mapping_enter, stack_after]
      constructor
      · intro caller hfirst
        rcases entersFirst_concat.mp hfirst with hold | ⟨heq, hnot, hcaller⟩
        · -- An old entry is not empty, so it stays.
          have hne := h.of_concat.getD_ne_zero hold
          rw [← hfilled caller hold] at hne ⊢
          rw [if_neg]
          rintro ⟨-, hzero⟩
          rw [Array.getD_eq_getD_getElem?, hzero] at hne
          exact hne rfl
        · obtain rfl := Event.enter.inj heq
          have hlt : index < (after size events).mapping.size := by
            rw [size_after]
            exact (h index (by simp)).2
          have hzero := hempty hnot
          rw [Array.getD_eq_getD_getElem?, Array.getElem?_eq_getElem hlt, Option.getD_some] at hzero
          rw [if_pos ⟨rfl, by rw [Array.getElem?_eq_getElem hlt, hzero]⟩, ← hcaller,
            List.headD_eq_head?_getD]
      · intro hnot
        rw [List.mem_append, List.mem_singleton, not_or] at hnot
        rw [if_neg fun h => hnot.2 (by rw [h.1]), hempty hnot.1]

theorem getD_mapping_of_entersFirst (h : InRange size events)
    (hfirst : EntersFirst events f caller) :
    (after size events).mapping.getD f 0 = caller.getD f :=
  (getD_mapping_after h f).1 caller hfirst

/-- The functions with an entry are those that were entered. -/
theorem getD_mapping_ne_zero_iff (h : InRange size events) :
    (after size events).mapping.getD f 0 ≠ 0 ↔ .enter f ∈ events := by
  constructor
  · intro hne
    by_contra hnot
    exact hne ((getD_mapping_after h f).2 hnot)
  · intro hmem
    obtain ⟨caller, hfirst⟩ := exists_entersFirst hmem
    rw [getD_mapping_of_entersFirst h hfirst]
    exact h.getD_ne_zero hfirst

/-- Every recorded caller was entered, and strictly earlier. -/
theorem orderly_mapping (h : InRange size events) :
    CallTree.Orderly (after size events).mapping fun f => events.idxOf (.enter f) := by
  intro f hne hother
  obtain ⟨caller, hfirst⟩ := exists_entersFirst ((getD_mapping_ne_zero_iff h).mp hne)
  rw [getD_mapping_of_entersFirst h hfirst] at hother ⊢
  cases caller with
  | none => exact absurd rfl hother
  | some c => exact ⟨(getD_mapping_ne_zero_iff h).mpr hfirst.earlier.1, hfirst.earlier.2⟩

/-- Every function that was entered has a node. -/
theorem mem_functions_ofMapping (h : InRange size events) :
    f ∈ (CallTree.ofMapping (after size events).mapping).functions ↔ .enter f ∈ events := by
  rw [CallTree.mem_functions_ofMapping (orderly_mapping h), getD_mapping_ne_zero_iff h]
  by_contra hzero
  exact absurd (h 0 ((getD_mapping_ne_zero_iff h).mp hzero)).1 (by decide)

end Recorder

/-! ### The tree of first callers -/

open Recorder

/-- A tree whose nodes other than the root are those of the functions entered, each once, under the
node of the function that entered it first.  Levels and distances are in 32 bits. -/
structure IsFirstCallerTree (events : List Event) (t : CallTree) : Prop where
  root : t.outline? 0 = some (0, 0, none)
  nodup : t.functions.Nodup
  mem_functions : ∀ f, f ∈ t.functions ↔ .enter f ∈ events
  /-- The parent is the root for a function that was first entered from outside, and else
  the node of the first caller. -/
  parent : ∀ i f level parent, i ≠ 0 → t.outline? i = some (f, level, parent) →
    ∃ p, parent = some p ∧
      (EntersFirst events f none ∧ p = 0 ∨
        ∃ caller level' parent', EntersFirst events f (some caller) ∧ p ≠ 0 ∧
          t.outline? p = some (caller, level', parent'))
  level : ∀ i f level parent, i ≠ 0 → t.outline? i = some (f, level, parent) →
    ∃ length, ChainLength events f length ∧ level = UInt32.ofNat length
  nodup_testees : ∀ entry maxDistance, ((t.testees entry maxDistance).map (·.1)).Nodup
  mem_testees : ∀ entry maxDistance f distance, (f, distance) ∈ t.testees entry maxDistance ↔
    .enter f ∈ events ∧ f ≠ entry ∧ ∃ length, ChainLength events f length ∧
      distance = (UInt32.ofNat length - 1).toNat ∧ distance ≤ maxDistance

/-- Chains of first callers are measured without a loss: levels are their lengths, and the testees
are the functions entered, other than the entry, with chains that are short enough. -/
structure MeasuresChains (events : List Event) (t : CallTree) : Prop where
  level : ∀ i f level parent, i ≠ 0 → t.outline? i = some (f, level, parent) →
    ChainLength events f level.toNat
  mem_testees : ∀ entry maxDistance f distance, (f, distance) ∈ t.testees entry maxDistance ↔
    .enter f ∈ events ∧ f ≠ entry ∧
      ∃ length, ChainLength events f length ∧ length ≤ maxDistance + 1 ∧ distance = length - 1

namespace CallTree

/-- The testees are the nodes other than the root and the entry that are near enough. -/
theorem mem_testees {t : CallTree} {entry maxDistance f distance : Nat} :
    (f, distance) ∈ t.testees entry maxDistance ↔
      f ≠ entry ∧ ∃ i level parent, i ≠ 0 ∧ t.outline? i = some (f, level, parent) ∧
        distance = (level - 1).toNat ∧ distance ≤ maxDistance := by
  rw [testees, List.mem_filterMap]
  constructor
  · rintro ⟨n, hn, hsome⟩
    split at hsome
    · rename_i hcond
      obtain ⟨rfl, rfl⟩ := Prod.mk.inj (Option.some.inj hsome)
      obtain ⟨i, hi, hn⟩ := mem_drop_nodes.mp hn
      exact ⟨hcond.1, i, n.level, n.parent, hi, by rw [outline?, hn]; rfl, rfl, hcond.2⟩
    · cases hsome
  · rintro ⟨hne, i, level, parent, hi, houtline, rfl, hle⟩
    obtain ⟨n, hn, heq⟩ := Option.map_eq_some_iff.mp houtline
    cases heq
    exact ⟨n, mem_drop_nodes.mpr ⟨i, hi, hn⟩, if_pos ⟨hne, hle⟩⟩

end CallTree

section

variable {size : Nat} {events : List Event} {f length : Nat} (h : InRange size events)
include h

/-- The node of a function and that of its first caller. -/
theorem Recorder.parent_ofMapping {t : CallTree} (hfollows : t.Follows (after size events).mapping)
    {i : Nat} {level : UInt32} {parent : Option Nat} (hi : i ≠ 0)
    (houtline : t.outline? i = some (f, level, parent)) :
    ∃ p level' caller' parent', parent = some p ∧ t.outline? p = some (caller', level', parent') ∧
      (EntersFirst events f none ∧ p = 0 ∨ EntersFirst events f (some caller') ∧ p ≠ 0) := by
  have hentry := hfollows.entry f (CallTree.mem_functions.mpr ⟨i, level, parent, hi, houtline⟩)
  obtain ⟨p, c, level', parent', hp, hparent, hcaller⟩ := hfollows.node i f level parent hi houtline
  obtain ⟨caller, hfirst⟩ := exists_entersFirst ((getD_mapping_ne_zero_iff h).mp hentry)
  rw [getD_mapping_of_entersFirst h hfirst] at hcaller
  refine ⟨p, level', c, parent', hp, hparent, ?_⟩
  cases caller with
  | none =>
    rw [if_pos (show (none : Option Nat).getD f = f from rfl)] at hcaller
    exact .inl ⟨hfirst, hcaller⟩
  | some caller =>
    have hne : caller ≠ f := by
      rintro rfl
      exact Nat.lt_irrefl _ hfirst.earlier.2
    rw [Option.getD_some, if_neg hne] at hcaller
    obtain ⟨hp, rfl⟩ := hcaller
    exact .inr ⟨hfirst, hp⟩

/-- First callers are in the slots, up to the outside. -/
theorem Recorder.ChainLength.fromOutside (hchain : ChainLength events f length) :
    CallTree.FromOutside (after size events).mapping f length := by
  induction hchain with
  | outside hfirst =>
    have hmapped := getD_mapping_of_entersFirst h hfirst
    exact .outside (h.getD_ne_zero hfirst) hmapped
  | @inside f caller _ hfirst _ ih =>
    have hne : caller ≠ f := by
      rintro rfl
      exact Nat.lt_irrefl _ hfirst.earlier.2
    exact .inside (Nat.one_le_iff_ne_zero.mp (h f hfirst.enter_mem).1)
      (getD_mapping_of_entersFirst h hfirst) hne ih

/-- With no more slots than words, the length of a chain is its length in 32 bits. -/
theorem Recorder.ChainLength.toNat_ofNat (hsize : size ≤ UInt32.size)
    (hchain : ChainLength events f length) : (UInt32.ofNat length).toNat = length := by
  have hlt := (CallTree.isTreeOf_grow _).lt_size_of_fromOutside (hchain.fromOutside h)
  rw [size_after] at hlt
  exact UInt32.toNat_ofNat_of_lt' (Nat.lt_of_lt_of_le hlt hsize)

/-- The level of a node is the length of its function's chain of first callers. -/
theorem Recorder.level_ofMapping {i : Nat} {level : UInt32} {parent : Option Nat} (hi : i ≠ 0)
    (houtline : (CallTree.ofMapping (after size events).mapping).outline? i
      = some (f, level, parent)) :
    ∃ length, ChainLength events f length ∧ level = UInt32.ofNat length := by
  have hentered := (mem_functions_ofMapping h).mp
    (CallTree.mem_functions.mpr ⟨i, level, parent, hi, houtline⟩)
  obtain ⟨length, hchain⟩ := exists_chainLength hentered
  obtain ⟨a, ha, hfunction, rfl, -⟩ := CallTree.exists_node_of_outline? houtline
  exact ⟨length, hchain,
    (CallTree.isTreeOf_grow _).level_eq (hchain.fromOutside h) hi ha hfunction⟩

theorem Recorder.isFirstCallerTree_ofMapping :
    IsFirstCallerTree events (.ofMapping (after size events).mapping) := by
  have hfollows := CallTree.follows_ofMapping (orderly_mapping h)
  have hmem := fun f => mem_functions_ofMapping (f := f) h
  refine ⟨hfollows.root, hfollows.grown.nodup, hmem, ?_, fun _ _ _ _ => level_ofMapping h,
    CallTree.nodup_testees hfollows.grown, ?_⟩
  · intro i f level parent hi houtline
    obtain ⟨p, level', caller, parent', hp, hparent, hcaller⟩ :=
      parent_ofMapping h hfollows hi houtline
    refine ⟨p, hp, hcaller.imp_right fun hc => ⟨caller, level', parent', hc.1, hc.2, hparent⟩⟩
  · intro entry maxDistance f distance
    rw [CallTree.mem_testees]
    constructor
    · rintro ⟨hne, i, level, parent, hi, houtline, rfl, hle⟩
      obtain ⟨length, hchain, rfl⟩ := level_ofMapping h hi houtline
      exact ⟨hchain.enter_mem, hne, length, hchain, rfl, hle⟩
    · rintro ⟨hentered, hne, length, hchain, rfl, hle⟩
      obtain ⟨i, level, parent, hi, houtline⟩ := CallTree.mem_functions.mp ((hmem f).mpr hentered)
      obtain ⟨length', hchain', rfl⟩ := level_ofMapping h hi houtline
      obtain rfl := hchain.unique hchain'
      exact ⟨hne, i, _, parent, hi, houtline, rfl, hle⟩

theorem Recorder.measuresChains_ofMapping (hsize : size ≤ UInt32.size) :
    MeasuresChains events (.ofMapping (after size events).mapping) := by
  have htree := isFirstCallerTree_ofMapping h
  constructor
  · intro i f level parent hi houtline
    obtain ⟨length, hchain, rfl⟩ := htree.level i f level parent hi houtline
    rwa [hchain.toNat_ofNat h hsize]
  · intro entry maxDistance f distance
    rw [htree.mem_testees]
    refine and_congr_right fun _ => and_congr_right fun _ => exists_congr fun length =>
      and_congr_right fun hchain => ?_
    have hword := hchain.toNat_ofNat h hsize
    have hpos := hchain.pos
    -- lengths are positive, so taking one off does not go below zero
    have hone : (1 : UInt32) ≤ UInt32.ofNat length := by
      rw [UInt32.le_iff_toNat_le, hword]
      exact hpos
    rw [UInt32.toNat_sub_of_le _ _ hone, hword, show (1 : UInt32).toNat = 1 from rfl]
    omega

end

namespace HostState

/-- Tells a host of an event. -/
def record (s : HostState) : Event → HostState
  | .enter index => s.enter index
  | .leave _ => s.leave

/-- A host passes events on to its recorder. -/
theorem recorder_foldl_record (s : HostState) (events : List Event) :
    (events.foldl record s).recorder = events.foldl Recorder.record s.recorder := by
  induction events generalizing s with
  | nil => rfl
  | cons e rest ih =>
    rw [List.foldl_cons, List.foldl_cons, ih]
    cases e <;> rfl

/-- Whatever is entered and left after a trace has begun, its mapping gives the tree of first
callers, and no function is put under the root for want of its caller's node.  With no more slots
than there are 32-bit words, the levels are the lengths of the chains of first callers. -/
theorem isFirstCallerTree (s : HostState) {size : Nat} {events : List Event}
    (h : ∀ e ∈ events, 1 ≤ e.index ∧ e.index < size) {mapping : Array Nat}
    (hmapping : mapping = (events.foldl record (s.beginTrace size)).takeMapping.1) :
    IsFirstCallerTree events (.ofMapping mapping) ∧
      CallTree.grow? mapping = some (CallTree.grow mapping) ∧
      (size ≤ UInt32.size → MeasuresChains events (.ofMapping mapping)) := by
  have hrange : InRange size events := fun index hmem => h (.enter index) hmem
  have heq : mapping = (after size events).mapping := by
    rw [hmapping, takeMapping, recorder_foldl_record]
    rfl
  rw [heq]
  exact ⟨isFirstCallerTree_ofMapping hrange, CallTree.grow?_eq (orderly_mapping hrange),
    measuresChains_ofMapping hrange⟩

/-- Events of nested calls, of a recursive one among them, and of a return too many. -/
def nestedCalls : List Event :=
  [.enter 3, .enter 1, .enter 3, .leave 3, .leave 1, .enter 4, .enter 1, .leave 1,
    .leave 4, .leave 3, .leave 3, .enter 2]

theorem nestedCalls_isFirstCallerTree :
    (∀ e ∈ nestedCalls, 1 ≤ e.index ∧ e.index < 6) ∧
      IsFirstCallerTree nestedCalls (.ofMapping #[0, 3, 2, 3, 3, 0]) ∧
      CallTree.grow? #[0, 3, 2, 3, 3, 0] = some (CallTree.grow #[0, 3, 2, 3, 3, 0]) ∧
      MeasuresChains nestedCalls (.ofMapping #[0, 3, 2, 3, 3, 0]) := by
  have hrange : ∀ e ∈ nestedCalls, 1 ≤ e.index ∧ e.index < 6 := by decide
  have hmapping : #[0, 3, 2, 3, 3, 0]
      = (nestedCalls.foldl record (empty.beginTrace 6)).takeMapping.1 := by decide
  obtain ⟨htree, hgrow, hmeasures⟩ := isFirstCallerTree .empty hrange hmapping
  exact ⟨hrange, htree, hgrow, hmeasures (by decide)⟩

end HostState

end MutationAnalysis
