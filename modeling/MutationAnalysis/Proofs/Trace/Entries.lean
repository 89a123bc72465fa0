/-
Entries that stay.

A recorder fills a slot once: what it holds then, it keeps, whatever is entered and left after that
(`Recorder.Extends`).  A function is recorded under the one under way, which has an entry already,
so its callers lead outside.  That is so whether or not functions are left that were entered.

* `Recorder.Extends.foldl_record`: an entry stays what it is;
* `Recorder.IsRooted.foldl_record`: the callers of functions with an entry lead outside;
* `Recorder.HasSlots.getD_of_extends_enter`: what a function is recorded under.
-/
import MutationAnalysis.Proofs.Trace.Balance

namespace MutationAnalysis

/-! ### Entries -/

namespace Recorder

open CallTree

/-- A function has an entry in the mapping: it was entered. -/
def HasEntry (k : Nat) (r : Recorder) : Prop := r.mapping.getD k 0 ≠ 0

/-- All entries that there are in the first are the same in the second, which has as many slots. -/
structure Extends (r r' : Recorder) : Prop where
  size_eq : r'.mapping.size = r.mapping.size
  getD_eq : ∀ k, r.HasEntry k → r'.mapping.getD k 0 = r.mapping.getD k 0

variable {r r' r'' : Recorder} {events : List Event} {k f n size : Nat}

namespace Extends

theorem refl (r : Recorder) : r.Extends r := ⟨rfl, fun _ _ => rfl⟩

theorem hasEntry (h : r.Extends r') (hk : r.HasEntry k) : r'.HasEntry k := by
  rw [HasEntry, h.getD_eq k hk]
  exact hk

theorem trans (h : r.Extends r') (h' : r'.Extends r'') : r.Extends r'' where
  size_eq := h'.size_eq.trans h.size_eq
  getD_eq k hk := (h'.getD_eq k (h.hasEntry hk)).trans (h.getD_eq k hk)

/-- Only slots without an entry are filled. -/
theorem record (r : Recorder) (e : Event) : r.Extends (r.record e) := by
  cases e with
  | leave _ => exact ⟨rfl, fun _ _ => rfl⟩
  | enter index =>
    refine ⟨size_enter r index, fun k hk => ?_⟩
    show (r.enter index).mapping.getD k 0 = _
    rw [getD_mapping_enter, if_neg]
    rintro ⟨-, hempty⟩
    rw [HasEntry, Array.getD_eq_getD_getElem?, hempty] at hk
    exact hk rfl

theorem foldl_record (r : Recorder) (events : List Event) :
    r.Extends (events.foldl Recorder.record r) := by
  induction events generalizing r with
  | nil => exact refl r
  | cons e rest ih => exact (record r e).trans (ih _)

/-- Callers that lead outside do so ever after. -/
theorem fromOutside (h : r.Extends r') (hf : FromOutside r.mapping f n) :
    FromOutside r'.mapping f n := by
  induction hf with
  | outside hf hself =>
      exact .outside hf ((h.getD_eq _ (FromOutside.outside hf hself).entry).trans hself)
  | inside hf hmapped hne hcaller ih =>
    exact .inside hf ((h.getD_eq _ (FromOutside.inside hf hmapped hne hcaller).entry).trans hmapped)
      hne ih

end Extends

/-- An entry stays. -/
theorem HasEntry.foldl_record (h : r.HasEntry k) (events : List Event) :
    (events.foldl Recorder.record r).HasEntry k :=
  (Extends.foldl_record r events).hasEntry h

/-- There are so many slots, and all functions under way have a number. -/
structure HasSlots (size : Nat) (r : Recorder) : Prop where
  size_eq : r.mapping.size = size
  stack_ne : ∀ k ∈ r.stack, k ≠ 0

namespace HasSlots

variable (h : r.HasSlots size)

include h

theorem enter (hk : k ≠ 0) : (r.enter k).HasSlots size := by
  refine ⟨(size_enter r k).trans h.size_eq, fun j hj => ?_⟩
  rw [stack_enter] at hj
  rcases List.mem_cons.mp hj with rfl | hj
  · exact hk
  · exact h.stack_ne j hj

theorem leave : r.leave.HasSlots size :=
  ⟨h.size_eq, fun k hk => h.stack_ne k (List.mem_of_mem_tail hk)⟩

/-- A function that has no entry is recorded under the one under way, or as its own caller. -/
theorem getD_enter (hlt : k < size) (hnew : ¬ r.HasEntry k) :
    (r.enter k).mapping.getD k 0 = r.stack.headD k := by
  have hslot : k < r.mapping.size := h.size_eq ▸ hlt
  rw [HasEntry, not_not, Array.getD_eq_getD_getElem?, Array.getElem?_eq_getElem hslot,
    Option.getD_some] at hnew
  rw [getD_mapping_enter, if_pos ⟨rfl, by rw [Array.getElem?_eq_getElem hslot, hnew]⟩]

/-- A function that is entered has an entry. -/
theorem hasEntry_enter (hk : k ≠ 0) (hlt : k < size) : (r.enter k).HasEntry k := by
  by_cases hentry : r.HasEntry k
  · exact (Extends.record r (.enter k)).hasEntry hentry
  · rw [HasEntry, h.getD_enter hlt hentry]
    cases hstack : r.stack with
    | nil => exact hk
    | cons j rest => exact h.stack_ne j (by simp [hstack])

/-- A function without an entry that is entered before anything else is recorded under the one that
was under way, even if it has not come further than that. -/
theorem getD_of_extends_enter (hk : k ≠ 0) (hlt : k < size) (hnew : ¬ r.HasEntry k)
    (hentered : r'.HasEntry k) (hor : (r.enter k).Extends r' ∨ r'.Extends (r.enter k)) :
    r'.mapping.getD k 0 = r.stack.headD k := by
  rcases hor with hext | hext
  · rw [hext.getD_eq k (h.hasEntry_enter hk hlt), h.getD_enter hlt hnew]
  · rw [← hext.getD_eq k hentered, h.getD_enter hlt hnew]

end HasSlots

/-! ### Callers -/

/-- All functions under way have entries, and the callers of all functions with one lead outside. -/
structure IsRooted (size : Nat) (r : Recorder) : Prop extends HasSlots size r where
  underWay : ∀ k ∈ r.stack, r.HasEntry k
  fromOutside : ∀ k, r.HasEntry k → ∃ n, FromOutside r.mapping k n

namespace IsRooted

theorem start (size : Nat) : (Recorder.start size).IsRooted size where
  size_eq := Array.size_replicate
  stack_ne := by simp [Recorder.start]
  underWay := by simp [Recorder.start]
  fromOutside k hk := by
    refine absurd ?_ hk
    show (Array.replicate size 0).getD k 0 = 0
    rw [Array.getD_eq_getD_getElem?, Array.getElem?_replicate]
    split <;> rfl

variable (h : r.IsRooted size)

include h

/-- A function that is entered has its caller's callers, and its caller. -/
theorem enter (hk : k ≠ 0) (hlt : k < size) : (r.enter k).IsRooted size := by
  have hext : r.Extends (r.enter k) := .record r (.enter k)
  refine ⟨h.toHasSlots.enter hk, fun j hj => ?_, fun j hj => ?_⟩
  · rw [stack_enter] at hj
    rcases List.mem_cons.mp hj with rfl | hj
    · exact h.hasEntry_enter hk hlt
    · exact hext.hasEntry (h.underWay j hj)
  · by_cases hold : r.HasEntry j
    · obtain ⟨n, hn⟩ := h.fromOutside j hold
      exact ⟨n, hext.fromOutside hn⟩
    · -- the one function that has an entry now and had none
      obtain rfl : k = j := by
        by_contra hne
        rw [HasEntry, getD_mapping_enter, if_neg fun heq => hne heq.1] at hj
        exact hold hj
      have hmapped := h.getD_enter hlt hold
      cases hstack : r.stack with
      | nil =>
        rw [hstack] at hmapped
        exact ⟨1, .outside hk hmapped⟩
      | cons caller rest =>
        rw [hstack] at hmapped
        have hcaller := h.underWay caller (by simp [hstack])
        obtain ⟨n, hn⟩ := h.fromOutside caller hcaller
        exact ⟨n + 1, .inside hk hmapped (fun heq => hold (heq ▸ hcaller)) (hext.fromOutside hn)⟩

theorem leave : r.leave.IsRooted size :=
  ⟨h.toHasSlots.leave, fun k hk => h.underWay k (List.mem_of_mem_tail hk), h.fromOutside⟩

/-- Whatever is entered and left, if all that is entered has a number. -/
theorem foldl_record (hrange : InRange size events) :
    (events.foldl Recorder.record r).IsRooted size := by
  induction events generalizing r with
  | nil => exact h
  | cons e rest ih =>
    have hrest : InRange size rest := fun k hk => hrange k (List.mem_cons_of_mem e hk)
    cases e with
    | leave _ => exact ih h.leave hrest
    | enter k =>
      obtain ⟨hpos, hlt⟩ := hrange k List.mem_cons_self
      exact ih (h.enter (Nat.one_le_iff_ne_zero.mp hpos) hlt) hrest

end IsRooted

end Recorder

end MutationAnalysis
