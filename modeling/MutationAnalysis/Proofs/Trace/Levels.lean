/-
How far functions are from the outside.

The callers of a function may lead outside, and there are so many functions up to there.  Its node
is as many levels below the root.  A level is a word of 32 bits, so it is that number only as long
as the number fits; but no more functions lead outside than there are slots, so it always fits in a
mapping with no more slots than words.

* `CallTree.FromOutside`: callers that lead outside, and how many they are;
* `CallTree.IsTreeOf.level_eq`, `CallTree.IsTreeOf.level?_eq`: how far below the
  root the node of a function is;
* `CallTree.IsTreeOf.lt_size_of_fromOutside`: there are more slots than functions on the way.
-/
import MutationAnalysis.Proofs.Trace.Tree

namespace MutationAnalysis.CallTree

/-- The callers of a function lead outside, and there are so many functions up to there. -/
inductive FromOutside (mapping : Array Nat) : Nat → Nat → Prop
  | outside {f : Nat} (hf : f ≠ 0) (h : mapping.getD f 0 = f) : FromOutside mapping f 1
  | inside {f caller n : Nat} (hf : f ≠ 0) (h : mapping.getD f 0 = caller) (hne : caller ≠ f)
      (hcaller : FromOutside mapping caller n) : FromOutside mapping f (n + 1)

variable {t : CallTree} {mapping : Array Nat} {f n i : Nat} {a : CallNode}

namespace FromOutside

theorem ne_zero (h : FromOutside mapping f n) : f ≠ 0 := by
  cases h with
  | outside hf | inside hf => exact hf

theorem entry (h : FromOutside mapping f n) : mapping.getD f 0 ≠ 0 := by
  cases h with
  | outside hf h =>
    rw [h]
    exact hf
  | inside _ h _ hcaller =>
    rw [h]
    exact hcaller.ne_zero

theorem not_onCircle (h : FromOutside mapping f n) : ¬ OnCircle mapping f := by
  induction h with
  | outside _ h => exact fun hcircle => hcircle.1 h
  | inside _ h _ _ ih => exact fun hcircle => ih (h ▸ hcircle.caller)

end FromOutside

namespace IsTreeOf

variable (h : t.IsTreeOf mapping)

include h

/-- No two nodes below the root are of one function. -/
theorem eq_of_function_eq {j : Nat} {b : CallNode} (hi : i ≠ 0) (hj : j ≠ 0)
    (ha : t.nodes[i]? = some a) (hb : t.nodes[j]? = some b) (heq : a.function = b.function) :
    i = j := by
  have hget : ∀ {k : Nat} {c : CallNode}, k ≠ 0 → t.nodes[k]? = some c →
      t.functions[k - 1]? = some c.function := by
    intro k c hk hc
    rw [functions, List.getElem?_map, List.getElem?_drop, Array.getElem?_toList,
      show 1 + (k - 1) = k by omega, hc, Option.map_some]
  have hsame : t.functions[i - 1]? = t.functions[j - 1]? := by rw [hget hi ha, hget hj hb, heq]
  have hlt := (List.getElem?_eq_some_iff.mp (hget hi ha)).1
  have hpred := (List.getElem?_inj hlt h.nodup).mp hsame
  omega

/-- A function whose callers lead outside has a node. -/
theorem exists_node (hf : FromOutside mapping f n) :
    ∃ i a, i ≠ 0 ∧ t.nodes[i]? = some a ∧ a.function = f := by
  have hmem : f ∈ t.functions := (h.mem_functions f).mpr ⟨hf.ne_zero, hf.entry⟩
  obtain ⟨a, ha, rfl⟩ := List.mem_map.mp hmem
  obtain ⟨i, hi, ha⟩ := mem_drop_nodes.mp ha
  exact ⟨i, a, hi, ha, rfl⟩

/-- The node of a function that another one called first is not under the root. -/
theorem parent_ne_root (hf : FromOutside mapping f n) (hne : mapping.getD f 0 ≠ f)
    (ha : t.nodes[i]? = some a) (hfunction : a.function = f) : a.parent ≠ some 0 := by
  intro hp
  have hunder : t.UnderRoot f := hfunction ▸ underRoot_of_parent ha hp
  have hmem : f ∈ t.functions := (h.mem_functions f).mpr ⟨hf.ne_zero, hf.entry⟩
  -- what is on no circle is under the root only if it was called from outside or by what never ran
  rcases (h.underRoot_iff f hmem hf.not_onCircle).mp hunder with hself | hzero
  · exact hne hself
  · cases hf with
    | outside _ hself => exact hne hself
    | inside _ hmapped _ hcaller => exact hcaller.entry (hmapped ▸ hzero)

/-- The node of a function is as far below the root as there are functions up to the outside, and
its number is no smaller than theirs. -/
theorem level_eq_and_le (hf : FromOutside mapping f n) (hi : i ≠ 0) (ha : t.nodes[i]? = some a)
    (hfunction : a.function = f) : a.level = UInt32.ofNat n ∧ n ≤ i := by
  -- the parent of a node is the node of the caller, which is one level nearer to the outside
  induction hf generalizing i a with
  | outside _ hself =>
    obtain ⟨p, b, hp, hlt, hb, hlevel, hcaller⟩ := h.node i a hi ha
    obtain rfl : p = 0 := by
      by_contra hne
      have heq : a.function = b.function := by rw [hcaller hne, hfunction, hself]
      exact Nat.ne_of_lt hlt (h.eq_of_function_eq hi hne ha hb heq).symm
    obtain ⟨children, hroot⟩ := h.root
    obtain rfl := Option.some.inj (hroot.symm.trans hb)
    exact ⟨hlevel, hlt⟩
  | @inside f caller n hne₀ hmapped hne hcaller ih =>
    obtain ⟨p, b, hp, hlt, hb, hlevel, hfunction'⟩ := h.node i a hi ha
    have hp₀ : p ≠ 0 := by
      rintro rfl
      exact h.parent_ne_root (.inside hne₀ hmapped hne hcaller) (hmapped ▸ hne) ha hfunction hp
    obtain ⟨hlevel', hle⟩ := ih hp₀ hb (by rw [hfunction' hp₀, hfunction, hmapped])
    refine ⟨?_, Nat.lt_of_le_of_lt hle hlt⟩
    rw [hlevel, hlevel', UInt32.ofNat_add]
    rfl

/-- How far below the root the node of a function is. -/
theorem level_eq (hf : FromOutside mapping f n) (hi : i ≠ 0) (ha : t.nodes[i]? = some a)
    (hfunction : a.function = f) : a.level = UInt32.ofNat n :=
  (h.level_eq_and_le hf hi ha hfunction).1

/-- There are more slots than functions up to the outside. -/
theorem lt_size_of_fromOutside (hf : FromOutside mapping f n) : n < mapping.size := by
  obtain ⟨i, a, hi, ha, hfunction⟩ := h.exists_node hf
  exact Nat.lt_of_le_of_lt (h.level_eq_and_le hf hi ha hfunction).2 (h.lt_size hi ha)

/-- With no more slots than words, one level more is a greater level. -/
theorem lt_succ_of_fromOutside (hsize : mapping.size ≤ UInt32.size)
    (hf : FromOutside mapping f (n + 1)) : UInt32.ofNat n < UInt32.ofNat n + 1 := by
  have hlt := Nat.lt_of_lt_of_le (h.lt_size_of_fromOutside hf) hsize
  rw [UInt32.lt_iff_toNat_lt, UInt32.toNat_add, UInt32.toNat_ofNat_of_lt' (Nat.lt_of_succ_lt hlt)]
  exact (Nat.mod_eq_of_lt hlt).symm ▸ Nat.lt_succ_self n

/-- How far below the root a function is. -/
theorem level?_eq (hf : FromOutside mapping f n) : t.level? f = some (UInt32.ofNat n) := by
  obtain ⟨j, b, hj, hb, hfunction⟩ := h.exists_node hf
  cases hfind : t.find? f with
  | none =>
    obtain ⟨p, _, hp, -⟩ := h.node j b hj hb
    have hnot := Array.findIdx?_eq_none_iff.mp hfind b (Array.mem_of_getElem? hb)
    simp [hp, hfunction] at hnot
  | some i =>
    obtain ⟨hlt, hfound, -⟩ := Array.findIdx?_eq_some_iff_getElem.mp hfind
    rw [Bool.and_eq_true, beq_iff_eq] at hfound
    have ha : t.nodes[i]? = some t.nodes[i] := Array.getElem?_eq_getElem hlt
    have hi : i ≠ 0 := by
      rintro rfl
      obtain ⟨children, hroot⟩ := h.root
      rw [Option.some.inj (ha.symm.trans hroot)] at hfound
      cases hfound.1
    simp only [level?, hfind, ha, Option.bind_eq_bind, Option.bind_some, Option.pure_def,
      h.level_eq hf hi ha hfound.2]

end IsTreeOf

end MutationAnalysis.CallTree
