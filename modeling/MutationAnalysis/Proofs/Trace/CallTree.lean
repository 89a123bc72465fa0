/-
The nodes of a call tree.

A walk up the callers collects functions without a node only, each once, so a tree that grows has
one root and at most one node of each function.

* `CallTree.climb_spec`: the functions of a walk have no nodes yet and are all different;
* `CallTree.isGrown_ofMapping`: whatever the mapping, no function has two nodes;
* `CallTree.nodup_testees`: no function is at two distances;
* `CallTree.mem_functions_of_entry`: whatever the mapping, a function with an entry has a node.
-/
import MutationAnalysis.Trace.CallTree
import Mathlib.Data.List.Nodup
import Mathlib.Tactic.Common

namespace MutationAnalysis.CallTree

variable {t : CallTree} {mapping : Array Nat} {function parent : Nat}

/-- Functions and parents of the nodes, in order. -/
def links (t : CallTree) : List (Nat × Option Nat) :=
  t.nodes.toList.map fun n => (n.function, n.parent)

/-- The functions of the nodes other than the root, in order. -/
def functions (t : CallTree) : List Nat := (t.nodes.toList.drop 1).map (·.function)

/-- The nodes other than the root are those with other numbers than zero. -/
theorem mem_drop_nodes {n : CallNode} :
    n ∈ t.nodes.toList.drop 1 ↔ ∃ i, i ≠ 0 ∧ t.nodes[i]? = some n := by
  rw [List.mem_iff_getElem?]
  constructor
  · rintro ⟨i, hi⟩
    rw [List.getElem?_drop, Array.getElem?_toList] at hi
    exact ⟨1 + i, by omega, hi⟩
  · rintro ⟨i, hi, hn⟩
    obtain ⟨i, rfl⟩ := Nat.exists_eq_succ_of_ne_zero hi
    refine ⟨i, ?_⟩
    rw [List.getElem?_drop, Array.getElem?_toList, Nat.add_comm]
    exact hn

/-- A root, and at most one node of each function. -/
structure IsGrown (t : CallTree) : Prop where
  links : ∃ rest, t.links = (0, none) :: rest ∧ ∀ n ∈ rest, n.2.isSome
  nodup : t.functions.Nodup

theorem functions_eq (t : CallTree) : t.functions = (t.links.drop 1).map (·.1) := by
  rw [functions, links, List.map_drop, List.map_drop, List.map_map]
  rfl

/-- A function has a node if and only if it is that of a node other than the root. -/
theorem IsGrown.find?_isSome (h : t.IsGrown) :
    (t.find? function).isSome ↔ function ∈ t.functions := by
  obtain ⟨rest, hlinks, hrest⟩ := h.links
  have hany : (t.find? function).isSome
      ↔ ∃ n ∈ t.links, n.2.isSome = true ∧ n.1 = function := by
    rw [find?, Array.findIdx?_isSome, ← Array.any_toList, List.any_eq_true, CallTree.links]
    simp
  rw [hany, functions_eq, hlinks]
  simp only [List.mem_cons, exists_eq_or_imp, Option.isSome_none, Bool.false_eq_true, false_and,
    false_or, List.drop_one, List.tail_cons, List.mem_map]
  exact exists_congr fun n => and_congr_right fun hn => and_iff_right (hrest n hn)

/-- A node comes last and leaves the functions and the parents of the others as they are. -/
theorem links_addNode (t : CallTree) (function parent : Nat) :
    (t.addNode function parent).links = t.links ++ [(function, some parent)] := by
  rw [addNode, links, links]
  dsimp only
  rw [Array.toList_push, List.map_append, List.map_singleton, Array.toList_modify]
  refine congrArg (· ++ _) (List.ext_getElem? fun i => ?_)
  rw [List.getElem?_map, List.getElem?_map, List.getElem?_modify]
  cases t.nodes.toList[i]? with
  | none => rfl
  | some n =>
    rw [Option.map_eq_map, Option.map_some, Option.map_some, Option.map_some]
    split <;> rfl

theorem functions_addNode (h : t.IsGrown) :
    (t.addNode function parent).functions = t.functions ++ [function] := by
  obtain ⟨rest, hlinks, -⟩ := h.links
  rw [functions_eq, functions_eq, links_addNode, hlinks]
  simp

theorem IsGrown.addNode (h : t.IsGrown) (hnew : function ∉ t.functions) :
    (t.addNode function parent).IsGrown where
  links := by
    obtain ⟨rest, hlinks, hrest⟩ := h.links
    refine ⟨rest ++ [(function, some parent)], by rw [links_addNode, hlinks]; rfl, fun n hn => ?_⟩
    rcases List.mem_append.mp hn with hn | hn
    · exact hrest n hn
    · rw [List.mem_singleton.mp hn]
      rfl
  nodup := by
    rw [functions_addNode h]
    exact List.nodup_append.mpr ⟨h.nodup, List.nodup_singleton _, fun a ha b hb => by
      rw [List.mem_singleton.mp hb]
      exact fun heq => hnew (heq ▸ ha)⟩

/-! ### Slots -/

/-- The functions that a mapping has slots for. -/
theorem mem_drop_range {n f : Nat} : f ∈ (List.range n).drop 1 ↔ f ≠ 0 ∧ f < n := by
  rw [List.range_eq_range', List.drop_range', List.mem_range'_1]
  omega

theorem lt_size_of_entry {f : Nat} (h : mapping.getD f 0 ≠ 0) : f < mapping.size := by
  by_contra hle
  rw [Array.getD_eq_getD_getElem?, Array.getElem?_eq_none (Nat.le_of_not_lt hle)] at h
  exact h rfl

/-! ### Walks up the callers -/

/-- A walk adds functions without a node, and none twice. -/
theorem climb_spec (h : t.IsGrown) {fuel current : Nat} {chain : List Nat} (hnodup : chain.Nodup)
    (hnew : ∀ f ∈ chain, f ∉ t.functions) :
    (t.climb mapping fuel chain current).Nodup ∧
      ∀ f ∈ t.climb mapping fuel chain current, f ∉ t.functions := by
  induction fuel generalizing chain current with
  | zero => exact ⟨hnodup, hnew⟩
  | succ fuel ih =>
    rw [climb]
    split
    · exact ⟨hnodup, hnew⟩
    · rename_i hor
      rw [Bool.or_eq_true, not_or, h.find?_isSome, List.contains_iff_mem] at hor
      have hnodup' : (current :: chain).Nodup := List.nodup_cons.mpr ⟨hor.2, hnodup⟩
      have hnew' : ∀ f ∈ current :: chain, f ∉ t.functions :=
        List.forall_mem_cons.mpr ⟨hor.1, hnew⟩
      split
      · exact ⟨hnodup, hnew⟩
      · exact ⟨hnodup, hnew⟩
      · split
        · exact ⟨hnodup', hnew'⟩
        · exact ih hnodup' hnew'

/-! ### Growth -/

theorem isGrown_place {g : Growth} (h : g.tree.IsGrown) (hnew : function ∉ g.tree.functions) :
    (g.place function).tree.IsGrown ∧
      (g.place function).tree.functions = g.tree.functions ++ [function] :=
  ⟨h.addNode hnew, functions_addNode h⟩

theorem isGrown_foldl_place {g : Growth} {chain : List Nat} (h : g.tree.IsGrown)
    (hnodup : chain.Nodup) (hnew : ∀ f ∈ chain, f ∉ g.tree.functions) :
    (chain.foldl Growth.place g).tree.IsGrown := by
  induction chain generalizing g with
  | nil => exact h
  | cons f rest ih =>
    rw [List.nodup_cons] at hnodup
    rw [List.forall_mem_cons] at hnew
    obtain ⟨hgrown, hfunctions⟩ := isGrown_place h hnew.1
    refine ih hgrown hnodup.2 fun f' hf' => ?_
    rw [hfunctions, List.mem_append, List.mem_singleton, not_or]
    exact ⟨hnew.2 f' hf', fun heq => hnodup.1 (heq ▸ hf')⟩

theorem isGrown_attach {g : Growth} (h : g.tree.IsGrown) (function : Nat) :
    (g.attach function).tree.IsGrown := by
  rw [Growth.attach]
  split
  · exact h
  · obtain ⟨hnodup, hnew⟩ := climb_spec h List.nodup_nil (by simp)
    exact isGrown_foldl_place h hnodup hnew

/-- Whatever the mapping, no function has two nodes. -/
theorem isGrown_ofMapping (mapping : Array Nat) : (ofMapping mapping).IsGrown := by
  have hfold : ∀ (functions : List Nat) (g : Growth), g.tree.IsGrown →
      (functions.foldl Growth.attach g).tree.IsGrown := by
    intro functions
    induction functions with
    | nil => exact fun g h => h
    | cons f rest ih => exact fun g h => ih _ (isGrown_attach h f)
  exact hfold _ _ ⟨⟨[], rfl, by simp⟩, List.nodup_nil⟩

/-! ### Functions with an entry -/

/-- A walk keeps the functions that it has met. -/
theorem mem_climb {fuel current f : Nat} {chain : List Nat} (hf : f ∈ chain) :
    f ∈ t.climb mapping fuel chain current := by
  induction fuel generalizing chain current with
  | zero => exact hf
  | succ fuel ih =>
    rw [climb]
    split
    · exact hf
    · split
      · exact hf
      · exact hf
      · split
        · exact List.mem_cons_of_mem _ hf
        · exact ih (List.mem_cons_of_mem _ hf)

/-- A walk meets the function that it begins at, if that has an entry and no node. -/
theorem mem_climb_self (h : t.IsGrown) (hnew : function ∉ t.functions)
    (hentry : mapping.getD function 0 ≠ 0) (fuel : Nat) :
    function ∈ t.climb mapping (fuel + 1) [] function := by
  rw [Array.getD_eq_getD_getElem?] at hentry
  rw [climb, if_neg]
  · split
    · rename_i hnone
      rw [hnone] at hentry
      exact absurd rfl hentry
    · rename_i hzero
      rw [hzero] at hentry
      exact absurd rfl hentry
    · split
      · exact List.mem_singleton_self _
      · exact mem_climb (List.mem_singleton_self _)
  · rw [Bool.or_eq_true, not_or, h.find?_isSome]
    exact ⟨hnew, by simp⟩

/-- Functions with an entry in a mapping have it still, or else a node. -/
structure Growth.Keeps (g : Growth) (mapping : Array Nat) : Prop where
  grown : g.tree.IsGrown
  entry : ∀ f, mapping.getD f 0 ≠ 0 → f ∈ g.tree.functions ∨ g.mapping.getD f 0 ≠ 0

namespace Growth.Keeps

variable {g : Growth}

theorem place (h : g.Keeps mapping) (hnew : function ∉ g.tree.functions) :
    (g.place function).Keeps mapping ∧
      (g.place function).tree.functions = g.tree.functions ++ [function] := by
  obtain ⟨hgrown, hfunctions⟩ := isGrown_place h.grown hnew
  refine ⟨⟨hgrown, fun f hf => ?_⟩, hfunctions⟩
  rw [hfunctions, List.mem_append, List.mem_singleton]
  by_cases heq : f = function
  · exact .inl (.inr heq)
  · refine (h.entry f hf).imp .inl fun hentry => ?_
    rw [Array.getD_eq_getD_getElem?] at hentry ⊢
    show (g.mapping.setIfInBounds function 0)[f]?.getD 0 ≠ 0
    rwa [Array.getElem?_setIfInBounds_ne (Ne.symm heq)]

theorem foldl_place {chain : List Nat} (h : g.Keeps mapping) (hnodup : chain.Nodup)
    (hnew : ∀ f ∈ chain, f ∉ g.tree.functions) : (chain.foldl Growth.place g).Keeps mapping ∧
      (chain.foldl Growth.place g).tree.functions = g.tree.functions ++ chain := by
  induction chain generalizing g with
  | nil => exact ⟨h, (List.append_nil _).symm⟩
  | cons f rest ih =>
    rw [List.nodup_cons] at hnodup
    rw [List.forall_mem_cons] at hnew
    obtain ⟨hkeeps, hfunctions⟩ := h.place hnew.1
    obtain ⟨hall, hfunctions'⟩ := ih hkeeps hnodup.2 fun f' hf' => by
      rw [hfunctions, List.mem_append, List.mem_singleton, not_or]
      exact ⟨hnew.2 f' hf', fun heq => hnodup.1 (heq ▸ hf')⟩
    rw [hfunctions, List.append_assoc] at hfunctions'
    exact ⟨hall, hfunctions'⟩

/-- A function whose turn it is gets a node if it has an entry. -/
theorem attach (h : g.Keeps mapping) (function : Nat) : (g.attach function).Keeps mapping ∧
    (∀ f ∈ g.tree.functions, f ∈ (g.attach function).tree.functions) ∧
      (mapping.getD function 0 ≠ 0 → function ∈ (g.attach function).tree.functions) := by
  rw [Growth.attach]
  split
  · rename_i hzero
    exact ⟨h, fun f hf => hf, fun hentry => (h.entry function hentry).resolve_right fun hne =>
      hne hzero⟩
  · rename_i hne
    obtain ⟨hnodup, hnew⟩ := climb_spec h.grown List.nodup_nil (by simp)
    obtain ⟨hkeeps, hfunctions⟩ := h.foldl_place hnodup hnew
    refine ⟨hkeeps, fun f hf => ?_, fun _ => ?_⟩
    · rw [hfunctions]
      exact List.mem_append_left _ hf
    · rw [hfunctions, List.mem_append]
      by_cases hmem : function ∈ g.tree.functions
      · exact .inl hmem
      · exact .inr (mem_climb_self h.grown hmem hne _)

end Growth.Keeps

/-- Whatever the mapping, every function with an entry in it has a node. -/
theorem mem_functions_of_entry {f : Nat} (hf : f ≠ 0) (hentry : mapping.getD f 0 ≠ 0) :
    f ∈ (ofMapping mapping).functions := by
  -- attaching one function after the other gives each with an entry a node, and takes none away
  have hfold : ∀ (functions : List Nat) (g : Growth), g.Keeps mapping →
      (f ∈ functions ∨ f ∈ g.tree.functions) →
        f ∈ (functions.foldl Growth.attach g).tree.functions := by
    intro functions
    induction functions with
    | nil => exact fun g _ hmem => hmem.resolve_left List.not_mem_nil
    | cons k rest ih =>
      intro g h hmem
      obtain ⟨hkeeps, hold, hself⟩ := h.attach k
      refine ih _ hkeeps ?_
      rcases hmem with hmem | hmem
      · rcases List.mem_cons.mp hmem with rfl | hmem
        · exact .inr (hself hentry)
        · exact .inl hmem
      · exact .inr (hold f hmem)
  exact hfold _ _ ⟨⟨⟨[], rfl, by simp⟩, List.nodup_nil⟩, fun _ => .inr⟩
    (.inl (mem_drop_range.mpr ⟨hf, lt_size_of_entry hentry⟩))

/-- No function is listed twice. -/
theorem nodup_testees (h : t.IsGrown) (entry maxDistance : Nat) :
    ((t.testees entry maxDistance).map (·.1)).Nodup := by
  have hnodup := h.nodup
  rw [functions, List.Nodup, List.pairwise_map] at hnodup
  rw [testees, List.Nodup, List.pairwise_map, List.pairwise_filterMap]
  refine hnodup.imp fun {n n'} hne b hb b' hb' => ?_
  split at hb <;> split at hb' <;> cases hb <;> cases hb'
  exact hne

end MutationAnalysis.CallTree
