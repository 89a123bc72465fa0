/-
Growing the tree of an orderly mapping.

A walk up the callers may end, and a node may be put under the root, because a caller has no entry,
is out of range or closes a circle.  `CallTree.grow?` grows a tree without these ways out and fails
where one would be needed.  In a mapping whose callers have entries of their own and come earlier in
some order it never fails: each walk ends at the outside or at a function that has a node, so that
the nodes it calls for can be made one after the other, each under that of its caller.

* `CallTree.Orderly`: every caller has an entry and comes before those it calls;
* `CallTree.climb?_eq`: a walk in an orderly mapping needs no way out;
* `CallTree.Follows`: each node is below that of its caller;
* `CallTree.grow?_eq`, `CallTree.follows_ofMapping`: the tree of an orderly mapping grows without a
  way out, follows the mapping, and has a node of every function with an entry.
-/
import MutationAnalysis.Proofs.Trace.CallTree
import Mathlib.Data.List.Perm.Subperm

namespace MutationAnalysis.CallTree

/-! ### Growth without a way out -/

/-- The walk of `climb`, unless it runs into a circle or a caller without an entry. -/
def climb? (t : CallTree) (mapping : Array Nat) : Nat → List Nat → Nat → Option (List Nat)
  | 0, _, _ => none
  | fuel + 1, chain, current =>
    if (t.find? current).isSome then some chain
    else if chain.contains current then none
    else
      match mapping[current]? with
      | none | some 0 => none
      | some caller =>
        if caller = current then some (current :: chain)
        else climb? t mapping fuel (current :: chain) caller

/-- Makes the node of a function under the root if it was called from outside, and otherwise under
the node of its caller if there is one. -/
def Growth.place? (g : Growth) (function : Nat) : Option Growth :=
  let caller := g.mapping.getD function 0
  let parent := if caller = function then some 0 else g.tree.find? caller
  parent.map fun p => ⟨g.tree.addNode function p, g.mapping.setIfInBounds function 0⟩

def Growth.attach? (g : Growth) (function : Nat) : Option Growth :=
  if g.mapping.getD function 0 = 0 then some g
  else do
    let chain ← g.tree.climb? g.mapping (g.mapping.size + 1) [] function
    chain.foldlM Growth.place? g

/-- Grows the tree of a mapping in which every caller has its node in time. -/
def grow? (mapping : Array Nat) : Option Growth :=
  ((List.range mapping.size).drop 1).foldlM Growth.attach? ⟨root, mapping⟩

/-- Every caller has an entry of its own and comes before the functions that it calls. -/
def Orderly (mapping : Array Nat) (rank : Nat → Nat) : Prop :=
  ∀ f, mapping.getD f 0 ≠ 0 → mapping.getD f 0 ≠ f →
    mapping.getD (mapping.getD f 0) 0 ≠ 0 ∧ rank (mapping.getD f 0) < rank f

variable {t : CallTree} {mapping : Array Nat} {function parent : Nat}

/-! ### Nodes one by one -/

/-- The function, the level and the parent of a node. -/
def outline? (t : CallTree) (i : Nat) : Option (Nat × UInt32 × Option Nat) :=
  (t.nodes[i]?).map fun n => (n.function, n.level, n.parent)

theorem outline?_addNode (t : CallTree) (function parent i : Nat) :
    (t.addNode function parent).outline? i =
      if i = t.nodes.size
      then some (function, ((t.nodes[parent]?).map (·.level)).getD 0 + 1, some parent)
      else t.outline? i := by
  rw [outline?, outline?, addNode]
  dsimp only
  rw [Array.getElem?_push, Array.size_modify]
  split
  · rfl
  · rw [Array.getElem?_modify]
    split
    · cases t.nodes[i]? <;> rfl
    · rfl

theorem lt_size_of_outline? {i : Nat} {x : Nat × UInt32 × Option Nat} (h : t.outline? i = some x) :
    i < t.nodes.size := by
  obtain ⟨n, hn, -⟩ := Option.map_eq_some_iff.mp h
  exact (Array.getElem?_eq_some_iff.mp hn).1

/-- Old nodes stay where they are. -/
theorem outline?_addNode_of_eq_some {i : Nat} {x : Nat × UInt32 × Option Nat}
    (h : t.outline? i = some x) : (t.addNode function parent).outline? i = some x := by
  rw [outline?_addNode, if_neg (Nat.ne_of_lt (lt_size_of_outline? h)), h]

/-- The functions are those of the nodes other than the first. -/
theorem mem_functions : function ∈ t.functions ↔
    ∃ i level parent, i ≠ 0 ∧ t.outline? i = some (function, level, parent) := by
  rw [functions, List.mem_map]
  constructor
  · rintro ⟨n, hn, rfl⟩
    obtain ⟨i, hi, hn⟩ := mem_drop_nodes.mp hn
    exact ⟨i, n.level, n.parent, hi, by rw [outline?, hn]; rfl⟩
  · rintro ⟨i, level, parent, hi, hplace⟩
    obtain ⟨n, hn, hn'⟩ := Option.map_eq_some_iff.mp hplace
    exact ⟨n, mem_drop_nodes.mpr ⟨i, hi, hn⟩, congrArg (·.1) hn'⟩

/-- What is found is a node of the function, and not the root. -/
theorem IsGrown.outline?_of_find? (h : t.IsGrown) {i : Nat} (hi : t.find? function = some i) :
    i ≠ 0 ∧ ∃ level parent, t.outline? i = some (function, level, parent) := by
  obtain ⟨hlt, hn, -⟩ := Array.findIdx?_eq_some_iff_getElem.mp hi
  rw [Bool.and_eq_true, beq_iff_eq] at hn
  refine ⟨?_, t.nodes[i].level, t.nodes[i].parent, ?_⟩
  · rintro rfl
    obtain ⟨rest, hlinks, -⟩ := h.links
    have hfirst : t.links[0]? = some (0, none) := by rw [hlinks]; rfl
    rw [CallTree.links, List.getElem?_map, Array.getElem?_toList, Array.getElem?_eq_getElem hlt,
      Option.map_some, Option.some_inj] at hfirst
    rw [(Prod.mk.inj hfirst).2] at hn
    cases hn.1
  · rw [outline?, Array.getElem?_eq_getElem hlt, Option.map_some, hn.2]

/-! ### Walks up the callers -/

/-- Functions whose nodes can be made one after the other: each is new, and it was called from
outside or by one that is known by then. -/
def InTurn (mapping : Array Nat) : List Nat → List Nat → Prop
  | _, [] => True
  | known, f :: rest =>
    f ∉ known ∧ mapping.getD f 0 ≠ 0 ∧ (mapping.getD f 0 = f ∨ mapping.getD f 0 ∈ known) ∧
      InTurn mapping (known ++ [f]) rest

/-- What is left of a mapping when some of its functions have nodes. -/
def Left (mapping left : Array Nat) (t : CallTree) : Prop :=
  left.size = mapping.size ∧
    ∀ f, left.getD f 0 = if f ∈ t.functions then 0 else mapping.getD f 0

section Walk

variable {left : Array Nat} {rank : Nat → Nat} (hgrown : t.IsGrown) (hleft : Left mapping left t)
  (horderly : Orderly mapping rank)
include hgrown hleft horderly

/-- A walk in an orderly mapping ends at the outside or at a function with a node.  So far it
has collected functions that come after the current one, and whose nodes can be made in turn
once the current one has its node. -/
theorem climb?_eq {fuel current : Nat} {chain : List Nat} (hentry : mapping.getD current 0 ≠ 0)
    (hfuel : mapping.size < fuel + chain.length) (hnodup : chain.Nodup)
    (hlt : ∀ f ∈ chain, f < mapping.size ∧ rank current < rank f)
    (hnew : ∀ f ∈ chain, f ∉ t.functions)
    (hturn : ∀ known, current ∈ known → (∀ f ∈ chain, f ∉ known) → InTurn mapping known chain) :
    ∃ chain', t.climb? left fuel chain current = some chain' ∧
      t.climb left fuel chain current = chain' ∧ InTurn mapping t.functions chain' ∧
      (∀ f ∈ current :: chain, f ∈ t.functions ∨ f ∈ chain') := by
  induction fuel generalizing chain current with
  | zero =>
    have hsub : chain.Subperm (List.range mapping.size) :=
      List.subperm_of_subset hnodup fun f hf => List.mem_range.mpr (hlt f hf).1
    have hle := hsub.length_le
    rw [List.length_range] at hle
    omega
  | succ fuel ih =>
    have hcurrent : current ∉ chain := fun hmem => Nat.lt_irrefl _ (hlt current hmem).2
    rw [climb?, climb]
    by_cases hnode : current ∈ t.functions
    · have hsome : (t.find? current).isSome = true := hgrown.find?_isSome.mpr hnode
      rw [if_pos hsome, hsome, Bool.true_or, if_pos rfl]
      exact ⟨chain, rfl, rfl, hturn _ hnode hnew, List.forall_mem_cons.mpr
        ⟨.inl hnode, fun f hf => .inr hf⟩⟩
    · have hnone : ¬ (t.find? current).isSome = true := fun h => hnode (hgrown.find?_isSome.mp h)
      have hcontains : ¬ chain.contains current = true := by
        rwa [List.contains_iff_mem]
      rw [if_neg hnone, if_neg hcontains,
        if_neg (by rw [Bool.or_eq_true, not_or]; exact ⟨hnone, hcontains⟩)]
      have hget : left[current]? = some (mapping.getD current 0) := by
        have hD := hleft.2 current
        rw [if_neg hnode] at hD
        rw [Array.getD_eq_getD_getElem?] at hD
        cases hl : left[current]? with
        | none => rw [hl] at hD; exact absurd hD.symm hentry
        | some c => rw [hl] at hD; exact congrArg some hD
      have hsize : current < mapping.size := by
        rw [← hleft.1]
        exact (Array.getElem?_eq_some_iff.mp hget).1
      have hnodup' : (current :: chain).Nodup := List.nodup_cons.mpr ⟨hcurrent, hnodup⟩
      have hnew' : ∀ f ∈ current :: chain, f ∉ t.functions := List.forall_mem_cons.mpr ⟨hnode, hnew⟩
      -- With the caller of the current function known, the current one comes first.
      have hturn' : ∀ known,
          (mapping.getD current 0 = current ∨ mapping.getD current 0 ∈ known) →
          (∀ f ∈ current :: chain, f ∉ known) → InTurn mapping known (current :: chain) := by
        intro known hcaller hknown
        rw [List.forall_mem_cons] at hknown
        refine ⟨hknown.1, hentry, hcaller, hturn _ (by simp) fun f hf => ?_⟩
        rw [List.mem_append, List.mem_singleton, not_or]
        exact ⟨hknown.2 f hf, fun heq => hcurrent (heq ▸ hf)⟩
      obtain ⟨c, hc⟩ := Nat.exists_eq_succ_of_ne_zero hentry
      rw [hget, hc]
      simp only [← hc]
      by_cases hself : mapping.getD current 0 = current
      · rw [if_pos hself, if_pos hself]
        exact ⟨_, rfl, rfl, hturn' _ (.inl hself) hnew', fun f hf => .inr hf⟩
      · rw [if_neg hself, if_neg hself]
        obtain ⟨hcaller, hrank⟩ := horderly current hentry hself
        obtain ⟨chain', h₁, h₂, hin, hmem⟩ := ih hcaller (by rw [List.length_cons]; omega) hnodup'
          (List.forall_mem_cons.mpr ⟨⟨hsize, hrank⟩, fun f hf =>
            ⟨(hlt f hf).1, Nat.lt_trans hrank (hlt f hf).2⟩⟩) hnew' fun known hk =>
            hturn' known (.inr hk)
        exact ⟨chain', h₁, h₂, hin, fun f hf => hmem f (List.mem_cons_of_mem _ hf)⟩

end Walk

/-! ### Trees that follow a mapping -/

/-- Each node but the first is below that of its function's caller, and below the first if the
function was called from outside. -/
structure Follows (t : CallTree) (mapping : Array Nat) : Prop where
  grown : t.IsGrown
  root : t.outline? 0 = some (0, 0, none)
  entry : ∀ f ∈ t.functions, mapping.getD f 0 ≠ 0
  node : ∀ i f level parent, i ≠ 0 → t.outline? i = some (f, level, parent) →
    ∃ p caller level' parent', parent = some p ∧ t.outline? p = some (caller, level', parent') ∧
      if mapping.getD f 0 = f then p = 0 else p ≠ 0 ∧ caller = mapping.getD f 0

theorem follows_root (mapping : Array Nat) : root.Follows mapping where
  grown := ⟨⟨[], rfl, by simp⟩, List.nodup_nil⟩
  root := rfl
  entry f hf := by cases hf
  node i f level parent hi h := absurd (lt_size_of_outline? h) (by
    rw [show root.nodes.size = 1 from rfl]
    omega)

/-- A node under that of the caller, or under the first for a function called from outside. -/
theorem Follows.addNode (h : t.Follows mapping) (hnew : function ∉ t.functions)
    (hentry : mapping.getD function 0 ≠ 0) {caller : Nat} {level : UInt32} {parent' : Option Nat}
    (hparent : t.outline? parent = some (caller, level, parent'))
    (hcaller : if mapping.getD function 0 = function then parent = 0
      else parent ≠ 0 ∧ caller = mapping.getD function 0) :
    (t.addNode function parent).Follows mapping where
  grown := h.grown.addNode hnew
  root := outline?_addNode_of_eq_some h.root
  entry := by
    rw [functions_addNode h.grown]
    intro f hf
    rcases List.mem_append.mp hf with hf | hf
    · exact h.entry f hf
    · rwa [List.mem_singleton.mp hf]
  node i f l q hi hplace := by
    rw [outline?_addNode] at hplace
    -- the node is the new one, or one that was there before
    split at hplace
    · obtain ⟨rfl, h'⟩ := Prod.mk.inj (Option.some.inj hplace)
      obtain rfl := (Prod.mk.inj h').2
      exact ⟨parent, caller, level, parent', rfl, outline?_addNode_of_eq_some hparent, hcaller⟩
    · obtain ⟨p, c, l', q', hq, hp, hc⟩ := h.node i f l q hi hplace
      exact ⟨p, c, l', q', hq, outline?_addNode_of_eq_some hp, hc⟩

/-- A tree that follows a mapping, with what is left of the mapping. -/
structure Growth.Fits (g : Growth) (mapping : Array Nat) : Prop where
  follows : g.tree.Follows mapping
  left : Left mapping g.mapping g.tree

/-- The slot of a function is cleared with its node. -/
theorem Left.addNode {left : Array Nat} (h : Left mapping left t) (hgrown : t.IsGrown) :
    Left mapping (left.setIfInBounds function 0) (t.addNode function parent) := by
  refine ⟨by rw [Array.size_setIfInBounds, h.1], fun f => ?_⟩
  have hold := h.2 f
  rw [Array.getD_eq_getD_getElem?] at hold
  rw [functions_addNode hgrown, Array.getD_eq_getD_getElem?, Array.getElem?_setIfInBounds]
  by_cases hf : function = f
  · subst hf
    rw [if_pos rfl, if_pos (List.mem_append_right _ (List.mem_singleton.mpr rfl))]
    split <;> rfl
  · rw [if_neg hf, hold]
    simp [Ne.symm hf]

/-- The next node of functions that are in turn finds the node of its caller. -/
theorem Growth.Fits.place? {g : Growth} (h : g.Fits mapping) (hnew : function ∉ g.tree.functions)
    (hentry : mapping.getD function 0 ≠ 0)
    (hcaller : mapping.getD function 0 = function ∨ mapping.getD function 0 ∈ g.tree.functions) :
    g.place? function = some (g.place function) ∧ (g.place function).Fits mapping ∧
      (g.place function).tree.functions = g.tree.functions ++ [function] := by
  have hgrown := h.follows.grown
  have hleft : g.mapping.getD function 0 = mapping.getD function 0 := by
    rw [h.left.2, if_neg hnew]
  refine ⟨?_, ⟨?_, h.left.addNode hgrown⟩, functions_addNode hgrown⟩
  · rw [Growth.place?, Growth.place, hleft]
    -- a function called from outside goes under the first node, any other under that of its caller
    by_cases hself : mapping.getD function 0 = function
    · rw [if_pos hself, if_pos hself]
      rfl
    · obtain ⟨p, hp⟩ := Option.isSome_iff_exists.mp
        (hgrown.find?_isSome.mpr (hcaller.resolve_left hself))
      rw [if_neg hself, if_neg hself, hp]
      rfl
  · rw [Growth.place, hleft]
    by_cases hself : mapping.getD function 0 = function
    · rw [if_pos hself]
      exact h.follows.addNode hnew hentry h.follows.root (by rw [if_pos hself])
    · obtain ⟨p, hp⟩ := Option.isSome_iff_exists.mp
        (hgrown.find?_isSome.mpr (hcaller.resolve_left hself))
      obtain ⟨hne, level, parent, hplace⟩ := hgrown.outline?_of_find? hp
      rw [if_neg hself, hp, Option.getD_some]
      exact h.follows.addNode hnew hentry hplace (by rw [if_neg hself]; exact ⟨hne, rfl⟩)

/-- The nodes of functions that are in turn. -/
theorem Growth.Fits.placeAll {g : Growth} (h : g.Fits mapping) {chain : List Nat}
    (hturn : InTurn mapping g.tree.functions chain) :
    chain.foldlM Growth.place? g = some (chain.foldl Growth.place g) ∧
      (chain.foldl Growth.place g).Fits mapping ∧
      (chain.foldl Growth.place g).tree.functions = g.tree.functions ++ chain := by
  induction chain generalizing g with
  | nil => exact ⟨rfl, h, (List.append_nil _).symm⟩
  | cons f rest ih =>
    obtain ⟨hnew, hentry, hcaller, hrest⟩ := hturn
    obtain ⟨hplace, hfits, hfunctions⟩ := h.place? hnew hentry hcaller
    obtain ⟨h₁, h₂, h₃⟩ := ih hfits (by rwa [hfunctions])
    refine ⟨?_, h₂, ?_⟩
    · rw [List.foldlM_cons, hplace]
      exact h₁
    · rw [List.foldl_cons, h₃, hfunctions, List.append_assoc]
      rfl

variable {rank : Nat → Nat}

/-- A function with an entry gets its node, and nobody loses one. -/
theorem Growth.Fits.attach? {g : Growth} (h : g.Fits mapping) (horderly : Orderly mapping rank)
    (function : Nat) :
    g.attach? function = some (g.attach function) ∧ (g.attach function).Fits mapping ∧
      (∀ f ∈ g.tree.functions, f ∈ (g.attach function).tree.functions) ∧
      (mapping.getD function 0 ≠ 0 → function ∈ (g.attach function).tree.functions) := by
  rw [Growth.attach?, Growth.attach]
  -- what has no entry left has its node already, or never had an entry
  by_cases hzero : g.mapping.getD function 0 = 0
  · rw [if_pos hzero, if_pos hzero]
    refine ⟨rfl, h, fun f hf => hf, fun hentry => ?_⟩
    by_contra hnew
    rw [h.left.2, if_neg hnew] at hzero
    exact hentry hzero
  · rw [if_neg hzero, if_neg hzero]
    have hentry : mapping.getD function 0 ≠ 0 := by
      intro hentry
      rw [h.left.2, hentry, ite_self] at hzero
      exact hzero rfl
    have hfuel : mapping.size < g.mapping.size + 1 + ([] : List Nat).length := by
      rw [h.left.1, List.length_nil]
      omega
    -- otherwise the walk meets the callers in turn, up to one that has a node or none
    obtain ⟨chain, hclimb?, hclimb, hturn, hmem⟩ := climb?_eq h.follows.grown h.left horderly hentry
      hfuel List.nodup_nil (by simp) (by simp) fun known _ _ => trivial
    rw [hclimb?, hclimb]
    obtain ⟨h₁, h₂, h₃⟩ := h.placeAll hturn
    refine ⟨h₁, h₂, fun f hf => ?_, fun _ => ?_⟩
    · rw [h₃]
      exact List.mem_append_left _ hf
    · rw [h₃]
      exact List.mem_append.mpr (hmem function (List.mem_singleton.mpr rfl))

/-- All functions in a list that have entries get their nodes. -/
theorem Growth.Fits.attachAll {g : Growth} (h : g.Fits mapping) (horderly : Orderly mapping rank)
    (functions : List Nat) :
    functions.foldlM Growth.attach? g = some (functions.foldl Growth.attach g) ∧
      (functions.foldl Growth.attach g).Fits mapping ∧
      (∀ f ∈ g.tree.functions, f ∈ (functions.foldl Growth.attach g).tree.functions) ∧
      ∀ f ∈ functions, mapping.getD f 0 ≠ 0 →
        f ∈ (functions.foldl Growth.attach g).tree.functions := by
  induction functions generalizing g with
  | nil => exact ⟨rfl, h, fun f hf => hf, by simp⟩
  | cons function rest ih =>
    obtain ⟨hattach, hfits, hkeeps, hgets⟩ := h.attach? horderly function
    obtain ⟨h₁, h₂, h₃, h₄⟩ := ih hfits
    refine ⟨?_, h₂, fun f hf => h₃ f (hkeeps f hf), List.forall_mem_cons.mpr
      ⟨fun hentry => h₃ _ (hgets hentry), h₄⟩⟩
    rw [List.foldlM_cons, hattach]
    exact h₁

section Orderly

variable (horderly : Orderly mapping rank)
include horderly

theorem grow_fits : grow? mapping = some (grow mapping) ∧ (grow mapping).Fits mapping ∧
    ∀ f, f ≠ 0 → mapping.getD f 0 ≠ 0 → f ∈ (ofMapping mapping).functions := by
  have hstart : Growth.Fits ⟨root, mapping⟩ mapping :=
    ⟨follows_root mapping, rfl, fun f => (if_neg (List.not_mem_nil)).symm⟩
  obtain ⟨h₁, h₂, -, h₄⟩ := hstart.attachAll horderly ((List.range mapping.size).drop 1)
  exact ⟨h₁, h₂, fun f hf hentry => h₄ f (mem_drop_range.mpr ⟨hf, lt_size_of_entry hentry⟩) hentry⟩

/-- The tree of an orderly mapping grows without a way out. -/
theorem grow?_eq : grow? mapping = some (grow mapping) := (grow_fits horderly).1

theorem follows_ofMapping : (ofMapping mapping).Follows mapping := (grow_fits horderly).2.1.follows

/-- The functions with a node are those with an entry. -/
theorem mem_functions_ofMapping (hzero : mapping.getD 0 0 = 0) :
    function ∈ (ofMapping mapping).functions ↔ mapping.getD function 0 ≠ 0 := by
  refine ⟨(follows_ofMapping horderly).entry function, fun hentry => ?_⟩
  refine (grow_fits horderly).2.2 function ?_ hentry
  rintro rfl
  exact hentry hzero

end Orderly

end MutationAnalysis.CallTree
