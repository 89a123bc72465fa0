/-
The tree of any mapping.

Nothing is assumed of a mapping: callers may have no entry or be out of range, and they may call
each other in circles.  Each walk up the callers makes nodes for all that it collects, so after
it every function with a node has a caller with a node too, unless the caller has no entry.  Only
the first function of a walk can come under the root because its caller has no node yet, and then
it is on a circle that the walk has gone around.  No other walk comes to that circle again, which
is why each circle is cut once.

* `CallTree.OnCircle`: functions that call each other in a circle;
* `CallTree.IsTreeOf`: what the tree of a mapping is;
* `Growth.Stands.place`: a node more;
* `Growth.Settled.attach`: a walk more;
* `CallTree.IsTreeOf.countsLevels`: levels that do not begin again at zero;
* `CallTree.isTreeOf_ofMapping`: every mapping has its tree.
-/
import MutationAnalysis.Proofs.Trace.Walk
import Mathlib.Logic.Relation

namespace MutationAnalysis.CallTree

open Relation

variable {t : CallTree} {mapping : Array Nat} {f f' function parent : Nat}

/-! ### Circles -/

/-- The mapping has the caller as the entry of the function. -/
def CalledBy (mapping : Array Nat) (f caller : Nat) : Prop :=
  caller ≠ 0 ∧ mapping.getD f 0 = caller

/-- The callers of the function lead to it again, and it is not its own caller. -/
def OnCircle (mapping : Array Nat) (f : Nat) : Prop :=
  mapping.getD f 0 ≠ f ∧ TransGen (CalledBy mapping) f f

theorem CalledBy.unique {c c' : Nat} (h : CalledBy mapping f c) (h' : CalledBy mapping f c') :
    c = c' :=
  h.2.symm.trans h'.2

namespace OnCircle

/-- A circle leads back from each of its functions. -/
theorem back (h : OnCircle mapping f) (hreach : TransGen (CalledBy mapping) f f') :
    TransGen (CalledBy mapping) f' f := by
  -- One step from a function that leads to f gives another one: its only caller is on the way.
  have hstep : ∀ {a b}, TransGen (CalledBy mapping) a f → CalledBy mapping a b →
      TransGen (CalledBy mapping) b f := by
    intro a b ha hab
    obtain ⟨c, hac, hcf⟩ := TransGen.head'_iff.mp ha
    obtain rfl := hac.unique hab
    exact (reflTransGen_iff_eq_or_transGen.mp hcf).elim (fun heq => heq ▸ h.2) id
  induction hreach with
  | single hb => exact hstep h.2 hb
  | tail _ hbc ih => exact hstep ih hbc

theorem of_reach (h : OnCircle mapping f) (hreach : TransGen (CalledBy mapping) f f') :
    OnCircle mapping f' := by
  refine ⟨fun hself => ?_, (h.back hreach).trans hreach⟩
  -- a function that is its own caller leads nowhere else
  have hstay : ∀ {c}, TransGen (CalledBy mapping) f' c → c = f' := by
    intro c hc
    induction hc with
    | single hb => exact hb.2.symm.trans hself
    | tail _ hbc ih => exact hbc.2.symm.trans (ih ▸ hself)
  obtain rfl := hstay (h.back hreach)
  exact h.1 hself

theorem entry (h : OnCircle mapping f) : mapping.getD f 0 ≠ 0 := by
  obtain ⟨c, hc, -⟩ := TransGen.head'_iff.mp h.2
  rw [hc.2]
  exact hc.1

theorem calledBy (h : OnCircle mapping f) : CalledBy mapping f (mapping.getD f 0) := ⟨h.entry, rfl⟩

theorem caller (h : OnCircle mapping f) : OnCircle mapping (mapping.getD f 0) :=
  h.of_reach (.single h.calledBy)

theorem ne_zero (h : OnCircle mapping f) : f ≠ 0 := by
  obtain ⟨c, -, hc⟩ := TransGen.tail'_iff.mp h.2
  exact hc.1

end OnCircle

namespace Chained

variable {rest : List Nat}

theorem tail (h : Chained mapping t (f :: rest)) : Chained mapping t rest where
  nodup := (List.nodup_cons.mp h.nodup).2
  new := (List.forall_mem_cons.mp h.new).2
  entry := (List.forall_mem_cons.mp h.entry).2
  linked := h.linked.tail

/-- All but the first are called by another one. -/
theorem caller_mem (h : Chained mapping t (f :: rest)) (hf' : f' ∈ rest) :
    mapping.getD f' 0 ∈ f :: rest := by
  induction rest generalizing f with
  | nil => cases hf'
  | cons f₁ rest ih =>
    rcases List.mem_cons.mp hf' with rfl | hf'
    · rw [h.linked.rel]
      exact List.mem_cons_self
    · exact List.mem_cons_of_mem _ (ih h.tail hf')

/-- A walk that meets the caller of the last function again has gone around a circle. -/
theorem onCircle (h : Chained mapping t (f :: rest))
    (hself : mapping.getD f 0 ≠ f) (hmet : mapping.getD f 0 ∈ f :: rest) : OnCircle mapping f := by
  have hlead : ∀ {f rest}, Chained mapping t (f :: rest) → ∀ f' ∈ rest,
      TransGen (CalledBy mapping) f' f := by
    intro f rest h f' hf'
    induction rest generalizing f with
    | nil => cases hf'
    | cons f₁ rest ih =>
      have hfirst : CalledBy mapping f₁ f := ⟨(h.entry f List.mem_cons_self).1, h.linked.rel⟩
      rcases List.mem_cons.mp hf' with rfl | hf'
      · exact .single hfirst
      · exact (ih h.tail hf').tail hfirst
  have hback := hlead h _ ((List.mem_cons.mp hmet).resolve_left hself)
  exact ⟨hself, .head ⟨(h.entry f List.mem_cons_self).2, rfl⟩ hback⟩

end Chained

/-! ### Trees of mappings -/

/-- The number of a node's parent. -/
def parent? (t : CallTree) (i : Nat) : Option Nat := (t.nodes[i]?).bind (·.parent)

/-- The children of a node. -/
def children? (t : CallTree) (i : Nat) : Option (List Nat) := (t.nodes[i]?).map (·.children)

/-- The function has a node, whose parent is the root. -/
def UnderRoot (t : CallTree) (f : Nat) : Prop := (f, some 0) ∈ t.links

theorem underRoot_of_parent {i : Nat} {n : CallNode} (hn : t.nodes[i]? = some n)
    (hroot : n.parent = some 0) : t.UnderRoot n.function := by
  rw [UnderRoot, links, ← hroot]
  exact List.mem_map_of_mem (f := fun n => (n.function, n.parent))
    (Array.mem_toList_iff.mpr (Array.mem_of_getElem? hn))

/-- A tree with a node of every function with an entry.  Nodes come after their parents and one
level below them, and they are once among the children of their parents and of no other node.  Each
node is under that of its function's caller, or else under the root: if the function is its own
caller, if the caller has no entry, and for one function of every circle. -/
structure IsTreeOf (t : CallTree) (mapping : Array Nat) : Prop where
  root : ∃ children, t.nodes[0]? = some ⟨0, 0, none, children⟩
  nodup : t.functions.Nodup
  mem_functions : ∀ f, f ∈ t.functions ↔ f ≠ 0 ∧ mapping.getD f 0 ≠ 0
  node : ∀ i n, i ≠ 0 → t.nodes[i]? = some n → ∃ p parent, n.parent = some p ∧ p < i ∧
    t.nodes[p]? = some parent ∧ n.level = parent.level + 1 ∧
    (p ≠ 0 → parent.function = mapping.getD n.function 0)
  children : ∀ p parent, t.nodes[p]? = some parent → ∀ i,
    parent.children.count i = if t.parent? i = some p then 1 else 0
  underRoot_iff : ∀ f ∈ t.functions, ¬ OnCircle mapping f →
    (t.UnderRoot f ↔ mapping.getD f 0 = f ∨ mapping.getD (mapping.getD f 0) 0 = 0)
  circle : ∀ f, OnCircle mapping f → ∃! c, TransGen (CalledBy mapping) f c ∧ t.UnderRoot c

/-! ### Children -/

theorem exists_node_of_outline? {i : Nat} {level : UInt32} {parent : Option Nat}
    (h : t.outline? i = some (f, level, parent)) :
    ∃ n, t.nodes[i]? = some n ∧ n.function = f ∧ n.level = level ∧ n.parent = parent := by
  obtain ⟨n, hn, heq⟩ := Option.map_eq_some_iff.mp h
  simpa [hn] using heq

/-- Every node is once among the children of its parent, and of no other node. -/
def CountsChildren (t : CallTree) : Prop :=
  ∀ p children, t.children? p = some children → ∀ i,
    children.count i = if t.parent? i = some p then 1 else 0

theorem parent?_eq (t : CallTree) (i : Nat) : t.parent? i = (t.outline? i).bind (·.2.2) := by
  rw [parent?, outline?, Option.bind_map]
  rfl

theorem parent?_addNode (t : CallTree) (function parent i : Nat) :
    (t.addNode function parent).parent? i = if i = t.nodes.size then some parent
      else t.parent? i := by
  rw [parent?_eq, outline?_addNode, parent?_eq]
  split <;> rfl

theorem children?_addNode (t : CallTree) (function parent i : Nat) :
    (t.addNode function parent).children? i = if i = t.nodes.size then some []
      else (t.children? i).map fun children =>
        if i = parent then children ++ [t.nodes.size] else children := by
  rw [children?, children?, addNode]
  dsimp only
  rw [Array.getElem?_push, Array.size_modify]
  split
  · rfl
  · rw [Array.getElem?_modify]
    cases t.nodes[i]? with
    | none => split <;> rfl
    | some n =>
      by_cases heq : parent = i
      · subst heq
        simp
      · simp [heq, Ne.symm heq]

theorem parent?_eq_none {i : Nat} (h : t.nodes.size ≤ i) : t.parent? i = none := by
  rw [parent?, Array.getElem?_eq_none h]
  rfl

/-- A node comes to the children of its parent, and has none itself. -/
theorem CountsChildren.addNode (h : t.CountsChildren) (hparent : parent < t.nodes.size)
    (hlt : ∀ i p, t.parent? i = some p → p < t.nodes.size) :
    (t.addNode function parent).CountsChildren := by
  intro p children hp i
  rw [children?_addNode] at hp
  rw [parent?_addNode]
  split at hp
  · -- the new node: it is nobody's parent
    rename_i hsize
    obtain rfl := Option.some.inj hp
    rw [List.count_nil, if_neg]
    split
    · exact fun heq => Nat.ne_of_lt hparent ((Option.some.inj heq).trans hsize)
    · exact fun heq => Nat.ne_of_lt (hlt i p heq) hsize
  · obtain ⟨old, hold, rfl⟩ := Option.map_eq_some_iff.mp hp
    have hcount := h p old hold
    have hsize : old.count t.nodes.size = 0 := by
      rw [hcount, parent?_eq_none (Nat.le_refl _)]
      rfl
    by_cases hi : i = t.nodes.size
    · subst hi
      rw [if_pos rfl]
      by_cases heq : p = parent
      · subst heq
        rw [if_pos rfl, if_pos rfl, List.count_append, hsize, List.count_singleton_self]
      · rw [if_neg heq, hsize, if_neg fun h => heq (Option.some.inj h).symm]
    · rw [if_neg hi, ← hcount]
      split
      · rw [List.count_append, List.count_singleton, if_neg (by simpa using Ne.symm hi),
          Nat.add_zero]
      · rfl

/-! ### A node more -/

theorem underRoot_addNode : (t.addNode function parent).UnderRoot f ↔
    t.UnderRoot f ∨ f = function ∧ parent = 0 := by
  rw [UnderRoot, links_addNode, List.mem_append, List.mem_singleton, Prod.mk.injEq, Option.some_inj,
    eq_comm (a := 0)]
  rfl

/-- A tree in the making, of a mapping that may have circles. -/
structure Growth.Stands (g : Growth) (mapping : Array Nat) : Prop where
  grown : g.tree.IsGrown
  left : Left mapping g.mapping g.tree
  entry : ∀ f ∈ g.tree.functions, f ≠ 0 ∧ mapping.getD f 0 ≠ 0
  root : g.tree.outline? 0 = some (0, 0, none)
  node : ∀ i f level parent, i ≠ 0 → g.tree.outline? i = some (f, level, parent) →
    ∃ p caller level' parent', parent = some p ∧ p < i ∧
      g.tree.outline? p = some (caller, level', parent') ∧ level = level' + 1 ∧
      (p ≠ 0 → caller = mapping.getD f 0)
  children : g.tree.CountsChildren
  underRoot : ∀ f, g.tree.UnderRoot f →
    mapping.getD f 0 = f ∨ mapping.getD (mapping.getD f 0) 0 = 0 ∨ OnCircle mapping f
  outside : ∀ f ∈ g.tree.functions,
    mapping.getD f 0 = f ∨ mapping.getD (mapping.getD f 0) 0 = 0 → g.tree.UnderRoot f

namespace Growth.Stands

variable {g : Growth}

/-- Parents are nodes. -/
theorem parent_lt (h : g.Stands mapping) {i p : Nat} (hp : g.tree.parent? i = some p) :
    p < g.tree.nodes.size := by
  rw [parent?_eq] at hp
  obtain ⟨⟨f, level, parent⟩, hi, hparent⟩ := Option.bind_eq_some_iff.mp hp
  by_cases hzero : i = 0
  · subst hzero
    rw [h.root] at hi
    obtain rfl : none = parent := (Prod.mk.inj (Prod.mk.inj (Option.some.inj hi)).2).2
    cases hparent
  · obtain ⟨q, caller, level', parent', hq, -, hplace, -⟩ := h.node i f level parent hzero hi
    obtain rfl := Option.some.inj (hq.symm.trans hparent)
    exact lt_size_of_outline? hplace

/-- The node of a function is put under that of its caller, or under the root. -/
theorem place_eq (h : g.Stands mapping) (hnew : f ∉ g.tree.functions) : ∃ p,
    g.place f = ⟨g.tree.addNode f p, g.mapping.setIfInBounds f 0⟩ ∧
    (∃ caller level parent, g.tree.outline? p = some (caller, level, parent) ∧
      (p ≠ 0 → caller = mapping.getD f 0)) ∧
    (p = 0 ↔ mapping.getD f 0 = f ∨ mapping.getD f 0 ∉ g.tree.functions) := by
  have hleft : g.mapping.getD f 0 = mapping.getD f 0 := by rw [h.left.2, if_neg hnew]
  rw [Growth.place, hleft]
  by_cases hself : mapping.getD f 0 = f
  · rw [if_pos hself]
    exact ⟨0, rfl, ⟨_, _, _, h.root, fun hne => absurd rfl hne⟩, iff_of_true rfl (.inl hself)⟩
  · rw [if_neg hself]
    cases hfind : g.tree.find? (mapping.getD f 0) with
    | none =>
      have hnode : mapping.getD f 0 ∉ g.tree.functions := by
        rw [← h.grown.find?_isSome, hfind]
        exact Bool.false_ne_true
      exact ⟨0, rfl, ⟨_, _, _, h.root, fun hne => absurd rfl hne⟩, iff_of_true rfl (.inr hnode)⟩
    | some p =>
      obtain ⟨hne, level, parent, hplace⟩ := h.grown.outline?_of_find? hfind
      have hnode : mapping.getD f 0 ∈ g.tree.functions := by
        rw [← h.grown.find?_isSome, hfind]
        rfl
      exact ⟨p, rfl, ⟨_, level, parent, hplace, fun _ => rfl⟩,
        iff_of_false hne (not_or.mpr ⟨hself, not_not.mpr hnode⟩)⟩

/-- A function gets its node.  If its caller has an entry but no node, they are on a circle. -/
theorem place (h : g.Stands mapping) (hnew : f ∉ g.tree.functions)
    (hentry : f ≠ 0 ∧ mapping.getD f 0 ≠ 0)
    (hcut : mapping.getD f 0 ≠ f → mapping.getD f 0 ∉ g.tree.functions →
      mapping.getD (mapping.getD f 0) 0 = 0 ∨ OnCircle mapping f) :
    (g.place f).Stands mapping ∧ (g.place f).tree.functions = g.tree.functions ++ [f] ∧
      ∀ f', (g.place f).tree.UnderRoot f' ↔ g.tree.UnderRoot f' ∨
        f' = f ∧ (mapping.getD f 0 = f ∨ mapping.getD f 0 ∉ g.tree.functions) := by
  -- the node goes under that of the caller, or under the first one
  obtain ⟨p, hplace, ⟨caller, level, parent, hp, hcaller⟩, hroot⟩ := h.place_eq hnew
  have hfunctions : (g.tree.addNode f p).functions = g.tree.functions ++ [f] :=
    functions_addNode h.grown
  have hunder : ∀ f', (g.tree.addNode f p).UnderRoot f' ↔ g.tree.UnderRoot f' ∨
      f' = f ∧ (mapping.getD f 0 = f ∨ mapping.getD f 0 ∉ g.tree.functions) := fun f' => by
    rw [underRoot_addNode, hroot]
  rw [hplace]
  refine ⟨?_, hfunctions, hunder⟩
  exact {
    grown := h.grown.addNode hnew
    left := h.left.addNode h.grown
    entry := by
      rw [hfunctions]
      intro f' hf'
      rcases List.mem_append.mp hf' with hf' | hf'
      · exact h.entry f' hf'
      · rwa [List.mem_singleton.mp hf']
    root := outline?_addNode_of_eq_some h.root
    node := by
      intro i f' level' parent' hi hplace'
      rw [outline?_addNode] at hplace'
      -- the node is the new one, or one that was there before
      split at hplace'
      · rename_i hsize
        obtain ⟨n, hn, -, rfl, -⟩ := exists_node_of_outline? hp
        rw [hn] at hplace'
        obtain ⟨rfl, hrest⟩ := Prod.mk.inj (Option.some.inj hplace')
        obtain ⟨rfl, rfl⟩ := Prod.mk.inj hrest
        exact ⟨p, caller, n.level, parent, rfl, hsize ▸ lt_size_of_outline? hp,
          outline?_addNode_of_eq_some hp, rfl, hcaller⟩
      · obtain ⟨q, c, l, q', hq, hlt, hplace', hl, hc⟩ := h.node i f' level' parent' hi hplace'
        exact ⟨q, c, l, q', hq, hlt, outline?_addNode_of_eq_some hplace', hl, hc⟩
    children := h.children.addNode (lt_size_of_outline? hp) fun i q hq => h.parent_lt hq
    underRoot := by
      intro f' hf'
      rcases (hunder f').mp hf' with hf' | ⟨rfl, hself | hnode⟩
      · exact h.underRoot f' hf'
      · exact .inl hself
      · by_cases hself : mapping.getD f' 0 = f'
        · exact .inl hself
        · exact .inr (hcut hself hnode)
    outside := by
      rw [hfunctions]
      intro f' hf' hout
      rw [hunder]
      rcases List.mem_append.mp hf' with hf' | hf'
      · exact .inl (h.outside f' hf' hout)
      · obtain rfl := List.mem_singleton.mp hf'
        exact .inr ⟨rfl, hout.imp_right fun hzero hnode => (h.entry _ hnode).2 hzero⟩ }

/-- Functions each of which is called by the one before get nodes under those of their callers. -/
theorem foldl_place {rest : List Nat} (h : g.Stands mapping) (hf : f ∈ g.tree.functions)
    (hnew : ∀ f' ∈ rest, f' ∉ g.tree.functions)
    (hchained : Chained mapping t (f :: rest)) :
    (rest.foldl Growth.place g).Stands mapping ∧
      (rest.foldl Growth.place g).tree.functions = g.tree.functions ++ rest ∧
      ∀ f', (rest.foldl Growth.place g).tree.UnderRoot f' ↔ g.tree.UnderRoot f' := by
  induction rest generalizing g f with
  | nil => exact ⟨h, (List.append_nil _).symm, fun f' => Iff.rfl⟩
  | cons f₁ rest ih =>
    rw [List.forall_mem_cons] at hnew
    have hcaller : mapping.getD f₁ 0 = f := hchained.linked.rel
    have hnodup := List.nodup_cons.mp hchained.nodup
    have hself : f ≠ f₁ := fun heq => hnodup.1 (heq ▸ List.mem_cons_self)
    have htail := hchained.tail
    obtain ⟨hstands, hfunctions, hunder⟩ := h.place hnew.1 (htail.entry f₁ List.mem_cons_self)
      fun _ hnode => absurd (hcaller ▸ hf) hnode
    obtain ⟨h₁, h₂, h₃⟩ := ih hstands (by rw [hfunctions]; simp) (fun f' hf' => by
      rw [hfunctions, List.mem_append, List.mem_singleton, not_or]
      exact ⟨hnew.2 f' hf', fun heq => (List.nodup_cons.mp hnodup.2).1 (heq ▸ hf')⟩) htail
    refine ⟨h₁, ?_, fun f' => ?_⟩
    · rw [List.foldl_cons, h₂, hfunctions, List.append_assoc]
      rfl
    · rw [List.foldl_cons, h₃, hunder, hcaller]
      exact or_iff_left fun hf' => hf'.2.elim hself fun hnode => hnode hf

end Growth.Stands

/-! ### A walk more -/

/-- Between two walks, a caller with an entry has a node if a function that it calls has one, and of
the functions on a circle at most one is under the root. -/
structure Growth.Settled (g : Growth) (mapping : Array Nat) : Prop extends g.Stands mapping where
  closed : ∀ f ∈ g.tree.functions, mapping.getD f 0 ∈ g.tree.functions ∨
    mapping.getD (mapping.getD f 0) 0 = 0
  single : ∀ f f', g.tree.UnderRoot f → g.tree.UnderRoot f' → OnCircle mapping f →
    TransGen (CalledBy mapping) f f' → f = f'

theorem mem_functions_of_underRoot (h : t.IsGrown) (hf : t.UnderRoot f) : f ∈ t.functions := by
  obtain ⟨rest, hlinks, -⟩ := h.links
  rw [UnderRoot, hlinks] at hf
  rw [functions_eq, hlinks]
  rcases List.mem_cons.mp hf with heq | hf
  · cases heq
  · exact List.mem_map_of_mem hf

namespace Growth.Settled

variable {g : Growth}

/-- With one function of a circle all of them have nodes. -/
theorem mem_of_onCircle (h : g.Settled mapping) (hf : f ∈ g.tree.functions)
    (hcircle : OnCircle mapping f)
    (hreach : TransGen (CalledBy mapping) f f') : f' ∈ g.tree.functions := by
  have hstep : ∀ {a b}, OnCircle mapping a → a ∈ g.tree.functions → CalledBy mapping a b →
      b ∈ g.tree.functions := by
    intro a b ha hmem hb
    rw [← hb.2]
    exact (h.closed a hmem).resolve_right ha.caller.entry
  induction hreach with
  | single hb => exact hstep hcircle hf hb
  | tail hab hbc ih => exact hstep (hcircle.of_reach hab) ih hbc

/-- A function with an entry gets a node, and so do the callers that a walk collects. -/
theorem attach (h : g.Settled mapping) (hzero : f ≠ 0) : (g.attach f).Settled mapping := by
  rw [Growth.attach]
  split
  · exact h
  · have hclimbs := climbs_iff.mpr (rfl : g.tree.climb g.mapping (g.mapping.size + 1) [] f = _)
    obtain ⟨hchained, hend⟩ :=
      hclimbs.chained h.grown h.left (chained_nil mapping g.tree) (by simp) hzero
    generalize g.tree.climb g.mapping (g.mapping.size + 1) [] f = chain at hchained hend
    cases chain with
    | nil => exact h
    | cons head rest =>
      have hhead := hend head rfl
      have hnew := List.forall_mem_cons.mp hchained.new
      have hnodup := List.nodup_cons.mp hchained.nodup
      -- the first node may be under the root, and only there can a circle be cut
      obtain ⟨hplace, hfunctions, hunder⟩ := h.toStands.place hnew.1
        (hchained.entry head List.mem_cons_self) fun hself hnode => by
          rcases hhead with heq | hmem | hmet | hmissing
          · exact absurd heq hself
          · exact absurd hmem hnode
          · exact .inr (hchained.onCircle hself hmet)
          · exact .inl hmissing
      obtain ⟨hstands, hall, hunder'⟩ := hplace.foldl_place (by rw [hfunctions]; simp)
        (fun f' hf' => by
          rw [hfunctions, List.mem_append, List.mem_singleton, not_or]
          exact ⟨hnew.2 f' hf', fun heq => hnodup.1 (heq ▸ hf')⟩) hchained
      rw [hfunctions, List.append_assoc, List.singleton_append] at hall
      rw [List.foldl_cons]
      refine ⟨hstands, ?_, ?_⟩
      · rw [hall]
        intro f' hf'
        rcases List.mem_append.mp hf' with hf' | hf'
        · exact (h.closed f' hf').imp_left fun hmem => List.mem_append_left _ hmem
        · rcases List.mem_cons.mp hf' with rfl | hf'
          · rcases hhead with heq | hmem | hmet | hmissing
            · rw [heq]
              exact .inl (List.mem_append_right _ List.mem_cons_self)
            · exact .inl (List.mem_append_left _ hmem)
            · exact .inl (List.mem_append_right _ hmet)
            · exact .inr hmissing
          · exact .inl (List.mem_append_right _ (hchained.caller_mem hf'))
      · -- a function of a circle whose functions have nodes is not new
        have hold : ∀ {a b}, g.tree.UnderRoot a → OnCircle mapping a →
            TransGen (CalledBy mapping) a b → b ≠ head := by
          intro a b ha hcircle hreach heq
          exact hnew.1 (heq ▸ h.mem_of_onCircle (mem_functions_of_underRoot h.grown ha)
            hcircle hreach)
        intro a b ha hb hcircle hreach
        rw [hunder', hunder] at ha hb
        rcases ha with ha | ⟨rfl, -⟩ <;> rcases hb with hb | ⟨rfl, -⟩
        · exact h.single a b ha hb hcircle hreach
        · exact absurd rfl (hold ha hcircle hreach)
        · exact absurd rfl (hold hb (hcircle.of_reach hreach) (hcircle.back hreach))
        · rfl

/-- Callers come before the functions that they call, so a circle cannot go on without the root. -/
theorem exists_underRoot (h : g.Settled mapping) (hf : f ∈ g.tree.functions)
    (hcircle : OnCircle mapping f) :
    ∃ c, TransGen (CalledBy mapping) f c ∧ g.tree.UnderRoot c := by
  obtain ⟨i, level, parent, hi, hplace⟩ := mem_functions.mp hf
  induction i using Nat.strong_induction_on generalizing f level parent with
  | _ i ih =>
    obtain ⟨p, caller, level', parent', rfl, hlt, hparent, -, hcaller⟩ :=
      h.node i f level parent hi hplace
    by_cases hp : p = 0
    · subst hp
      refine ⟨f, hcircle.2, ?_⟩
      obtain ⟨n, hn, rfl, -, hroot⟩ := exists_node_of_outline? hplace
      exact underRoot_of_parent hn hroot
    · rw [hcaller hp] at hparent
      obtain ⟨c, hc, hunder⟩ :=
        ih p hlt (mem_functions.mpr ⟨p, _, _, hp, hparent⟩) hcircle.caller _ _ hp hparent
      exact ⟨c, .head hcircle.calledBy hc, hunder⟩

/-- Once all functions with an entry have nodes, the tree is that of the mapping. -/
theorem isTreeOf (h : g.Settled mapping)
    (hall : ∀ f, f ≠ 0 → mapping.getD f 0 ≠ 0 → f ∈ g.tree.functions) :
    g.tree.IsTreeOf mapping where
  root := by
    obtain ⟨⟨f, level, parent, children⟩, hn, rfl, rfl, rfl⟩ := exists_node_of_outline? h.root
    exact ⟨children, hn⟩
  nodup := h.grown.nodup
  mem_functions f := ⟨h.entry f, fun hf => hall f hf.1 hf.2⟩
  node i n hi hn := by
    have hplace : g.tree.outline? i = some (n.function, n.level, n.parent) := by
      rw [outline?, hn]
      rfl
    obtain ⟨p, caller, level', parent', hp, hlt, hparent, hlevel, hcaller⟩ :=
      h.node i _ _ _ hi hplace
    obtain ⟨m, hm, rfl, rfl, -⟩ := exists_node_of_outline? hparent
    exact ⟨p, m, hp, hlt, hm, hlevel, hcaller⟩
  children p parent hp := h.children p _ (by rw [children?, hp]; rfl)
  underRoot_iff f hf hcircle := by
    refine ⟨fun hunder => ?_, h.outside f hf⟩
    exact (h.underRoot f hunder).imp_right fun hor => hor.resolve_right hcircle
  circle f hcircle := by
    have hf := hall f hcircle.ne_zero hcircle.entry
    obtain ⟨c, hc, hunder⟩ := h.exists_underRoot hf hcircle
    refine ⟨c, ⟨hc, hunder⟩, fun c' hc' => ?_⟩
    exact (h.single c c' hunder hc'.2 (hcircle.of_reach hc) ((hcircle.back hc).trans hc'.1)).symm

end Growth.Settled

/-! ### All walks -/

theorem settled_root (mapping : Array Nat) : (⟨root, mapping⟩ : Growth).Settled mapping where
  grown := ⟨⟨[], rfl, by simp⟩, List.nodup_nil⟩
  left := ⟨rfl, fun f => (if_neg List.not_mem_nil).symm⟩
  entry f hf := absurd hf List.not_mem_nil
  root := rfl
  node i f level parent hi hplace := absurd (lt_size_of_outline? hplace) (by
    rw [show root.nodes.size = 1 from rfl]
    omega)
  children p children hp i := by
    have hnone : root.parent? i = none := by
      cases i with
      | zero => rfl
      | succ i => exact parent?_eq_none (Nat.succ_le_succ (Nat.zero_le i))
    obtain ⟨n, hn, rfl⟩ := Option.map_eq_some_iff.mp hp
    obtain ⟨hlt, rfl⟩ := Array.getElem?_eq_some_iff.mp hn
    obtain rfl : p = 0 := Nat.lt_one_iff.mp hlt
    rw [hnone]
    rfl
  underRoot f hf := by
    rcases List.mem_cons.mp hf with heq | hf
    · cases heq
    · cases hf
  outside f hf := absurd hf List.not_mem_nil
  closed f hf := absurd hf List.not_mem_nil
  single f f' hf := by
    rcases List.mem_cons.mp hf with heq | hf
    · cases heq
    · cases hf

theorem settled_grow (mapping : Array Nat) : (grow mapping).Settled mapping := by
  have hfold : ∀ (functions : List Nat) (g : Growth), 0 ∉ functions → g.Settled mapping →
      (functions.foldl Growth.attach g).Settled mapping := by
    intro functions
    induction functions with
    | nil => exact fun g _ h => h
    | cons f rest ih =>
      intro g hzero h
      rw [List.mem_cons, not_or] at hzero
      exact ih _ hzero.2 (h.attach (Ne.symm hzero.1))
  exact hfold _ _ (fun hmem => (mem_drop_range.mp hmem).1 rfl) (settled_root mapping)

/-- Whatever the mapping, what grows is its tree. -/
theorem isTreeOf_grow (mapping : Array Nat) : (grow mapping).tree.IsTreeOf mapping :=
  (settled_grow mapping).isTreeOf fun _ => mem_functions_of_entry

/-! ### Levels -/

/-- Levels do not begin again at zero: a node is one further from the root than its parent. -/
def CountsLevels (t : CallTree) : Prop :=
  ∀ (i p : Nat) (n parent : CallNode), t.nodes[i]? = some n → n.parent = some p →
    t.nodes[p]? = some parent → n.level.toNat = parent.level.toNat + 1

namespace IsTreeOf

variable (h : t.IsTreeOf mapping) {i : Nat} {n : CallNode}

include h

/-- There are fewer nodes below the root than slots. -/
theorem lt_size (hi : i ≠ 0) (hn : t.nodes[i]? = some n) : i < mapping.size := by
  have hsub : t.functions.Subperm ((List.range mapping.size).drop 1) :=
    List.subperm_of_subset h.nodup fun f hf => by
      obtain ⟨hzero, hentry⟩ := (h.mem_functions f).mp hf
      exact mem_drop_range.mpr ⟨hzero, lt_size_of_entry hentry⟩
  have hle := hsub.length_le
  have hlt := (Array.getElem?_eq_some_iff.mp hn).1
  rw [functions, List.length_map, List.length_drop, Array.length_toList, List.length_drop,
    List.length_range] at hle
  omega

/-- A level is at most the number of its node, because parents have smaller numbers. -/
theorem level_le (hn : t.nodes[i]? = some n) : n.level.toNat ≤ i := by
  induction i using Nat.strong_induction_on generalizing n with
  | _ i ih =>
    by_cases hi : i = 0
    · subst hi
      obtain ⟨children, hroot⟩ := h.root
      obtain rfl := Option.some.inj (hroot.symm.trans hn)
      exact Nat.le_refl 0
    · obtain ⟨p, parent, -, hlt, hparent, hlevel, -⟩ := h.node i n hi hn
      have hle := ih p hlt hparent
      rw [hlevel, UInt32.toNat_add]
      calc (parent.level.toNat + 1) % 2 ^ 32
        _ ≤ parent.level.toNat + 1 := Nat.mod_le ..
        _ ≤ i := by omega

/-- With no more slots than there are words, no level is too great for one. -/
theorem countsLevels (hsize : mapping.size ≤ UInt32.size) : t.CountsLevels := by
  intro i p n parent hn hp hparent
  have hi : i ≠ 0 := by
    rintro rfl
    obtain ⟨children, hroot⟩ := h.root
    obtain rfl := Option.some.inj (hroot.symm.trans hn)
    cases hp
  obtain ⟨p', parent', hp', hlt, hparent', hlevel, -⟩ := h.node i n hi hn
  obtain rfl := Option.some.inj (hp'.symm.trans hp)
  obtain rfl := Option.some.inj (hparent'.symm.trans hparent)
  have hbound : parent'.level.toNat + 1 < UInt32.size := by
    have hle := h.level_le hparent
    have hslot := h.lt_size hi hn
    omega
  rw [hlevel, UInt32.toNat_add]
  exact Nat.mod_eq_of_lt hbound

end IsTreeOf

/-! ### All mappings -/

/-- Whatever the mapping, growth comes to an end, in the tree of the mapping, and clears the slots
of the functions that have nodes there and no others.  A mapping with no more slots than there are
32-bit words has levels that count how far its nodes are from the root. -/
theorem isTreeOf_ofMapping (mapping : Array Nat) :
    (∀ g, Grows ((List.range mapping.size).drop 1) ⟨root, mapping⟩ g ↔ g = grow mapping) ∧
      (ofMapping mapping).IsTreeOf mapping ∧
      Left mapping (grow mapping).mapping (ofMapping mapping) ∧
      (mapping.size ≤ UInt32.size → (ofMapping mapping).CountsLevels) :=
  ⟨fun _ => grows_iff, isTreeOf_grow mapping, (settled_grow mapping).left,
    (isTreeOf_grow mapping).countsLevels⟩

/-- A circle of three functions that a fourth leads to, a caller that
never ran, and one out of range. -/
example : (ofMapping #[0, 1, 1, 4, 5, 6, 4, 0, 7, 99]).links =
    [(0, none), (1, some 0), (2, some 1), (6, some 0), (5, some 3), (4, some 4),
      (3, some 5), (8, some 0), (9, some 0)] := by decide +kernel

end MutationAnalysis.CallTree
