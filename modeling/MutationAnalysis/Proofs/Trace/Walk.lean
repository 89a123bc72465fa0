/-
Walks up the callers, without a bound.

A walk has no bound of its own: it goes on until it comes to a function with a node, to one that it
has met, to one without an entry or to one that was called from outside.  It comes to one of these
in any mapping, since it meets no function twice and all that it passes have entries.  So the steps
that `CallTree.climb` allows are always enough, and a tree grows as it would without a bound.

* `CallTree.Climbs`, `CallTree.Grows`: walks and growth without a bound;
* `CallTree.climbs_iff`: a walk ends, and in what `climb` collects;
* `CallTree.grows_iff`: so does growth, in what `grow` makes;
* `CallTree.Climbs.chained`: what a walk collects, and where it ends.
-/
import MutationAnalysis.Proofs.Trace.Reconstruction
import Mathlib.Data.List.Chain

namespace MutationAnalysis.CallTree

variable {t : CallTree} {mapping left : Array Nat} {chain chain' : List Nat} {current : Nat}

/-! ### Walks -/

/-- From these functions and the current one, a walk collects those functions. -/
inductive Climbs (t : CallTree) (mapping : Array Nat) : List Nat → Nat → List Nat → Prop where
  | known {chain : List Nat} {current : Nat} (hnode : (t.find? current).isSome) :
      Climbs t mapping chain current chain
  | met {chain : List Nat} {current : Nat} (hmet : current ∈ chain) :
      Climbs t mapping chain current chain
  | missing {chain : List Nat} {current : Nat} (hentry : mapping.getD current 0 = 0) :
      Climbs t mapping chain current chain
  | outside {chain : List Nat} {current : Nat} (hnode : ¬ (t.find? current).isSome)
      (hnew : current ∉ chain) (hentry : mapping.getD current 0 ≠ 0)
      (hself : mapping.getD current 0 = current) : Climbs t mapping chain current (current :: chain)
  | up {chain chain' : List Nat} {current : Nat} (hnode : ¬ (t.find? current).isSome)
      (hnew : current ∉ chain) (hentry : mapping.getD current 0 ≠ 0)
      (hcaller : mapping.getD current 0 ≠ current)
      (hrest : Climbs t mapping (current :: chain) (mapping.getD current 0) chain') :
      Climbs t mapping chain current chain'

/-- One step of a walk. -/
theorem climb_succ (t : CallTree) (mapping : Array Nat) (fuel : Nat) (chain : List Nat)
    (current : Nat) :
    t.climb mapping (fuel + 1) chain current =
      if (t.find? current).isSome ∨ current ∈ chain then chain
      else if mapping.getD current 0 = 0 then chain
      else if mapping.getD current 0 = current then current :: chain
      else t.climb mapping fuel (current :: chain) (mapping.getD current 0) := by
  rw [climb, Array.getD_eq_getD_getElem?]
  by_cases hstop : (t.find? current).isSome ∨ current ∈ chain
  · rw [if_pos hstop, if_pos (by simpa using hstop)]
  · rw [if_neg hstop, if_neg (by simpa using hstop)]
    rcases mapping[current]? with _ | _ | caller
    · rfl
    · rfl
    · show (if _ then _ else _) = _
      rw [Option.getD_some, if_neg (Nat.succ_ne_zero caller)]

/-- A walk may take so many steps more as there are entries that it has not met. -/
theorem climbs_climb {fuel : Nat} (hnodup : chain.Nodup) (hlt : ∀ f ∈ chain, f < mapping.size)
    (hfuel : mapping.size < fuel + chain.length) :
    Climbs t mapping chain current (t.climb mapping fuel chain current) := by
  induction fuel generalizing chain current with
  | zero =>
    -- different functions with entries, and more of them than there are entries
    have hsub : chain.Subperm (List.range mapping.size) :=
      List.subperm_of_subset hnodup fun f hf => List.mem_range.mpr (hlt f hf)
    have hle := hsub.length_le
    rw [List.length_range] at hle
    omega
  | succ fuel ih =>
    rw [climb_succ]
    by_cases hstop : (t.find? current).isSome ∨ current ∈ chain
    · rw [if_pos hstop]
      exact hstop.elim .known .met
    · rw [if_neg hstop]
      obtain ⟨hnode, hnew⟩ := not_or.mp hstop
      by_cases hentry : mapping.getD current 0 = 0
      · rw [if_pos hentry]
        exact .missing hentry
      · rw [if_neg hentry]
        by_cases hself : mapping.getD current 0 = current
        · rw [if_pos hself]
          exact .outside hnode hnew hentry hself
        · rw [if_neg hself]
          refine .up hnode hnew hentry hself (ih (List.nodup_cons.mpr ⟨hnew, hnodup⟩)
            (List.forall_mem_cons.mpr ⟨?_, hlt⟩) (by rw [List.length_cons]; omega))
          by_contra hle
          rw [Array.getD_eq_getD_getElem?, Array.getElem?_eq_none (Nat.le_of_not_lt hle)] at hentry
          exact hentry rfl

/-- A walk that ends is found with any number of steps that is large enough. -/
theorem Climbs.eq_climb (h : Climbs t mapping chain current chain') :
    ∃ n, ∀ fuel ≥ n, t.climb mapping fuel chain current = chain' := by
  have hstep : ∀ {chain current chain'} {n : Nat},
      (∀ fuel ≥ n, t.climb mapping (fuel + 1) chain current = chain') →
        ∃ n, ∀ fuel ≥ n, t.climb mapping fuel chain current = chain' := by
    intro chain current chain' n h
    refine ⟨n + 1, fun fuel hfuel => ?_⟩
    obtain ⟨fuel, rfl⟩ := Nat.exists_eq_add_of_le' (Nat.le_trans (Nat.le_add_left 1 n) hfuel)
    exact h fuel (by omega)
  induction h with
  | known hnode => exact hstep fun fuel (_ : fuel ≥ 0) => by rw [climb_succ, if_pos (.inl hnode)]
  | met hmet => exact hstep fun fuel (_ : fuel ≥ 0) => by rw [climb_succ, if_pos (.inr hmet)]
  | missing hentry =>
    exact hstep fun fuel (_ : fuel ≥ 0) => by rw [climb_succ, if_pos hentry, ite_self]
  | outside hnode hnew hentry hself =>
    exact hstep fun fuel (_ : fuel ≥ 0) => by
      rw [climb_succ, if_neg (not_or.mpr ⟨hnode, hnew⟩), if_neg hentry, if_pos hself]
  | up hnode hnew hentry hcaller _ ih =>
    obtain ⟨n, hn⟩ := ih
    exact hstep fun fuel (hfuel : fuel ≥ n) => by
      rw [climb_succ, if_neg (not_or.mpr ⟨hnode, hnew⟩), if_neg hentry, if_neg hcaller,
        hn fuel hfuel]

/-- A walk ends in one way only. -/
theorem Climbs.unique {chain₁ chain₂ : List Nat} (h₁ : Climbs t mapping chain current chain₁)
    (h₂ : Climbs t mapping chain current chain₂) : chain₁ = chain₂ := by
  obtain ⟨n₁, hn₁⟩ := h₁.eq_climb
  obtain ⟨n₂, hn₂⟩ := h₂.eq_climb
  rw [← hn₁ (max n₁ n₂) (Nat.le_max_left _ _), hn₂ (max n₁ n₂) (Nat.le_max_right _ _)]

/-- Whatever the mapping and the tree, a walk ends, and what it collects is what `climb` does. -/
theorem climbs_iff : Climbs t mapping [] current chain' ↔
    chain' = t.climb mapping (mapping.size + 1) [] current := by
  have hclimb : Climbs t mapping [] current (t.climb mapping (mapping.size + 1) [] current) :=
    climbs_climb List.nodup_nil (by simp) (by rw [List.length_nil]; omega)
  exact ⟨fun h => h.unique hclimb, fun h => h ▸ hclimb⟩

/-! ### Growth -/

/-- With the functions one after the other, a tree and its mapping become others.  Functions without
an entry are passed over; for any other one a walk collects the functions that get nodes. -/
inductive Grows : List Nat → Growth → Growth → Prop where
  | done {g : Growth} : Grows [] g g
  | skip {function : Nat} {rest : List Nat} {g g' : Growth} (hentry : g.mapping.getD function 0 = 0)
      (hrest : Grows rest g g') : Grows (function :: rest) g g'
  | attach {function : Nat} {rest chain : List Nat} {g g' : Growth}
      (hentry : g.mapping.getD function 0 ≠ 0) (hclimbs : Climbs g.tree g.mapping [] function chain)
      (hrest : Grows rest (chain.foldl Growth.place g) g') : Grows (function :: rest) g g'

theorem grows_foldl_iff {functions : List Nat} {g g' : Growth} :
    Grows functions g g' ↔ g' = functions.foldl Growth.attach g := by
  constructor
  · intro h
    induction h with
    | done => rfl
    | skip hentry _ ih => rw [ih, List.foldl_cons, Growth.attach, if_pos hentry]
    | attach hentry hclimbs _ ih =>
      rw [ih, List.foldl_cons, Growth.attach, if_neg hentry, climbs_iff.mp hclimbs]
  · rintro rfl
    induction functions generalizing g with
    | nil => exact .done
    | cons function rest ih =>
      rw [List.foldl_cons, Growth.attach]
      by_cases hentry : g.mapping.getD function 0 = 0
      · rw [if_pos hentry]
        exact .skip hentry ih
      · rw [if_neg hentry]
        exact .attach hentry (climbs_iff.mpr rfl) ih

/-- Whatever the mapping, its tree grows to an end, and in one way only. -/
theorem grows_iff {g : Growth} : Grows ((List.range mapping.size).drop 1) ⟨root, mapping⟩ g ↔
    g = grow mapping := grows_foldl_iff

/-! ### What a walk collects -/

/-- Functions with an entry and without a node, each of them but the
first called by the one before. -/
structure Chained (mapping : Array Nat) (t : CallTree) (chain : List Nat) : Prop where
  nodup : chain.Nodup
  new : ∀ f ∈ chain, f ∉ t.functions
  entry : ∀ f ∈ chain, f ≠ 0 ∧ mapping.getD f 0 ≠ 0
  linked : chain.IsChain fun caller f => mapping.getD f 0 = caller

theorem chained_nil (mapping : Array Nat) (t : CallTree) : Chained mapping t [] :=
  ⟨List.nodup_nil, by simp, by simp, .nil⟩

/-- The caller of the last function that a walk met. -/
theorem Chained.cons (h : Chained mapping t chain)
    (hhead : ∀ f ∈ chain.head?, mapping.getD f 0 = current) (hnode : current ∉ t.functions)
    (hnew : current ∉ chain) (hzero : current ≠ 0) (hentry : mapping.getD current 0 ≠ 0) :
    Chained mapping t (current :: chain) where
  nodup := List.nodup_cons.mpr ⟨hnew, h.nodup⟩
  new := List.forall_mem_cons.mpr ⟨hnode, h.new⟩
  entry := List.forall_mem_cons.mpr ⟨⟨hzero, hentry⟩, h.entry⟩
  linked := List.isChain_cons.mpr ⟨hhead, h.linked⟩

/-- A walk collects functions that are called by one another, and ends where the caller of the last
is itself, has a node, has been met or has no entry. -/
theorem Climbs.chained (hclimbs : Climbs t left chain current chain') (hgrown : t.IsGrown)
    (hleft : Left mapping left t) (h : Chained mapping t chain)
    (hhead : ∀ f ∈ chain.head?, mapping.getD f 0 = current) (hzero : current ≠ 0) :
    Chained mapping t chain' ∧ ∀ f ∈ chain'.head?, mapping.getD f 0 = f ∨
      mapping.getD f 0 ∈ t.functions ∨ mapping.getD f 0 ∈ chain' ∨
      mapping.getD (mapping.getD f 0) 0 = 0 := by
  -- what has no node yet has its entry still as it was
  have hentry_of : ∀ {f}, ¬ (t.find? f).isSome = true → f ∉ t.functions ∧
      left.getD f 0 = mapping.getD f 0 := by
    intro f hnode
    rw [hgrown.find?_isSome] at hnode
    exact ⟨hnode, by rw [hleft.2, if_neg hnode]⟩
  induction hclimbs with
  | known hnode =>
    exact ⟨h, fun f hf => .inr (.inl (hhead f hf ▸ hgrown.find?_isSome.mp hnode))⟩
  | met hmet => exact ⟨h, fun f hf => .inr (.inr (.inl (hhead f hf ▸ hmet)))⟩
  | missing hentry =>
    refine ⟨h, fun f hf => ?_⟩
    rw [hhead f hf]
    rw [hleft.2] at hentry
    split at hentry
    · exact .inr (.inl ‹_›)
    · exact .inr (.inr (.inr hentry))
  | outside hnode hnew hentry hself =>
    obtain ⟨hnode, heq⟩ := hentry_of hnode
    rw [heq] at hentry hself
    refine ⟨h.cons hhead hnode hnew hzero hentry, fun f hf => .inl ?_⟩
    rw [← Option.some.inj hf, hself]
  | up hnode hnew hentry _ _ ih =>
    obtain ⟨hnode, heq⟩ := hentry_of hnode
    rw [heq] at hentry ih
    exact ih (h.cons hhead hnode hnew hzero hentry) (fun f hf => by rw [← Option.some.inj hf])
      hentry

end MutationAnalysis.CallTree
