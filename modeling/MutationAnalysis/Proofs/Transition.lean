/-
Systems that run step by step, and simulation between them.

A step takes a state to the next one or ends with a result.  `Reaches` follows steps; `Ends n s r`
says that the n-th step from `s` ends with `r`.  Of two systems whose states are related so that
every step of the first is matched by one or more of the second, each ends as the other does, unless
one of them ends with a result that is left aside (`Matches`).

* `Ends.unique`: a system ends in one way at most;
* `Ends.forward`, `Ends.backward`: what one of two related systems ends with, the other does too.
-/
import Mathlib.Logic.Relation
import Mathlib.Tactic.Common

namespace MutationAnalysis

section

variable {S R : Type} {step : S → S ⊕ R} {s t u : S} {r r' : R} {m n : Nat}

/-- Follows any number of steps. -/
def Reaches (step : S → S ⊕ R) : S → S → Prop :=
  Relation.ReflTransGen fun s t => step s = .inl t

/-- Follows one step or more. -/
def Advances (step : S → S ⊕ R) : S → S → Prop :=
  Relation.TransGen fun s t => step s = .inl t

/-- The step of the given number, counted from one, ends with a result. -/
inductive Ends (step : S → S ⊕ R) : Nat → S → R → Prop
  | halt {s : S} {r : R} (h : step s = .inr r) : Ends step 1 s r
  | next {n : Nat} {s t : S} {r : R} (h : step s = .inl t) (hr : Ends step n t r) :
      Ends step (n + 1) s r

theorem Reaches.refl (s : S) : Reaches step s s := Relation.ReflTransGen.refl

theorem Reaches.trans (h : Reaches step s t) (h' : Reaches step t u) : Reaches step s u :=
  Relation.ReflTransGen.trans h h'

theorem Reaches.head (h : step s = .inl t) (h' : Reaches step t u) : Reaches step s u :=
  Relation.ReflTransGen.head h h'

theorem Advances.single (h : step s = .inl t) : Advances step s t := Relation.TransGen.single h

theorem Advances.head (h : step s = .inl t) (h' : Reaches step t u) : Advances step s u :=
  Relation.TransGen.head' h h'

theorem Reaches.trans_advances (h : Reaches step s t) (h' : Advances step t u) :
    Advances step s u :=
  Relation.TransGen.trans_right h h'

theorem Advances.reaches (h : Advances step s t) : Reaches step s t :=
  Relation.TransGen.to_reflTransGen h

/-- What comes next leads, after some steps, to what comes at last. -/
inductive Leads (step : S → S ⊕ R) : S ⊕ R → S ⊕ R → Prop
  | refl (x : S ⊕ R) : Leads step x x
  | step {s : S} {x : S ⊕ R} (h : Leads step (step s) x) : Leads step (.inl s) x

theorem Leads.of_eq {x y : S ⊕ R} (h : x = y) : Leads step x y := h ▸ .refl x

theorem Leads.trans {x y z : S ⊕ R} (h : Leads step x y) (h' : Leads step y z) :
    Leads step x z := by
  induction h with
  | refl => exact h'
  | step _ ih => exact .step (ih h')

theorem Leads.reaches {x : S ⊕ R} (h : Leads step x (.inl t)) :
    ∃ s, x = .inl s ∧ Reaches step s t := by
  generalize hy : (Sum.inl t : S ⊕ R) = y at h
  induction h with
  | refl => exact ⟨t, hy.symm, .refl t⟩
  | @step s _ _ ih =>
    obtain ⟨u, hu, hreaches⟩ := ih hy
    exact ⟨s, rfl, .head hu hreaches⟩

theorem Leads.advances (h : Leads step (step s) (.inl t)) : Advances step s t := by
  obtain ⟨u, hu, hreaches⟩ := h.reaches
  exact .head hu hreaches

theorem Leads.ends (h : Leads step (step s) (.inr r)) : ∃ n, Ends step n s r := by
  generalize hx : step s = x at h
  generalize hy : (Sum.inr r : S ⊕ R) = y at h
  induction h generalizing s with
  | refl => exact ⟨1, .halt (hx.trans hy.symm)⟩
  | @step u _ _ ih =>
    obtain ⟨n, hn⟩ := ih rfl hy
    exact ⟨n + 1, .next hx hn⟩

theorem Reaches.leads (h : Reaches step s t) : Leads step (.inl s) (.inl t) := by
  induction h using Relation.ReflTransGen.head_induction_on with
  | refl => exact .refl _
  | head hstep _ ih => exact .step (hstep ▸ ih)

theorem Ends.leads (h : Ends step n s r) : Leads step (.inl s) (.inr r) := by
  induction h with
  | halt h => exact .step (.of_eq h)
  | next h _ ih => exact .step (h ▸ ih)

/-- A system ends in one way at most, and at one time. -/
theorem Ends.unique (h : Ends step n s r) (h' : Ends step m s r') : n = m ∧ r = r' := by
  induction h generalizing m with
  | halt hs =>
    cases h' with
    | halt hs' => exact ⟨rfl, Sum.inr.inj (hs.symm.trans hs')⟩
    | next hs' _ => exact absurd (hs.symm.trans hs') (by simp)
  | next hs _ ih =>
    cases h' with
    | halt hs' => exact absurd (hs.symm.trans hs') (by simp)
    | next hs' hr' =>
      obtain rfl := Sum.inl.inj (hs.symm.trans hs')
      obtain ⟨rfl, rfl⟩ := ih hr'
      exact ⟨rfl, rfl⟩

/-- What is reached on the way ends alike, and no later. -/
theorem Ends.of_reaches (hst : Reaches step s t) (h : Ends step n s r) :
    ∃ m, m ≤ n ∧ Ends step m t r := by
  induction hst using Relation.ReflTransGen.head_induction_on generalizing n with
  | refl => exact ⟨n, Nat.le_refl n, h⟩
  | head hstep _ ih =>
    cases h with
    | halt hs => exact absurd (hs.symm.trans hstep) (by simp)
    | next hs hr =>
      obtain rfl := Sum.inl.inj (hs.symm.trans hstep)
      obtain ⟨m, hm, hends⟩ := ih hr
      exact ⟨m, Nat.le_succ_of_le hm, hends⟩

/-- What comes after one step or more ends earlier. -/
theorem Ends.of_advances (hst : Advances step s t) (h : Ends step n s r) :
    ∃ m, m < n ∧ Ends step m t r := by
  obtain ⟨u, hstep, hut⟩ := Relation.TransGen.head'_iff.mp hst
  cases h with
  | halt hs => exact absurd (hs.symm.trans hstep) (by simp)
  | next hs hr =>
    obtain rfl := Sum.inl.inj (hs.symm.trans hstep)
    obtain ⟨m, hm, hends⟩ := Ends.of_reaches hut hr
    exact ⟨m, Nat.lt_succ_of_le hm, hends⟩

/-- What leads to an end ends alike, and no earlier. -/
theorem Reaches.ends (hst : Reaches step s t) (h : Ends step n t r) :
    ∃ m, n ≤ m ∧ Ends step m s r := by
  induction hst using Relation.ReflTransGen.head_induction_on with
  | refl => exact ⟨n, Nat.le_refl n, h⟩
  | head hstep _ ih =>
    obtain ⟨m, hm, hends⟩ := ih
    exact ⟨m + 1, Nat.le_succ_of_le hm, .next hstep hends⟩

/-- Both lead to the same end or to none. -/
theorem Reaches.exists_ends_iff (hst : Reaches step s t) :
    (∃ n, Ends step n s r) ↔ ∃ n, Ends step n t r := by
  constructor
  · rintro ⟨n, h⟩
    obtain ⟨m, -, hm⟩ := h.of_reaches hst
    exact ⟨m, hm⟩
  · rintro ⟨n, h⟩
    obtain ⟨m, -, hm⟩ := hst.ends h
    exact ⟨m, hm⟩

end

section

variable {S T R : Type} {first : S → S ⊕ R} {second : T → T ⊕ R} {related : S → T → Prop}
  {asideFirst asideSecond : R → Prop} {s : S} {t : T} {r : R} {m n : Nat}

/-- What the first system does next, the second does too, with one step or more; or one of them ends
with a result that is left aside. -/
inductive Matches (first : S → S ⊕ R) (second : T → T ⊕ R) (related : S → T → Prop)
    (asideFirst asideSecond : R → Prop) (s : S) (t : T) : Prop
  | step {s' : S} {t' : T} (hs : first s = .inl s') (ht : Advances second t t')
      (h : related s' t')
  | halt {r : R} {n : Nat} (hs : first s = .inr r) (ht : Ends second n t r)
  | asideFirst {r : R} (hs : first s = .inr r) (hr : asideFirst r)
  | asideSecond {r : R} {n : Nat} (ht : Ends second n t r) (hr : asideSecond r)

/-- What the first of two related systems ends with, the second does. -/
theorem Ends.forward (h : ∀ s t, related s t →
      Matches first second related asideFirst asideSecond s t)
    (hst : related s t) (hr : ¬ asideFirst r) (hends : Ends first n s r) :
    ∃ m r', Ends second m t r' ∧ (asideSecond r' ∨ r' = r) := by
  induction hends generalizing t with
  | halt hs =>
    cases h _ _ hst with
    | step hs' => exact absurd (hs.symm.trans hs') (by simp)
    | halt hs' ht => exact ⟨_, _, ht, .inr (Sum.inr.inj (hs'.symm.trans hs))⟩
    | asideFirst hs' haside =>
      obtain rfl := Sum.inr.inj (hs'.symm.trans hs)
      exact absurd haside hr
    | asideSecond ht haside => exact ⟨_, _, ht, .inl haside⟩
  | next hs _ ih =>
    cases h _ _ hst with
    | step hs' ht hrel =>
      obtain rfl := Sum.inl.inj (hs'.symm.trans hs)
      obtain ⟨m, r', hm, hr'⟩ := ih hrel hr
      obtain ⟨k, -, hk⟩ := ht.reaches.ends hm
      exact ⟨k, r', hk, hr'⟩
    | halt hs' => exact absurd (hs'.symm.trans hs) (by simp)
    | asideFirst hs' => exact absurd (hs'.symm.trans hs) (by simp)
    | asideSecond ht haside => exact ⟨_, _, ht, .inl haside⟩

/-- What the second of two related systems ends with, the first does. -/
theorem Ends.backward (h : ∀ s t, related s t →
      Matches first second related asideFirst asideSecond s t)
    (hst : related s t) (hr : ¬ asideSecond r) (hends : Ends second m t r) :
    ∃ n r', Ends first n s r' ∧ (asideFirst r' ∨ r' = r) := by
  induction m using Nat.strongRecOn generalizing s t with
  | _ m ih =>
    cases h _ _ hst with
    | step hs ht hrel =>
      obtain ⟨k, hk, hends'⟩ := hends.of_advances ht
      obtain ⟨n, r', hn, hr'⟩ := ih k hk hrel hends'
      exact ⟨n + 1, r', .next hs hn, hr'⟩
    | halt hs ht => exact ⟨1, _, .halt hs, .inr (ht.unique hends).2⟩
    | asideFirst hs haside => exact ⟨1, _, .halt hs, .inl haside⟩
    | asideSecond ht haside =>
      obtain rfl := (ht.unique hends).2
      exact absurd haside hr

/-- Where no result is left aside, both end alike or not at all. -/
theorem exists_ends_iff (h : ∀ s t, related s t →
      Matches first second related (fun _ => False) (fun _ => False) s t)
    (hst : related s t) : (∃ n, Ends first n s r) ↔ ∃ n, Ends second n t r := by
  constructor
  · rintro ⟨n, hn⟩
    obtain ⟨m, r', hm, hr'⟩ := hn.forward h hst not_false
    obtain rfl := hr'.resolve_left not_false
    exact ⟨m, hm⟩
  · rintro ⟨m, hm⟩
    obtain ⟨n, r', hn, hr'⟩ := hm.backward h hst not_false
    obtain rfl := hr'.resolve_left not_false
    exact ⟨n, hn⟩

end

end MutationAnalysis
