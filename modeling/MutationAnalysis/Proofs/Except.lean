/-
Computations that may fail.

What it means for a sequence of computations to succeed: each of its steps does, on
what the steps before it gave.
-/
import Mathlib.Data.List.Forall2
import Mathlib.Tactic.Common

namespace MutationAnalysis

theorem bind_eq_ok {ε α β : Type} {x : Except ε α} {f : α → Except ε β} {b : β} :
    x >>= f = .ok b ↔ ∃ a, x = .ok a ∧ f a = .ok b := by
  cases x with
  | error e => simp [bind, Except.bind]
  | ok a => simp [bind, Except.bind]

theorem bind_unit_eq_ok {ε β : Type} {x : Except ε Unit} {f : Unit → Except ε β} {b : β} :
    x >>= f = .ok b ↔ x = .ok () ∧ f () = .ok b := by
  rw [bind_eq_ok]
  exact ⟨fun ⟨_, h⟩ => h, fun h => ⟨(), h⟩⟩

theorem map_eq_ok {ε α β : Type} {x : Except ε α} {f : α → β} {b : β} :
    x.map f = .ok b ↔ ∃ a, x = .ok a ∧ f a = b := by
  cases x with
  | error e => simp [Except.map]
  | ok a => simp [Except.map]

/-- A computation that succeeds gives what is left when its errors are forgotten. -/
theorem eq_ok_of_isOk {ε α : Type} {x : Except ε α} (h : x.isOk = true) (a : α) :
    x = .ok (x.toOption.getD a) := by
  cases x with
  | error e => cases h
  | ok b => rfl

theorem exists_of_any {ε α : Type} {x : Except ε α} {p : α → Bool} (h : x.toOption.any p = true) :
    ∃ a, x = .ok a ∧ p a = true := by
  cases x with
  | error e => cases h
  | ok a => exact ⟨a, rfl, h⟩

theorem forM_eq_ok {ε α : Type} {f : α → Except ε Unit} {l : List α} :
    l.forM f = .ok () ↔ ∀ a ∈ l, f a = .ok () := by
  induction l with
  | nil => simp [pure, Except.pure]
  | cons a l ih =>
    show (f a >>= fun _ => l.forM f) = _ ↔ _
    rw [bind_unit_eq_ok, ih, List.forall_mem_cons]

theorem mapM_eq_ok {ε α β : Type} {f : α → Except ε β} {l : List α} {ys : List β} :
    l.mapM f = .ok ys ↔ List.Forall₂ (fun a b => f a = .ok b) l ys := by
  induction l generalizing ys with
  | nil =>
    rw [List.mapM_nil, List.forall₂_nil_left_iff]
    constructor
    · rintro ⟨⟩
      rfl
    · rintro rfl
      rfl
  | cons a l ih =>
    rw [List.mapM_cons, bind_eq_ok]
    constructor
    · rintro ⟨b, hb, h⟩
      obtain ⟨bs, hbs, h⟩ := bind_eq_ok.mp h
      obtain rfl : b :: bs = ys := by injection h
      exact .cons hb (ih.mp hbs)
    · rintro (_ | ⟨hb, hbs⟩)
      exact ⟨_, hb, bind_eq_ok.mpr ⟨_, ih.mpr hbs, rfl⟩⟩

/-- A list of computations succeeds if each of them does. -/
theorem exists_mapM_eq_ok {ε α β : Type} {f : α → Except ε β} {l : List α}
    (h : ∀ a ∈ l, ∃ b, f a = .ok b) : ∃ ys, l.mapM f = .ok ys := by
  induction l with
  | nil => exact ⟨[], rfl⟩
  | cons a l ih =>
    obtain ⟨b, hb⟩ := h a (by simp)
    obtain ⟨bs, hbs⟩ := ih fun a' ha' => h a' (by simp [ha'])
    exact ⟨b :: bs, mapM_eq_ok.mpr (.cons hb (mapM_eq_ok.mp hbs))⟩

section

variable {α β : Type} {R : α → β → Prop} {as : List α} {bs : List β}

theorem exists_right_of_mem (h : List.Forall₂ R as bs) {a : α} (ha : a ∈ as) :
    ∃ b ∈ bs, R a b := by
  induction h with
  | nil => cases ha
  | cons hab _ ih =>
    rcases List.mem_cons.mp ha with rfl | ha
    · exact ⟨_, List.mem_cons_self, hab⟩
    · obtain ⟨b, hb, hab⟩ := ih ha
      exact ⟨b, List.mem_cons_of_mem _ hb, hab⟩

theorem exists_left_of_mem (h : List.Forall₂ R as bs) {b : β} (hb : b ∈ bs) :
    ∃ a ∈ as, R a b :=
  exists_right_of_mem h.flip hb

theorem exists_right_of_getElem? (h : List.Forall₂ R as bs) {i : Nat} {a : α}
    (ha : as[i]? = some a) : ∃ b, bs[i]? = some b ∧ R a b := by
  induction h generalizing i with
  | nil => cases ha
  | cons hab _ ih =>
    cases i with
    | zero =>
      obtain rfl := Option.some.inj ha
      exact ⟨_, rfl, hab⟩
    | succ i => exact ih ha

theorem forall₂_imp_of_getElem? {S : α → β → Prop} (h : List.Forall₂ R as bs)
    (himp : ∀ (i : Nat) a b, as[i]? = some a → bs[i]? = some b → R a b → S a b) :
    List.Forall₂ S as bs := by
  induction h with
  | nil => exact .nil
  | cons hab _ ih => exact .cons (himp 0 _ _ rfl rfl hab) (ih fun i => himp (i + 1))

theorem forall₂_imp_of_mem {S : α → β → Prop} (h : List.Forall₂ R as bs)
    (himp : ∀ a b, a ∈ as → R a b → S a b) : List.Forall₂ S as bs :=
  forall₂_imp_of_getElem? h fun _ a b ha _ => himp a b (List.mem_of_getElem? ha)

/-- Two lists that belong to one third. -/
theorem forall₂_of_common {γ : Type} {cs : List γ} {S : γ → α → Prop} {T : γ → β → Prop}
    (has : List.Forall₂ S cs as) (hbs : List.Forall₂ T cs bs)
    (himp : ∀ c a b, c ∈ cs → S c a → T c b → R a b) : List.Forall₂ R as bs := by
  induction has generalizing bs with
  | nil =>
    cases hbs
    exact .nil
  | cons hac _ ih =>
    cases hbs with
    | cons hbc hrest =>
      exact .cons (himp _ _ _ List.mem_cons_self hac hbc)
        (ih hrest fun c a b hc => himp c a b (List.mem_cons_of_mem _ hc))

/-- One of those on the left is replaced, and the others stay. -/
theorem forall₂_set {S : α → β → Prop} (h : List.Forall₂ R as bs) {i : Nat} {a' : α}
    (hself : ∀ b, bs[i]? = some b → S a' b)
    (hothers : ∀ (j : Nat) a b, j ≠ i → as[j]? = some a → bs[j]? = some b → R a b → S a b) :
    List.Forall₂ S (as.set i a') bs := by
  induction h generalizing i with
  | nil => exact .nil
  | cons hab hrest ih =>
    cases i with
    | zero =>
      exact .cons (hself _ rfl) (forall₂_imp_of_getElem? hrest fun j a b =>
        hothers (j + 1) a b (Nat.succ_ne_zero j))
    | succ i =>
      refine .cons (hothers 0 _ _ (Nat.succ_ne_zero i).symm rfl rfl hab) (ih hself ?_)
      exact fun j a b hne => hothers (j + 1) a b fun heq => hne (Nat.succ.inj heq)

/-- What holds of any two on the left holds of those that they are related to on the right. -/
theorem pairwise_of_forall₂ {S : α → α → Prop} {T : β → β → Prop} (h : List.Forall₂ R as bs)
    (has : as.Pairwise S)
    (himp : ∀ a a' b b', a ∈ as → a' ∈ as → R a b → R a' b' → S a a' → T b b') : bs.Pairwise T := by
  induction h with
  | nil => exact .nil
  | @cons a b as bs hab hrest ih =>
    rw [List.pairwise_cons] at has
    refine List.pairwise_cons.mpr ⟨fun b' hb' => ?_, ih has.2 fun a a' b b' ha ha' =>
      himp a a' b b' (List.mem_cons_of_mem _ ha) (List.mem_cons_of_mem _ ha')⟩
    obtain ⟨a', ha', hab'⟩ := exists_left_of_mem hrest hb'
    exact himp a a' b b' List.mem_cons_self (List.mem_cons_of_mem _ ha') hab hab' (has.1 a' ha')

end

end MutationAnalysis
