/-
Lists without repeated entries.

Taking each entry of a list once keeps the order in which entries are first seen; and entries differ
in one property if those do that agree in another.

* `nodup_eraseDups`, `eraseDups_concat`, `eraseDups_map`: each entry once,
  in the order of the first ones;
* `nodup_map_of_filter`: entries that differ in a property;
* `index_eq_of_nodup_flatMap`: lists that share nothing.
-/
import Mathlib.Data.List.Induction
import Mathlib.Data.List.Nodup
import Mathlib.Tactic.Common

namespace MutationAnalysis

theorem nodup_eraseDups {α : Type} [BEq α] [LawfulBEq α] (l : List α) : l.eraseDups.Nodup := by
  cases l with
  | nil => simp
  | cons a l =>
    rw [List.eraseDups_cons, List.nodup_cons]
    refine ⟨?_, nodup_eraseDups _⟩
    rw [List.mem_eraseDups]
    simp
termination_by l.length
decreasing_by
  have := List.length_filter_le (fun b => !b == a) l
  rw [List.length_cons]
  omega

/-- One more entry stands last, unless it is there already. -/
theorem eraseDups_concat {α : Type} [BEq α] [LawfulBEq α] (l : List α) (a : α) :
    (l ++ [a]).eraseDups = if l.contains a then l.eraseDups else l.eraseDups ++ [a] := by
  rw [List.eraseDups_append, List.removeAll, List.filter_cons]
  split <;> rename_i h
  · rw [Bool.not_eq_true', List.elem_eq_contains] at h
    rw [h, if_neg (by simp)]
    rfl
  · rw [Bool.not_eq_true', Bool.not_eq_false, List.elem_eq_contains] at h
    rw [h, if_pos rfl]
    exact List.append_nil _

/-- Taking each entry once and then what belongs to it, if different entries differ in that. -/
theorem eraseDups_map {α β : Type} [BEq α] [LawfulBEq α] [BEq β] [LawfulBEq β]
    {f : α → β} {l : List α}
    (hf : ∀ a ∈ l, ∀ b ∈ l, f a = f b → a = b) : (l.map f).eraseDups = l.eraseDups.map f := by
  induction l using List.reverseRecOn with
  | nil => rfl
  | append_singleton l a ih =>
    have hcontains : (l.map f).contains (f a) = l.contains a := by
      rw [Bool.eq_iff_iff, List.contains_iff_mem, List.contains_iff_mem, List.mem_map]
      refine ⟨?_, fun ha => ⟨a, ha, rfl⟩⟩
      rintro ⟨b, hb, heq⟩
      exact hf b (List.mem_append_left _ hb) a (by simp) heq ▸ hb
    rw [List.map_append, List.map_singleton, eraseDups_concat, eraseDups_concat, hcontains,
      ih fun b hb c hc => hf b (List.mem_append_left _ hb) c (List.mem_append_left _ hc)]
    split
    · rfl
    · rw [List.map_append, List.map_singleton]

/-- Entries differ if those do that agree in something else, and that is the same for equal ones. -/
theorem nodup_map_of_filter {α β γ : Type} [DecidableEq γ] {f : α → β} {g : α → γ} {l : List α}
    (hg : ∀ a ∈ l, ∀ b ∈ l, f a = f b → g a = g b)
    (h : ∀ a ∈ l, ((l.filter (g · == g a)).map f).Nodup) : (l.map f).Nodup := by
  induction l with
  | nil => exact List.nodup_nil
  | cons a rest ih =>
    rw [List.map_cons, List.nodup_cons]
    constructor
    · intro hmem
      obtain ⟨b, hb, heq⟩ := List.mem_map.mp hmem
      have hga : g b = g a := hg b (List.mem_cons_of_mem _ hb) a List.mem_cons_self heq
      have hself := h a List.mem_cons_self
      rw [List.filter_cons, if_pos (by simp), List.map_cons, List.nodup_cons] at hself
      exact hself.1 (heq ▸ List.mem_map_of_mem (List.mem_filter.mpr ⟨hb, by simpa using hga⟩))
    · refine ih (fun b hb b' hb' =>
        hg b (List.mem_cons_of_mem _ hb) b' (List.mem_cons_of_mem _ hb'))
        fun b hb => ?_
      refine (h b (List.mem_cons_of_mem _ hb)).sublist (List.Sublist.map _ ?_)
      exact (List.sublist_cons_self a rest).filter _

/-- What stands in two of several lists that share nothing stands twice in one of them. -/
theorem index_eq_of_nodup_flatMap {α β : Type} {f : α → List β} {l : List α}
    (h : (l.flatMap f).Nodup) {i j : Nat} {a b : α} {x : β} (ha : l[i]? = some a)
    (hb : l[j]? = some b) (hxa : x ∈ f a) (hxb : x ∈ f b) : i = j := by
  obtain ⟨hi, rfl⟩ := List.getElem?_eq_some_iff.mp ha
  obtain ⟨hj, rfl⟩ := List.getElem?_eq_some_iff.mp hb
  have hdisjoint := List.pairwise_iff_getElem.mp (List.nodup_flatMap.mp h).2
  rcases Nat.lt_trichotomy i j with hlt | heq | hgt
  · exact absurd hxb (hdisjoint i j hi hj hlt hxa)
  · exact heq
  · exact absurd hxa (hdisjoint j i hj hi hgt hxb)

end MutationAnalysis
