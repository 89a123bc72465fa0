/-
Identifiers of points.

An identifier ends with the name of its operator, none of which ends another, and before that stand
three numbers, none of which holds the mark that parts them.  So module, address and operator can be
read off it, from its end on, whatever the module's name looks like.

* `Address.text_append_injective`: an address can be told from what stands before it;
* `MutationPoint.identifierOf_injective`: equal identifiers are those of one edit;
* `MutationPoint.identifier_ne_preserved`: and they are no names of preserved bodies;
* `SymbolName.preserved_injective`, `SymbolName.cell_injective`, `SymbolName.key_injective`: what
  names of preserved bodies and of cells are made of can be told from them;
* `MutationPoint.names_unambiguous`: all of this for every name that is generated.
-/
import MutationAnalysis.Mutation.Point
import Mathlib.Tactic.Common

namespace MutationAnalysis

/-- What follows the last mark of a text, and what stands before it. -/
theorem append_mark_inj {α : Type} {mark : α} {xs ys as bs : List α} (ha : mark ∉ as)
    (hb : mark ∉ bs) (h : xs ++ mark :: as = ys ++ mark :: bs) : xs = ys ∧ as = bs := by
  rcases List.append_eq_append_iff.mp h with ⟨zs, rfl, hzs⟩ | ⟨zs, rfl, hzs⟩
  · cases zs with
    | nil =>
      obtain ⟨-, rfl⟩ := List.cons.inj hzs
      exact ⟨(List.append_nil _).symm, rfl⟩
    | cons z zs =>
      obtain ⟨rfl, rfl⟩ := List.cons.inj hzs
      exact absurd (by simp) ha
  · cases zs with
    | nil =>
      obtain ⟨-, rfl⟩ := List.cons.inj hzs
      exact ⟨List.append_nil _, rfl⟩
    | cons z zs =>
      obtain ⟨rfl, rfl⟩ := List.cons.inj hzs
      exact absurd (by simp) hb

theorem underscore_not_mem_digits (n : Nat) : '_' ∉ (toString n).toList := by
  intro h
  have hdigits : (toString n).toList = Nat.toDigits 10 n := Nat.toList_repr
  rw [hdigits] at h
  have hdigit := Nat.isDigit_of_mem_toDigits (by decide) (by decide) h
  exact absurd hdigit (by decide)

theorem toString_nat_injective {m n : Nat} (h : (toString m).toList = (toString n).toList) :
    m = n := by
  have hdigits : ∀ n : Nat, (toString n).toList = Nat.toDigits 10 n := fun n => Nat.toList_repr
  rw [hdigits, hdigits] at h
  rw [← Nat.ofDigitChars_toDigits (b := 10) (n := m) (by decide) (by decide), h,
    Nat.ofDigitChars_toDigits (by decide) (by decide)]

/-- A number after a mark can be told from what stands before them. -/
theorem append_number_inj {xs ys : List Char} {m n : Nat}
    (h : xs ++ '_' :: (toString m).toList = ys ++ '_' :: (toString n).toList) : xs = ys ∧ m = n :=
  (append_mark_inj (underscore_not_mem_digits m) (underscore_not_mem_digits n) h).imp id
    toString_nat_injective

namespace Address

theorem text_toList (a : Address) : a.text.toList
    = (toString a.function).toList ++ '_' :: (toString a.block).toList
      ++ '_' :: (toString a.instruction).toList := by
  simp [text, String.toList_append]

/-- An address after a mark can be told from what stands before them. -/
theorem text_append_injective {xs ys : List Char} {a b : Address}
    (h : xs ++ '_' :: a.text.toList = ys ++ '_' :: b.text.toList) : xs = ys ∧ a = b := by
  have hsplit : ∀ (xs : List Char) (a : Address), xs ++ '_' :: a.text.toList
      = ((xs ++ '_' :: (toString a.function).toList) ++ '_' :: (toString a.block).toList)
        ++ '_' :: (toString a.instruction).toList := by
    intro xs a
    rw [text_toList]
    simp only [List.append_assoc, List.cons_append]
  rw [hsplit, hsplit] at h
  obtain ⟨h, hinstruction⟩ := append_number_inj h
  obtain ⟨h, hblock⟩ := append_number_inj h
  obtain ⟨h, hfunction⟩ := append_number_inj h
  refine ⟨h, ?_⟩
  obtain ⟨f, b, i⟩ := a
  rw [show f = _ from hfunction, show b = _ from hblock, show i = _ from hinstruction]

end Address

namespace SymbolName

theorem preserved_injective : Function.Injective preserved :=
  fun _ _ h => (String.append_left_inj _).mp h

theorem cell_injective : Function.Injective cell :=
  fun _ _ h => (String.append_left_inj _).mp h

/-- The key of a function of a module says which function it is. -/
theorem key_injective (moduleId : String) : Function.Injective (key · moduleId) :=
  fun _ _ h => (String.append_left_inj _).mp ((String.append_left_inj _).mp h)

end SymbolName

/-- No operator's name is the end of another's. -/
theorem Operator.eq_of_id_suffix {o o' : Operator} (h : o.id.toList <:+ o'.id.toList) : o = o' := by
  revert h
  cases o <;> cases o' <;> decide

namespace MutationPoint

/-- Equal identifiers are those of the same operator at the same address of the same module. -/
theorem identifierOf_injective {m m' : String} {a a' : Address} {o o' : Operator}
    (h : identifierOf m a o = identifierOf m' a' o') : m = m' ∧ a = a' ∧ o = o' := by
  have hchars : ∀ (m : String) (a : Address) (o : Operator), (identifierOf m a o).toList
      = (m.toList ++ '_' :: a.text.toList) ++ '_' :: o.id.toList := by
    intro m a o
    simp [identifierOf, String.toList_append]
  have hlist := congrArg String.toList h
  rw [hchars, hchars] at hlist
  -- both operators' names end the same text, so one of them ends the other
  have hend : ∀ (xs : List Char) (o : Operator), o.id.toList <:+ xs ++ '_' :: o.id.toList :=
    fun xs o => (List.suffix_cons _ _).trans (List.suffix_append _ _)
  have ho := hend (m.toList ++ '_' :: a.text.toList) o
  have ho' := hend (m'.toList ++ '_' :: a'.text.toList) o'
  rw [hlist] at ho
  obtain rfl : o = o' := by
    rcases Nat.le_total o.id.toList.length o'.id.toList.length with hle | hle
    · exact Operator.eq_of_id_suffix (List.suffix_of_suffix_length_le ho ho' hle)
    · exact (Operator.eq_of_id_suffix (List.suffix_of_suffix_length_le ho' ho hle)).symm
  obtain ⟨hmodule, rfl⟩ := Address.text_append_injective (List.append_cancel_right hlist)
  exact ⟨String.toList_inj.mp hmodule, rfl, rfl⟩

/-- The identifier of a point is no name of a preserved body. -/
theorem identifier_ne_preserved (q : MutationPoint) (key : String) :
    q.identifier ≠ SymbolName.preserved key := by
  intro heq
  have hchars := congrArg String.toList heq
  rw [MutationPoint.identifier, MutationPoint.identifierOf, SymbolName.preserved,
    String.toList_append, String.toList_append (s := key)] at hchars
  have hid : q.operator.id.toList <:+ key.toList ++ "_original".toList :=
    hchars ▸ List.suffix_append _ _
  -- the two ends of one text would be a suffix of each other
  have hends : ∀ o : Operator, ¬ o.id.toList <:+ "_original".toList ∧
      ¬ "_original".toList <:+ o.id.toList := by
    intro o
    cases o <;> decide
  rcases List.suffix_or_suffix_of_suffix hid (List.suffix_append _ _) with h | h
  · exact (hends q.operator).1 h
  · exact (hends q.operator).2 h

/-- Identifiers are equal if and only if they are those of one operator at one address of one
module; in a module, names of preserved bodies and of cells are equal only for one function; and no
preserved body has the name of a mutant's. -/
theorem names_unambiguous :
    (∀ (m m' : String) (a a' : Address) (o o' : Operator),
      identifierOf m a o = identifierOf m' a' o' ↔
        m = m' ∧ (a.function = a'.function ∧ a.block = a'.block ∧ a.instruction = a'.instruction) ∧
        o = o') ∧
    (∀ moduleId f g : String,
      (SymbolName.preserved (SymbolName.key f moduleId)
        = SymbolName.preserved (SymbolName.key g moduleId) ↔
        f = g) ∧
      (SymbolName.cell (SymbolName.key f moduleId) = SymbolName.cell (SymbolName.key g moduleId) ↔
        f = g)) ∧
    ∀ (q : MutationPoint) (key : String), SymbolName.preserved key ≠ q.identifier := by
  refine ⟨fun m m' a a' o o' => ⟨fun h => ?_, ?_⟩, fun moduleId f g => ⟨?_, ?_⟩, fun q key h =>
    q.identifier_ne_preserved key h.symm⟩
  · obtain ⟨rfl, rfl, rfl⟩ := identifierOf_injective h
    exact ⟨rfl, ⟨rfl, rfl, rfl⟩, rfl⟩
  · obtain ⟨f, b, i⟩ := a
    rintro ⟨rfl, ⟨rfl, rfl, rfl⟩, rfl⟩
    rfl
  · exact (SymbolName.preserved_injective.comp (SymbolName.key_injective moduleId)).eq_iff
  · exact (SymbolName.cell_injective.comp (SymbolName.key_injective moduleId)).eq_iff

end MutationPoint

end MutationAnalysis
