/-
Readers that take back exactly what was written.

A reader is exact for a writer if it finds what was written at the front of its input and leaves the
bytes after it, and finds nothing else (`IsExact`).  Lengths are numbers of 64 bits, so what is
written is read back if it has fewer bytes than such a number can count.

* `isExact_uint8`, `isExact_uint32`, `isExact_uint64`, `isExact_int32`, `isExact_bool`,
  `isExact_text`: data without parts;
* `isExact_option`, `isExact_list`: data of parts;
* `isExact_case`, `isExact_tagged`: data of cases;
* `IsExactOn.field`, `IsExactOn.done`: records, one field after the other.
-/
import MutationAnalysis.Binary.Codec
import Mathlib.Algebra.Order.Ring.Int
import Mathlib.Data.List.Nodup
import Mathlib.Tactic.Common

namespace MutationAnalysis.Binary

variable {α β : Type} {write : α → List UInt8} {read : Reader α}

/-- The reader is exact for the data of a kind. -/
structure IsExactOn (kind : α → Prop) (write : α → List UInt8) (read : Reader α) : Prop where
  eq_append : ∀ {bytes : List UInt8} {a : α} {rest : List UInt8}, read bytes = some (a, rest) →
    kind a ∧ bytes = write a ++ rest
  read_append : ∀ (a : α) (rest : List UInt8), kind a → (write a).length < UInt64.size →
    read (write a ++ rest) = some (a, rest)

/-- The reader is exact for all data, none of which is written as nothing. -/
structure IsExact (write : α → List UInt8) (read : Reader α) : Prop where
  eq_append : ∀ {bytes : List UInt8} {a : α} {rest : List UInt8}, read bytes = some (a, rest) →
    bytes = write a ++ rest
  read_append : ∀ (a : α) (rest : List UInt8), (write a).length < UInt64.size →
    read (write a ++ rest) = some (a, rest)
  ne_nil : ∀ a : α, write a ≠ []

/-! ### Records -/

/-- A reader of a record that has no field left to read. -/
theorem IsExactOn.done {kind : β → Prop} (b : β) (h : ∀ x, kind x ↔ x = b) :
    IsExactOn kind (fun _ => []) (fun rest => some (b, rest)) where
  eq_append hread := by
    obtain ⟨rfl, rfl⟩ := Prod.mk.inj (Option.some.inj hread)
    exact ⟨(h _).mpr rfl, rfl⟩
  read_append x rest hx _ := by
    rw [(h x).mp hx]
    rfl

/-- A reader of a record that reads one field and then the others. -/
theorem IsExactOn.field {kind : β → Prop} (get : β → α) {others : β → List UInt8}
    {next : α → Reader β} (h : IsExact write read)
    (hnext : ∀ a, IsExactOn (fun b => kind b ∧ get b = a) others (next a)) :
    IsExactOn kind (fun b => write (get b) ++ others b)
      (fun bytes => do let (a, rest) ← read bytes; next a rest) where
  eq_append hread := by
    obtain ⟨⟨a, rest⟩, ha, hread⟩ := Option.bind_eq_some_iff.mp hread
    obtain ⟨⟨hkind, rfl⟩, hrest⟩ := (hnext a).eq_append hread
    refine ⟨hkind, ?_⟩
    rw [h.eq_append ha, hrest, List.append_assoc]
  read_append b rest hkind hsize := by
    rw [List.length_append] at hsize
    rw [List.append_assoc, h.read_append _ _ (by omega)]
    exact (hnext (get b)).read_append b rest ⟨hkind, rfl⟩ (by omega)

/-- A reader of all fields of a record reads the record. -/
theorem IsExactOn.isExact {fields : α → List UInt8} (h : IsExactOn (fun _ => True) fields read)
    (hwrite : ∀ a, write a = fields a) (hne : ∀ a, write a ≠ []) : IsExact write read where
  eq_append hread := by
    rw [hwrite]
    exact (h.eq_append hread).2
  read_append a rest hsize := by
    rw [hwrite] at hsize ⊢
    exact h.read_append a rest trivial hsize
  ne_nil := hne

/-! ### Numbers -/

theorem bytesOfNat_succ_ne_nil (count n : Nat) : bytesOfNat (count + 1) n ≠ [] :=
  List.cons_ne_nil _ _

/-- A number that fits is read back. -/
theorem readNat_append {count n : Nat} (hn : n < 256 ^ count) (rest : List UInt8) :
    readNat count (bytesOfNat count n ++ rest) = some (n, rest) := by
  induction count generalizing n with
  | zero =>
    obtain rfl : n = 0 := by simpa using hn
    rfl
  | succ count ih =>
    have hhigh : n / 256 < 256 ^ count := by
      rw [Nat.div_lt_iff_lt_mul (by decide), ← Nat.pow_succ]
      exact hn
    have hlow : (UInt8.ofNat (n % 256)).toNat = n % 256 :=
      UInt8.toNat_ofNat_of_lt' (Nat.mod_lt n (by decide))
    rw [bytesOfNat, List.cons_append, readNat, ih hhigh]
    show some ((UInt8.ofNat (n % 256)).toNat + 256 * (n / 256), rest) = some (n, rest)
    rw [hlow, Nat.mod_add_div]

/-- What is read as a number are the bytes of that number, which fits. -/
theorem eq_append_of_readNat {count n : Nat} {bytes rest : List UInt8}
    (h : readNat count bytes = some (n, rest)) :
    n < 256 ^ count ∧ bytes = bytesOfNat count n ++ rest := by
  induction count generalizing n bytes with
  | zero =>
    obtain ⟨rfl, rfl⟩ := Prod.mk.inj (Option.some.inj h)
    exact ⟨by decide, rfl⟩
  | succ count ih =>
    cases bytes with
    | nil => cases h
    | cons b bytes =>
      obtain ⟨⟨high, rest'⟩, hhigh, h⟩ := Option.bind_eq_some_iff.mp h
      obtain ⟨rfl, rfl⟩ := Prod.mk.inj (Option.some.inj h)
      obtain ⟨hlt, rfl⟩ := ih hhigh
      have hb := b.toNat_lt
      have hlow : (b.toNat + 256 * high) % 256 = b.toNat := by omega
      have hrest : (b.toNat + 256 * high) / 256 = high := by omega
      refine ⟨?_, ?_⟩
      · rw [Nat.pow_succ]
        omega
      · rw [bytesOfNat, hlow, hrest, UInt8.ofNat_toNat]
        rfl

theorem isExact_uint8 : IsExact ofUInt8 readUInt8 where
  eq_append {bytes _ _} h := by
    cases bytes with
    | nil => cases h
    | cons b bytes =>
      obtain ⟨rfl, rfl⟩ := Prod.mk.inj (Option.some.inj h)
      rfl
  read_append _ _ _ := rfl
  ne_nil _ := List.cons_ne_nil _ _

/-- Numbers of a fixed width, as they are counted. -/
theorem isExact_fixed {count : Nat} {toNat : α → Nat} {ofNat : Nat → α}
    (hlt : ∀ a, toNat a < 256 ^ (count + 1)) (hofNat : ∀ a, ofNat (toNat a) = a)
    (htoNat : ∀ n < 256 ^ (count + 1), toNat (ofNat n) = n) :
    IsExact (fun a => bytesOfNat (count + 1) (toNat a))
      (fun bytes => do let (n, rest) ← readNat (count + 1) bytes; return (ofNat n, rest)) where
  eq_append h := by
    obtain ⟨⟨n, rest⟩, hn, h⟩ := Option.bind_eq_some_iff.mp h
    obtain ⟨rfl, rfl⟩ := Prod.mk.inj (Option.some.inj h)
    obtain ⟨hlt, rfl⟩ := eq_append_of_readNat hn
    rw [htoNat n hlt]
  read_append a rest _ := by
    rw [readNat_append (hlt a)]
    show some (ofNat (toNat a), rest) = _
    rw [hofNat]
  ne_nil a := bytesOfNat_succ_ne_nil count _

theorem isExact_uint32 : IsExact ofUInt32 readUInt32 :=
  isExact_fixed UInt32.toNat_lt (fun _ => UInt32.ofNat_toNat) fun _ hn =>
    UInt32.toNat_ofNat_of_lt' hn

theorem isExact_uint64 : IsExact ofUInt64 readUInt64 :=
  isExact_fixed UInt64.toNat_lt (fun _ => UInt64.ofNat_toNat) fun _ hn =>
    UInt64.toNat_ofNat_of_lt' hn

theorem isExact_int32 : IsExact ofInt32 readInt32 where
  eq_append h := by
    obtain ⟨⟨n, rest⟩, hn, h⟩ := Option.bind_eq_some_iff.mp h
    obtain ⟨rfl, rfl⟩ := Prod.mk.inj (Option.some.inj h)
    rw [ofInt32, UInt32.toUInt32_toInt32, isExact_uint32.eq_append hn]
  read_append a rest hsize := by
    rw [ofInt32] at hsize ⊢
    rw [readInt32, isExact_uint32.read_append _ _ hsize]
    show some (a.toUInt32.toInt32, rest) = _
    rw [Int32.toInt32_toUInt32]
  ne_nil _ := isExact_uint32.ne_nil _

theorem isExact_bool : IsExact ofBool readBool where
  eq_append {bytes a rest} h := by
    unfold readBool at h
    split at h
    · obtain ⟨rfl, rfl⟩ := Prod.mk.inj (Option.some.inj h)
      rfl
    · obtain ⟨rfl, rfl⟩ := Prod.mk.inj (Option.some.inj h)
      rfl
    · cases h
  read_append a rest _ := by cases a <;> rfl
  ne_nil _ := List.cons_ne_nil _ _

/-! ### Text -/

theorem toList_eq_data (bytes : ByteArray) : bytes.toList = bytes.data.toList := by
  -- induction on the bytes that are left
  have hloop : ∀ (n i : Nat) (found : List UInt8), bytes.size = i + n →
      ByteArray.toList.loop bytes i found = found.reverse ++ bytes.data.toList.drop i := by
    intro n
    induction n with
    | zero =>
      intro i found hsize
      have hlength : bytes.data.toList.length ≤ i := by
        rw [Array.length_toList]
        exact Nat.le_of_eq hsize
      rw [ByteArray.toList.loop, if_neg (by omega), List.drop_eq_nil_of_le hlength, List.append_nil]
    | succ n ih =>
      intro i found hsize
      have hlt : i < bytes.data.toList.length := by
        rw [Array.length_toList]
        have : bytes.data.size = bytes.size := rfl
        omega
      have hget : bytes.get! i = bytes.data.toList[i] := by
        rw [Array.getElem_toList]
        exact getElem!_pos bytes.data i _
      rw [ByteArray.toList.loop, if_pos (by omega), ih _ _ (by omega), List.reverse_cons, hget,
        List.append_assoc, List.drop_eq_getElem_cons hlt]
      rfl
  exact hloop bytes.size 0 [] (by omega)

theorem length_utf8 (s : String) : s.toUTF8.toList.length = s.utf8ByteSize := by
  rw [toList_eq_data]
  rfl

/-- Text is what its bytes encode. -/
theorem fromUTF8?_eq_some {bytes : List UInt8} {s : String} :
    String.fromUTF8? ⟨bytes.toArray⟩ = some s ↔ bytes = s.toUTF8.toList := by
  rw [toList_eq_data, String.fromUTF8?]
  constructor
  · intro h
    split at h
    · obtain rfl := Option.some.inj h
      rfl
    · cases h
  · rintro rfl
    rw [Array.toArray_toList]
    exact dif_pos s.isValidUTF8

theorem isExact_text : IsExact ofText readText where
  eq_append {bytes s rest} h := by
    obtain ⟨⟨size, after⟩, hsize, h⟩ := Option.bind_eq_some_iff.mp h
    dsimp only at h
    split at h
    · cases h
    · rename_i hle
      obtain ⟨s', hs, h⟩ := Option.bind_eq_some_iff.mp h
      obtain ⟨rfl, rfl⟩ := Prod.mk.inj (Option.some.inj h)
      obtain ⟨-, rfl⟩ := eq_append_of_readNat hsize
      have htake := fromUTF8?_eq_some.mp hs
      have hlength : size = s'.utf8ByteSize := by
        rw [← length_utf8, ← htake, List.length_take]
        omega
      rw [ofText, ofLength, ← htake, ← hlength, List.append_assoc, List.take_append_drop]
  read_append s rest hsize := by
    have hlength := length_utf8 s
    rw [ofText, List.length_append, hlength] at hsize
    -- the written length is that of the bytes, so exactly these are taken
    have hread : readNat 8 (ofText s ++ rest) = some (s.utf8ByteSize, s.toUTF8.toList ++ rest) := by
      rw [ofText, List.append_assoc]
      exact readNat_append (Nat.lt_of_le_of_lt (Nat.le_add_left _ _) hsize) _
    have htake : (s.toUTF8.toList ++ rest).take s.utf8ByteSize = s.toUTF8.toList := by
      rw [← hlength, List.take_left]
    have hdrop : (s.toUTF8.toList ++ rest).drop s.utf8ByteSize = rest := by
      rw [← hlength, List.drop_left]
    rw [readText, hread]
    dsimp only [Option.bind_eq_bind, Option.bind_some]
    rw [if_neg (by rw [List.length_append]; omega), htake, hdrop, fromUTF8?_eq_some.mpr rfl]
    rfl
  ne_nil _ := List.cons_ne_nil _ _

/-! ### Parts -/

theorem isExact_option (h : IsExact write read) : IsExact (ofOption write) (readOption read) where
  eq_append {bytes a rest} hread := by
    unfold readOption at hread
    split at hread
    · obtain ⟨rfl, rfl⟩ := Prod.mk.inj (Option.some.inj hread)
      rfl
    · obtain ⟨⟨x, after⟩, hx, hread⟩ := Option.bind_eq_some_iff.mp hread
      obtain ⟨rfl, rfl⟩ := Prod.mk.inj (Option.some.inj hread)
      rw [h.eq_append hx]
      rfl
    · cases hread
  read_append a rest hsize := by
    cases a with
    | none => rfl
    | some a =>
      rw [ofOption, List.length_cons] at hsize
      rw [ofOption, List.cons_append, readOption, h.read_append a rest (by omega)]
      rfl
  ne_nil a := by cases a <;> exact List.cons_ne_nil _ _

/-- What is read as so many items is written as they are. -/
theorem eq_append_of_readItems (h : IsExact write read) {count : Nat} {bytes rest : List UInt8}
    {items : List α} (hread : readItems read count bytes = some (items, rest)) :
    items.length = count ∧ bytes = items.flatMap write ++ rest := by
  induction count generalizing bytes items with
  | zero =>
    obtain ⟨rfl, rfl⟩ := Prod.mk.inj (Option.some.inj hread)
    exact ⟨rfl, rfl⟩
  | succ count ih =>
    obtain ⟨⟨a, after⟩, ha, hread⟩ := Option.bind_eq_some_iff.mp hread
    obtain ⟨⟨others, after'⟩, hothers, hread⟩ := Option.bind_eq_some_iff.mp hread
    obtain ⟨rfl, rfl⟩ := Prod.mk.inj (Option.some.inj hread)
    obtain ⟨hlength, hafter⟩ := ih hothers
    refine ⟨congrArg (· + 1) hlength, ?_⟩
    rw [h.eq_append ha, hafter, List.flatMap_cons, List.append_assoc]

theorem readItems_append (h : IsExact write read) (items : List α) (rest : List UInt8)
    (hsize : (items.flatMap write).length < UInt64.size) :
    readItems read items.length (items.flatMap write ++ rest) = some (items, rest) := by
  induction items with
  | nil => rfl
  | cons a others ih =>
    rw [List.flatMap_cons, List.length_append] at hsize
    rw [List.flatMap_cons, List.append_assoc, List.length_cons, readItems,
      h.read_append a _ (by omega)]
    dsimp only [Option.bind_eq_bind, Option.bind_some]
    rw [ih (by omega)]
    rfl

/-- There are no more items than bytes. -/
theorem length_le_length_flatMap (hne : ∀ a, write a ≠ []) (items : List α) :
    items.length ≤ (items.flatMap write).length := by
  induction items with
  | nil => exact Nat.le_refl 0
  | cons a others ih =>
    have := List.length_pos_of_ne_nil (hne a)
    rw [List.flatMap_cons, List.length_append, List.length_cons]
    omega

theorem isExact_list (h : IsExact write read) : IsExact (ofList write) (readList read) where
  eq_append {bytes items rest} hread := by
    obtain ⟨⟨count, after⟩, hcount, hread⟩ := Option.bind_eq_some_iff.mp hread
    obtain ⟨hitems, hafter⟩ := eq_append_of_readItems h hread
    obtain ⟨-, hbytes⟩ := eq_append_of_readNat hcount
    rw [hbytes, hafter, ofList, ofLength, hitems, List.append_assoc]
  read_append items rest hsize := by
    rw [ofList, List.length_append] at hsize
    have hlength := length_le_length_flatMap h.ne_nil items
    have hlt : (items.flatMap write).length < UInt64.size := by omega
    have hread : readNat 8 (ofList write items ++ rest)
        = some (items.length, items.flatMap write ++ rest) := by
      rw [ofList, List.append_assoc]
      exact readNat_append (Nat.lt_of_le_of_lt hlength hlt) _
    rw [readList, hread]
    exact readItems_append h items rest hlt
  ne_nil _ := List.cons_ne_nil _ _

/-! ### Cases -/

/-- A case with data. -/
theorem IsExactOn.case {kind : β → Prop} {data : β → List UInt8} (make : α → β)
    (h : IsExact write read) (hkind : ∀ b, kind b ↔ ∃ a, make a = b)
    (hdata : ∀ a, data (make a) = write a) :
    IsExactOn kind data (fun bytes => do let (a, rest) ← read bytes; return (make a, rest)) where
  eq_append hread := by
    obtain ⟨⟨a, rest⟩, ha, hread⟩ := Option.bind_eq_some_iff.mp hread
    obtain ⟨rfl, rfl⟩ := Prod.mk.inj (Option.some.inj hread)
    refine ⟨(hkind _).mpr ⟨a, rfl⟩, ?_⟩
    rw [hdata, h.eq_append ha]
  read_append b rest hb hsize := by
    obtain ⟨a, rfl⟩ := (hkind b).mp hb
    rw [hdata] at hsize ⊢
    rw [h.read_append a rest hsize]
    rfl

/-- A tag that no case has. -/
theorem IsExactOn.noCase {kind : β → Prop} {data : β → List UInt8} (h : ∀ b, ¬ kind b) :
    IsExactOn kind data (fun _ => none) where
  eq_append hread := by cases hread
  read_append b _ hb _ := absurd hb (h b)

/-- Cases told apart by their tags, each with its data. -/
theorem isExact_tagged (tag : β → Nat) (data : β → List UInt8) (next : Nat → Reader β)
    (hlt : ∀ b, tag b < 256 ^ 4) (hnext : ∀ n, IsExactOn (fun b => tag b = n) data (next n)) :
    IsExact (fun b => ofTag (tag b) ++ data b)
      (fun bytes => do let (n, rest) ← readNat 4 bytes; next n rest) where
  eq_append hread := by
    obtain ⟨⟨n, after⟩, hn, hread⟩ := Option.bind_eq_some_iff.mp hread
    obtain ⟨htag, hafter⟩ := (hnext n).eq_append hread
    obtain ⟨-, hbytes⟩ := eq_append_of_readNat hn
    rw [hbytes, hafter, htag, ofTag, List.append_assoc]
  read_append b rest hsize := by
    rw [List.length_append] at hsize
    rw [List.append_assoc, ofTag, readNat_append (hlt b)]
    exact (hnext (tag b)).read_append b rest rfl (by omega)
  ne_nil _ := List.cons_ne_nil _ _

/-- Cases without data, each once in a list that is not too long. -/
theorem isExact_case [BEq α] [LawfulBEq α] {cases : List α} (hnodup : cases.Nodup)
    (hall : ∀ a, a ∈ cases) (hlength : cases.length ≤ 256 ^ 4) :
    IsExact (fun a => ofTag (cases.idxOf a)) (readCase cases) where
  eq_append hread := by
    obtain ⟨⟨n, after⟩, hn, hread⟩ := Option.bind_eq_some_iff.mp hread
    obtain ⟨a, ha, hread⟩ := Option.bind_eq_some_iff.mp hread
    obtain ⟨rfl, rfl⟩ := Prod.mk.inj (Option.some.inj hread)
    obtain ⟨-, rfl⟩ := eq_append_of_readNat hn
    obtain ⟨hlt, rfl⟩ := List.getElem?_eq_some_iff.mp ha
    rw [hnodup.idxOf_getElem]
    rfl
  read_append a rest _ := by
    have hlt := List.idxOf_lt_length_of_mem (hall a)
    rw [readCase, ofTag, readNat_append (Nat.lt_of_lt_of_le hlt hlength)]
    dsimp only [Option.bind_eq_bind, Option.bind_some]
    rw [List.getElem?_eq_getElem hlt, List.getElem_idxOf]
    rfl
  ne_nil _ := List.cons_ne_nil _ _

end MutationAnalysis.Binary
