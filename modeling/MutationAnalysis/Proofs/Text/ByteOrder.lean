/-
The order of texts is that of their bytes.

Texts are compared character by character, by code points.  The encoding of a character begins with
a larger byte the longer it is, and otherwise its bytes are the digits of the code point to the base
64.  So the first byte in which the encodings of two characters differ says which character is less,
and no encoding begins another one.

* `Text.utf8EncodeChar_append_lt`: characters in whatever texts;
* `Text.utf8_lt_utf8`: whole texts.
-/
import MutationAnalysis.Proofs.Binary.Codec

namespace MutationAnalysis.Text

/-- A smaller character has smaller bytes, whatever follows. -/
theorem utf8EncodeChar_append_lt {c d : Char} (h : c < d) (xs ys : List UInt8) :
    String.utf8EncodeChar c ++ xs < String.utf8EncodeChar d ++ ys := by
  have hlt : c.val.toNat < d.val.toNat := h
  have hmax : d.val.toNat < 0x110000 := by
    have hvalid := d.valid
    simp only [UInt32.isValidChar, Nat.isValidChar] at hvalid
    omega
  generalize hc : c.val.toNat = m at hlt
  generalize hd : d.val.toNat = n at hlt hmax
  simp only [String.utf8EncodeChar, hc, hd]
  -- the first of the digits in which the code points differ decides
  have hdigits : m / 262144 < n / 262144 ∨ m / 262144 = n / 262144 ∧
      (m / 4096 % 64 < n / 4096 % 64 ∨ m / 4096 % 64 = n / 4096 % 64 ∧
        (m / 64 % 64 < n / 64 % 64 ∨ m / 64 % 64 = n / 64 % 64 ∧ m % 64 < n % 64)) := by
    omega
  -- what marks the bytes of longer encodings does not carry them over
  have hbyte : ∀ k, (k % 64 + 128) % 256 = k % 64 + 128 := by omega
  have hm : (m / 262144 % 8 + 240) % 256 = m / 262144 + 240 := by omega
  have hn : (n / 262144 % 8 + 240) % 256 = n / 262144 + 240 := by omega
  -- one case for each two lengths
  repeat' split
  all_goals
    simp only [List.cons_append, List.nil_append, List.cons_lt_cons_iff, UInt8.lt_iff_toNat_lt,
      ← UInt8.toNat_inj, UInt8.toNat_ofNat', Nat.reducePow, hbyte, hm, hn]
    omega

theorem flatMap_utf8EncodeChar_lt {cs ds : List Char} (h : cs < ds) :
    cs.flatMap String.utf8EncodeChar < ds.flatMap String.utf8EncodeChar := by
  induction cs generalizing ds with
  | nil =>
    cases ds with
    | nil => exact absurd h (List.lt_irrefl [])
    | cons d ds =>
      obtain ⟨b, bs, hb⟩ := List.exists_cons_of_ne_nil (String.utf8EncodeChar_ne_nil (c := d))
      rw [List.flatMap_nil, List.flatMap_cons, hb]
      exact List.nil_lt_cons b _
  | cons c cs ih =>
    cases ds with
    | nil => exact absurd h (List.not_lt_nil _)
    | cons d ds =>
      rw [List.flatMap_cons, List.flatMap_cons]
      rcases List.cons_lt_cons_iff.mp h with hlt | ⟨rfl, hlt⟩
      · exact utf8EncodeChar_append_lt hlt _ _
      · exact List.append_left_lt (ih hlt)

/-- The bytes of a text are those of its characters. -/
theorem utf8_eq_flatMap (s : String) :
    s.toUTF8.toList = s.toList.flatMap String.utf8EncodeChar := by
  rw [Binary.toList_eq_data, String.toUTF8, ← String.utf8Encode_toList, List.utf8Encode,
    List.toList_data_toByteArray]

/-- Texts are in the order of their bytes. -/
theorem utf8_lt_utf8 {s t : String} : s.toUTF8.toList < t.toUTF8.toList ↔ s < t := by
  have hmono : ∀ {s t : String}, s < t → s.toUTF8.toList < t.toUTF8.toList := by
    intro s t h
    rw [utf8_eq_flatMap, utf8_eq_flatMap]
    exact flatMap_utf8EncodeChar_lt (String.lt_iff.mp h)
  refine ⟨fun h => ?_, hmono⟩
  -- else the texts are equal or in the other order, and so are the bytes
  by_contra hnot
  rcases Decidable.em (t < s) with hlt | hnot'
  · exact List.lt_asymm h (hmono hlt)
  · obtain rfl := String.le_antisymm (String.not_lt.mp hnot') (String.not_lt.mp hnot)
    exact List.lt_irrefl _ h

end MutationAnalysis.Text
