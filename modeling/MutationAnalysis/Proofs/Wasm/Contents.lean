/-
What memory holds.

Bytes that are written are found where they were written, and what stands around
them stays.  So what memory holds after several parts were written one after the
other can be said of each part alone.

* `Memory.Holds`: bytes stand in memory from an address on;
* `Memory.holds_append`: parts that follow each other;
* `Memory.holds_setBytes`, `Memory.byte_setBytes_outside`: what
  writing changes and what it does not;
* `Memory.Holds.read?`, `Memory.Holds.loadWord?`: what is read then.
-/
import MutationAnalysis.Proofs.Binary.Codec
import MutationAnalysis.Proofs.Interpreter.Arithmetic
import MutationAnalysis.Proofs.Wasm.Memory

namespace MutationAnalysis.Wasm.Memory

variable {m : Memory} {address : Nat} {bytes xs ys : List UInt8}

theorem byte_setByte (m : Memory) (address n : Nat) (b : UInt8) :
    (m.setByte address b).byte n = if n = address ∧ n < m.size then b else m.byte n := by
  obtain ⟨⟨bytes⟩⟩ := m
  show (bytes.setIfInBounds address b)[n]! = if n = address ∧ n < bytes.size then b else bytes[n]!
  rw [getElem!_def, getElem!_def, Array.getElem?_setIfInBounds]
  by_cases haddress : address = n
  · subst haddress
    by_cases hroom : address < bytes.size
    · rw [if_pos rfl, if_pos hroom, if_pos ⟨rfl, hroom⟩]
    · rw [if_pos rfl, if_neg hroom, if_neg fun h => hroom h.2,
        Array.getElem?_eq_none (Nat.le_of_not_lt hroom)]
  · rw [if_neg haddress, if_neg fun h => haddress h.1.symm]

/-- Bytes are found where they are written, and those around them stay. -/
theorem byte_setBytes (m : Memory) (address : Nat) (bytes : List UInt8)
    (hroom : address + bytes.length ≤ m.size) (n : Nat) :
    (m.setBytes address bytes).byte n =
      if address ≤ n then (bytes[n - address]?).getD (m.byte n) else m.byte n := by
  induction bytes generalizing m address with
  | nil => simp [setBytes]
  | cons b rest ih =>
    rw [List.length_cons] at hroom
    rw [setBytes, ih _ _ (by rw [size_setByte]; omega), byte_setByte]
    rcases Nat.lt_trichotomy n address with hlt | rfl | hlt
    · rw [if_neg (by omega), if_neg (by omega), if_neg (by omega)]
    · rw [if_neg (by omega), if_pos ⟨rfl, by omega⟩, if_pos (Nat.le_refl _), Nat.sub_self]
      rfl
    · have hindex : n - address = n - (address + 1) + 1 := by omega
      rw [if_pos (by omega), if_neg (by omega), if_pos (by omega), hindex, List.getElem?_cons_succ]

theorem byte_setBytes_outside (hroom : address + bytes.length ≤ m.size) {n : Nat}
    (hn : n < address ∨ address + bytes.length ≤ n) :
    (m.setBytes address bytes).byte n = m.byte n := by
  rw [byte_setBytes m address bytes hroom]
  split
  · rw [List.getElem?_eq_none (by omega)]
    rfl
  · rfl

/-- The bytes stand one after the other from an address on, all of them within the memory. -/
structure Holds (m : Memory) (address : Nat) (bytes : List UInt8) : Prop where
  room : address + bytes.length ≤ m.size
  byte_eq : ∀ (i : Nat) (b : UInt8), bytes[i]? = some b → m.byte (address + i) = b

theorem holds_append : m.Holds address (xs ++ ys) ↔
    m.Holds address xs ∧ m.Holds (address + xs.length) ys := by
  constructor
  · rintro ⟨hroom, hbyte⟩
    rw [List.length_append] at hroom
    refine ⟨⟨by omega, fun i b hb => ?_⟩, ⟨by omega, fun i b hb => ?_⟩⟩
    · have hlt := (List.getElem?_eq_some_iff.mp hb).1
      exact hbyte i b (by rw [List.getElem?_append_left hlt, hb])
    · rw [Nat.add_assoc]
      exact hbyte _ b (by rw [List.getElem?_append_right (by omega), Nat.add_sub_cancel_left, hb])
  · rintro ⟨⟨-, hxs⟩, ⟨hroom, hys⟩⟩
    refine ⟨by rw [List.length_append]; omega, fun i b hb => ?_⟩
    rcases Nat.lt_or_ge i xs.length with hlt | hge
    · rw [List.getElem?_append_left hlt] at hb
      exact hxs i b hb
    · rw [List.getElem?_append_right hge] at hb
      have h := hys _ b hb
      rwa [Nat.add_assoc, Nat.add_sub_cancel' hge] at h

theorem holds_setBytes (hroom : address + bytes.length ≤ m.size) :
    (m.setBytes address bytes).Holds address bytes := by
  refine ⟨by rwa [size_setBytes], fun i b hb => ?_⟩
  rw [byte_setBytes m address bytes hroom, if_pos (Nat.le_add_right _ _),
    Nat.add_sub_cancel_left, hb]
  rfl

/-- What stands in memory is read. -/
theorem Holds.read? (h : m.Holds address bytes) : m.read? address bytes.length = some bytes := by
  rw [Memory.read?, if_pos h.room, Binary.toList_eq_data, ByteArray.data_extract,
    Array.toList_extract, List.extract_eq_take_drop, Nat.add_sub_cancel_left]
  congr 1
  apply List.ext_getElem
  · have hroom : address + bytes.length ≤ m.bytes.data.toList.length := h.room
    rw [List.length_take, List.length_drop]
    omega
  · intro i hi hi'
    rw [List.getElem_take, List.getElem_drop, Array.getElem_toList,
      ← h.byte_eq i _ (List.getElem?_eq_getElem hi')]
    exact (getElem!_pos m.bytes.data (address + i) _).symm

/-- The bytes of a number that fits are loaded as a word. -/
theorem Holds.loadWord? {n : Nat} (h : m.Holds address (Binary.bytesOfNat 4 n))
    (hn : n < UInt32.size) :
    m.loadWord? address = some (UInt32.ofNat n) := by
  have hbyte : ∀ i, i < 4 → m.byte (address + i) = UInt8.ofNat (n / 256 ^ i % 256) := by
    intro i hi
    apply h.byte_eq
    match i, hi with
    | 0, _ | 1, _ | 2, _ | 3, _ => simp [Binary.bytesOfNat, Nat.div_div_eq_div_mul]
  have hvalue : ∀ i, (UInt8.ofNat (n / 256 ^ i % 256)).toNat = n / 256 ^ i % 256 :=
    fun i => UInt8.toNat_ofNat_of_lt' (Nat.mod_lt _ (by decide))
  have hroom : address + 4 ≤ m.size := h.room
  have hlowest : m.byte address = _ := hbyte 0 (by decide)
  rw [Interpreter.loadWord?_eq_wordAt?, Interpreter.wordAt?, if_pos hroom, hlowest,
    hbyte 1 (by decide), hbyte 2 (by decide), hbyte 3 (by decide), hvalue, hvalue, hvalue, hvalue]
  congr 2
  have hsize : UInt32.size = 256 * 256 * 256 * 256 := rfl
  omega

end MutationAnalysis.Wasm.Memory
