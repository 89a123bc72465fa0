/-
Sizes of memories.

A memory keeps its size, whatever is written to it.

* `Memory.size_blank`: the size of a new memory;
* `Memory.size_putWord`, `Memory.size_of_write?`: words and bytes that are written.
-/
import MutationAnalysis.Wasm.Memory
import Mathlib.Tactic.Common

namespace MutationAnalysis.Wasm

theorem size_zeroBytes (n : Nat) : (zeroBytes n).size = n := by
  induction n using Nat.strongRecOn with
  | _ n ih =>
    rw [zeroBytes]
    split
    · rename_i hzero
      rw [hzero]
      rfl
    · rename_i hzero
      have hhalf := ih (n / 2) (by omega)
      dsimp only
      split
      · rw [ByteArray.size_push, ByteArray.size_append, hhalf]
        omega
      · rw [ByteArray.size_append, hhalf]
        omega

namespace Memory

variable {m m' : Memory} {offset : Nat} {bytes : List UInt8}

theorem size_blank (pages : Nat) : (blank pages).size = pages * pageSize := size_zeroBytes _

theorem size_setByte (m : Memory) (address : Nat) (b : UInt8) :
    (m.setByte address b).size = m.size := by
  obtain ⟨⟨bytes⟩⟩ := m
  show (bytes.set! address b).size = bytes.size
  exact Array.size_setIfInBounds

theorem size_putWord (m : Memory) (address : Nat) (w : Word) :
    (m.putWord address w).size = m.size := by
  simp only [putWord, size_setByte]

theorem size_setBytes (m : Memory) (address : Nat) (bytes : List UInt8) :
    (m.setBytes address bytes).size = m.size := by
  induction bytes generalizing m address with
  | nil => rfl
  | cons b rest ih => rw [setBytes, ih, size_setByte]

/-- Bytes are written where there is room for them. -/
theorem write?_eq_some : m.write? offset bytes = some m' ↔
    offset + bytes.length ≤ m.size ∧ m' = m.setBytes offset bytes := by
  rw [write?]
  split
  · rename_i hroom
    rw [Option.some.injEq, eq_comm]
    exact ⟨fun h => ⟨hroom, h⟩, fun h => h.2⟩
  · rename_i hroom
    exact iff_of_false (by simp) fun h => hroom h.1

theorem size_of_write? (h : m.write? offset bytes = some m') : m'.size = m.size := by
  obtain ⟨-, rfl⟩ := write?_eq_some.mp h
  exact size_setBytes m offset bytes

end Memory

end MutationAnalysis.Wasm
