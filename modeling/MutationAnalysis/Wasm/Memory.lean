/-
Linear memory.

A memory is a whole number of pages of bytes.  Words are four bytes, the lowest first, at any
address.  Whatever would touch a byte past the end is refused and changes nothing.
-/
import MutationAnalysis.Wasm.Code

namespace MutationAnalysis.Wasm

structure Memory where
  bytes : ByteArray

/-- Bytes in a page. -/
def pageSize : Nat := 65536

/-- So many zero bytes, by doubling. -/
def zeroBytes (n : Nat) : ByteArray :=
  if n = 0 then .empty
  else
    let half := zeroBytes (n / 2)
    let even := half ++ half
    if n % 2 = 1 then even.push 0 else even
termination_by n
decreasing_by omega

namespace Memory

def blank (pages : Nat) : Memory := ⟨zeroBytes (pages * pageSize)⟩

def size (m : Memory) : Nat := m.bytes.size

def pages (m : Memory) : Nat := m.size / pageSize

/-- The byte at an address, zero past the end. -/
def byte (m : Memory) (address : Nat) : UInt8 :=
  m.bytes.get! address

def loadWord? (m : Memory) (address : Nat) : Option Word :=
  if address + 4 ≤ m.size then
    some ((m.byte address).toUInt32 ||| ((m.byte (address + 1)).toUInt32 <<< 8)
      ||| ((m.byte (address + 2)).toUInt32 <<< 16) ||| ((m.byte (address + 3)).toUInt32 <<< 24))
  else none

def setByte (m : Memory) (address : Nat) (b : UInt8) : Memory :=
  ⟨m.bytes.set! address b⟩

/-- Puts the four bytes of a word at an address that leaves room for them. -/
def putWord (m : Memory) (address : Nat) (w : Word) : Memory :=
  (((m.setByte address w.toUInt8).setByte (address + 1) (w >>> 8).toUInt8).setByte
    (address + 2) (w >>> 16).toUInt8).setByte (address + 3) (w >>> 24).toUInt8

def read? (m : Memory) (offset length : Nat) : Option (List UInt8) :=
  if offset + length ≤ m.size then some ((m.bytes.extract offset (offset + length)).toList)
  else none

/-- Puts bytes one after the other from an address on. -/
def setBytes (m : Memory) (address : Nat) : List UInt8 → Memory
  | [] => m
  | b :: rest => (m.setByte address b).setBytes (address + 1) rest

def write? (m : Memory) (offset : Nat) (bytes : List UInt8) : Option Memory :=
  if offset + bytes.length ≤ m.size then some (m.setBytes offset bytes) else none

end Memory

end MutationAnalysis.Wasm
