/-
What instructions compute.

Words stand for the numbers from -2 ^ 31 to 2 ^ 31 - 1.  Arithmetic is that of these numbers, of
which a word keeps what is left modulo 2 ^ 32; a word in memory is the number that its four
bytes make, the lowest first.  The second half shows that the operations of the machine, which
work on the bits, do the same.
-/
import MutationAnalysis.Program.Instruction
import MutationAnalysis.Wasm.Machine
import MutationAnalysis.Lowering.Code
import Mathlib.Algebra.Order.Ring.Int
import Mathlib.Tactic.Common

namespace MutationAnalysis.Interpreter

open Wasm

/-- The number that a word stands for. -/
def signed (w : Word) : Int :=
  if w.toNat < 2 ^ 31 then w.toNat else w.toNat - 2 ^ 32

/-- The word that is left of a number. -/
def wrap (n : Int) : Word := UInt32.ofNat (n % 2 ^ 32).toNat

/-- The word of a truth value. -/
def truth (b : Bool) : Word := if b then 1 else 0

/-- The quotient of two words, towards zero. -/
def quotient (a b : Word) : Except Trap Word :=
  if signed b = 0 then .error .integerDivisionByZero
  else if signed a = -2 ^ 31 ∧ signed b = -1 then .error .integerOverflow
  else .ok (wrap ((signed a).tdiv (signed b)))

/-- The remainder of two words, with the sign of the first. -/
def remainder (a b : Word) : Except Trap Word :=
  if signed b = 0 then .error .integerDivisionByZero
  else .ok (wrap ((signed a).tmod (signed b)))

/-- The word that an opcode computes from the words of its operands. -/
def compute : Opcode → List Word → Option (Except Trap Word)
  | .add, [a, b] => some (.ok (wrap (signed a + signed b)))
  | .sub, [a, b] => some (.ok (wrap (signed a - signed b)))
  | .mul, [a, b] => some (.ok (wrap (signed a * signed b)))
  | .div, [a, b] => some (quotient a b)
  | .mod, [a, b] => some (remainder a b)
  | .neg, [a] => some (.ok (wrap (-signed a)))
  | .eq, [a, b] => some (.ok (truth (signed a = signed b)))
  | .ne, [a, b] => some (.ok (truth (signed a ≠ signed b)))
  | .lt, [a, b] => some (.ok (truth (signed a < signed b)))
  | .le, [a, b] => some (.ok (truth (signed a ≤ signed b)))
  | .gt, [a, b] => some (.ok (truth (signed a > signed b)))
  | .ge, [a, b] => some (.ok (truth (signed a ≥ signed b)))
  | .and, [a, b] => some (.ok (a &&& b))
  | .or, [a, b] => some (.ok (a ||| b))
  | .xor, [a, b] => some (.ok (a ^^^ b))
  | .not, [a] => some (.ok (truth (signed a = 0)))
  | .copy, [a] | .loadConst, [a] => some (.ok a)
  | _, _ => none

/-- The word at an address, if there is room for one. -/
def wordAt? (m : Memory) (address : Nat) : Option Word :=
  if address + 4 ≤ m.size then
    some (UInt32.ofNat ((m.byte address).toNat + 2 ^ 8 * (m.byte (address + 1)).toNat
      + 2 ^ 16 * (m.byte (address + 2)).toNat + 2 ^ 24 * (m.byte (address + 3)).toNat))
  else none

/-- The memory with a word at an address, if there is room for one. -/
def putWordAt? (m : Memory) (address : Nat) (w : Word) : Option Memory :=
  m.write? address ([0, 8, 16, 24].map fun bits => UInt8.ofNat (w.toNat / 2 ^ bits))

/-! ### The machine computes the same -/

theorem signed_eq_toInt32 (w : Word) : signed w = w.toInt32.toInt := by
  rw [signed]
  show _ = w.toBitVec.toInt
  rw [BitVec.toInt_eq_toNat_cond]
  show _ = if 2 * w.toNat < 2 ^ 32 then (w.toNat : Int) else (w.toNat : Int) - (2 ^ 32 : Nat)
  split <;> split <;> omega

theorem signed_emod (w : Word) : signed w % 2 ^ 32 = w.toNat := by
  have := w.toNat_lt
  rw [signed]
  split <;> omega

theorem signed_inj {a b : Word} : signed a = signed b ↔ a = b := by
  constructor
  · intro h
    have := congrArg (· % (2 ^ 32 : Int)) h
    simp only [signed_emod] at this
    exact UInt32.toNat_inj.mp (by omega)
  · rintro rfl
    rfl

theorem toNat_wrap (n : Int) : ((wrap n).toNat : Int) = n % 2 ^ 32 := by
  rw [wrap, UInt32.toNat_ofNat']
  omega

theorem eq_wrap {w : Word} {n : Int} (h : (w.toNat : Int) = n % 2 ^ 32) : w = wrap n := by
  have := toNat_wrap n
  exact UInt32.toNat_inj.mp (by omega)

theorem toUInt32_eq_wrap (n : Int32) : n.toUInt32 = wrap n.toInt := by
  have := signed_emod n.toUInt32
  rw [signed_eq_toInt32] at this
  exact eq_wrap this.symm

theorem wrap_bmod (n : Int) : wrap (n.bmod (2 ^ 32)) = wrap n := by
  have := Int.bmod_emod (x := n) (m := 2 ^ 32)
  refine eq_wrap ?_
  rw [toNat_wrap]
  exact_mod_cast this

theorem add_eq_wrap (a b : Word) : a + b = wrap (signed a + signed b) := by
  refine eq_wrap ?_
  have ha := signed_emod a
  have hb := signed_emod b
  rw [UInt32.toNat_add]
  omega

theorem sub_eq_wrap (a b : Word) : a - b = wrap (signed a - signed b) := by
  refine eq_wrap ?_
  have ha := signed_emod a
  have hb := signed_emod b
  rw [UInt32.toNat_sub]
  omega

theorem mul_eq_wrap (a b : Word) : a * b = wrap (signed a * signed b) := by
  refine eq_wrap ?_
  rw [UInt32.toNat_mul, Int.mul_emod, signed_emod, signed_emod]
  norm_cast

theorem divS_eq_quotient (a b : Word) : BinaryOp.divS.eval a b = quotient a b := by
  have hzero : signed b = 0 ↔ b = 0 := signed_inj (b := 0)
  have hmin : signed a = -2 ^ 31 ↔ a = 0x80000000 := signed_inj (b := 0x80000000)
  have hone : signed b = -1 ↔ b = 0xFFFFFFFF := signed_inj (b := 0xFFFFFFFF)
  rw [BinaryOp.eval, quotient]
  simp only [hzero, hmin, hone]
  rw [toUInt32_eq_wrap, Int32.toInt_div, wrap_bmod, signed_eq_toInt32, signed_eq_toInt32]

theorem remS_eq_remainder (a b : Word) : BinaryOp.remS.eval a b = remainder a b := by
  have hzero : signed b = 0 ↔ b = 0 := signed_inj (b := 0)
  rw [BinaryOp.eval, remainder]
  simp only [hzero]
  rw [toUInt32_eq_wrap, Int32.toInt_mod, signed_eq_toInt32, signed_eq_toInt32]

theorem truth_eq (b : Bool) : truth b = wordOfBool b := rfl

theorem decide_lt (a b : Word) : decide (a.toInt32 < b.toInt32) = decide (signed a < signed b) := by
  rw [signed_eq_toInt32, signed_eq_toInt32, decide_eq_decide, Int32.lt_iff_toInt_lt]

theorem decide_le (a b : Word) : decide (a.toInt32 ≤ b.toInt32) = decide (signed a ≤ signed b) := by
  rw [signed_eq_toInt32, signed_eq_toInt32, decide_eq_decide, Int32.le_iff_toInt_le]

/-- The operation of a binary opcode computes what the opcode does. -/
theorem compute_of_binaryOp? {opcode : Opcode} {op : BinaryOp}
    (h : Lowering.binaryOp? opcode = some op) (a b : Word) :
    compute opcode [a, b] = some (op.eval a b) := by
  cases opcode <;> simp only [Lowering.binaryOp?, Option.some.injEq, reduceCtorEq] at h <;> subst h
  case add => rw [BinaryOp.eval, add_eq_wrap, compute]
  case sub => rw [BinaryOp.eval, sub_eq_wrap, compute]
  case mul => rw [BinaryOp.eval, mul_eq_wrap, compute]
  case div => rw [divS_eq_quotient, compute]
  case mod => rw [remS_eq_remainder, compute]
  case eq | ne => simp [BinaryOp.eval, compute, truth_eq, signed_inj, BEq.beq, bne]
  case lt => rw [BinaryOp.eval, compute, truth_eq, decide_lt]
  case le => rw [BinaryOp.eval, compute, truth_eq, decide_le]
  case gt => rw [BinaryOp.eval, compute, truth_eq, decide_lt]
  case ge => rw [BinaryOp.eval, compute, truth_eq, decide_le]
  case and | or | xor => rfl

theorem compute_neg (a : Word) : compute .neg [a] = some (.ok (0 - a)) := by
  rw [compute, sub_eq_wrap, show signed 0 = 0 from rfl, Int.zero_sub]

theorem compute_not (a : Word) : compute .not [a] = some (.ok (wordOfBool (a == 0))) := by
  have hzero : signed a = 0 ↔ a = 0 := signed_inj (b := 0)
  simp [compute, truth_eq, hzero, BEq.beq]

theorem ne_zero_iff {w : Word} : signed w ≠ 0 ↔ w ≠ 0 := not_congr (signed_inj (b := 0))

/-- Four bytes, the lowest first. -/
theorem or_shifts_eq (b₀ b₁ b₂ b₃ : UInt8) :
    b₀.toUInt32 ||| (b₁.toUInt32 <<< 8) ||| (b₂.toUInt32 <<< 16) ||| (b₃.toUInt32 <<< 24)
      = UInt32.ofNat (b₀.toNat + 2 ^ 8 * b₁.toNat + 2 ^ 16 * b₂.toNat + 2 ^ 24 * b₃.toNat) := by
  have h₀ := b₀.toNat_lt
  have h₁ := b₁.toNat_lt
  have h₂ := b₂.toNat_lt
  have h₃ := b₃.toNat_lt
  apply UInt32.toNat_inj.mp
  have shift : ∀ (b : UInt8) (k : UInt32), k.toNat ≤ 24 →
      (b.toUInt32 <<< k).toNat = 2 ^ k.toNat * b.toNat := by
    intro b k hk
    have hb := b.toNat_lt
    have hlt : 2 ^ k.toNat * b.toNat < 2 ^ 32 :=
      calc 2 ^ k.toNat * b.toNat ≤ 2 ^ 24 * b.toNat :=
            Nat.mul_le_mul_right _ (Nat.pow_le_pow_right (by decide) hk)
        _ < 2 ^ 32 := by omega
    rw [UInt32.toNat_shiftLeft, UInt8.toNat_toUInt32, Nat.mod_eq_of_lt (a := k.toNat) (by omega),
      Nat.shiftLeft_eq, Nat.mul_comm, Nat.mod_eq_of_lt hlt]
  rw [UInt32.toNat_or, UInt32.toNat_or, UInt32.toNat_or, shift b₁ 8 (by decide),
    shift b₂ 16 (by decide), shift b₃ 24 (by decide), UInt8.toNat_toUInt32, UInt32.toNat_ofNat']
  show b₀.toNat ||| 2 ^ 8 * b₁.toNat ||| 2 ^ 16 * b₂.toNat ||| 2 ^ 24 * b₃.toNat = _
  -- the bytes do not overlap, so putting them together is adding them
  rw [Nat.or_comm b₀.toNat, ← Nat.two_pow_add_eq_or_of_lt (i := 8) (by omega),
    Nat.or_comm _ (2 ^ 16 * _), ← Nat.two_pow_add_eq_or_of_lt (i := 16) (by omega),
    Nat.or_comm _ (2 ^ 24 * _), ← Nat.two_pow_add_eq_or_of_lt (i := 24) (by omega)]
  omega

theorem loadWord?_eq_wordAt? (m : Memory) (address : Nat) :
    m.loadWord? address = wordAt? m address := by
  rw [Memory.loadWord?, wordAt?, or_shifts_eq]

theorem toUInt8_shiftRight (w : Word) (k : UInt32) (hk : k.toNat < 32) :
    (w >>> k).toUInt8 = UInt8.ofNat (w.toNat / 2 ^ k.toNat) := by
  apply UInt8.toNat_inj.mp
  rw [UInt32.toNat_toUInt8, UInt32.toNat_shiftRight, UInt8.toNat_ofNat', Nat.mod_eq_of_lt hk,
    Nat.shiftRight_eq_div_pow]

/-- Storing a word is refused exactly where there is no room, and puts it there otherwise. -/
theorem putWordAt?_eq (m : Memory) (address : Nat) (w : Word) :
    putWordAt? m address w
      = if address + 4 ≤ m.size then some (m.putWord address w) else none := by
  rw [putWordAt?, Memory.write?, Memory.putWord, toUInt8_shiftRight w 8 (by decide),
    toUInt8_shiftRight w 16 (by decide), toUInt8_shiftRight w 24 (by decide)]
  have hlow : w.toUInt8 = UInt8.ofNat (w.toNat / 2 ^ 0) := by
    apply UInt8.toNat_inj.mp
    rw [UInt32.toNat_toUInt8, UInt8.toNat_ofNat', Nat.pow_zero, Nat.div_one]
  rw [hlow]
  rfl

end MutationAnalysis.Interpreter
