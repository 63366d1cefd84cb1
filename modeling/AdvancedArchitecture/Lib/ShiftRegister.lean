import Mathlib.Data.Nat.Bitwise
import AdvancedArchitecture.Lib.PowTwo

/-!
# Shift registers

A register of `w` bits holds the last `w` of a sequence of bits, the last one lowest
(`register`). Shifting a bit in (`shiftIn`) keeps it so (`register_append`). In a machine word
that is wider than the register, a bit is shifted in by a shift, a disjunction and a mask, and
the register is put below other bits by a disjunction.
-/

namespace AdvancedArchitecture

variable {w n : ℕ}

/-- The `w`-bit number formed by the last `w` bits of a list: its bit `i` is the last bit but
`i`, and zero where the list is shorter. -/
def register (w : ℕ) (bits : List Bool) : ℕ :=
  Nat.ofBits fun i : Fin w => bits.reverse.getD i false

/-- A bit shifted into a register of `w` bits. -/
def shiftIn (w h : ℕ) (b : Bool) : ℕ := (2 * h + b.toNat) % 2 ^ w

theorem shiftIn_lt (w h : ℕ) (b : Bool) : shiftIn w h b < 2 ^ w :=
  Nat.mod_lt _ (Nat.two_pow_pos w)

theorem register_lt (w : ℕ) (bits : List Bool) : register w bits < 2 ^ w :=
  Nat.ofBits_lt_two_pow _

theorem testBit_register (w : ℕ) (bits : List Bool) (i : ℕ) :
    (register w bits).testBit i = (decide (i < w) && bits.reverse.getD i false) := by
  by_cases hi : i < w
  · rw [register, Nat.testBit_ofBits_lt _ i hi, decide_eq_true hi, Bool.true_and]
  · rw [register, Nat.testBit_ofBits_ge _ i (Nat.le_of_not_lt hi), decide_eq_false hi,
      Bool.false_and]

@[simp]
theorem register_nil (w : ℕ) : register w [] = 0 := by
  refine Nat.eq_of_testBit_eq fun i => ?_
  rw [testBit_register, Nat.zero_testBit]
  simp

/-- The bits of a number with a bit added below. -/
theorem testBit_two_mul_add (h i : ℕ) (b : Bool) :
    (2 * h + b.toNat).testBit i = if i = 0 then b else h.testBit (i - 1) := by
  rw [← Nat.bit_val]
  cases i with
  | zero => exact Nat.testBit_bit_zero b h
  | succ i => exact Nat.testBit_bit_succ i b h

/-- **A bit shifted in** is the last bit of the sequence. -/
theorem register_append (w : ℕ) (bits : List Bool) (b : Bool) :
    register w (bits ++ [b]) = shiftIn w (register w bits) b := by
  refine Nat.eq_of_testBit_eq fun i => ?_
  rw [testBit_register, shiftIn, Nat.testBit_mod_two_pow, testBit_two_mul_add, testBit_register,
    List.reverse_append, List.reverse_singleton, List.singleton_append]
  rcases i with _ | i
  · rfl
  · by_cases hi : i + 1 < w
    · simp [hi, show i < w by omega]
    · simp [hi]

/-! ### In machine words -/

/-- A bit shifted into a word that has room for it. -/
theorem toNat_shiftLeft_or {x : BitVec n} (hx : 2 * x.toNat + 1 < 2 ^ n) (b : Bool) :
    ((x <<< 1) ||| (if b then 1 else 0)).toNat = 2 * x.toNat + b.toNat := by
  have hshift : (x <<< 1).toNat = 2 * x.toNat := by
    rw [BitVec.toNat_shiftLeft, Nat.shiftLeft_eq, Nat.pow_one, Nat.mul_comm,
      Nat.mod_eq_of_lt (by omega)]
  have hbit : (if b then 1 else 0 : BitVec n).toNat = b.toNat := by
    have hn : 0 < n := Nat.pos_of_ne_zero fun h => by simp [h] at hx
    cases b
    · rfl
    · simp [hn]
  rw [BitVec.toNat_or, hshift, hbit]
  refine Nat.eq_of_testBit_eq fun i => ?_
  have heven := testBit_two_mul_add x.toNat i false
  rw [Bool.toNat_false, Nat.add_zero] at heven
  rw [Nat.testBit_or, testBit_two_mul_add, heven]
  rcases i with _ | i
  · cases b <;> rfl
  · cases b <;> simp [Nat.testBit_succ]

/-- The low `w` bits of a word. -/
theorem toNat_and_one_shiftLeft (hw : w < n) (x : BitVec n) :
    (x &&& ((1#n <<< w) - 1)).toNat = x.toNat % 2 ^ w := by
  have hpow : 2 ^ w < 2 ^ n := Nat.pow_lt_pow_right (by decide) hw
  have hmask : (1#n <<< w) - 1 = BitVec.ofNat n (2 ^ w - 1) := by
    have hone : (1#n <<< w).toNat = 2 ^ w := by
      simp [Nat.shiftLeft_eq, Nat.mod_eq_of_lt hpow]
    have hle : 1#n ≤ 1#n <<< w := by
      rw [BitVec.le_def, hone, BitVec.toNat_ofNat]
      exact (Nat.mod_le _ _).trans (Nat.one_le_two_pow)
    have h1 : (1#n).toNat = 1 := by
      rw [BitVec.toNat_ofNat, Nat.mod_eq_of_lt (Nat.one_lt_two_pow (by omega))]
    have hsub := BitVec.toNat_sub_of_le hle
    rw [hone, h1] at hsub
    rw [← BitVec.toNat_inj, BitVec.toNat_ofNat, Nat.mod_eq_of_lt (by omega)]
    exact hsub
  rw [hmask, SizeOk.toNat_and (SizeOk.of_two_pow w) hpow.le]

/-- A register below other bits. -/
theorem toNat_or_shiftLeft (hw : w ≤ n) {x : BitVec n} (hx : x.toNat < 2 ^ w) (y : BitVec n) :
    (x ||| (y <<< w)).toNat = x.toNat + 2 ^ w * y.toNat % 2 ^ n := by
  have hmod : 2 ^ w * y.toNat % 2 ^ n = 2 ^ w * (y.toNat % 2 ^ (n - w)) := by
    rw [← Nat.mul_mod_mul_left, ← Nat.pow_add, Nat.add_sub_of_le hw]
  rw [BitVec.toNat_or, BitVec.toNat_shiftLeft, Nat.shiftLeft_eq, Nat.mul_comm y.toNat, hmod,
    Nat.lor_comm, ← Nat.two_pow_add_eq_or_of_lt hx, Nat.add_comm]

end AdvancedArchitecture
