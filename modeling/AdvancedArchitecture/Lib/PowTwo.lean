import Mathlib.Data.Nat.Notation
import Mathlib.Algebra.Group.Nat.Defs
import Mathlib.Data.Nat.Log

/-!
# Sizes that are powers of two

Programs check that a size `n` is a power of two by `n != 0 && (n & (n-1)) == 0`, and then use
masks and shifts for remainders and quotients. `SizeOk` is the check; the lemmas say what the
masks and shifts of a machine word compute.
-/

namespace AdvancedArchitecture

/-- A masked word is an index below the size. -/
theorem toNat_and_ofNat_pred_lt {w n : ℕ} (x : BitVec w) (hn : 0 < n) :
    (x &&& BitVec.ofNat w (n - 1)).toNat < n := by
  rw [BitVec.toNat_and, BitVec.toNat_ofNat]
  have hle : x.toNat &&& (n - 1) % 2 ^ w ≤ (n - 1) % 2 ^ w := Nat.and_le_right
  have hmod : (n - 1) % 2 ^ w ≤ n - 1 := Nat.mod_le _ _
  omega

/-- The check of a size: non-zero, and a power of two. -/
def SizeOk (n : ℕ) : Prop := n ≠ 0 ∧ n &&& (n - 1) = 0

instance (n : ℕ) : Decidable (SizeOk n) := inferInstanceAs (Decidable (_ ∧ _))

namespace SizeOk

variable {n : ℕ} {w : ℕ}

theorem pos (h : SizeOk n) : 0 < n := Nat.pos_of_ne_zero h.1

theorem two_pow_log2 (h : SizeOk n) : 2 ^ n.log2 = n := by
  obtain ⟨k, rfl⟩ := Nat.ne_zero_and_sub_one_eq_zero_iff_isPowerOfTwo.mp h
  rw [Nat.log2_two_pow]

theorem of_two_pow (k : ℕ) : SizeOk (2 ^ k) :=
  Nat.ne_zero_and_sub_one_eq_zero_iff_isPowerOfTwo.mpr ⟨k, rfl⟩

/-- A smaller power of two divides. -/
theorem two_pow_dvd (h : SizeOk n) {k : ℕ} (hk : 2 ^ k ≤ n) : 2 ^ k ∣ n := by
  rw [← h.two_pow_log2]
  exact Nat.pow_dvd_pow 2 ((Nat.le_log2 h.1).mpr hk)

/-- `x & (n - 1)` is the remainder. -/
theorem toNat_and (h : SizeOk n) (hn : n ≤ 2 ^ w) (x : BitVec w) :
    (x &&& BitVec.ofNat w (n - 1)).toNat = x.toNat % n := by
  have hlt : n - 1 < 2 ^ w := by have := h.pos; omega
  rw [BitVec.toNat_and, BitVec.toNat_ofNat, Nat.mod_eq_of_lt hlt, ← h.two_pow_log2,
    Nat.and_two_pow_sub_one_eq_mod]

/-- `x >> log2(n)` is the quotient. -/
theorem toNat_shiftRight (h : SizeOk n) (x : BitVec w) :
    (x >>> n.log2).toNat = x.toNat / n := by
  rw [BitVec.toNat_ushiftRight, Nat.shiftRight_eq_div_pow, h.two_pow_log2]

end SizeOk

end AdvancedArchitecture
