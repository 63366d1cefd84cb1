import Mathlib.Algebra.Order.Ring.Nat
import Mathlib.Tactic.Ring
import AdvancedArchitecture.Cache.Machine

/-!
# Addresses

An address is a block number and an offset in the block; the set index and the tag are the
remainder and the quotient of the block number by the number of sets. The shifts and masks of
`cache.c` compute these, and `CACHE_MK_BADDR` puts the address of a block together again
(`Config.mkBaddr_tag_set`).
-/

namespace AdvancedArchitecture.Cache.Config

variable {cfg : Config}

/-- A cache of `2 ^ n` sets of `2 ^ a` blocks of `2 ^ b` bytes. -/
def ofLogs (n b a : ℕ) (policy : CachePolicy) (hn : n < 31 := by decide)
    (hb : 3 ≤ b ∧ b < 31 := by decide) (ha : a < 31 := by decide) : Config where
  nsets := 2 ^ n
  bsize := 2 ^ b
  balloc := true
  usize := 0
  assoc := 2 ^ a
  policy := policy
  hitLatency := 1
  nsets_ok := SizeOk.of_two_pow n
  nsets_lt := Nat.pow_lt_pow_right (by decide) hn
  bsize_ok := SizeOk.of_two_pow b
  bsize_ge := show 2 ^ 3 ≤ 2 ^ b from Nat.pow_le_pow_right (by decide) hb.1
  bsize_lt := Nat.pow_lt_pow_right (by decide) hb.2
  assoc_ok := SizeOk.of_two_pow a
  assoc_lt := Nat.pow_lt_pow_right (by decide) ha

theorem three_log : 3 ≤ 3 ∧ 3 < 31 := by decide

theorem min_log (n : ℕ) : min n 30 < 31 := Nat.lt_succ_of_le (Nat.min_le_right n 30)

/-- A cache of `2 ^ n` sets of `2 ^ a` blocks of eight bytes; `n` and `a` are at most 30. -/
def ofWordLogs (n a : ℕ) (policy : CachePolicy) : Config :=
  ofLogs (min n 30) 3 (min a 30) policy (min_log n) three_log (min_log a)

/-- The number of the block of an address. -/
def blockNum (cfg : Config) (addr : MdAddr) : ℕ := addr.toNat / cfg.bsize

theorem bsize_le : cfg.bsize ≤ 2 ^ 64 := by
  have := cfg.bsize_lt
  omega

theorem nsets_le : cfg.nsets ≤ 2 ^ 64 := by
  have := cfg.nsets_lt
  omega

theorem blk_toNat (addr : MdAddr) : (cfg.blk addr).toNat = addr.toNat % cfg.bsize :=
  cfg.bsize_ok.toNat_and bsize_le addr

theorem tag_toNat (addr : MdAddr) : (cfg.tag addr).toNat = cfg.blockNum addr / cfg.nsets := by
  rw [tag, tagShift, setShift, BitVec.toNat_ushiftRight, Nat.shiftRight_eq_div_pow, Nat.pow_add,
    cfg.bsize_ok.two_pow_log2, cfg.nsets_ok.two_pow_log2, blockNum, Nat.div_div_eq_div_mul]

theorem set_toNat (addr : MdAddr) : (cfg.set addr).toNat = cfg.blockNum addr % cfg.nsets := by
  rw [set, setMask, cfg.nsets_ok.toNat_and nsets_le, setShift, cfg.bsize_ok.toNat_shiftRight,
    blockNum]

theorem set_lt (addr : MdAddr) : (cfg.set addr).toNat < cfg.nsets := by
  rw [set_toNat]
  exact Nat.mod_lt _ cfg.nsets_ok.pos

/-- Clearing the low bits by a mask is shifting them out and back. -/
theorem and_not_mask (addr : MdAddr) :
    addr &&& ~~~cfg.blkMask = (addr >>> cfg.setShift) <<< cfg.setShift := by
  have hmask : ∀ i, cfg.blkMask.getLsbD i = (decide (i < 64) && decide (i < cfg.setShift)) := by
    intro i
    rw [blkMask, BitVec.getLsbD_ofNat]
    have hb : cfg.bsize - 1 = 2 ^ cfg.setShift - 1 := by
      rw [setShift, cfg.bsize_ok.two_pow_log2]
    rw [hb, Nat.testBit_two_pow_sub_one]
  refine BitVec.eq_of_getLsbD_eq fun i hi => ?_
  rw [BitVec.getLsbD_and, BitVec.getLsbD_not, hmask, BitVec.getLsbD_shiftLeft,
    BitVec.getLsbD_ushiftRight]
  by_cases hs : i < cfg.setShift
  · simp [hs, hi]
  · simp [hs, hi, Nat.add_sub_of_le (Nat.le_of_not_lt hs)]

theorem baddr_toNat (addr : MdAddr) : (cfg.baddr addr).toNat = cfg.blockNum addr * cfg.bsize := by
  have hle : cfg.blockNum addr * cfg.bsize ≤ addr.toNat := Nat.div_mul_le_self _ _
  have hlt : cfg.blockNum addr * cfg.bsize < 2 ^ 64 := lt_of_le_of_lt hle addr.isLt
  rw [baddr, and_not_mask, BitVec.toNat_shiftLeft, setShift, cfg.bsize_ok.toNat_shiftRight,
    Nat.shiftLeft_eq, cfg.bsize_ok.two_pow_log2]
  exact Nat.mod_eq_of_lt hlt

/-- Addresses are in the same block if they have the same block address. -/
theorem baddr_eq_iff {addr addr' : MdAddr} :
    cfg.baddr addr = cfg.baddr addr' ↔ cfg.blockNum addr = cfg.blockNum addr' := by
  rw [← BitVec.toNat_inj, baddr_toNat, baddr_toNat]
  exact Nat.mul_left_inj (by have := cfg.bsize_ok.pos; omega)

/-- Addresses are in the same block if they have the same tag and set. -/
theorem tag_set_eq_iff {addr addr' : MdAddr} :
    cfg.tag addr = cfg.tag addr' ∧ cfg.set addr = cfg.set addr' ↔
      cfg.blockNum addr = cfg.blockNum addr' := by
  rw [← BitVec.toNat_inj, ← BitVec.toNat_inj, tag_toNat, tag_toNat, set_toNat, set_toNat]
  refine ⟨fun h => ?_, fun h => by rw [h]; exact ⟨rfl, rfl⟩⟩
  rw [← Nat.div_add_mod (cfg.blockNum addr) cfg.nsets, h.1, h.2, Nat.div_add_mod]

/-- The block address of a tag and a set, as a number. -/
theorem mkBaddr_toNat {tag set : MdAddr} (hset : set.toNat < cfg.nsets)
    (htag : (tag.toNat * cfg.nsets + set.toNat) * cfg.bsize < 2 ^ 64) :
    (cfg.mkBaddr tag set).toNat = (tag.toNat * cfg.nsets + set.toNat) * cfg.bsize := by
  have hb := cfg.bsize_ok.two_pow_log2
  have hn := cfg.nsets_ok.two_pow_log2
  have hpow : 2 ^ cfg.tagShift = cfg.nsets * cfg.bsize := by
    rw [tagShift, setShift, Nat.pow_add, hb, hn, Nat.mul_comm]
  have hs : set.toNat * cfg.bsize < cfg.nsets * cfg.bsize :=
    Nat.mul_lt_mul_of_pos_right hset cfg.bsize_ok.pos
  have heq : (tag.toNat * cfg.nsets + set.toNat) * cfg.bsize =
      tag.toNat * (cfg.nsets * cfg.bsize) + set.toNat * cfg.bsize := by ring
  rw [heq] at htag ⊢
  rw [mkBaddr, BitVec.toNat_or, BitVec.toNat_shiftLeft, BitVec.toNat_shiftLeft, Nat.shiftLeft_eq,
    Nat.shiftLeft_eq, hpow, setShift, hb, Nat.mod_eq_of_lt (by omega), Nat.mod_eq_of_lt (by omega)]
  -- the set index does not reach the bits of the tag
  rw [← hpow] at hs ⊢
  rw [Nat.mul_comm tag.toNat, Nat.two_pow_add_eq_or_of_lt hs]

/-- **`CACHE_MK_BADDR`** rebuilds the address of a block from its tag and set. -/
theorem mkBaddr_tag_set (addr : MdAddr) :
    cfg.mkBaddr (cfg.tag addr) (cfg.set addr) = cfg.baddr addr := by
  have hnum : (cfg.tag addr).toNat * cfg.nsets + (cfg.set addr).toNat = cfg.blockNum addr := by
    rw [tag_toNat, set_toNat, Nat.mul_comm, Nat.div_add_mod]
  have hlt : cfg.blockNum addr * cfg.bsize < 2 ^ 64 :=
    lt_of_le_of_lt (Nat.div_mul_le_self _ _) addr.isLt
  rw [← BitVec.toNat_inj, baddr_toNat, mkBaddr_toNat (set_lt addr) (by rw [hnum]; exact hlt), hnum]

/-- The set index of `cache_flush`, an `int`, is shifted without overflow if `nsets * bsize`
fits in an `int`. -/
theorem mkBaddrInt_eq (hfit : cfg.nsets * cfg.bsize < 2 ^ 31) (tag : MdAddr) {set : MdAddr}
    (hset : set.toNat < cfg.nsets) : cfg.mkBaddrInt tag set.toNat = cfg.mkBaddr tag set := by
  have hb := cfg.bsize_ok.two_pow_log2
  have hs : set.toNat * cfg.bsize < 2 ^ 31 :=
    lt_trans (Nat.mul_lt_mul_of_pos_right hset cfg.bsize_ok.pos) hfit
  have hi : set.toNat < 2 ^ 32 := by
    have := cfg.nsets_lt
    omega
  rw [mkBaddrInt, mkBaddr]
  congr 1
  have hnat : (BitVec.ofNat 32 set.toNat <<< cfg.setShift).toNat = set.toNat * cfg.bsize := by
    rw [BitVec.toNat_shiftLeft, BitVec.toNat_ofNat, Nat.mod_eq_of_lt hi, Nat.shiftLeft_eq,
      setShift, hb, Nat.mod_eq_of_lt (by omega)]
  have hmsb : (BitVec.ofNat 32 set.toNat <<< cfg.setShift).msb = false := by
    rw [BitVec.msb_eq_false_iff_two_mul_lt, hnat]
    omega
  rw [BitVec.signExtend_eq_setWidth_of_msb_false hmsb, ← BitVec.toNat_inj, BitVec.toNat_setWidth,
    hnat, BitVec.toNat_shiftLeft, Nat.shiftLeft_eq, setShift, hb, Nat.mod_eq_of_lt (by omega)]

/-! ### Offsets in a block -/

/-- An address is its block address and its offset. -/
theorem baddr_add_blk (cfg : Config) (addr : MdAddr) :
    (cfg.baddr addr).toNat + (cfg.blk addr).toNat = addr.toNat := by
  rw [baddr_toNat, blk_toNat, blockNum, Nat.mul_comm, Nat.div_add_mod]

/-- The addresses that follow in the same block. -/
theorem add_ofNat (cfg : Config) (addr : MdAddr) {i : ℕ}
    (h : (cfg.blk addr).toNat + i < cfg.bsize) :
    cfg.baddr (addr + BitVec.ofNat 64 i) = cfg.baddr addr ∧
      (cfg.blk (addr + BitVec.ofNat 64 i)).toNat = (cfg.blk addr).toNat + i := by
  have hb := cfg.bsize_lt
  have hpos := cfg.bsize_ok.pos
  have hdiv : addr.toNat = cfg.bsize * cfg.blockNum addr + (cfg.blk addr).toNat := by
    rw [blk_toNat, blockNum, Nat.div_add_mod]
  rw [blk_toNat] at h
  -- a block does not reach over the end of the address space
  have hend : addr.toNat + i < 2 ^ 64 := by
    have hdvd : cfg.bsize ∣ 2 ^ 64 := by
      rw [← cfg.bsize_ok.two_pow_log2]
      refine pow_dvd_pow 2 ?_
      by_contra hlt
      have : 2 ^ 64 ≤ 2 ^ cfg.bsize.log2 := Nat.pow_le_pow_right (by omega) (by omega)
      rw [cfg.bsize_ok.two_pow_log2] at this
      omega
    obtain ⟨q, hq⟩ := hdvd
    have hlt : cfg.blockNum addr < q := by
      refine Nat.div_lt_of_lt_mul ?_
      rw [← hq]
      exact addr.isLt
    have hmul : cfg.bsize * (cfg.blockNum addr + 1) ≤ cfg.bsize * q := Nat.mul_le_mul_left _ hlt
    rw [← hq, Nat.mul_add, Nat.mul_one] at hmul
    rw [blk_toNat] at hdiv
    omega
  have hnat : (addr + BitVec.ofNat 64 i).toNat = addr.toNat + i := by
    rw [BitVec.toNat_add, BitVec.toNat_ofNat, Nat.mod_eq_of_lt (by omega : i < 2 ^ 64),
      Nat.mod_eq_of_lt hend]
  have hsplit : addr.toNat + i = cfg.bsize * cfg.blockNum addr + (addr.toNat % cfg.bsize + i) := by
    rw [blk_toNat] at hdiv
    omega
  refine ⟨baddr_eq_iff.mpr ?_, ?_⟩
  · rw [blockNum, hnat, hsplit, Nat.mul_add_div hpos, Nat.div_eq_of_lt h, Nat.add_zero]
  · rw [blk_toNat, hnat, hsplit, Nat.mul_add_mod, Nat.mod_eq_of_lt h, blk_toNat]

end AdvancedArchitecture.Cache.Config
