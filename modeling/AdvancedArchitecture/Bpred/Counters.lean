import Mathlib.Tactic.Cases
import Mathlib.Tactic.SplitIfs
import AdvancedArchitecture.Bpred.Predictor

/-!
# Counter tables

What a predictor's reads and writes through counter pointers do. The tables of a predictor are
seen as one memory, addressed by `CounterPtr`; writes within the tables (`DirPred.Valid`) are
read back, and the histories are kept elsewhere. From this the effect of
`DirPred.updateCounters` on the counters that a lookup of a conditional branch recorded
(`CombRec`) is one saturating step each, whose width depends on the chooser.
-/

namespace AdvancedArchitecture.Bpred

/-! ### The tables as a memory -/

namespace DirPred

/-- The number of counters of a table. -/
def tableSize : DirPred → Component → ℕ
  | comb bimod _ _, .bimod => bimod.l2size
  | comb _ twolev _, .twolev => twolev.l2size
  | comb _ _ chooser, .chooser => chooser.size
  | twoLevel twolev, .twolev => twolev.l2size
  | twoBit bimod, .bimod => bimod.size
  | _, _ => 0

/-- `p` points into its table. -/
def Valid (d : DirPred) (p : CounterPtr) : Prop := p.index < d.tableSize p.table

@[simp]
theorem tableSize_write (d : DirPred) (p : CounterPtr) (v : ℕ) (t : Component) :
    (d.write p v).tableSize t = d.tableSize t := by
  obtain ⟨c, i⟩ := p
  cases d <;> cases c <;> cases t <;> rfl

theorem read_write_self {d : DirPred} {p : CounterPtr} (h : d.Valid p) (v : ℕ) :
    (d.write p v).read p = v := by
  obtain ⟨c, i⟩ := p
  -- a class without the table has size 0 there, so that `h` rules it out
  cases d <;> cases c <;> first
    | exact Table.get_set_self _ h v
    | exact absurd h (Nat.not_lt_zero i)

theorem read_write_ne (d : DirPred) {p q : CounterPtr} (h : q ≠ p) (v : ℕ) :
    (d.write p v).read q = d.read q := by
  obtain ⟨c, i⟩ := p
  obtain ⟨c', j⟩ := q
  have hij : c' = c → j ≠ i := fun hc hj => h (by rw [hc, hj])
  cases d <;> cases c <;> cases c' <;> first
    | rfl
    | exact Table.get_set_ne _ (hij rfl) v

@[simp]
theorem read_updateHistories (d : DirPred) (baddr : MdAddr) (taken : Bool) (p : CounterPtr) :
    (d.updateHistories baddr taken).read p = d.read p := by
  obtain ⟨c, i⟩ := p
  cases d <;> cases c <;> rfl

@[simp]
theorem tableSize_updateHistories (d : DirPred) (baddr : MdAddr) (taken : Bool) (t : Component) :
    (d.updateHistories baddr taken).tableSize t = d.tableSize t := by
  cases d <;> cases t <;> rfl

end DirPred

/-! ### Combined predictors -/

namespace DirPred

/-- `d` is the direction predictor of a `BPredComb`. -/
def isComb : DirPred → Bool
  | comb .. => true
  | _ => false

theorem exists_of_isComb {d : DirPred} (h : d.isComb = true) :
    ∃ bimod twolev chooser, d = comb bimod twolev chooser := by
  cases d with
  | comb bimod twolev chooser => exact ⟨bimod, twolev, chooser, rfl⟩
  | _ => exact absurd h Bool.false_ne_true

@[simp]
theorem isComb_write (d : DirPred) (p : CounterPtr) (v : ℕ) :
    (d.write p v).isComb = d.isComb := by
  obtain ⟨c, i⟩ := p
  cases d <;> cases c <;> rfl

@[simp]
theorem isComb_updateHistories (d : DirPred) (baddr : MdAddr) (taken : Bool) :
    (d.updateHistories baddr taken).isComb = d.isComb := by
  cases d <;> rfl

@[simp]
theorem isComb_train (d : DirPred) (p : CounterPtr) (limit : ℕ) (taken : Bool) :
    (d.train p limit taken).isComb = d.isComb := by
  rw [train]
  split_ifs <;> first | rfl | exact isComb_write d p _

@[simp]
theorem isComb_updateCounters (d : DirPred) (upd : UpdateRec) (taken : BitVec 32) :
    (d.updateCounters upd taken).isComb = d.isComb := by
  rw [updateCounters, trainMeta, trainPdir2, trainPdir1]
  rcases upd.pmeta with _ | m <;> rcases upd.pdir2 with _ | p₂ <;> rcases upd.pdir1 with _ | p₁ <;>
    dsimp only <;> split_ifs <;> simp

end DirPred

/-! ### Initial counters -/

/-- The counters of a new table alternate between 1 and 2. -/
theorem flipflopTable_eq (n : ℕ) : flipflopTable n = Table.ofFn n fun i => 1 + i % 2 := by
  have hinv := forRange_induction (n := n) (s := (Table.replicate n 0, 1))
    (fun s cnt => (s.1.set cnt s.2, 3 - s.2))
    (fun i s => s.2 = 1 + i % 2 ∧ ∀ j, j < i → s.1.get j = 1 + j % 2)
    ⟨rfl, fun j hj => absurd hj (Nat.not_lt_zero j)⟩
    (fun i s hi ih => by
      refine ⟨by simp only [ih.1]; omega, fun j hj => ?_⟩
      rw [Table.get_set]
      by_cases hji : j = i
      · rw [if_pos ⟨hji, hi⟩, ih.1, hji]
      · rw [if_neg fun h => hji h.1, ih.2 j (by omega)])
  refine Table.ext_get fun i hi => ?_
  rw [Table.get_ofFn hi]
  exact hinv.2 i hi

/-- The direction predictors of a new combined predictor. -/
def newComb : DirPred :=
  .comb
    { l1size := 1, l2size := 4096, shiftWidth := 12, xor := false
      shiftregs := Table.replicate 1 0, l2table := Table.ofFn 4096 fun i => 1 + i % 2
      l1_ok := by decide, l2_ok := by decide, width_ok := by decide }
    { l1size := 1024, l2size := 1024, shiftWidth := 10, xor := false
      shiftregs := Table.replicate 1024 0, l2table := Table.ofFn 1024 fun i => 1 + i % 2
      l1_ok := by decide, l2_ok := by decide, width_ok := by decide }
    { size := 4096, table := Table.ofFn 4096 fun i => 1 + i % 2, size_ok := by decide }

theorem bpredCreateComb_eq {btbSets btbAssoc retstackSize : ℕ} {btb : Btb}
    {retstack : RetStack} (hb : btbCreate btbSets btbAssoc = some btb)
    (hr : retStackCreate retstackSize = some retstack) :
    bpredCreateComb btbSets btbAssoc retstackSize =
      some { dirpred := newComb, btb, retstack, stats := {} } := by
  rw [bpredCreateComb, bpredDirCreateTwoLevel, bpredDirCreateTwoLevel, bpredDirCreateBimod,
    dif_pos (by decide), dif_pos (by decide), dif_pos (by decide), hb, hr]
  simp only [flipflopTable_eq]
  rfl

theorem flipflopTable_get_le (n i : ℕ) : (flipflopTable n).get i ≤ 2 := by
  by_cases hi : i < n
  · rw [flipflopTable_eq, Table.get_ofFn hi]
    omega
  · rw [Table.get_of_le _ (by omega)]
    exact Nat.zero_le 2

theorem bpredDirCreateTwoLevel_get_le {l1size l2size shiftWidth : ℕ} {xor : Bool}
    {two : TwoLevel} (h : bpredDirCreateTwoLevel l1size l2size shiftWidth xor = some two)
    (i : ℕ) : two.l2table.get i ≤ 2 := by
  rw [bpredDirCreateTwoLevel] at h
  split_ifs at h
  obtain rfl := Option.some.inj h
  exact flipflopTable_get_le l2size i

theorem bpredDirCreateBimod_get_le {l1size : ℕ} {bimod : Bimod}
    (h : bpredDirCreateBimod l1size = some bimod) (i : ℕ) : bimod.table.get i ≤ 2 := by
  rw [bpredDirCreateBimod] at h
  split_ifs at h
  obtain rfl := Option.some.inj h
  exact flipflopTable_get_le l1size i

/-! ### Saturating steps -/

/-- One step of a counter that a taken branch increments below `limit`. -/
def saturate (limit : ℕ) (taken : Bool) (c : ℕ) : ℕ :=
  if taken then if c < limit then c + 1 else c else c - 1

theorem saturate_le {limit bound c : ℕ} {taken : Bool} (hl : limit ≤ bound) (hc : c ≤ bound) :
    saturate limit taken c ≤ bound := by
  rw [saturate]
  split_ifs <;> omega

namespace DirPred

theorem read_train {d : DirPred} {p : CounterPtr} (h : d.Valid p) (limit : ℕ) (taken : Bool)
    (q : CounterPtr) :
    (d.train p limit taken).read q =
      if q = p then saturate limit taken (d.read p) else d.read q := by
  by_cases hq : q = p
  · subst hq
    rw [if_pos rfl, train, saturate]
    cases taken
    · by_cases h0 : d.read q > 0
      · simp [h0, read_write_self h]
      · simp [h0]
        omega
    · by_cases hl : d.read q < limit
      · simp [hl, read_write_self h]
      · simp [hl]
  · rw [if_neg hq, train]
    split_ifs <;> first | rfl | exact read_write_ne d hq _

@[simp]
theorem tableSize_train (d : DirPred) (p : CounterPtr) (limit : ℕ) (taken : Bool)
    (t : Component) : (d.train p limit taken).tableSize t = d.tableSize t := by
  rw [train]
  split_ifs <;> first | rfl | exact tableSize_write d p _ t

end DirPred

/-! ### One update through three pointers -/

section updateCounters

variable {d : DirPred} {upd : UpdateRec} {p₁ p₂ m : CounterPtr}

theorem DirPred.valid_train {p : CounterPtr} (h : d.Valid p) (q : CounterPtr) (limit : ℕ)
    (taken : Bool) : (d.train q limit taken).Valid p := by
  rw [DirPred.Valid, DirPred.tableSize_train]
  exact h

namespace DirPred

theorem trainPdir1_eq (h₁ : upd.pdir1 = some p₁) (hm : upd.pmeta = some m) (taken : Bool) :
    d.trainPdir1 upd taken = d.train p₁ (if 4 ≤ d.read m then 7 else 3) taken := by
  simp [trainPdir1, h₁, hm]

theorem trainPdir2_eq (h₂ : upd.pdir2 = some p₂) (hm : upd.pmeta = some m) (taken : Bool) :
    d.trainPdir2 upd taken = d.train p₂ (if d.read m < 4 then 7 else 3) taken := by
  simp [trainPdir2, h₂, hm]

/-- What a read finds after the update of the chooser. -/
theorem read_trainMeta (hm : upd.pmeta = some m) (hvm : d.Valid m) (taken : BitVec 32)
    (q : CounterPtr) :
    (d.trainMeta upd taken).read q =
      if q = m ∧ upd.dirBimod ≠ upd.dirTwolev then
        saturate 7 ((if upd.dirTwolev then 1 else 0) = taken) (d.read m)
      else d.read q := by
  rw [trainMeta, hm]
  dsimp only
  generalize (decide ((if upd.dirTwolev then 1 else 0) = taken)) = right
  by_cases hne : upd.dirBimod ≠ upd.dirTwolev
  · rw [if_pos hne, read_train hvm]
    simp only [hne, and_true, ne_eq, not_false_eq_true]
  · rw [if_neg hne, if_neg fun h => hne h.2]

@[simp]
theorem tableSize_updateCounters (d : DirPred) (upd : UpdateRec) (taken : BitVec 32)
    (t : Component) : (d.updateCounters upd taken).tableSize t = d.tableSize t := by
  have h₁ : (d.trainPdir1 upd (taken ≠ 0)).tableSize t = d.tableSize t := by
    rw [trainPdir1]
    cases upd.pdir1 <;> simp
  have h₂ : ∀ d' : DirPred, (d'.trainPdir2 upd (taken ≠ 0)).tableSize t = d'.tableSize t := by
    intro d'
    rw [trainPdir2]
    cases upd.pdir2 <;> simp
  have hm : ∀ d' : DirPred, (d'.trainMeta upd taken).tableSize t = d'.tableSize t := by
    intro d'
    rw [trainMeta]
    cases upd.pmeta with
    | none => rfl
    | some m =>
      by_cases hne : upd.dirBimod ≠ upd.dirTwolev
      · simp only [if_pos hne, tableSize_train]
      · simp only [if_neg hne]
  rw [updateCounters, hm, h₂, h₁]

/-- **The counters after an update.** The three pointers of the record are different, so each
counter takes its own step, and all three steps read the chooser as it was before. -/
theorem read_updateCounters (h₁ : upd.pdir1 = some p₁) (h₂ : upd.pdir2 = some p₂)
    (hm : upd.pmeta = some m) (hv₁ : d.Valid p₁) (hv₂ : d.Valid p₂) (hvm : d.Valid m)
    (h12 : p₂ ≠ p₁) (hm1 : m ≠ p₁) (hm2 : m ≠ p₂) (taken : BitVec 32) (q : CounterPtr) :
    (d.updateCounters upd taken).read q =
      if q = p₁ then saturate (if 4 ≤ d.read m then 7 else 3) (taken ≠ 0) (d.read p₁)
      else if q = p₂ then saturate (if d.read m < 4 then 7 else 3) (taken ≠ 0) (d.read p₂)
      else if q = m ∧ upd.dirBimod ≠ upd.dirTwolev then
        saturate 7 ((if upd.dirTwolev then 1 else 0) = taken) (d.read m)
      else d.read q := by
  rw [updateCounters, trainPdir1_eq h₁ hm, trainPdir2_eq h₂ hm, read_train hv₁, if_neg hm1,
    read_trainMeta hm (valid_train (valid_train hvm _ _ _) _ _ _),
    read_train (valid_train hv₂ _ _ _), read_train (valid_train hv₂ _ _ _), if_neg hm2,
    read_train hv₁, read_train hv₁, read_train hv₁, if_neg hm1, if_neg h12]
  by_cases hq1 : q = p₁
  · rw [if_neg (fun h => hm1 (h.1.symm.trans hq1)), if_neg (fun h => h12 (h.symm.trans hq1)),
      if_pos hq1, if_pos hq1]
  · rw [if_neg hq1, if_neg hq1]
    by_cases hq2 : q = p₂
    · rw [if_neg (fun h => hm2 (h.1.symm.trans hq2)), if_pos hq2, if_pos hq2]
    · rw [if_neg hq2, if_neg hq2]

end DirPred

end updateCounters

/-! ### The counters of one conditional branch -/

/-- The record that a lookup of a conditional branch leaves in `upd`: the PAg counter `pag`,
the GAg counter `gag` and the chooser `ch`, the selected component first. -/
structure CombRec (d : DirPred) (upd : UpdateRec) (pag gag ch : ℕ) : Prop where
  pdir1 : upd.pdir1 = some (if upd.dirMeta then ⟨.twolev, pag⟩ else ⟨.bimod, gag⟩)
  pdir2 : upd.pdir2 = some (if upd.dirMeta then ⟨.bimod, gag⟩ else ⟨.twolev, pag⟩)
  pmeta : upd.pmeta = some ⟨.chooser, ch⟩
  pag_valid : d.Valid ⟨.twolev, pag⟩
  gag_valid : d.Valid ⟨.bimod, gag⟩
  chooser_valid : d.Valid ⟨.chooser, ch⟩

namespace CombRec

variable {d : DirPred} {upd : UpdateRec} {pag gag ch : ℕ}

/-- A record stays valid while the tables keep their sizes. -/
theorem of_tableSize (h : CombRec d upd pag gag ch) (d' : DirPred)
    (hd : ∀ t, d'.tableSize t = d.tableSize t) : CombRec d' upd pag gag ch where
  pdir1 := h.pdir1
  pdir2 := h.pdir2
  pmeta := h.pmeta
  pag_valid := by rw [DirPred.Valid, hd]; exact h.pag_valid
  gag_valid := by rw [DirPred.Valid, hd]; exact h.gag_valid
  chooser_valid := by rw [DirPred.Valid, hd]; exact h.chooser_valid

/-- **The counters after the update of a conditional branch.** If the chooser selects what it
selected at the lookup, each step has the width of its counter, else that of the other. -/
theorem read_updateCounters (h : CombRec d upd pag gag ch) (taken : BitVec 32)
    (q : CounterPtr) :
    (d.updateCounters upd taken).read q =
      if q = ⟨.twolev, pag⟩ then
        saturate (if 4 ≤ d.read ⟨.chooser, ch⟩ ↔ upd.dirMeta then 7 else 3) (taken ≠ 0)
          (d.read ⟨.twolev, pag⟩)
      else if q = ⟨.bimod, gag⟩ then
        saturate (if 4 ≤ d.read ⟨.chooser, ch⟩ ↔ upd.dirMeta then 3 else 7) (taken ≠ 0)
          (d.read ⟨.bimod, gag⟩)
      else if q = ⟨.chooser, ch⟩ ∧ upd.dirBimod ≠ upd.dirTwolev then
        saturate 7 ((if upd.dirTwolev then 1 else 0) = taken) (d.read ⟨.chooser, ch⟩)
      else d.read q := by
  have h₁ := h.pdir1
  have h₂ := h.pdir2
  have hlt : d.read ⟨.chooser, ch⟩ < 4 ↔ ¬ 4 ≤ d.read ⟨.chooser, ch⟩ := by omega
  by_cases hm : upd.dirMeta = true
  · rw [if_pos hm] at h₁ h₂
    rw [DirPred.read_updateCounters h₁ h₂ h.pmeta h.pag_valid h.gag_valid h.chooser_valid
      (by simp) (by simp) (by simp)]
    by_cases h4 : 4 ≤ d.read ⟨.chooser, ch⟩ <;> simp only [hlt, h4, hm] <;> rfl
  · rw [if_neg hm] at h₁ h₂
    rw [DirPred.read_updateCounters h₁ h₂ h.pmeta h.gag_valid h.pag_valid h.chooser_valid
      (by simp) (by simp) (by simp)]
    -- the GAg counter comes first: the two tables are told apart before comparing
    obtain ⟨c, i⟩ := q
    cases c <;> by_cases h4 : 4 ≤ d.read ⟨.chooser, ch⟩ <;> simp [hlt, h4, hm]

end CombRec

end AdvancedArchitecture.Bpred
