import AdvancedArchitecture.Lib.ShiftRegister
import AdvancedArchitecture.Bpred.Training

/-!
# Histories

Each entry of the level-1 table of a two-level predictor is a shift register of the outcomes of
the conditional branches that map to it, whatever calls of the predictor come between
(`two_level_history`): a lookup changes no history, an update shifts the outcome of its branch
into one register of each component, and what it does to the counters leaves the histories
alone (`SameHistory`). The `int` that holds a register has room for one more bit, so that the
shift does not overflow, and the index of a counter is the register below the address.
-/

namespace AdvancedArchitecture.Bpred

/-! ### Calls -/

/-- A call of the predictor with any arguments. -/
inductive PredCall
  | lookup (baddr btarget : MdAddr) (op : MdOpcode) (isCall isReturn : Bool) (upd : UpdateRec)
      (stackRecoverIdx : ℤ)
  | update (baddr btarget : MdAddr) (taken predTaken correct : BitVec 32) (op : MdOpcode)
      (upd : UpdateRec)
  deriving DecidableEq, Repr

/-- One call. A lookup answers its target and its record. -/
def Predictor.step (pred : Predictor) : PredCall → Option (Option (MdAddr × UpdateRec) × Predictor)
  | .lookup baddr btarget op isCall isReturn upd idx =>
    let r := bpredLookup pred baddr btarget op isCall isReturn upd idx
    some (some (r.target, r.dirUpdate), r.pred)
  | .update baddr btarget taken predTaken correct op upd =>
    (bpredUpdate pred baddr btarget taken predTaken correct op upd).map fun pred => (none, pred)

/-- The outcomes, in order, of the conditional branches among some calls that map to entry `e`
of a level-1 table of `l1size` entries. -/
def outcomesAt (l1size e : ℕ) (calls : List PredCall) : List Bool :=
  calls.filterMap fun
    | .lookup .. => none
    | .update baddr _ taken _ _ op _ =>
      if op.isCond ∧ baddr.toNat / 4 % l1size = e then some (taken ≠ 0) else none

/-- A predictor that `bpred_create` returns, of a class with two-level components. -/
def Predictor.NewTwoLevel (pred : Predictor) : Prop :=
  (∃ btbSets btbAssoc retstackSize,
    bpredCreateComb btbSets btbAssoc retstackSize = some pred) ∨
  ∃ l1size l2size shiftWidth xor btbSets btbAssoc retstackSize,
    bpredCreateTwoLevel l1size l2size shiftWidth xor btbSets btbAssoc retstackSize = some pred

/-- The two-level predictor that a field of `dirpred` holds. -/
def DirPred.component : DirPred → Component → Option TwoLevel
  | comb bimod _ _, .bimod => some bimod
  | comb _ twolev _, .twolev => some twolev
  | twoLevel twolev, .twolev => some twolev
  | _, _ => none

/-! ### One two-level predictor -/

namespace TwoLevel

/-- The same sizes, and the same histories. -/
structure SameHistory (two two' : TwoLevel) : Prop where
  l1size : two'.l1size = two.l1size
  l2size : two'.l2size = two.l2size
  shiftWidth : two'.shiftWidth = two.shiftWidth
  xor : two'.xor = two.xor
  shiftregs : ∀ e, two'.shiftregs.get e = two.shiftregs.get e

theorem SameHistory.refl (two : TwoLevel) : SameHistory two two :=
  ⟨rfl, rfl, rfl, rfl, fun _ => rfl⟩

theorem SameHistory.trans {two two' two'' : TwoLevel} (h : SameHistory two two')
    (h' : SameHistory two' two'') : SameHistory two two'' :=
  ⟨h'.l1size.trans h.l1size, h'.l2size.trans h.l2size, h'.shiftWidth.trans h.shiftWidth,
    h'.xor.trans h.xor, fun e => (h'.shiftregs e).trans (h.shiftregs e)⟩

variable {two : TwoLevel}

/-- The level-1 index is the remainder of the instruction number. -/
theorem l1index_eq (hl : two.l1size ≤ 2 ^ 64) (baddr : MdAddr) :
    two.l1index baddr = baddr.toNat / 4 % two.l1size := by
  rw [l1index, two.l1_ok.toNat_and hl, mdBrShift, BitVec.toNat_ushiftRight,
    Nat.shiftRight_eq_div_pow]

/-- A history has room for one more bit. -/
theorem two_mul_lt {h : ℕ} (two : TwoLevel) (hh : h < 2 ^ two.shiftWidth) :
    2 * h + 1 < 2 ^ 31 := by
  have hpow : 2 ^ two.shiftWidth ≤ 2 ^ 30 := Nat.pow_le_pow_right (by decide) two.width_ok.2
  omega

/-- **The outcome of a branch is shifted into its history.** -/
theorem toNat_updateHistory
    (hh : ∀ e, (two.shiftregs.get e).toNat < 2 ^ two.shiftWidth) (baddr : MdAddr) (taken : Bool)
    (e : ℕ) : ((two.updateHistory baddr taken).shiftregs.get e).toNat =
      if e = two.l1index baddr then
        shiftIn two.shiftWidth (two.shiftregs.get e).toNat taken
      else (two.shiftregs.get e).toNat := by
  have hlt : two.l1index baddr < two.l1size := two.l1index_lt baddr
  rw [updateHistory]
  dsimp only
  by_cases he : e = two.l1index baddr
  · have hroom := two.two_mul_lt (hh e)
    have hw : two.shiftWidth < 32 := by have := two.width_ok.2; omega
    rw [if_pos he, ← he, Table.get_set_self _ (he ▸ hlt), toNat_and_one_shiftLeft hw,
      toNat_shiftLeft_or (by omega), shiftIn]
  · rw [if_neg he, Table.get_set_ne _ he]

/-- **The index of the counter of a branch**: its history below its instruction number. -/
theorem l2index_eq (hxor : two.xor = false) (hl : two.l2size < 2 ^ 31) (baddr : MdAddr)
    (hh : (two.shiftregs.get (two.l1index baddr)).toNat < 2 ^ two.shiftWidth) :
    two.l2index baddr = ((two.shiftregs.get (two.l1index baddr)).toNat +
      2 ^ two.shiftWidth * (baddr.toNat / 4)) % two.l2size := by
  have hdvd : ∀ k, 32 ≤ k → two.l2size ∣ 2 ^ k := by
    intro k hk
    rw [← two.l2_ok.two_pow_log2] at hl ⊢
    refine pow_dvd_pow 2 ?_
    have : two.l2size.log2 < 31 := (Nat.pow_lt_pow_iff_right (by decide)).mp hl
    omega
  have hpow : 2 ^ two.shiftWidth ≤ 2 ^ 30 := Nat.pow_le_pow_right (by decide) two.width_ok.2
  have hw : two.shiftWidth ≤ 64 := by have := two.width_ok.2; omega
  -- the history is not negative as an `int`
  have hsign : ((two.shiftregs.get (two.l1index baddr)).signExtend 64).toNat =
      (two.shiftregs.get (two.l1index baddr)).toNat := by
    rw [BitVec.signExtend_eq_setWidth_of_msb_false, BitVec.toNat_setWidth,
      Nat.mod_eq_of_lt (by omega)]
    rw [BitVec.msb_eq_false_iff_two_mul_lt]
    omega
  have hnum : (baddr >>> mdBrShift).toNat = baddr.toNat / 4 := by
    rw [mdBrShift, BitVec.toNat_ushiftRight, Nat.shiftRight_eq_div_pow]
  rw [l2index, if_neg (by simp [hxor]), two.l2_ok.toNat_and (by omega), BitVec.toNat_setWidth,
    toNat_or_shiftLeft hw (by rw [hsign]; exact hh), hsign, hnum,
    Nat.mod_mod_of_dvd _ (hdvd 32 le_rfl), Nat.add_mod,
    Nat.mod_mod_of_dvd _ (hdvd 64 (by decide)), ← Nat.add_mod]

end TwoLevel

/-! ### The components of a predictor -/

/-- What training counters does to a component: its histories stay. -/
def DirPred.KeepsHistories (d d' : DirPred) : Prop :=
  ∀ c two, d.component c = some two → ∃ two', d'.component c = some two' ∧ two.SameHistory two'

namespace DirPred

theorem KeepsHistories.refl (d : DirPred) : d.KeepsHistories d :=
  fun _ two h => ⟨two, h, .refl two⟩

theorem KeepsHistories.trans {d d' d'' : DirPred} (h : d.KeepsHistories d')
    (h' : d'.KeepsHistories d'') : d.KeepsHistories d'' := by
  intro c two hc
  obtain ⟨two', hc', hs⟩ := h c two hc
  obtain ⟨two'', hc'', hs'⟩ := h' c two' hc'
  exact ⟨two'', hc'', hs.trans hs'⟩

theorem keepsHistories_write (d : DirPred) (p : CounterPtr) (v : ℕ) :
    d.KeepsHistories (d.write p v) := by
  obtain ⟨t, i⟩ := p
  intro c two hc
  cases d <;> cases t <;> cases c <;> first
    | exact absurd hc (Option.some_ne_none _).symm
    | exact ⟨_, hc, .refl _⟩
    | obtain rfl := Option.some.inj hc
      exact ⟨_, rfl, rfl, rfl, rfl, rfl, fun _ => rfl⟩

theorem keepsHistories_train (d : DirPred) (p : CounterPtr) (limit : ℕ) (taken : Bool) :
    d.KeepsHistories (d.train p limit taken) := by
  rw [train]
  split_ifs <;> first | exact .refl d | exact d.keepsHistories_write p _

/-- **Training keeps the histories**, whatever the record points to. -/
theorem keepsHistories_updateCounters (d : DirPred) (upd : UpdateRec) (taken : BitVec 32) :
    d.KeepsHistories (d.updateCounters upd taken) := by
  have h₁ : d.KeepsHistories (d.trainPdir1 upd (taken ≠ 0)) := by
    rw [trainPdir1]
    rcases upd.pdir1 with _ | p
    · exact .refl d
    · exact d.keepsHistories_train p _ _
  have h₂ : ∀ d : DirPred, d.KeepsHistories (d.trainPdir2 upd (taken ≠ 0)) := by
    intro d
    rw [trainPdir2]
    rcases upd.pdir2 with _ | p
    · exact .refl d
    · exact d.keepsHistories_train p _ _
  have hm : ∀ d : DirPred, d.KeepsHistories (d.trainMeta upd taken) := by
    intro d
    rw [trainMeta]
    rcases upd.pmeta with _ | m
    · exact .refl d
    · dsimp only
      split
      · exact d.keepsHistories_train m 7 _
      · exact .refl d
  exact (h₁.trans (h₂ _)).trans (hm _)

/-- `d` is the direction predictor of a class with state. -/
def isStateful : DirPred → Bool
  | taken | notTaken => false
  | _ => true

theorem isStateful_of_component {d : DirPred} {c : Component} {two : TwoLevel}
    (h : d.component c = some two) : d.isStateful = true := by
  cases d <;> first | rfl | exact absurd h (Option.some_ne_none _).symm

/-- The histories of every component are updated. -/
theorem component_updateHistories {d : DirPred} {c : Component} {two : TwoLevel}
    (h : d.component c = some two) (baddr : MdAddr) (taken : Bool) :
    (d.updateHistories baddr taken).component c = some (two.updateHistory baddr taken) := by
  cases d <;> cases c <;> first
    | exact absurd h (Option.some_ne_none _).symm
    | obtain rfl := Option.some.inj h
      rfl

end DirPred

/-- An instruction that is not a conditional branch is a jump or no control instruction. -/
theorem MdOpcode.not_isCtrl_or_isUncond {op : MdOpcode} (h : op.isCond = false) :
    op.isCtrl = false ∨ op.isUncond = true := by
  revert h
  cases op <;> decide

section update

variable {pred pred' : Predictor} {baddr btarget : MdAddr} {taken predTaken correct : BitVec 32}
  {op : MdOpcode} {upd : UpdateRec} {c : Component} {two : TwoLevel}

/-- **What an update does to the direction predictors**: it may return early on an instruction
that is no conditional branch, or it trains the recorded counters, after the histories of a
conditional branch. -/
theorem bpredUpdate_dirpred_eq (hd : pred.dirpred.isStateful = true)
    (h : bpredUpdate pred baddr btarget taken predTaken correct op upd = some pred') :
    op.isCond = false ∧ pred'.dirpred = pred.dirpred ∨
      pred'.dirpred = (if op.isCond then pred.dirpred.updateHistories baddr (taken ≠ 0)
        else pred.dirpred).updateCounters upd taken := by
  rw [bpredUpdate] at h
  by_cases hctrl : ¬ op.isCtrl = true
  · rw [if_pos hctrl] at h
    obtain rfl := Option.some.inj h
    exact Or.inl ⟨Bool.eq_false_of_not_eq_true fun hop =>
      hctrl (MdOpcode.isCtrl_of_isCond hop), rfl⟩
  rw [if_neg hctrl] at h
  dsimp only at h
  by_cases hras : op.isIndir = true ∧ upd.dirRas = true
  · rw [if_pos hras] at h
    obtain rfl := Option.some.inj h
    refine Or.inl ⟨Bool.eq_false_of_not_eq_true fun hop => ?_, rfl⟩
    rw [MdOpcode.isIndir_of_isCond hop] at hras
    exact Bool.false_ne_true hras.1
  rw [if_neg hras] at h
  -- a control instruction is a conditional branch unless it is a jump
  have huncond : (¬ op.isUncond = true) ↔ op.isCond = true := by
    refine ⟨fun hun => Bool.eq_true_of_not_eq_false fun hop => ?_, fun hop => ?_⟩
    · exact (MdOpcode.not_isCtrl_or_isUncond hop).elim (fun h => hctrl (by simp [h])) hun
    · simp [MdOpcode.isUncond_of_isCond hop]
  simp only [huncond] at h
  right
  cases hdp : pred.dirpred <;> rw [hdp] at h hd
  case taken | notTaken => exact absurd hd Bool.false_ne_true
  all_goals
    dsimp only at h
    by_cases ht : taken ≠ 0
    · rw [if_pos ht] at h
      obtain ⟨⟨btb, pbtb⟩, -, heq⟩ := Option.bind_eq_some_iff.mp h
      obtain rfl := Option.some.inj heq
      rfl
    · rw [if_neg ht] at h
      obtain rfl := Option.some.inj h
      rfl

/-- **An update shifts the outcome of a conditional branch into each component**, and no other
instruction changes a history. -/
theorem component_bpredUpdate
    (h : bpredUpdate pred baddr btarget taken predTaken correct op upd = some pred')
    (hc : pred.dirpred.component c = some two) :
    ∃ two', pred'.dirpred.component c = some two' ∧
      (if op.isCond then two.updateHistory baddr (taken ≠ 0) else two).SameHistory two' := by
  rcases bpredUpdate_dirpred_eq (DirPred.isStateful_of_component hc) h with ⟨hop, hd⟩ | hd
  · rw [hd, if_neg (by simp [hop])]
    exact ⟨two, hc, .refl two⟩
  · rw [hd]
    refine DirPred.keepsHistories_updateCounters _ upd taken c _ ?_
    by_cases hop : op.isCond = true
    · rw [if_pos hop, if_pos hop]
      exact DirPred.component_updateHistories hc baddr _
    · rw [if_neg hop, if_neg hop]
      exact hc

end update

/-! ### Lookups -/

/-- **A lookup of a conditional branch** records the counter at its level-2 index. -/
theorem recorded_bpredLookup {pred : Predictor} {c : Component} {two : TwoLevel}
    (hc : pred.dirpred.component c = some two) {op : MdOpcode} (hop : op.isCond = true)
    (baddr btarget : MdAddr) (isCall isReturn : Bool) (upd : UpdateRec) (idx : ℤ) :
    (bpredLookup pred baddr btarget op isCall isReturn upd idx).dirUpdate.recorded c =
      some ⟨c, two.l2index baddr⟩ := by
  cases hd : pred.dirpred with
  | comb bimod twolev chooser =>
    have hrec := (combRec_lookup hd hop baddr btarget isCall isReturn upd idx).recorded
    rw [hd] at hc
    cases c
    case bimod =>
      obtain rfl := Option.some.inj hc
      exact hrec.2.1
    case twolev =>
      obtain rfl := Option.some.inj hc
      exact hrec.1
    case chooser => exact absurd hc (Option.some_ne_none _).symm
  | twoLevel twolev =>
    rw [hd] at hc
    cases c
    case twolev =>
      obtain rfl := Option.some.inj hc
      rw [bpredLookup, if_neg (by simp [MdOpcode.isCtrl_of_isCond hop]), hd]
      dsimp only
      rw [if_pos (by simp [MdOpcode.isUncond_of_isCond hop])]
      obtain ⟨ras, hras⟩ := lookupTarget_dirUpdate pred.countLookup baddr op isCall isReturn
        ((DirPred.twoLevel twolev).lookup baddr upd.clear)
      rw [hras]
      rfl
    all_goals exact absurd hc (Option.some_ne_none _).symm
  | twoBit | taken | notTaken =>
    rw [hd] at hc
    cases c <;> exact absurd hc (Option.some_ne_none _).symm

/-! ### Runs -/

/-- After some calls the histories of a component are the registers of the outcomes. -/
structure Follows (c : Component) (two₀ : TwoLevel) (calls : List PredCall) (pred : Predictor)
    (two : TwoLevel) : Prop where
  component : pred.dirpred.component c = some two
  l1size : two.l1size = two₀.l1size
  l2size : two.l2size = two₀.l2size
  shiftWidth : two.shiftWidth = two₀.shiftWidth
  xor : two.xor = two₀.xor
  history : ∀ e < two₀.l1size, (two.shiftregs.get e).toNat =
    register two₀.shiftWidth (outcomesAt two₀.l1size e calls)

namespace Follows

variable {c : Component} {two₀ two : TwoLevel} {calls : List PredCall} {pred pred' : Predictor}

theorem history_lt (h : Follows c two₀ calls pred two) (e : ℕ) :
    (two.shiftregs.get e).toNat < 2 ^ two.shiftWidth := by
  by_cases he : e < two₀.l1size
  · rw [h.history e he, h.shiftWidth]
    exact register_lt _ _
  · rw [Table.get_of_le _ (by rw [h.l1size]; omega)]
    exact Nat.two_pow_pos _

/-- **One call** keeps the histories in step with the outcomes. -/
theorem step (h : Follows c two₀ calls pred two) (hl : two₀.l1size < 2 ^ 31) {call : PredCall}
    {answer : Option (MdAddr × UpdateRec)} (hs : pred.step call = some (answer, pred')) :
    ∃ two', Follows c two₀ (calls ++ [call]) pred' two' := by
  have happend : ∀ e, outcomesAt two₀.l1size e (calls ++ [call]) =
      outcomesAt two₀.l1size e calls ++ outcomesAt two₀.l1size e [call] := fun e =>
    List.filterMap_append
  cases call with
  | lookup baddr btarget op isCall isReturn upd idx =>
    obtain ⟨-, rfl⟩ := Prod.mk.inj (Option.some.inj hs)
    refine ⟨two, by rw [bpredLookup_dirpred]; exact h.component, h.l1size, h.l2size, h.shiftWidth,
      h.xor, fun e he => ?_⟩
    rw [happend, h.history e he]
    exact congrArg _ (List.append_nil _).symm
  | update baddr btarget taken predTaken correct op upd =>
    obtain ⟨pred₁, hupd, heq⟩ := Option.map_eq_some_iff.mp hs
    obtain ⟨-, rfl⟩ := Prod.mk.inj heq
    obtain ⟨two', hc', hsame⟩ := component_bpredUpdate hupd h.component
    have hindex : two.l1index baddr = baddr.toNat / 4 % two₀.l1size := by
      rw [TwoLevel.l1index_eq (by rw [h.l1size]; omega), h.l1size]
    by_cases hop : op.isCond = true
    · rw [if_pos hop] at hsame
      refine ⟨two', hc', hsame.l1size.trans h.l1size, hsame.l2size.trans h.l2size,
        hsame.shiftWidth.trans h.shiftWidth, hsame.xor.trans h.xor, fun e he => ?_⟩
      rw [hsame.shiftregs, TwoLevel.toNat_updateHistory h.history_lt, hindex, happend,
        h.history e he, h.shiftWidth]
      -- the branch maps to this entry or to another
      by_cases hmap : baddr.toNat / 4 % two₀.l1size = e
      · have hone : outcomesAt two₀.l1size e
            [.update baddr btarget taken predTaken correct op upd] = [decide (taken ≠ 0)] := by
          rw [outcomesAt, List.filterMap_cons]
          dsimp only
          rw [if_pos ⟨hop, hmap⟩]
          rfl
        rw [if_pos hmap.symm, hone, register_append]
      · have hnone : outcomesAt two₀.l1size e
            [.update baddr btarget taken predTaken correct op upd] = [] := by
          simp [outcomesAt, hmap]
        rw [if_neg fun h => hmap h.symm, hnone, List.append_nil]
    · rw [if_neg hop] at hsame
      refine ⟨two', hc', hsame.l1size.trans h.l1size, hsame.l2size.trans h.l2size,
        hsame.shiftWidth.trans h.shiftWidth, hsame.xor.trans h.xor, fun e he => ?_⟩
      have hnone : outcomesAt two₀.l1size e
          [.update baddr btarget taken predTaken correct op upd] = [] := by
        simp [outcomesAt, hop]
      rw [hsame.shiftregs, h.history e he, happend, hnone, List.append_nil]

theorem run (h : Follows c two₀ calls pred two) (hl : two₀.l1size < 2 ^ 31)
    {calls' : List PredCall} {answers : List (Option (MdAddr × UpdateRec))}
    (hr : AdvancedArchitecture.run Predictor.step pred calls' = some (answers, pred')) :
    ∃ two', Follows c two₀ (calls ++ calls') pred' two' := by
  induction calls' generalizing calls pred two answers with
  | nil =>
    obtain ⟨-, rfl⟩ := Prod.mk.inj (Option.some.inj hr)
    exact ⟨two, by rwa [List.append_nil]⟩
  | cons call calls' ih =>
    obtain ⟨answer, pred₁, answers', hs, hr', -⟩ := (run_cons_eq_some _).mp hr
    obtain ⟨two₁, h₁⟩ := h.step hl hs
    obtain ⟨two', h'⟩ := ih h₁ hr'
    exact ⟨two', by rwa [List.append_assoc] at h'⟩

end Follows

/-- The histories of a new two-level predictor are zero. -/
theorem bpredDirCreateTwoLevel_shiftregs {l1size l2size shiftWidth : ℕ} {xor : Bool}
    {two : TwoLevel} (h : bpredDirCreateTwoLevel l1size l2size shiftWidth xor = some two) (e : ℕ) :
    two.shiftregs.get e = 0 := by
  rw [bpredDirCreateTwoLevel] at h
  split_ifs at h
  obtain rfl := Option.some.inj h
  exact Table.get_replicate_default e

theorem Predictor.NewTwoLevel.follows {pred : Predictor} (h : pred.NewTwoLevel) {c : Component}
    {two : TwoLevel} (hc : pred.dirpred.component c = some two) : Follows c two [] pred two := by
  have hzero : ∀ e, two.shiftregs.get e = 0 := by
    rcases h with ⟨_, _, _, h⟩ | ⟨_, _, _, _, _, _, _, h⟩
    · simp only [bpredCreateComb, Option.bind_eq_bind, Option.bind_eq_some_iff] at h
      obtain ⟨twolev, ht, bimod, hb, chooser, -, btb, -, retstack, -, h⟩ := h
      obtain rfl := Option.some.inj h
      cases c
      case bimod =>
        obtain rfl := Option.some.inj hc
        exact bpredDirCreateTwoLevel_shiftregs hb
      case twolev =>
        obtain rfl := Option.some.inj hc
        exact bpredDirCreateTwoLevel_shiftregs ht
      case chooser => exact absurd hc (Option.some_ne_none _).symm
    · simp only [bpredCreateTwoLevel, Option.bind_eq_bind, Option.bind_eq_some_iff] at h
      obtain ⟨twolev, ht, btb, -, retstack, -, h⟩ := h
      obtain rfl := Option.some.inj h
      cases c
      case twolev =>
        obtain rfl := Option.some.inj hc
        exact bpredDirCreateTwoLevel_shiftregs ht
      all_goals exact absurd hc (Option.some_ne_none _).symm
  refine ⟨hc, rfl, rfl, rfl, rfl, fun e _ => ?_⟩
  rw [hzero e]
  exact (register_nil _).symm

/-- **Histories and counters.** After any calls of a new predictor, the history of each entry of
a component is the number formed by the last outcomes of its branches, held by an `int` with
room for one more bit; and the counter of a branch is at the index that its history and its
address form, inside the table. -/
theorem two_level_history {pred₀ pred : Predictor} {c : Component} {two₀ : TwoLevel}
    (hnew : pred₀.NewTwoLevel) (hc : pred₀.dirpred.component c = some two₀)
    (hxor : two₀.xor = false) (hl1 : two₀.l1size < 2 ^ 31) (hl2 : two₀.l2size < 2 ^ 31)
    {calls : List PredCall} {answers : List (Option (MdAddr × UpdateRec))}
    (hr : run Predictor.step pred₀ calls = some (answers, pred)) :
    ∃ two, pred.dirpred.component c = some two ∧
      (∀ e < two₀.l1size,
        (two.shiftregs.get e).toInt =
            register two₀.shiftWidth (outcomesAt two₀.l1size e calls) ∧
          register two₀.shiftWidth (outcomesAt two₀.l1size e calls) < 2 ^ two₀.shiftWidth ∧
          2 * register two₀.shiftWidth (outcomesAt two₀.l1size e calls) + 1 < 2 ^ 31) ∧
      ∀ baddr : MdAddr,
        (two.l2index baddr = (register two₀.shiftWidth
            (outcomesAt two₀.l1size (baddr.toNat / 4 % two₀.l1size) calls) +
              2 ^ two₀.shiftWidth * (baddr.toNat / 4)) % two₀.l2size ∧
          two.l2index baddr < two₀.l2size) ∧
        ∀ btarget op isCall isReturn upd idx, op.isCond = true →
          (bpredLookup pred baddr btarget op isCall isReturn upd idx).dirUpdate.recorded c =
            some ⟨c, two.l2index baddr⟩ := by
  obtain ⟨two, h⟩ := (hnew.follows hc).run hl1 hr
  refine ⟨two, h.component, fun e he => ?_, fun baddr => ⟨⟨?_, ?_⟩, ?_⟩⟩
  · have hlt : register two₀.shiftWidth (outcomesAt two₀.l1size e calls) < 2 ^ two₀.shiftWidth :=
      register_lt _ _
    have hroom := two₀.two_mul_lt hlt
    refine ⟨?_, hlt, hroom⟩
    have hhist := h.history e he
    rw [List.nil_append] at hhist
    rw [BitVec.toInt_eq_toNat_of_lt (by omega), hhist]
  · have hindex : two.l1index baddr = baddr.toNat / 4 % two₀.l1size := by
      rw [TwoLevel.l1index_eq (by rw [h.l1size]; omega), h.l1size]
    have hlt : baddr.toNat / 4 % two₀.l1size < two₀.l1size := Nat.mod_lt _ two₀.l1_ok.pos
    rw [TwoLevel.l2index_eq (h.xor.trans hxor) (by rw [h.l2size]; exact hl2) baddr
      (h.history_lt _), hindex, h.history _ hlt, h.shiftWidth, h.l2size, List.nil_append]
  · rw [← h.l2size]
    exact two.l2index_lt baddr
  · intro btarget op isCall isReturn upd idx hop
    exact recorded_bpredLookup h.component hop baddr btarget isCall isReturn upd idx

/-- A branch taken twice and its neighbour, in a predictor with two histories of two bits. -/
theorem two_level_history_sample : ∃ pred₀ two₀ answers pred,
    bpredCreateTwoLevel 2 8 2 false 1 1 0 = some pred₀ ∧
    pred₀.dirpred.component .twolev = some two₀ ∧
    run Predictor.step pred₀ [.update 4 64 1 0 0 .beq {}, .update 8 64 1 0 0 .beq {},
      .update 12 0 0 0 1 .bne {}, .update 12 64 1 0 0 .bne {}] = some (answers, pred) ∧
    ∃ two, pred.dirpred.component .twolev = some two ∧ (two.shiftregs.get 1).toInt = 1 := by
  let pred₀ := (bpredCreateTwoLevel 2 8 2 false 1 1 0).get (by decide)
  have hcreate : bpredCreateTwoLevel 2 8 2 false 1 1 0 = some pred₀ := (Option.some_get _).symm
  let two₀ := (pred₀.dirpred.component .twolev).get (by decide)
  have hc : pred₀.dirpred.component .twolev = some two₀ := (Option.some_get _).symm
  have hs : (run Predictor.step pred₀ [.update 4 64 1 0 0 .beq {}, .update 8 64 1 0 0 .beq {},
      .update 12 0 0 0 1 .bne {}, .update 12 64 1 0 0 .bne {}]).isSome = true := by
    decide +kernel
  obtain ⟨⟨answers, pred⟩, hr⟩ := Option.isSome_iff_exists.mp hs
  obtain ⟨two, htwo, hhist, -⟩ := two_level_history (Or.inr ⟨2, 8, 2, false, 1, 1, 0, hcreate⟩) hc
    (by decide) (by decide) (by decide) hr
  refine ⟨pred₀, two₀, answers, pred, hcreate, hc, hr, two, htwo, ?_⟩
  rw [(hhist 1 (by decide)).1]
  decide +kernel

end AdvancedArchitecture.Bpred
