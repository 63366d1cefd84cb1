import AdvancedArchitecture.Lib.Run
import AdvancedArchitecture.Bpred.Counters

/-!
# Overlapping branches

A processor looks a branch up when it is fetched and updates the predictor when it commits, and
between the two it looks up and updates others. A `Window` is the predictor with the update
records of the branches in flight; a call is a lookup, or an update that consumes the record
of any one of them. Records that no update consumes stay in flight.

The step lemmas say what a call does to the direction predictors of a combined predictor: a
lookup leaves them alone and records the counters of its branch (`combRec_lookup`), an update
trains the recorded ones.
-/

namespace AdvancedArchitecture.Bpred

/-! ### Lookups -/

theorem TwoLevel.l1index_lt (two : TwoLevel) (baddr : MdAddr) : two.l1index baddr < two.l1size :=
  toNat_and_ofNat_pred_lt _ two.l1_ok.pos

theorem TwoLevel.l2index_lt (two : TwoLevel) (baddr : MdAddr) : two.l2index baddr < two.l2size :=
  toNat_and_ofNat_pred_lt _ two.l2_ok.pos

theorem Bimod.hash_lt (bimod : Bimod) (baddr : MdAddr) : bimod.hash baddr < bimod.size :=
  toNat_and_ofNat_pred_lt _ bimod.size_ok.pos

@[simp]
theorem lookupTarget_dirpred (pred : Predictor) (baddr : MdAddr) (op : MdOpcode)
    (isCall isReturn : Bool) (upd : UpdateRec) :
    (pred.lookupTarget baddr op isCall isReturn upd).pred.dirpred = pred.dirpred := by
  rw [Predictor.lookupTarget]
  split_ifs <;> rfl

/-- A lookup does not change the direction predictors. -/
@[simp]
theorem bpredLookup_dirpred (pred : Predictor) (baddr btarget : MdAddr) (op : MdOpcode)
    (isCall isReturn : Bool) (upd : UpdateRec) (idx : ℤ) :
    (bpredLookup pred baddr btarget op isCall isReturn upd idx).pred.dirpred = pred.dirpred := by
  rw [bpredLookup]
  by_cases hc : ¬ op.isCtrl = true
  · rw [if_pos hc]
  · rw [if_neg hc]
    split <;> simp

/-- Past the direction predictors only the use of the return-address stack is recorded. -/
theorem lookupTarget_dirUpdate (pred : Predictor) (baddr : MdAddr) (op : MdOpcode)
    (isCall isReturn : Bool) (upd : UpdateRec) :
    ∃ ras, (pred.lookupTarget baddr op isCall isReturn upd).dirUpdate =
      { upd with dirRas := ras } := by
  rw [Predictor.lookupTarget]
  by_cases h : isReturn = true ∧ pred.retstack.size ≠ 0
  · exact ⟨true, by rw [if_pos h]⟩
  · exact ⟨upd.dirRas, by rw [if_neg h]⟩

section Comb

variable {bimod twolev : TwoLevel} {chooser : Bimod} {pred : Predictor} {op : MdOpcode}

/-- **The lookup of a conditional branch** in a combined predictor. -/
theorem bpredLookup_comb (hd : pred.dirpred = .comb bimod twolev chooser)
    (hop : op.isCond = true) (baddr btarget : MdAddr) (isCall isReturn : Bool)
    (upd : UpdateRec) (idx : ℤ) :
    bpredLookup pred baddr btarget op isCall isReturn upd idx =
      pred.countLookup.lookupTarget baddr op isCall isReturn
        (pred.dirpred.lookup baddr upd.clear) := by
  rw [bpredLookup, if_neg (by simp [MdOpcode.isCtrl_of_isCond hop]), hd]
  simp [MdOpcode.isUncond_of_isCond hop]

/-- What the lookup records: the counters of the branch, and the directions they predict. -/
theorem combRec_lookup (hd : pred.dirpred = .comb bimod twolev chooser)
    (hop : op.isCond = true) (baddr btarget : MdAddr) (isCall isReturn : Bool)
    (upd : UpdateRec) (idx : ℤ) :
    CombRec pred.dirpred (bpredLookup pred baddr btarget op isCall isReturn upd idx).dirUpdate
      (twolev.l2index baddr) (bimod.l2index baddr) (chooser.hash baddr) := by
  rw [bpredLookup_comb hd hop]
  obtain ⟨ras, hras⟩ := lookupTarget_dirUpdate pred.countLookup baddr op isCall isReturn
    (pred.dirpred.lookup baddr upd.clear)
  rw [hras, hd, DirPred.lookup]
  have hp := twolev.l2index_lt baddr
  have hg := bimod.l2index_lt baddr
  have hc := chooser.hash_lt baddr
  by_cases h4 : (DirPred.comb bimod twolev chooser).read ⟨.chooser, chooser.hash baddr⟩ ≥ 4
  · simp only [if_pos h4]
    exact ⟨by simp [h4], by simp [h4], rfl, hp, hg, hc⟩
  · simp only [if_neg h4]
    exact ⟨by simp [h4], by simp [h4], rfl, hp, hg, hc⟩

/-! ### Updates -/

/-- **The update of a conditional branch** in a combined predictor, where it returns. -/
theorem bpredUpdate_dirpred (hd : pred.dirpred = .comb bimod twolev chooser)
    (hop : op.isCond = true) {baddr btarget : MdAddr} {taken predTaken correct : BitVec 32}
    {upd : UpdateRec} {pred' : Predictor}
    (h : bpredUpdate pred baddr btarget taken predTaken correct op upd = some pred') :
    pred'.dirpred =
      (pred.dirpred.updateHistories baddr (taken ≠ 0)).updateCounters upd taken := by
  rw [bpredUpdate, if_neg (by simp [MdOpcode.isCtrl_of_isCond hop])] at h
  simp only [MdOpcode.isIndir_of_isCond hop, MdOpcode.isUncond_of_isCond hop, hd,
    Bool.false_eq_true, false_and, if_false, not_false_eq_true, if_true] at h
  rw [hd]
  by_cases ht : taken ≠ 0
  · rw [if_pos ht] at h
    obtain ⟨⟨btb, pbtb⟩, -, heq⟩ := Option.bind_eq_some_iff.mp h
    obtain rfl := Option.some.inj heq
    rfl
  · rw [if_neg ht] at h
    obtain rfl := Option.some.inj h
    rfl

end Comb

/-! ### The window -/

/-- A branch that was looked up: what the processor keeps for its update. -/
structure InFlight where
  baddr : MdAddr
  op : MdOpcode
  dirUpdate : UpdateRec
  deriving DecidableEq, Repr

/-- A predictor and the branches in flight, in fetch order. -/
structure Window where
  pred : Predictor
  inFlight : List InFlight

/-- A call of the predictor. A lookup is made with an update record of any contents; an update
is for the `k`-th branch in flight. -/
inductive Call
  | lookup (baddr btarget : MdAddr) (op : MdOpcode) (upd : UpdateRec)
  | update (k : ℕ) (btarget : MdAddr) (taken predTaken correct : BitVec 32)
  deriving DecidableEq, Repr

/-- A new predictor, with no branch in flight. -/
def Window.start (pred : Predictor) : Window := ⟨pred, []⟩

/-- One call. A lookup answers the predicted target; an update of a branch that is not in
flight, or that does not return, is no step. -/
def Window.step (w : Window) : Call → Option (Option MdAddr × Window)
  | .lookup baddr btarget op upd =>
    let r := bpredLookup w.pred baddr btarget op op.isCall op.isReturn upd 0
    some (some r.target, ⟨r.pred, w.inFlight ++ [⟨baddr, op, r.dirUpdate⟩]⟩)
  | .update k btarget taken predTaken correct => do
    let f ← w.inFlight[k]?
    let pred ← bpredUpdate w.pred f.baddr btarget taken predTaken correct f.op f.dirUpdate
    return (none, ⟨pred, w.inFlight.eraseIdx k⟩)

/-- A call on a conditional branch; an update is on the branch of the record it consumes. -/
def Call.OnCond : Call → Prop
  | .lookup _ _ op _ => op.isCond = true
  | .update .. => True

instance : (c : Call) → Decidable c.OnCond
  | .lookup _ _ op _ => inferInstanceAs (Decidable (op.isCond = true))
  | .update .. => inferInstanceAs (Decidable True)

/-- `w` holds a combined predictor, and the records in flight are those of conditional
branches. -/
structure Window.Inv (w : Window) : Prop where
  comb : w.pred.dirpred.isComb = true
  inFlight : ∀ f ∈ w.inFlight, f.op.isCond = true ∧
    ∃ pag gag ch, CombRec w.pred.dirpred f.dirUpdate pag gag ch

theorem Window.step_update_eq_some {w w' : Window} {k : ℕ} {btarget : MdAddr}
    {taken predTaken correct : BitVec 32} {b : Option MdAddr}
    (h : w.step (.update k btarget taken predTaken correct) = some (b, w')) :
    ∃ f, w.inFlight[k]? = some f ∧ w'.inFlight = w.inFlight.eraseIdx k ∧
      bpredUpdate w.pred f.baddr btarget taken predTaken correct f.op f.dirUpdate =
        some w'.pred := by
  obtain ⟨f, hf, h⟩ := Option.bind_eq_some_iff.mp h
  obtain ⟨pred, hp, h⟩ := Option.bind_eq_some_iff.mp h
  obtain ⟨-, rfl⟩ := Prod.mk.inj (Option.some.inj h)
  exact ⟨f, hf, rfl, hp⟩

namespace Window.Inv

theorem start {btbSets btbAssoc retstackSize : ℕ} {pred : Predictor}
    (h : bpredCreateComb btbSets btbAssoc retstackSize = some pred) :
    (Window.start pred).Inv := by
  refine ⟨?_, fun f hf => absurd hf List.not_mem_nil⟩
  simp only [bpredCreateComb, Option.bind_eq_bind, Option.bind_eq_some_iff] at h
  obtain ⟨twolev, -, bimod, -, chooser, -, btb, -, retstack, -, h⟩ := h
  obtain rfl := Option.some.inj h
  rfl

/-- An update in a window: the record it consumes, and what it does to the predictors. -/
theorem update {w w' : Window} {k : ℕ} {btarget : MdAddr}
    {taken predTaken correct : BitVec 32} {b : Option MdAddr} (hw : w.Inv)
    (h : w.step (.update k btarget taken predTaken correct) = some (b, w')) :
    ∃ f pag gag ch, w.inFlight[k]? = some f ∧ f ∈ w.inFlight ∧
      CombRec (w.pred.dirpred.updateHistories f.baddr (taken ≠ 0)) f.dirUpdate pag gag ch ∧
      w'.pred.dirpred = (w.pred.dirpred.updateHistories f.baddr (taken ≠ 0)).updateCounters
        f.dirUpdate taken := by
  obtain ⟨f, hf, -, hupd⟩ := Window.step_update_eq_some h
  have hmem : f ∈ w.inFlight := List.mem_of_getElem? hf
  obtain ⟨hop, pag, gag, ch, hrec⟩ := hw.inFlight f hmem
  obtain ⟨bimod, twolev, chooser, hd⟩ := DirPred.exists_of_isComb hw.comb
  exact ⟨f, pag, gag, ch, hf, hmem, hrec.of_tableSize _ fun t => by simp,
    bpredUpdate_dirpred hd hop hupd⟩

/-- **The invariant of the window.** Every call on a conditional branch keeps it. -/
theorem step {w w' : Window} {c : Call} {b : Option MdAddr} (hw : w.Inv) (hc : c.OnCond)
    (h : w.step c = some (b, w')) : w'.Inv := by
  cases c with
  | lookup baddr btarget op upd =>
    obtain ⟨-, rfl⟩ := Prod.mk.inj (Option.some.inj h)
    obtain ⟨bimod, twolev, chooser, hd⟩ := DirPred.exists_of_isComb hw.comb
    refine ⟨by rw [bpredLookup_dirpred, hw.comb], fun f hf => ?_⟩
    rw [bpredLookup_dirpred]
    rcases List.mem_append.mp hf with hf | hf
    · exact hw.inFlight f hf
    · obtain rfl := List.mem_singleton.mp hf
      exact ⟨hc, _, _, _, combRec_lookup hd hc baddr btarget _ _ upd 0⟩
  | update k btarget taken predTaken correct =>
    obtain ⟨f, pag, gag, ch, hf, hmem, hrec, hd'⟩ := hw.update h
    obtain ⟨f', hf', hin, -⟩ := Window.step_update_eq_some h
    refine ⟨by rw [hd', DirPred.isComb_updateCounters, DirPred.isComb_updateHistories, hw.comb],
      fun g hg => ?_⟩
    rw [hin] at hg
    obtain ⟨hop, pag', gag', ch', hrec'⟩ := hw.inFlight g (List.mem_of_mem_eraseIdx hg)
    refine ⟨hop, pag', gag', ch', hrec'.of_tableSize _ fun t => ?_⟩
    rw [hd', DirPred.tableSize_updateCounters, DirPred.tableSize_updateHistories]

end Window.Inv

end AdvancedArchitecture.Bpred
