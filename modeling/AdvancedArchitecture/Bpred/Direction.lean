import AdvancedArchitecture.Bpred.Window

/-!
# The predicted direction

A lookup of a conditional branch decides its direction twice: into the update record, where
each component's counter is compared with its own threshold, and into the returned target,
where the counter of the selected component is compared with 2 whatever its width. The two
agree unless a PAg counter of 2 or 3 is selected (`directionMatches_iff`).
-/

namespace AdvancedArchitecture.Bpred

/-- The returned direction is the one recorded for the selected component. -/
def DirectionMatches (r : LookupResult) : Prop :=
  r.target ≠ 0 ↔
    (if r.dirUpdate.dirMeta then r.dirUpdate.dirTwolev else r.dirUpdate.dirBimod) = true

instance (r : LookupResult) : Decidable (DirectionMatches r) :=
  inferInstanceAs (Decidable (_ ↔ _))

/-- The entry the BTB holds for a branch, if it holds one, has a non-zero target. -/
def Btb.NonzeroTarget (btb : Btb) (baddr : MdAddr) : Prop :=
  ∀ i ∈ btb.probe baddr, (btb.btbData.get i).target ≠ 0

instance (btb : Btb) (baddr : MdAddr) : Decidable (btb.NonzeroTarget baddr) := by
  unfold Btb.NonzeroTarget
  infer_instance

variable {pred : Predictor} {op : MdOpcode} {baddr : MdAddr}

/-- The final direction of a conditional branch is that of its first counter, on a BTB hit and
on a BTB miss. -/
theorem finalTarget_ne_zero_iff (hop : op.isCond = true) (htarget : pred.btb.NonzeroTarget baddr)
    (p : CounterPtr) :
    pred.finalTarget baddr op (some p) ≠ 0 ↔ 2 ≤ pred.dirpred.read p := by
  rw [Predictor.finalTarget, if_neg (by simp [MdOpcode.isUncond_of_isCond hop])]
  rcases hb : pred.btb.probe baddr with _ | i
  · by_cases h2 : 2 ≤ pred.dirpred.read p <;> simp [h2]
  · have hne : (pred.btb.btbData.get i).target ≠ 0 := htarget i hb
    by_cases h2 : 2 ≤ pred.dirpred.read p
    · simpa [h2] using hne
    · simp [h2]

/-- A lookup that the return-address stack does not answer returns the final direction. -/
theorem lookupTarget_of_not_ras (pred : Predictor) (baddr : MdAddr) (op : MdOpcode)
    (isCall : Bool) {isReturn : Bool}
    (hras : ¬ (isReturn = true ∧ pred.retstack.size ≠ 0)) (upd : UpdateRec) :
    (pred.lookupTarget baddr op isCall isReturn upd).dirUpdate = upd ∧
      (pred.lookupTarget baddr op isCall isReturn upd).target =
        pred.finalTarget baddr op upd.pdir1 := by
  rw [Predictor.lookupTarget, if_neg hras]
  refine ⟨rfl, ?_⟩
  by_cases hcall : isCall = true ∧ pred.retstack.size ≠ 0
  · rw [if_pos hcall]
    rfl
  · rw [if_neg hcall]

variable {bimod twolev : TwoLevel} {chooser : Bimod}

/-- **Where the returned direction is the recorded one.** In every state of a combined
predictor, the lookup of a conditional branch that the return-address stack does not answer
returns the direction recorded for the selected component if and only if it does not select a
PAg counter with the value 2 or 3. -/
theorem directionMatches_iff (hd : pred.dirpred = .comb bimod twolev chooser)
    (hop : op.isCond = true) {isCall isReturn : Bool}
    (hras : ¬ (isReturn = true ∧ pred.retstack.size ≠ 0))
    (htarget : pred.btb.NonzeroTarget baddr) (btarget : MdAddr) (upd : UpdateRec) (idx : ℤ) :
    DirectionMatches (bpredLookup pred baddr btarget op isCall isReturn upd idx) ↔
      chooser.table.get (chooser.hash baddr) < 4 ∨
        twolev.l2table.get (twolev.l2index baddr) ≠ 2 ∧
          twolev.l2table.get (twolev.l2index baddr) ≠ 3 := by
  rw [bpredLookup_comb hd hop, DirectionMatches]
  obtain ⟨hupd, htgt⟩ := lookupTarget_of_not_ras pred.countLookup baddr op isCall hras
    (pred.dirpred.lookup baddr upd.clear)
  have hb : pred.countLookup.btb.NonzeroTarget baddr := htarget
  rw [hupd, htgt, hd, DirPred.lookup]
  by_cases h4 : (DirPred.comb bimod twolev chooser).read ⟨.chooser, chooser.hash baddr⟩ ≥ 4
  · -- the PAg is selected: its counter is compared with 4 and with 2
    simp only [if_pos h4, decide_eq_true_iff, finalTarget_ne_zero_iff hop hb,
      Predictor.countLookup_dirpred, hd]
    change 4 ≤ chooser.table.get (chooser.hash baddr) at h4
    change (2 ≤ twolev.l2table.get (twolev.l2index baddr) ↔
      4 ≤ twolev.l2table.get (twolev.l2index baddr)) ↔ _
    omega
  · simp only [if_neg h4, decide_eq_true_iff, finalTarget_ne_zero_iff hop hb,
      Predictor.countLookup_dirpred, hd]
    change ¬ 4 ≤ chooser.table.get (chooser.hash baddr) at h4
    exact iff_of_true trivial (Or.inl (by omega))

theorem directionMatches_new :
    ∃ pred, bpredCreateComb 1 1 0 = some pred ∧
      DirectionMatches (bpredLookup pred 4 0 .beq false false {} 0) :=
  ⟨_, bpredCreateComb_eq rfl rfl,
    (directionMatches_iff rfl rfl (by simp) (by decide) 0 {} 0).mpr (by decide +kernel)⟩

/-- The chooser of the branch at 4 is trained up to 4, and its PAg counter is 2. -/
def chooserCalls : List Call :=
  [.lookup 8 0 .beq {}, .lookup 4 0 .beq {}, .update 0 64 1 0 0,
    .lookup 4 0 .beq {}, .lookup 4 0 .beq {},
    .update 1 0 0 0 1, .update 1 0 0 0 1,
    .update 0 64 1 0 0]

/-- The lookup returns the target 64, and records that both components predict not taken. -/
theorem not_directionMatches_chooserCalls :
    ∃ pred, bpredCreateComb 1 1 0 = some pred ∧
      ∃ r ∈ run Window.step (Window.start pred) chooserCalls,
        r.2.pred.btb.NonzeroTarget 4 ∧
          ¬ DirectionMatches (bpredLookup r.2.pred 4 0 .beq false false {} 0) := by
  refine ⟨_, bpredCreateComb_eq rfl rfl, ?_⟩
  decide +kernel

end AdvancedArchitecture.Bpred
