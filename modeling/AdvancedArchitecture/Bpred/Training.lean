import Mathlib.Tactic.NormNum
import AdvancedArchitecture.Bpred.Window

/-!
# Delayed training

A counter of `n` bits saturates at 0 and `2 ^ n - 1`: the counters of the PAg have three bits,
those of the GAg two. An update should move each of the two counters of its branch by one step
of its own width (`ExactTraining`). It takes the width of a pointer from what the chooser
selects *now*, while which pointer is which was settled by what the chooser selected at the
lookup, and a branch in between that shares the chooser may have changed it. `WidthKept` says
when the widths come out right all the same; it is exactly the condition for a run to train
its counters exactly (`componentExact_iff`).
-/

namespace AdvancedArchitecture.Bpred

/-! ### The recorded counters -/

namespace UpdateRec

/-- The counter of a table that a record points to. -/
def recorded (upd : UpdateRec) (t : Component) : Option CounterPtr :=
  ([upd.pdir1, upd.pdir2, upd.pmeta].reduceOption).find? fun p => p.table = t

/-- Its value. -/
def counter (upd : UpdateRec) (t : Component) (d : DirPred) : ℕ :=
  ((upd.recorded t).map d.read).getD 0

end UpdateRec

section CombRec

variable {d : DirPred} {upd : UpdateRec} {pag gag ch : ℕ}

theorem CombRec.recorded (h : CombRec d upd pag gag ch) :
    upd.recorded .twolev = some ⟨.twolev, pag⟩ ∧ upd.recorded .bimod = some ⟨.bimod, gag⟩ ∧
      upd.recorded .chooser = some ⟨.chooser, ch⟩ := by
  simp only [UpdateRec.recorded, h.pdir1, h.pdir2, h.pmeta]
  cases upd.dirMeta <;> exact ⟨rfl, rfl, rfl⟩

theorem CombRec.counter_twolev (h : CombRec d upd pag gag ch) (d' : DirPred) :
    upd.counter .twolev d' = d'.read ⟨.twolev, pag⟩ := by
  rw [UpdateRec.counter, h.recorded.1]
  rfl

theorem CombRec.counter_bimod (h : CombRec d upd pag gag ch) (d' : DirPred) :
    upd.counter .bimod d' = d'.read ⟨.bimod, gag⟩ := by
  rw [UpdateRec.counter, h.recorded.2.1]
  rfl

theorem CombRec.counter_chooser (h : CombRec d upd pag gag ch) (d' : DirPred) :
    upd.counter .chooser d' = d'.read ⟨.chooser, ch⟩ := by
  rw [UpdateRec.counter, h.recorded.2.2]
  rfl

end CombRec

/-! ### The property and the condition -/

/-- One step of a saturating counter with the values `0, …, max`. -/
def nextCounter (max : ℕ) (taken : Bool) (c : ℕ) : ℕ :=
  if taken then min max (c + 1) else c - 1

/-- **An update moves the counters of its branch by one step each**: the PAg counter it records
by a step of a 3-bit counter, the GAg counter by a step of a 2-bit counter. -/
def ExactTraining (w : Window) (c : Call) (_ : Option MdAddr) (w' : Window) : Prop :=
  match c with
  | .lookup .. => True
  | .update k _ taken _ _ => ∀ f ∈ w.inFlight[k]?,
    f.dirUpdate.counter .twolev w'.pred.dirpred =
        nextCounter 7 (taken ≠ 0) (f.dirUpdate.counter .twolev w.pred.dirpred) ∧
      f.dirUpdate.counter .bimod w'.pred.dirpred =
        nextCounter 3 (taken ≠ 0) (f.dirUpdate.counter .bimod w.pred.dirpred)

/-- GAg counters have two bits, PAg counters and choosers three. -/
structure DirPred.InRange (d : DirPred) : Prop where
  bimod : ∀ i, d.read ⟨.bimod, i⟩ ≤ 3
  twolev : ∀ i, d.read ⟨.twolev, i⟩ ≤ 7
  chooser : ∀ i, d.read ⟨.chooser, i⟩ ≤ 7

/-- **Training is component-exact** in a run of calls on a new predictor: every update moves the
counters it recorded by one step each, and every state is in range. -/
def ComponentExact (pred : Predictor) (calls : List Call) : Prop :=
  pred.dirpred.InRange ∧
    EveryStep Window.step
      (fun w c b w' => ExactTraining w c b w' ∧ w'.pred.dirpred.InRange)
      (Window.start pred) calls

/-- The widths an update uses do no harm: the branch is not taken, or the chooser selects what
it selected at the lookup, or both counters are where one step is the same for both widths. -/
def WidthKept (w : Window) (c : Call) (_ : Option MdAddr) (_ : Window) : Prop :=
  match c with
  | .lookup .. => True
  | .update k _ taken _ _ => ∀ f ∈ w.inFlight[k]?,
    taken = 0 ∨
      (4 ≤ f.dirUpdate.counter .chooser w.pred.dirpred ↔ f.dirUpdate.dirMeta = true) ∨
      (f.dirUpdate.counter .twolev w.pred.dirpred ≤ 2 ∨
          f.dirUpdate.counter .twolev w.pred.dirpred = 7) ∧
        f.dirUpdate.counter .bimod w.pred.dirpred ≤ 2

instance (w : Window) (c : Call) (b : Option MdAddr) (w' : Window) :
    Decidable (ExactTraining w c b w') := by
  cases c <;> unfold ExactTraining <;> infer_instance

instance (w : Window) (c : Call) (b : Option MdAddr) (w' : Window) :
    Decidable (WidthKept w c b w') := by
  cases c <;> unfold WidthKept <;> infer_instance

/-! ### One step -/

/-- The counter steps agree with those of the claimed widths only where `WidthKept` says. -/
theorem saturate_eq_nextCounter_iff {p g : ℕ} (hp : p ≤ 7) (hg : g ≤ 3) (kept taken : Prop)
    [Decidable kept] [Decidable taken] :
    (saturate (if kept then 7 else 3) taken p = nextCounter 7 taken p ∧
        saturate (if kept then 3 else 7) taken g = nextCounter 3 taken g) ↔
      (¬ taken ∨ kept ∨ (p ≤ 2 ∨ p = 7) ∧ g ≤ 2) := by
  by_cases ht : taken
  · by_cases hk : kept
    · simp only [saturate, nextCounter, ht, hk, decide_true, if_true]
      refine iff_of_true ⟨?_, ?_⟩ (Or.inr (Or.inl trivial))
      · split_ifs <;> omega
      · split_ifs <;> omega
    · simp only [saturate, nextCounter, ht, hk, decide_true, if_true, if_false,
        not_true_eq_false, false_or]
      split_ifs <;> omega
  · simp [saturate, nextCounter, ht]

/-- The invariant under which the steps are compared. -/
structure Window.Bounded (w : Window) : Prop where
  inv : w.Inv
  inRange : w.pred.dirpred.InRange

/-- **Which updates train exactly.** -/
theorem exactTraining_iff {w w' : Window} {c : Call} {b : Option MdAddr} (hw : w.Bounded)
    (h : w.step c = some (b, w')) : ExactTraining w c b w' ↔ WidthKept w c b w' := by
  cases c with
  | lookup => exact Iff.rfl
  | update k btarget taken predTaken correct =>
    obtain ⟨f, pag, gag, ch, hf, hmem, hrec, hd'⟩ := hw.inv.update h
    have hread := hrec.read_updateCounters taken
    rw [ExactTraining, WidthKept, hf]
    simp only [Option.mem_def, Option.some.injEq, forall_eq', hrec.counter_twolev,
      hrec.counter_bimod, hrec.counter_chooser, hd', hread]
    have hiff := saturate_eq_nextCounter_iff (hw.inRange.twolev pag) (hw.inRange.bimod gag)
      (4 ≤ w.pred.dirpred.read ⟨.chooser, ch⟩ ↔ f.dirUpdate.dirMeta = true) (taken ≠ 0)
    simpa using hiff

/-- **What exact training preserves.** -/
theorem Window.Bounded.step {w w' : Window} {c : Call} {b : Option MdAddr} (hw : w.Bounded)
    (hc : c.OnCond) (h : w.step c = some (b, w')) (hex : ExactTraining w c b w') :
    w'.Bounded := by
  refine ⟨hw.inv.step hc h, ?_⟩
  cases c with
  | lookup baddr btarget op upd =>
    obtain ⟨-, rfl⟩ := Prod.mk.inj (Option.some.inj h)
    rw [bpredLookup_dirpred]
    exact hw.inRange
  | update k btarget taken predTaken correct =>
    obtain ⟨f, pag, gag, ch, hf, hmem, hrec, hd'⟩ := hw.inv.update h
    have hread := hrec.read_updateCounters taken
    simp only [DirPred.read_updateHistories, ← hd'] at hread
    rw [ExactTraining, hf] at hex
    simp only [Option.mem_def, Option.some.injEq, forall_eq', hrec.counter_bimod] at hex
    refine ⟨fun i => ?_, fun i => ?_, fun i => ?_⟩
    · by_cases hi : i = gag
      · -- exact training keeps the trained GAg counter in range
        subst hi
        rw [hex.2, nextCounter]
        have hle := hw.inRange.bimod i
        split_ifs <;> omega
      · rw [hread, if_neg (by simp), if_neg (by simp [hi]), if_neg (by simp)]
        exact hw.inRange.bimod i
    · by_cases hi : i = pag
      · rw [hread, hi, if_pos rfl]
        split_ifs
        · exact saturate_le le_rfl (hw.inRange.twolev pag)
        · exact saturate_le (by norm_num) (hw.inRange.twolev pag)
      · rw [hread, if_neg (by simp [hi]), if_neg (by simp), if_neg (by simp)]
        exact hw.inRange.twolev i
    · rw [hread, if_neg (by simp), if_neg (by simp)]
      by_cases hi : (⟨.chooser, i⟩ : CounterPtr) = ⟨.chooser, ch⟩ ∧
          f.dirUpdate.dirBimod ≠ f.dirUpdate.dirTwolev
      · rw [if_pos hi]
        exact saturate_le le_rfl (hw.inRange.chooser ch)
      · rw [if_neg hi]
        exact hw.inRange.chooser i

/-! ### Runs -/

theorem inRange_of_create {btbSets btbAssoc retstackSize : ℕ} {pred : Predictor}
    (h : bpredCreateComb btbSets btbAssoc retstackSize = some pred) :
    pred.dirpred.InRange := by
  simp only [bpredCreateComb, Option.bind_eq_bind, Option.bind_eq_some_iff] at h
  obtain ⟨twolev, ht, bimod, hb, chooser, hc, btb, -, retstack, -, h⟩ := h
  obtain rfl := Option.some.inj h
  refine ⟨fun i => ?_, fun i => ?_, fun i => ?_⟩
  · exact (bpredDirCreateTwoLevel_get_le hb i).trans (by norm_num)
  · exact (bpredDirCreateTwoLevel_get_le ht i).trans (by norm_num)
  · exact (bpredDirCreateBimod_get_le hc i).trans (by norm_num)

/-- **Delayed training.** A run of a new combined predictor on conditional branches trains its
counters exactly if and only if every update in it uses harmless widths. -/
theorem componentExact_iff {btbSets btbAssoc retstackSize : ℕ} {pred : Predictor}
    (h : bpredCreateComb btbSets btbAssoc retstackSize = some pred) {calls : List Call}
    (hc : ∀ c ∈ calls, c.OnCond) :
    ComponentExact pred calls ↔ EveryStep Window.step WidthKept (Window.start pred) calls := by
  have hrange := inRange_of_create h
  have hstart : (Window.start pred).Bounded := ⟨Window.Inv.start h, hrange⟩
  rw [ComponentExact, and_iff_right hrange]
  refine EveryStep.iff_of_invariant (I := Window.Bounded) (fun w c b w' hw hc hs => ?_)
    (fun w c b w' hw hc hs hP => hw.step hc hs hP.1) hc hstart
  rw [← exactTraining_iff hw hs]
  exact and_iff_left_of_imp fun hex => (hw.step hc hs hex).inRange

theorem componentExact_loneBranch : ∃ pred, bpredCreateComb 1 1 0 = some pred ∧
    ComponentExact pred [.lookup 4 0 .beq {}, .update 0 64 1 0 0] := by
  have h : bpredCreateComb 1 1 0 = some _ := bpredCreateComb_eq rfl rfl
  exact ⟨_, h, (componentExact_iff h (by decide)).mpr (by decide +kernel)⟩

/-! ### Two branches in flight -/

/-- The branch at 4 is looked up while its chooser selects the GAg, and two more of its
instances move the chooser to the PAg before the first is updated. -/
def overlapCalls : List Call :=
  [.lookup 8 0 .beq {}, .lookup 8 0 .beq {}, .lookup 4 0 .beq {},
    .update 0 64 1 0 0, .update 0 64 1 0 0,
    .lookup 4 0 .beq {}, .lookup 4 0 .beq {},
    .update 1 0 0 0 1, .update 1 0 0 0 1,
    .update 0 64 1 0 0]

/-- The last update increments the GAg counter from 3 to 4. -/
theorem not_componentExact_overlapCalls :
    ∃ pred, bpredCreateComb 1 1 0 = some pred ∧ (∀ c ∈ overlapCalls, c.OnCond) ∧
      ¬ ComponentExact pred overlapCalls := by
  refine ⟨_, bpredCreateComb_eq rfl rfl, by decide, fun h => ?_⟩
  have hexact := h.2.mono fun w c b w' hP => hP.1
  revert hexact
  decide +kernel

end AdvancedArchitecture.Bpred
