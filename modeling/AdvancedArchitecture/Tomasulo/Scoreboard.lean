import AdvancedArchitecture.Tomasulo.Observe

/-!
# The waiting flags

The waiting flag of a register should be raised exactly while a writer of the register is in
flight (`FlagsAccurate`). A flag is never raised without a reason, but every write-back to the
register takes it down, and the dependency pass that should raise it again for the writers that
stay overlooks some of them: a load that is still `issued`, and any writer that completes in the
same cycle. `FlagsGuard` says that whenever a writer stays behind a write-back to its register,
the pass sees some writer of the register, and `scoreboardAccurate_iff` that the flags are right
in every cycle exactly when this holds in every cycle.

The flags are looked at when the issue phase begins, which is where they are consulted. Issue and
the start tests then keep them right until the end of the cycle, so that the step of the induction
is about the phases before issue. In the other direction, if the guard fails in a cycle, the flag of
the register is down when issue begins, with a writer in flight.
-/

namespace AdvancedArchitecture.Tomasulo

variable {P : Trace} {a : Pipe} {ks : List ℕ} {v : ℤ}

/-! ### The property and the guard -/

/-- **The flags are accurate** in a state: register `r` waits if and only if a writer of `r` was
issued and was not written back. -/
def FlagsAccurate (P : Trace) (m : Machine) : Prop :=
  ∀ r, r ≠ .noReg → (m.waiting r = true ↔
    ∃ k, k < P.length ∧ P.Writes k ∧ P.dest k = r ∧
      (m.inst.get k).issue ≠ valueEmpty ∧ (m.inst.get k).writeback = valueEmpty)

/-- **The scoreboard is accurate**: in every cycle the flags are, when the issue phase reads
them. -/
def ScoreboardAccurate (P : Trace) : Prop :=
  ∀ n, (run P n).finish = false → FlagsAccurate P (beforeIssue (run P n))

/-- The dependency pass of the cycle that starts from `m` marks register `r`: a writer of `r`
executes with more than one cycle left, or is an arithmetic instruction that waits. -/
def PassMarks (m : Machine) (r : DataRegTag) : Prop :=
  ∃ s ∈ slots, s.1 ≠ .store ∧ (m.entry s).destTag = r ∧
    ((m.entry s).state = .exec ∧ (m.entry s).cycleLast ≠ 1 ∨
      (m.entry s).state = .issued ∧ s.1 ≠ .load)

/-- **No flag is lost in the cycle that starts from `m`**: if a register is written back to and
a writer of it has not executed, the dependency pass marks the register. -/
def FlagsGuard (m : Machine) : Prop :=
  ∀ s ∈ slots, (m.entry s).state = .done → ∀ s' ∈ slots, s'.1 ≠ .store →
    (m.entry s').destTag = (m.entry s).destTag →
      ((m.entry s').state = .issued ∨ (m.entry s').state = .exec) →
        PassMarks m (m.entry s).destTag

instance (m : Machine) (r : DataRegTag) : Decidable (PassMarks m r) := by
  unfold PassMarks; infer_instance

instance (m : Machine) : Decidable (FlagsGuard m) := by
  unfold FlagsGuard; infer_instance

namespace Pipe

/-- The flags of the instruction-level machine are accurate. -/
def FlagsAccurate (P : Trace) (a : Pipe) : Prop :=
  ∀ t, a.waiting t = true ↔ ∃ k, (a.stage k).InFlight ∧ P.Writes k ∧ P.dest k = t

/-- The guard on the instruction-level machine. -/
def FlagsGuard (P : Trace) (a : Pipe) : Prop :=
  ∀ i j, a.stage i = .done → (a.stage j).InFlight → a.stage j ≠ .done → P.Writes j →
    P.dest j = P.dest i →
      ∃ k, k < P.length ∧ a.Marks P k ∧ a.stage k ≠ .exec 1 ∧ P.dest k = P.dest i

theorem flagsAccurate_init (P : Trace) : (init : Pipe).FlagsAccurate P := by
  intro t
  refine iff_of_false Bool.false_ne_true ?_
  rintro ⟨k, hk, -, -⟩
  exact hk

/-! ### One cycle -/

/-- An instruction is seen by the dependency pass of a cycle if it marked before the cycle and
does not complete in it. -/
theorem beforeIssue_marks_iff (ks : List ℕ) (a : Pipe) (k : ℕ) :
    (a.beforeIssue P ks).Marks P k ↔ a.Marks P k ∧ a.stage k ≠ .exec 1 := by
  rw [Marks, Marks, beforeIssue_stage, stepStage]
  cases hst : a.stage k with
  | idle => simp
  | issued wj wk => simp
  | exec left =>
    dsimp only
    by_cases hl : left - 1 = 0
    · have hone : left = 1 := by omega
      rw [if_pos hl, hone]
      simp
    · have hone : left ≠ 1 := by omega
      rw [if_neg hl]
      simp [hone]
  | done =>
    dsimp only
    split_ifs <;> simp
  | retired => simp

/-- Where the pass overlooks the writers that stay, the flag is lost. -/
theorem FlagsAccurate.guard (h : (a.beforeIssue P ks).FlagsAccurate P) (hcov : Covers ks a) :
    a.FlagsGuard P := by
  intro i j hi hj hnd hw ht
  have hraised : (a.beforeIssue P ks).waiting (P.dest i) = true :=
    (h _).mpr ⟨j, (Inv.inFlight_beforeIssue hcov).mpr ⟨hj, hnd⟩, hw, ht⟩
  rcases (beforeIssue_waiting ks a _).mp hraised with ⟨-, hcl⟩ | ⟨k, hk, hm, hkt⟩
  · exact absurd ((Inv.clears_iff hcov _).mpr ⟨i, hi, rfl⟩) hcl
  · obtain ⟨hm, hne⟩ := (beforeIssue_marks_iff ks a k).mp hm
    exact ⟨k, hk, hm, hne, hkt⟩

namespace FlagsAccurate

/-- **Up to issue.** -/
theorem beforeIssue (h : a.FlagsAccurate P) (hinv : a.Inv P) (hcov : Covers ks a)
    (hg : a.FlagsGuard P) : (a.beforeIssue P ks).FlagsAccurate P := by
  intro t
  refine ⟨hinv.beforeIssue_waiting_inFlight hcov, ?_⟩
  rintro ⟨j, hj, hw, ht⟩
  obtain ⟨hfl, hnd⟩ := (Inv.inFlight_beforeIssue hcov).mp hj
  have hold : a.waiting t = true := (h t).mpr ⟨j, hfl, hw, ht⟩
  rw [beforeIssue_waiting]
  by_cases hcl : a.Clears P ks t
  · -- the write-back takes the flag down, and the pass raises it again
    obtain ⟨i, hi, hit⟩ := (Inv.clears_iff hcov t).mp hcl
    obtain ⟨k, hk, hm, hne, hkt⟩ := hg i j hi hfl hnd hw (ht.trans hit.symm)
    exact .inr ⟨k, hk, (beforeIssue_marks_iff ks a k).mpr ⟨hm, hne⟩, hkt.trans hit⟩
  · exact .inl ⟨hold, hcl⟩

/-- **Issue and the start tests** keep the flags accurate. -/
theorem of_beforeIssue (h : (a.beforeIssue P ks).FlagsAccurate P) (hinv : a.Inv P)
    (hcov : Covers ks a) : (a.next P ks v).FlagsAccurate P := by
  intro t
  refine ⟨hinv.next_waiting_inFlight hcov, ?_⟩
  rintro ⟨k, hk, hw, ht⟩
  rw [next_waiting, issue_waiting, beforeIssue_pc]
  by_cases hlt : k < a.pc
  · exact .inl ((h t).mpr ⟨k, Inv.inFlight_of_next hlt hk, hw, ht⟩)
  · -- `k` is issued in this cycle
    have hkpc := (hinv.next (v := v) hcov).lt_pc hk
    rw [next_pc] at hkpc
    split_ifs at hkpc with hc
    · have hkeq : k = a.pc := by omega
      rw [hkeq] at hw ht
      exact .inr ⟨hc, hw, ht⟩
    · exact absurd hkpc hlt

/-- The flags stay right until the end of the cycle: issue raises the flag of the one writer it
adds, and the start tests change neither. -/
theorem next (h : a.FlagsAccurate P) (hinv : a.Inv P) (hcov : Covers ks a)
    (hg : a.FlagsGuard P) : (a.next P ks v).FlagsAccurate P :=
  (h.beforeIssue hinv hcov hg).of_beforeIssue hinv hcov

end FlagsAccurate

/-- Before issue, an instruction is in flight if it was issued and was not written back. -/
theorem beforeIssue_recorded_iff (hinv : a.Inv P) (hcov : Covers ks a) (k : ℕ) :
    ((a.beforeIssue P ks).issueAt k ≠ valueEmpty ∧
      (a.beforeIssue P ks).writebackAt k = valueEmpty) ↔
        ((a.beforeIssue P ks).stage k).InFlight := by
  have hback : (a.beforeIssue P ks).writebackAt k = valueEmpty ↔
      a.stage k ≠ .done ∧ a.stage k ≠ .retired := by
    rw [beforeIssue_writebackAt]
    split_ifs with hd
    · exact iff_of_false hinv.cycle_succ_ne fun hh => hh.1 hd.2
    · have hnd : a.stage k ≠ .done := fun hh => hd ⟨hcov k hh, hh⟩
      have hret := not_congr (hinv.writebackAt k)
      rw [not_not] at hret
      rw [hret]
      exact (and_iff_right hnd).symm
  rw [beforeIssue_issueAt, hinv.issueAt_iff, hback, Inv.inFlight_beforeIssue hcov,
    Stage.inFlight_iff]
  tauto

end Pipe

/-! ### From the simulator to the instruction-level machine -/

variable {m : Machine}

/-- The flags of the simulator are right when those of the abstract state are. -/
theorem Refines.flagsAccurate_iff (h : Refines P (beforeIssue m) (a.beforeIssue P ks))
    (hinv : a.Inv P) (hcov : Pipe.Covers ks a) :
    FlagsAccurate P (beforeIssue m) ↔ (a.beforeIssue P ks).FlagsAccurate P := by
  set b := a.beforeIssue P ks with hb
  have hlt : ∀ k, (b.stage k).InFlight → k < P.length := fun k hfl =>
    hinv.lt_length ((Pipe.Inv.inFlight_beforeIssue hcov).mp hfl).1
  -- the instructions issued and not written back are those in flight
  have hwriter : ∀ r, (∃ k, k < P.length ∧ P.Writes k ∧ P.dest k = r ∧
      ((beforeIssue m).inst.get k).issue ≠ valueEmpty ∧
        ((beforeIssue m).inst.get k).writeback = valueEmpty) ↔
      ∃ k, (b.stage k).InFlight ∧ P.Writes k ∧ P.dest k = r := by
    intro r
    refine exists_congr fun k => ?_
    rw [h.issue_eq, h.writeback_eq, Pipe.beforeIssue_recorded_iff hinv hcov k]
    constructor
    · rintro ⟨-, hw, ht, hfl⟩
      exact ⟨hfl, hw, ht⟩
    · rintro ⟨hfl, hw, ht⟩
      exact ⟨hlt k hfl, hw, ht, hfl⟩
  constructor
  · intro hacc t
    by_cases ht : t = .noReg
    · -- no instruction writes `NO_REG`
      have hnone : ¬∃ k, (b.stage k).InFlight ∧ P.Writes k ∧ P.dest k = t := by
        rintro ⟨k, hfl, -, hk⟩
        exact Trace.dest_ne_noReg (hlt k hfl) (hk.trans ht)
      exact iff_of_false (mt (hinv.beforeIssue_waiting_inFlight hcov) hnone) hnone
    · rw [← h.waiting_eq ht, hacc t ht, hwriter]
  · intro hacc r hr
    rw [h.waiting_eq hr, hacc r, hwriter]

/-- The dependency pass marks a register for the writers that it sees in their stations: those that
do not complete in this cycle. -/
theorem Refines.passMarks_iff (h : Refines P m a) {r : DataRegTag} :
    PassMarks m r ↔ ∃ k, k < P.length ∧ a.Marks P k ∧ a.stage k ≠ .exec 1 ∧ P.dest k = r := by
  constructor
  · rintro ⟨s, -, hns, ht, hst⟩
    obtain ⟨k, hp⟩ : ∃ k, m.ptr s = some k := by
      rcases hst with ⟨hx, -⟩ | ⟨hx, -⟩
      · exact h.exists_ptr hx (by decide)
      · exact h.exists_ptr hx (by decide)
    have hrep := h.stations.represents s k hp
    refine ⟨k, h.stations.lt s k hp, (h.marks_iff hp).mpr ⟨hst.imp_left And.left, hns⟩, ?_,
      (h.stations.destTag s k hp).symm.trans ht⟩
    intro hone
    rw [hone] at hrep
    rcases hst with ⟨-, hleft⟩ | ⟨hx, -⟩
    · exact hleft hrep.2.1
    · rw [hrep.1] at hx
      cases hx
  · rintro ⟨k, -, hm, hne, ht⟩
    obtain ⟨s, hs, hp⟩ := h.stations.held k hm.inFlight
    obtain ⟨hst, hns⟩ := (h.marks_iff hp).mp hm
    refine ⟨s, hs, hns, (h.stations.destTag s k hp).trans ht, hst.imp_left fun hx => ⟨hx, ?_⟩⟩
    have hrep := h.stations.represents s k hp
    obtain ⟨left, hleft⟩ := hrep.state_exec_iff.mp hx
    rw [hleft] at hrep hne
    rw [hrep.2.1]
    rintro rfl
    exact hne rfl

/-- The guard of the simulator is the guard of the instruction-level machine. -/
theorem Refines.flagsGuard_iff (h : Refines P m a) : FlagsGuard m ↔ a.FlagsGuard P := by
  constructor
  · intro hg i j hi hj hnd hw ht
    obtain ⟨s, hs, hp, hdone⟩ := h.inState_done_iff.mpr hi
    obtain ⟨s', hs', hp'⟩ := h.stations.held j hj
    have hdest := h.stations.destTag s i hp
    have hns : s'.1 ≠ .store := fun hstore => (h.store_iff hp').mp hstore hw
    -- in flight and not done, the writer that stays is issued or executes
    have hstate : (m.entry s').state = .issued ∨ (m.entry s').state = .exec := by
      have heq := (h.stations.represents s' j hp').state_eq
      cases hst : a.stage j with
      | idle => exact absurd hst hj.ne_idle
      | issued wj wk => exact .inl (by rw [heq, hst]; rfl)
      | exec left => exact .inr (by rw [heq, hst]; rfl)
      | done => exact absurd hst hnd
      | retired => exact absurd hst hj.ne_retired
    have hmarks := hg s hs hdone s' hs' hns
      (by rw [h.stations.destTag s' j hp', hdest, ht]) hstate
    rwa [hdest, h.passMarks_iff] at hmarks
  · intro hg s hs hdone s' hs' hns ht hstate
    obtain ⟨i, hp⟩ := h.exists_ptr hdone (by decide)
    obtain ⟨j, hp'⟩ : ∃ j, m.ptr s' = some j := by
      rcases hstate with hx | hx
      · exact h.exists_ptr hx (by decide)
      · exact h.exists_ptr hx (by decide)
    have hrep' := h.stations.represents s' j hp'
    have hdest := h.stations.destTag s i hp
    have hw : P.Writes j := by
      by_contra hnw
      exact hns ((h.store_iff hp').mpr hnw)
    have hnd : a.stage j ≠ .done := by
      intro hd
      rw [hrep'.state_done_iff.mpr hd] at hstate
      rcases hstate with hx | hx <;> cases hx
    rw [hdest, h.passMarks_iff]
    exact hg i j ((h.stations.represents s i hp).state_done_iff.mp hdone) hrep'.inFlight hnd
      hw (by rw [← h.stations.destTag s' j hp', ht, hdest])

/-! ### Runs -/

/-- While the guard holds, the flags are accurate at the end of every cycle. -/
theorem Trajectory.flagsAccurate {a : ℕ → Pipe} {ks : ℕ → List ℕ} {v : ℕ → ℤ}
    (h : Trajectory P a ks v)
    (hg : ∀ n, (run P n).finish = false → FlagsGuard (run P n)) (n : ℕ) :
    (a n).FlagsAccurate P :=
  h.induction (p := fun _ b => b.FlagsAccurate P) (Pipe.flagsAccurate_init P) (fun _ _ hb => hb)
    (fun c hf hcov hb =>
      hb.next (h.inv c) hcov ((h.refines c).flagsGuard_iff.mp (hg c hf))) n

/-- **The scoreboard is accurate exactly when, in every cycle, a writer that stays behind a
write-back to its register finds the register marked again.** -/
theorem scoreboardAccurate_iff (P : Trace) :
    ScoreboardAccurate P ↔ ∀ n, (run P n).finish = false → FlagsGuard (run P n) := by
  obtain ⟨a, ks, v, htr⟩ := exists_trajectory P
  have hflags : ∀ n, (run P n).finish = false → (FlagsAccurate P (beforeIssue (run P n)) ↔
      ((a n).beforeIssue P (ks n)).FlagsAccurate P) := fun n hf =>
    (htr.before n hf).flagsAccurate_iff (htr.inv n) (htr.covers n)
  constructor
  · intro hacc n hf
    have hb := (hflags n hf).mp (hacc n hf)
    exact (htr.refines n).flagsGuard_iff.mpr (hb.guard (htr.covers n))
  · intro hg n hf
    have hguard := (htr.refines n).flagsGuard_iff.mp (hg n hf)
    exact (hflags n hf).mpr
      ((htr.flagsAccurate hg n).beforeIssue (htr.inv n) (htr.covers n) hguard)

/-- `LW F2; LW F2`: the second load is `issued` until the first one commits. -/
def loadsTrace : Trace where
  insts := [⟨.lw, .f2, .f14, .noReg, 0⟩, ⟨.lw, .f2, .f14, .noReg, 0⟩]
  length_le := by decide
  wellFormed := by decide

/-- **The scoreboard is not accurate**: in cycle 4 the first load is written back, and `F2` does
not wait although the second load was issued in cycle 2. -/
theorem not_scoreboardAccurate_loadsTrace : ¬ScoreboardAccurate loadsTrace := by
  intro h
  have hf : (run loadsTrace 3).finish = false := by decide +kernel
  have hissue : ((beforeIssue (run loadsTrace 3)).inst.get 1).issue = 2 := by decide +kernel
  have hback : ((beforeIssue (run loadsTrace 3)).inst.get 1).writeback = valueEmpty := by
    decide +kernel
  have hflag : (beforeIssue (run loadsTrace 3)).waiting .f2 = false := by decide +kernel
  have hraised := (h 3 hf .f2 (by decide)).mpr
    ⟨1, by decide, by decide, by decide, by rw [hissue]; decide, hback⟩
  rw [hflag] at hraised
  cases hraised

end AdvancedArchitecture.Tomasulo
