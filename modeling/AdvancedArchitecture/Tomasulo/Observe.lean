import Mathlib
import AdvancedArchitecture.Tomasulo.Simulation

/-!
# Reading a run

What the properties of a run say about a machine: which station state an instruction is in,
and which program-order facts about a trace they refer to. Each notion is decidable, and has
a counterpart on the instruction-level machine.

The records of an instruction are compared with `VALUE_EMPTY` in the simulator, where -1
stands for an event that has not happened. A statement that orders events reads a record
through `recorded` instead, in which such an event is later than all others (`⊤`), so that
"by cycle `c`" is an inequality also for an instruction that never gets there.

The last section follows one instruction along a run: what executes is written back as many
cycles later as its counter says, and nothing in flight is left when the run ends.
-/

namespace AdvancedArchitecture.Tomasulo

variable {P : Trace} {m : Machine} {a : Pipe}

/-! ### Program order -/

namespace Trace

/-- The registers instruction `j` reads: the sources of an arithmetic instruction, the stored
register of an `SW`. -/
def reads (P : Trace) (j : ℕ) : List DataRegTag :=
  match P.type j with
  | .lw | .nop => []
  | .sw => [P.dest j]
  | _ => [P.src1 j, P.src2 j]

/-- Instruction `i` is the latest one before `j` that writes register `r`. -/
def LastWriter (P : Trace) (j : ℕ) (r : DataRegTag) (i : ℕ) : Prop :=
  i < j ∧ P.Writes i ∧ P.dest i = r ∧ ∀ k, k < j → i < k → P.Writes k → P.dest k ≠ r

instance (P : Trace) (j : ℕ) (r : DataRegTag) (i : ℕ) : Decidable (P.LastWriter j r i) := by
  unfold LastWriter; infer_instance

/-- An `SW` reads the register it stores, which is in its destination field. -/
theorem reads_of_sw {j : ℕ} (h : P.type j = .sw) : P.reads j = [P.dest j] := by
  rw [reads, h]

theorem reads_of_lw {j : ℕ} (h : P.type j = .lw) : P.reads j = [] := by
  rw [reads, h]

/-- An arithmetic instruction reads its two sources, the same register twice if they agree. -/
theorem reads_of_arith {j : ℕ} (hj : j < P.length) (h : (P.type j).isMem = false) :
    P.reads j = [P.src1 j, P.src2 j] := by
  have hne := type_ne_nop hj
  rw [reads]
  cases ht : P.type j with
  | nop => exact absurd ht hne
  | lw => rw [ht] at h; cases h
  | sw => rw [ht] at h; cases h
  | _ => rfl

/-- What an instruction reads is a register. -/
theorem reads_ne_noReg {j : ℕ} (hj : j < P.length) {r : DataRegTag} (hr : r ∈ P.reads j) :
    r ≠ .noReg := by
  cases hm : (P.type j).isMem with
  | false =>
    rw [reads_of_arith hj hm, List.mem_pair] at hr
    rcases hr with rfl | rfl
    · exact src1_ne_noReg hj
    · exact src2_ne_noReg hj hm
  | true =>
    by_cases hsw : P.type j = .sw
    · rw [reads_of_sw hsw, List.mem_singleton] at hr
      rw [hr]
      exact dest_ne_noReg hj
    · have hlw : P.type j = .lw := by
        cases ht : P.type j with
        | lw => rfl
        | sw => exact absurd ht hsw
        | _ => rw [ht] at hm; cases hm
      rw [reads_of_lw hlw] at hr
      cases hr

end Trace

/-! ### Stations -/

namespace Machine

/-- Instruction `k` is held by a station. -/
def Holds (m : Machine) (k : ℕ) : Prop := ∃ s ∈ slots, m.ptr s = some k

/-- Instruction `k` is held by a station in state `st`. -/
def InState (m : Machine) (k : ℕ) (st : RsState) : Prop :=
  ∃ s ∈ slots, m.ptr s = some k ∧ (m.entry s).state = st

/-- The waiting flag of a register. -/
def waiting (m : Machine) (r : DataRegTag) : Bool := (readReg m.fpReg (findRegIndex r)).waiting

instance (m : Machine) (k : ℕ) : Decidable (m.Holds k) := by unfold Holds; infer_instance

instance (m : Machine) (k : ℕ) (st : RsState) : Decidable (m.InState k st) := by
  unfold InState; infer_instance

end Machine

/-- A station points to an instruction exactly while it is in flight. -/
theorem Refines.holds_iff (h : Refines P m a) {k : ℕ} : m.Holds k ↔ (a.stage k).InFlight := by
  constructor
  · rintro ⟨s, -, hp⟩
    exact (h.stations.represents s k hp).inFlight
  · exact h.stations.held k

/-- A station state is a stage that its instructions are in flight in. -/
theorem Refines.inState_iff (h : Refines P m a) {k : ℕ} {st : RsState} {p : Stage → Prop}
    (hst : ∀ e s, Represents P k e s → (e.state = st ↔ p s)) (hp : ∀ s, p s → s.InFlight) :
    m.InState k st ↔ p (a.stage k) := by
  constructor
  · rintro ⟨s, -, hk, he⟩
    exact (hst _ _ (h.stations.represents s k hk)).mp he
  · intro hk
    obtain ⟨s, hs, hptr⟩ := h.stations.held k (hp _ hk)
    exact ⟨s, hs, hptr, (hst _ _ (h.stations.represents s k hptr)).mpr hk⟩

/-- A station is in `exec` while its instruction executes. -/
theorem Refines.inState_exec_iff (h : Refines P m a) {k : ℕ} :
    m.InState k .exec ↔ ∃ left, a.stage k = .exec left := by
  refine h.inState_iff (p := fun s => ∃ left, s = .exec left)
    (fun e s hr => hr.state_exec_iff) ?_
  rintro s ⟨left, rfl⟩
  trivial

theorem Refines.inState_done_iff (h : Refines P m a) {k : ℕ} :
    m.InState k .done ↔ a.stage k = .done := by
  refine h.inState_iff (p := fun s => s = .done) (fun e s hr => hr.state_done_iff) ?_
  rintro s rfl
  trivial

theorem Refines.inState_issued_iff (h : Refines P m a) {k : ℕ} :
    m.InState k .issued ↔ ∃ wj wk, a.stage k = .issued wj wk := by
  refine h.inState_iff (p := fun s => ∃ wj wk, s = .issued wj wk)
    (fun e s hr => hr.state_issued_iff) ?_
  rintro s ⟨wj, wk, rfl⟩
  trivial

theorem Refines.waiting_eq (h : Refines P m a) {r : DataRegTag} (hr : r ≠ .noReg) :
    m.waiting r = a.waiting r := h.waiting r hr

/-- The records of a cycle agree; here the cycle of write-back. -/
theorem Refines.writeback_eq (h : Refines P m a) (k : ℕ) :
    (m.inst.get k).writeback = a.writebackAt k := by
  rw [h.inst]
  rfl

theorem Refines.execute_eq (h : Refines P m a) (k : ℕ) :
    (m.inst.get k).execute = a.executeAt k := by
  rw [h.inst]
  rfl

theorem Refines.commit_eq (h : Refines P m a) (k : ℕ) :
    (m.inst.get k).commit = a.commitAt k := by
  rw [h.inst]
  rfl

theorem Refines.issue_eq (h : Refines P m a) (k : ℕ) :
    (m.inst.get k).issue = a.issueAt k := by
  rw [h.inst]
  rfl

/-- The records tell which instructions are in flight. -/
theorem Refines.recorded_iff (h : Refines P m a) (hinv : a.Inv P) {k : ℕ} :
    ((m.inst.get k).issue ≠ valueEmpty ∧ (m.inst.get k).writeback = valueEmpty) ↔
      (a.stage k).InFlight := by
  rw [h.issue_eq, h.writeback_eq, hinv.inFlight_iff]

/-! ### Recorded cycles -/

/-- A cycle of an instruction record, `⊤` while it is empty. -/
def recorded (c : ℤ) : WithTop ℤ := if c = valueEmpty then ⊤ else c

/-- A cycle that is not recorded counts as later than all others. -/
theorem recorded_eq_top_iff {c : ℤ} : recorded c = ⊤ ↔ c = valueEmpty := by
  rw [recorded]
  split_ifs with hc
  · exact iff_of_true rfl hc
  · exact iff_of_false WithTop.coe_ne_top hc

theorem recorded_of_ne {c : ℤ} (h : c ≠ valueEmpty) : recorded c = c := if_neg h

/-- To be recorded by a cycle is to be recorded, and not later. -/
theorem recorded_le_iff {c d : ℤ} : recorded c ≤ d ↔ c ≠ valueEmpty ∧ c ≤ d := by
  by_cases hc : c = valueEmpty
  · rw [recorded_eq_top_iff.mpr hc]
    exact iff_of_false (not_le_of_gt (WithTop.coe_lt_top d)) fun h => h.1 hc
  · rw [recorded_of_ne hc, WithTop.coe_le_coe]
    exact (and_iff_right hc).symm

namespace Machine

/-- The cycle instruction `k` was issued in. -/
def issuedAt (m : Machine) (k : ℕ) : WithTop ℤ := recorded (m.inst.get k).issue

/-- The cycle instruction `k` ended execution in. -/
def executedAt (m : Machine) (k : ℕ) : WithTop ℤ := recorded (m.inst.get k).execute

/-- The cycle instruction `k` was written back in. -/
def writtenBackAt (m : Machine) (k : ℕ) : WithTop ℤ := recorded (m.inst.get k).writeback

/-- The cycle instruction `k` was committed in. -/
def committedAt (m : Machine) (k : ℕ) : WithTop ℤ := recorded (m.inst.get k).commit

end Machine

theorem Refines.issuedAt_eq (h : Refines P m a) (k : ℕ) :
    m.issuedAt k = recorded (a.issueAt k) := by
  rw [Machine.issuedAt, h.issue_eq]

theorem Refines.executedAt_eq (h : Refines P m a) (k : ℕ) :
    m.executedAt k = recorded (a.executeAt k) := by
  rw [Machine.executedAt, h.execute_eq]

theorem Refines.writtenBackAt_eq (h : Refines P m a) (k : ℕ) :
    m.writtenBackAt k = recorded (a.writebackAt k) := by
  rw [Machine.writtenBackAt, h.writeback_eq]

theorem Refines.committedAt_eq (h : Refines P m a) (k : ℕ) :
    m.committedAt k = recorded (a.commitAt k) := by
  rw [Machine.committedAt, h.commit_eq]

/-- The issue phase finds a station exactly when the next instruction can issue. -/
theorem Refines.canIssue_iff (h : Refines P m a) :
    (m.programCounter < m.instCount ∧
      findStation m (m.inst.get m.programCounter).type ≠ none) ↔ a.CanIssue P := by
  have htype : (m.inst.get m.programCounter).type = P.type a.pc := by
    rw [h.programCounter, h.inst]
    rfl
  rw [htype, h.programCounter, h.instCount, Pipe.CanIssue]
  refine and_congr_right fun hlt => ?_
  have hne := Trace.type_ne_nop hlt
  rw [h.card_lt_iff]
  constructor
  · intro hsome
    obtain ⟨i, hi⟩ := Option.ne_none_iff_exists'.mp hsome
    exact ⟨i, findStation_some hne hi⟩
  · rintro ⟨i, hi, hfree⟩ hnone
    exact findStation_none hne hnone hi hfree

/-! ### What becomes of an instruction -/

namespace Trajectory

variable {a : ℕ → Pipe} {ks : ℕ → List ℕ} {v : ℕ → ℤ} {n k : ℕ}

/-- The cycle counter counts the cycles. -/
theorem cycle_eq (h : Trajectory P a ks v) (hf : (run P n).finish = false) :
    (a n).cycle = n := by
  induction n with
  | zero =>
    rw [h.zero]
    rfl
  | succ n ih =>
    have hn : (run P n).finish = false := by
      rw [← Bool.not_eq_true]
      intro hfin
      rw [run_succ_of_finish hfin, hfin] at hf
      cases hf
    rw [h.next n hn, Pipe.next_cycle, ih hn]
    rfl

/-- So does the one of the simulator, until the simulation has ended. -/
theorem counted (h : Trajectory P a ks v) (n : ℕ) (hf : (run P n).finish = false) :
    (run P n).cycleCounter = n :=
  (h.refines n).cycleCounter.trans (h.cycle_eq hf)

/-- The counter is at most the number of rounds; it stays behind once the simulation has ended. -/
theorem cycle_le (h : Trajectory P a ks v) (n : ℕ) : (a n).cycle ≤ n := by
  refine h.induction (p := fun n b => b.cycle ≤ n) (le_refl _) (fun n b hb => ?_)
    (fun n _ _ hb => ?_) n
  · exact hb.trans (by omega)
  · rw [Pipe.next_cycle]
    omega

/-- The simulation does not end while an instruction is in flight. -/
theorem not_finish_of_inFlight (h : Trajectory P a ks v) (hk : ((a n).stage k).InFlight) :
    (run P n).finish = false := by
  refine Bool.eq_false_iff.mpr fun hf => ?_
  have hlt := ((h.inv n).lt_length hk).trans_le ((h.finished n).mp hf).2
  exact hk.ne_retired ((h.inv n).committed k hlt)

/-- A written-back instruction stays as it is. -/
theorem retired_of_le (h : Trajectory P a ks v) (hk : (a n).stage k = .retired) {N : ℕ}
    (hN : n ≤ N) : (a N).stage k = .retired ∧ (a N).writebackAt k = (a n).writebackAt k := by
  refine h.induction_from
    (p := fun b => b.stage k = .retired ∧ b.writebackAt k = (a n).writebackAt k) ⟨hk, rfl⟩
    (fun N _ ih => ?_) hN
  obtain ⟨hret, hwb⟩ := (h.inv N).retired_next (v := v N) (h.covers N) ih.1
  exact ⟨hret, hwb.trans ih.2⟩

/-- An instruction that is done is written back in the next cycle of the run. -/
theorem retired_of_done (h : Trajectory P a ks v) (hk : (a n).stage k = .done) :
    (a (n + 1)).stage k = .retired ∧ (a (n + 1)).writebackAt k = (a n).cycle + 1 := by
  have hfl : ((a n).stage k).InFlight := by
    rw [hk]
    trivial
  rw [h.next n (h.not_finish_of_inFlight hfl)]
  refine ⟨((h.inv n).step (h.covers n) k).retired_iff.mpr (.inl hk), ?_⟩
  rw [Pipe.next_writebackAt (h.covers n), if_pos hk]

/-- **Execution runs to its end**: an instruction with `left` cycles to go is written back
`left + 1` cycles later. -/
theorem retired_of_exec (h : Trajectory P a ks v) {left : ℤ} (hk : (a n).stage k = .exec left) :
    ∃ N, n ≤ N ∧ (a N).stage k = .retired ∧ (a N).writebackAt k = (a n).cycle + left + 1 := by
  -- induction on the cycles left, of which there is at least one
  obtain ⟨c, rfl⟩ : ∃ c : ℕ, left = c + 1 := by
    have hrange := (h.inv n).exec_range k left hk
    exact ⟨(left - 1).toNat, by omega⟩
  induction c generalizing n with
  | zero =>
    have hfl : ((a n).stage k).InFlight := by
      rw [hk]
      trivial
    have hnext := h.next n (h.not_finish_of_inFlight hfl)
    have hdone : (a (n + 1)).stage k = .done := by
      rw [hnext]
      exact ((h.inv n).step (h.covers n) k).done_iff.mpr hk
    obtain ⟨hret, hwb⟩ := h.retired_of_done hdone
    refine ⟨n + 1 + 1, by omega, hret, ?_⟩
    rw [hwb, hnext, Pipe.next_cycle]
    omega
  | succ c ih =>
    have hfl : ((a n).stage k).InFlight := by
      rw [hk]
      trivial
    have hnext := h.next n (h.not_finish_of_inFlight hfl)
    have hexec : (a (n + 1)).stage k = .exec (c + 1) := by
      have hstep := (h.inv n).step (v := v n) (h.covers n) k
      rw [← hnext, hk] at hstep
      generalize (a (n + 1)).stage k = s' at hstep
      generalize hl : ((c + 1 : ℕ) : ℤ) + 1 = left at hstep
      cases hstep with
      | exec hne =>
        congr 1
        omega
      | complete => omega
    obtain ⟨N, hN, hret, hwb⟩ := ih hexec
    refine ⟨N, by omega, hret, ?_⟩
    rw [hwb, hnext, Pipe.next_cycle]
    omega

end Trajectory

/-! ### The end of a run -/

/-- A finished machine stays as it is. -/
theorem run_of_finish {n k : ℕ} (h : (run P n).finish = true) (hnk : n ≤ k) :
    run P k = run P n := by
  induction k, hnk using Nat.le_induction with
  | base => rfl
  | succ k _ ih =>
    have hk : (run P k).finish = true := by rw [ih, h]
    rw [run_succ_of_finish hk, ih]

end AdvancedArchitecture.Tomasulo
