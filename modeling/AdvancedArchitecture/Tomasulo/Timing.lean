import AdvancedArchitecture.Lib.Admission
import AdvancedArchitecture.Tomasulo.Observe

/-!
# The timing law

When an instruction executes, is written back and commits follows from the cycle it starts in
and from the order of the phases of a cycle: it executes as long as its operation takes, is
written back in the next cycle, and commits in the cycle after its write-back or after the
commit of its predecessor, whichever is later (`TimingLaw`). The counters of the stations
say when an instruction in flight started (`Pipe.startOf`), and no cycle changes what they
say; the test `commit` makes of all earlier instructions only ever waits for the last one.

After `n` cycles a record holds what has happened by then, which is why the equations are cut
at `n` (`asOf`): an event that is due in cycle `n` or before is recorded, and one that is due
later is not. The number of cycles is counted by the simulator itself until it has finished
(`TimingLaw.counted`), and from then on every event of the trace is recorded; so the cycles
that are due do come, and a run that is cut short does not keep to the law.

`Pipe.Timed` is the law as an invariant of one state, about the abstract counter. It is kept
by every cycle (`Pipe.Timed.next`), and the runs follow by `Trajectory.induction`.
-/

namespace AdvancedArchitecture.Tomasulo

variable {P : Trace} {a : Pipe} {ks : List ℕ} {v : ℤ}

/-! ### The law -/

/-- The cycles an operation executes. -/
def InstOp.execCycles : InstOp → ℤ
  | .lw | .sw | .add | .sub | .nop => 2
  | .mul => 10
  | .div => 40

/-- Instruction `k` enters state `exec` in cycle `s`. -/
def EntersExec (P : Trace) (k s : ℕ) : Prop :=
  (run P s).InState k .exec ∧ ¬(run P (s - 1)).InState k .exec

instance (P : Trace) (k s : ℕ) : Decidable (EntersExec P k s) := by
  unfold EntersExec; infer_instance

/-- Cycle `x` as it is recorded at the end of cycle `T`: not yet, if it is still to come. -/
def asOf (T : ℤ) (x : WithTop ℤ) : WithTop ℤ := if x ≤ T then x else ⊤

/-- **The timing law**, in the state `m` of a run after `n` cycles. As long as the run has not
finished, each of these cycles has been counted. An instruction that enters `exec` in cycle `s`
executes its operation's cycles from there, is written back in the next cycle, and commits in
the cycle after both its write-back and the commit of its predecessor; each of these cycles is
recorded as soon as it has come. Hence every instruction is issued, executes, is written back and
commits in this order, and the instructions commit in program order, at most one in a cycle. -/
structure TimingLaw (P : Trace) (n : ℕ) (m : Machine) : Prop where
  counted : m.finish = false → m.cycleCounter = n
  start : ∀ i s : ℕ, EntersExec P i s → s ≤ n → m.issuedAt i ≤ ((s : ℤ) : WithTop ℤ)
  execute : ∀ i s : ℕ, EntersExec P i s →
    m.executedAt i = asOf n ((s + (P.type i).execCycles : ℤ) : WithTop ℤ)
  entered : ∀ i, m.executedAt i ≠ ⊤ → ∃ s, EntersExec P i s
  writeback : ∀ i, m.writtenBackAt i = asOf n (m.executedAt i + 1)
  commit_zero : m.committedAt 0 = asOf n (m.writtenBackAt 0 + 1)
  commit_succ : ∀ i, m.committedAt (i + 1) =
    asOf n (max (m.writtenBackAt (i + 1)) (m.committedAt i) + 1)
  comes : ∀ i s : ℕ, EntersExec P i s → s + (P.type i).execCycles + 1 ≤ n →
    m.executedAt i = ((s + (P.type i).execCycles : ℤ) : WithTop ℤ) ∧
      m.writtenBackAt i = ((s + (P.type i).execCycles + 1 : ℤ) : WithTop ℤ)
  issue_lt : ∀ i, m.executedAt i ≠ ⊤ → m.issuedAt i < m.executedAt i
  execute_lt : ∀ i, m.writtenBackAt i ≠ ⊤ → m.executedAt i < m.writtenBackAt i
  writeback_lt : ∀ i, m.committedAt i ≠ ⊤ → m.writtenBackAt i < m.committedAt i
  in_order : ∀ i j, i < j → m.committedAt j ≠ ⊤ → m.committedAt i < m.committedAt j
  one_commit : ∀ i j, m.committedAt i ≠ ⊤ → m.committedAt i = m.committedAt j → i = j

/-! ### Recorded cycles -/

theorem asOf_coe (T c : ℤ) : asOf T c = if c ≤ T then (c : WithTop ℤ) else ⊤ :=
  if_congr WithTop.coe_le_coe rfl rfl

theorem asOf_top (T : ℤ) : asOf T ⊤ = ⊤ := ite_self _

/-- What is recorded as of cycle `T` is the event itself. -/
theorem asOf_eq_of_ne_top {T : ℤ} {x : WithTop ℤ} (h : asOf T x ≠ ⊤) : asOf T x = x := by
  rw [asOf] at h ⊢
  split_ifs at h ⊢
  · rfl
  · exact absurd rfl h

/-- What is recorded as of cycle `T` has happened by then. -/
theorem le_of_asOf_ne_top {T : ℤ} {x : WithTop ℤ} (h : asOf T x ≠ ⊤) : x ≤ T := by
  by_contra hle
  exact h (if_neg hle)

/-- A cycle that has been recorded stays recorded, and one that never comes is never recorded. -/
theorem asOf_mono {T T' : ℤ} {x : WithTop ℤ} (hT : T ≤ T') (h : x ≠ ⊤ → asOf T x ≠ ⊤) :
    asOf T x = asOf T' x := by
  by_cases hx : x = ⊤
  · rw [hx, asOf_top, asOf_top]
  · have hle := (le_of_asOf_ne_top (h hx)).trans (WithTop.coe_le_coe.mpr hT)
    rw [asOf_eq_of_ne_top (h hx), asOf, if_pos hle]

/-- What comes a cycle later comes later, once it is recorded. -/
theorem lt_of_eq_asOf {T : ℤ} {x y : WithTop ℤ} (hy : y = asOf T (x + 1)) (hne : y ≠ ⊤) :
    x < y := by
  subst hy
  have heq := asOf_eq_of_ne_top hne
  rw [heq] at hne ⊢
  induction x using WithTop.recTopCoe with
  | top => exact absurd rfl hne
  | coe c => exact WithTop.coe_lt_coe.mpr (Int.lt_succ c)

/-- Commits in program order. -/
theorem committed_lt {m : Machine} {T : ℤ} (hsucc : ∀ i, m.committedAt (i + 1) =
      asOf T (max (m.writtenBackAt (i + 1)) (m.committedAt i) + 1))
    {i j : ℕ} (hij : i < j) (hne : m.committedAt j ≠ ⊤) :
    m.committedAt i < m.committedAt j := by
  induction j, hij using Nat.le_induction with
  | base => exact (le_max_right _ _).trans_lt (lt_of_eq_asOf (hsucc i) hne)
  | succ j _ ih =>
    have hlt : m.committedAt j < m.committedAt (j + 1) :=
      (le_max_right _ _).trans_lt (lt_of_eq_asOf (hsucc j) hne)
    exact (ih (ne_top_of_lt hlt)).trans hlt

/-! ### The instruction-level machine -/

/-- The counter of a station starts from the number of cycles its operation takes. -/
theorem Trace.latency_eq {k : ℕ} (hk : k < P.length) : P.latency k = (P.type k).execCycles := by
  have hne := Trace.type_ne_nop hk
  rw [Trace.latency]
  cases htype : P.type k with
  | nop => exact absurd htype hne
  | _ => rfl

namespace Stage.Step

variable {k : ℕ} {s s' : Stage}

/-- What has started stays started. -/
theorem started (h : Step P k s s') (hs : s.Started) : s'.Started := by
  cases h <;> first | exact hs | trivial

/-- An instruction starts with all its cycles to go. -/
theorem exec_of_not_started (h : Step P k s s') (hs : ¬s.Started) (hs' : s'.Started) :
    s' = .exec (P.latency k) := by
  cases h with
  | issueStart => rfl
  | start => rfl
  | idle => exact absurd hs' hs
  | issue _ => exact absurd hs' id
  | wait _ _ => exact absurd hs' hs
  | _ => exact absurd trivial hs

end Stage.Step

namespace Pipe

/-- The cycle a started instruction started in, as its counter or its record says. -/
def startOf (P : Trace) (a : Pipe) (k : ℕ) : ℤ :=
  match a.stage k with
  | .exec left => a.cycle + left - P.latency k
  | .done | .retired => a.executeAt k - P.latency k
  | .idle | .issued _ _ => valueEmpty

/-- The cycle from which instruction `k` may commit: it is written back, and its predecessor
is committed. -/
def readyAt (a : Pipe) : ℕ → ℤ
  | 0 => a.writebackAt 0
  | k + 1 => max (a.writebackAt (k + 1)) (a.commitAt k)

/-- The cycle from which instruction `k` may commit, as far as it is recorded. -/
def recordedReady (a : Pipe) : ℕ → WithTop ℤ
  | 0 => recorded (a.writebackAt 0)
  | k + 1 => max (recorded (a.writebackAt (k + 1))) (recorded (a.commitAt k))

/-- **The invariant.** -/
structure Timed (P : Trace) (a : Pipe) : Prop where
  issue_le : ∀ k, a.issueAt k ≤ a.cycle
  issue_le_start : ∀ k, (a.stage k).Started → a.issueAt k ≤ a.startOf P k
  done : ∀ k, a.stage k = .done → a.executeAt k = a.cycle
  retired : ∀ k, a.stage k = .retired → a.writebackAt k = a.executeAt k + 1
  commit_le : ∀ k, a.commitAt k ≤ a.cycle
  commit : ∀ k, k < a.commitCount → a.commitAt k = a.readyAt k + 1
  head : a.stage a.commitCount = .retired → a.readyAt a.commitCount = a.cycle

theorem timed_init (P : Trace) : (init : Pipe).Timed P where
  issue_le _ := by simp [init, valueEmpty]
  issue_le_start _ h := absurd h id
  done _ h := by cases h
  retired _ h := by cases h
  commit_le _ := by simp [init, valueEmpty]
  commit _ h := absurd h (Nat.not_lt_zero _)
  head h := by cases h

namespace Inv

/-- **A cycle does not change when an instruction started.** -/
theorem startOf_next (h : a.Inv P) (hcov : Covers ks a) {k : ℕ} (hs : (a.stage k).Started) :
    (a.next P ks v).startOf P k = a.startOf P k := by
  have hstep := h.step (v := v) hcov k
  have hexec := next_executeAt (P := P) ks v a k
  unfold startOf
  rw [next_cycle, hexec]
  generalize (a.next P ks v).stage k = s' at hstep ⊢
  generalize a.stage k = s at hstep hs ⊢
  cases hstep with
  | exec hne => dsimp only; omega
  | complete => dsimp only; rw [if_pos rfl]
  | retire => dsimp only; rw [if_neg (by simp)]
  | retired => dsimp only; rw [if_neg (by simp)]
  | _ => exact absurd hs id

/-- An instruction that starts in a cycle started in that cycle. -/
theorem startOf_next_of_not_started (h : a.Inv P) (hcov : Covers ks a) {k : ℕ}
    (hs : ¬(a.stage k).Started) (hs' : ((a.next P ks v).stage k).Started) :
    (a.next P ks v).startOf P k = a.cycle + 1 := by
  rw [startOf, (h.step hcov k).exec_of_not_started hs hs', next_cycle]
  dsimp only
  omega

end Inv

namespace Timed

/-- A written-back instruction whose predecessor is committed stays ready. -/
theorem readyAt_next (h : a.Inv P) (hcov : Covers ks a) {k : ℕ} (hk : a.stage k = .retired)
    (hpred : ∀ j, k = j + 1 → (a.next P ks v).commitAt j = a.commitAt j) :
    (a.next P ks v).readyAt k = a.readyAt k := by
  have hwb := (h.retired_next (v := v) hcov hk).2
  cases k with
  | zero => exact hwb
  | succ j => exact congrArg₂ max hwb (hpred j rfl)

/-- An instruction is ready as soon as the last of the two conditions is met. -/
theorem readyAt_eq_cycle {b : Pipe} (h : b.Inv P) (hb : ∀ k, b.commitAt k ≤ b.cycle) {k : ℕ}
    (hnow : b.writebackAt k = b.cycle ∨ ∃ j, k = j + 1 ∧ b.commitAt j = b.cycle) :
    b.readyAt k = b.cycle := by
  rcases hnow with hwb | ⟨j, rfl, hc⟩
  · cases k with
    | zero => exact hwb
    | succ j => exact (max_eq_left (hwb.symm ▸ hb j)).trans hwb
  · exact (max_eq_right (hc.symm ▸ h.writeback_le (j + 1))).trans hc

/-- Commits are recorded in the cycle they happen in, not ahead of it. -/
theorem commit_le_next (ht : a.Timed P) (h : a.Inv P) (k : ℕ) :
    (a.next P ks v).commitAt k ≤ (a.next P ks v).cycle := by
  have hle := ht.commit_le k
  rw [next_cycle]
  rcases h.next_commit_cases ks v with ⟨-, -, hat⟩ | ⟨-, -, hat⟩
  · rw [hat]
    by_cases hk : k = a.commitCount
    · rw [hk, Function.update_self]
    · rw [Function.update_of_ne hk]
      omega
  · rw [hat]
    omega

/-- The commit of a cycle comes one cycle after the instruction became ready. -/
theorem commit_next (ht : a.Timed P) (h : a.Inv P) (hcov : Covers ks a) {k : ℕ}
    (hk : k < (a.next P ks v).commitCount) :
    (a.next P ks v).commitAt k = (a.next P ks v).readyAt k + 1 := by
  rcases h.next_commit_cases ks v with ⟨hr, hcount, hat⟩ | ⟨-, hcount, hat⟩
  · have hpred : ∀ j, j < a.commitCount → (a.next P ks v).commitAt j = a.commitAt j :=
      fun j hj => by rw [hat, Function.update_of_ne hj.ne]
    rw [hcount] at hk
    rcases Nat.lt_succ_iff_lt_or_eq.mp hk with hlt | rfl
    · rw [readyAt_next h hcov (h.committed k hlt) fun j hj => hpred j (by omega), hpred k hlt]
      exact ht.commit k hlt
    · rw [readyAt_next h hcov hr fun j hj => hpred j (by omega), hat, Function.update_self,
        ht.head hr]
  · rw [hcount] at hk
    rw [readyAt_next h hcov (h.committed k hk) fun j _ => by rw [hat], hat]
    exact ht.commit k hk

/-- If the next instruction to commit was written back, it became ready in this cycle. -/
theorem head_next (ht : a.Timed P) (h : a.Inv P) (hcov : Covers ks a)
    (hr : (a.next P ks v).stage (a.next P ks v).commitCount = .retired) :
    (a.next P ks v).readyAt (a.next P ks v).commitCount = (a.next P ks v).cycle := by
  refine readyAt_eq_cycle (h.next hcov) (ht.commit_le_next h) ?_
  rcases h.next_commit_cases ks v with ⟨-, hcount, hat⟩ | ⟨hne, hcount, -⟩
  · refine .inr ⟨a.commitCount, hcount, ?_⟩
    rw [hat, Function.update_self, next_cycle]
  · rw [hcount] at hr ⊢
    have hd := ((h.step hcov _).retired_iff.mp hr).resolve_right hne
    rw [next_writebackAt hcov, if_pos hd, next_cycle]
    exact .inl rfl

/-- **One cycle keeps to the law.** -/
theorem next (ht : a.Timed P) (h : a.Inv P) (hcov : Covers ks a) :
    (a.next P ks v).Timed P where
  issue_le k := by
    have hle := ht.issue_le k
    rw [next_issueAt, next_cycle]
    split_ifs <;> omega
  issue_le_start k hs' := by
    -- what started before is not the instruction issued in this cycle
    by_cases hs : (a.stage k).Started
    · have hne : ¬(k = a.pc ∧ (a.beforeIssue P ks).CanIssue P) := by
        rintro ⟨rfl, -⟩
        rw [h.stage_pc] at hs
        exact hs
      rw [h.startOf_next hcov hs, next_issueAt, if_neg hne]
      exact ht.issue_le_start k hs
    · have hle := ht.issue_le k
      rw [h.startOf_next_of_not_started hcov hs hs', next_issueAt]
      split_ifs <;> omega
  done k hd := by
    rw [next_executeAt, if_pos ((h.step hcov k).done_iff.mp hd), next_cycle]
  retired k hr := by
    rw [next_writebackAt hcov, next_executeAt]
    rcases (h.step hcov k).retired_iff.mp hr with hs | hs
    · rw [if_pos hs, if_neg (by rw [hs]; simp), ht.done k hs]
    · rw [if_neg (by rw [hs]; simp), if_neg (by rw [hs]; simp)]
      exact ht.retired k hs
  commit_le := ht.commit_le_next h
  commit _ hk := ht.commit_next h hcov hk
  head := ht.head_next h hcov

/-! ### The recorded cycles -/

/-- Only issued instructions start. -/
theorem lt_pc_of_started (h : a.Inv P) {k : ℕ} (hs : (a.stage k).Started) : k < a.pc := by
  by_contra hge
  rw [(h.idle_iff k).mpr (not_lt.mp hge)] at hs
  exact hs

/-- An instruction does not start before it is issued. -/
theorem issueAt_le_startOf (ht : a.Timed P) (h : a.Inv P) {k : ℕ} (hs : (a.stage k).Started) :
    recorded (a.issueAt k) ≤ a.startOf P k :=
  recorded_le_iff.mpr ⟨(h.issueAt k).mpr (lt_pc_of_started h hs), ht.issue_le_start k hs⟩

/-- An instruction that has started completes when its latency has passed. -/
theorem executeAt_eq_startOf (ht : a.Timed P) (h : a.Inv P) {k : ℕ}
    (hs : (a.stage k).Started) :
    recorded (a.executeAt k) = asOf a.cycle ((a.startOf P k + P.latency k : ℤ) : WithTop ℤ) := by
  have hexec := h.exec_range k
  have hiff := h.executeAt k
  have hdone := ht.done k
  have hret := ht.retired k
  have hle := h.writeback_le k
  rw [startOf, asOf_coe]
  generalize a.stage k = st at hs hexec hiff hdone hret ⊢
  cases st with
  | exec left =>
    -- cycles are left, so the cycle of completion is still to come
    have hrange := hexec left rfl
    dsimp only
    rw [if_neg (by omega), recorded_eq_top_iff]
    by_contra hne
    simpa using hiff.mp hne
  | done =>
    have hnow := hdone rfl
    dsimp only
    rw [if_pos (by omega), recorded_of_ne (hiff.mpr (.inl rfl)), Int.sub_add_cancel]
  | retired =>
    have hlast := hret rfl
    dsimp only
    rw [if_pos (by omega), recorded_of_ne (hiff.mpr (.inr rfl)), Int.sub_add_cancel]
  | _ => exact absurd hs id

/-- An instruction that has not started has no cycle of execution. -/
theorem executeAt_of_not_started (h : a.Inv P) {k : ℕ} (hs : ¬(a.stage k).Started) :
    recorded (a.executeAt k) = ⊤ := by
  rw [recorded_eq_top_iff]
  by_contra hne
  rcases (h.executeAt k).mp hne with hd | hr
  · exact hs (by rw [hd]; trivial)
  · exact hs (by rw [hr]; trivial)

/-- Write-back follows in the cycle after completion. -/
theorem writebackAt_eq (ht : a.Timed P) (h : a.Inv P) (k : ℕ) :
    recorded (a.writebackAt k) = asOf a.cycle (recorded (a.executeAt k) + 1) := by
  have hle := h.writeback_le k
  by_cases hr : a.stage k = .retired
  · have hlast := ht.retired k hr
    rw [recorded_of_ne ((h.writebackAt k).mpr hr),
      recorded_of_ne ((h.executeAt k).mpr (.inr hr)), ← WithTop.coe_one, ← WithTop.coe_add,
      asOf_coe, if_pos (by omega), hlast]
  · rw [recorded_eq_top_iff.mpr (not_not.mp (mt (h.writebackAt k).mp hr))]
    by_cases hd : a.stage k = .done
    · have hnow := ht.done k hd
      rw [recorded_of_ne ((h.executeAt k).mpr (.inl hd)), ← WithTop.coe_one, ← WithTop.coe_add,
        asOf_coe, if_neg (by omega)]
    · have hnone : ¬a.executeAt k ≠ valueEmpty := fun hne =>
        ((h.executeAt k).mp hne).elim hd hr
      rw [recorded_eq_top_iff.mpr (not_not.mp hnone), WithTop.top_add, asOf_top]

/-- Up to the next instruction to commit, the cycle is that of `readyAt`. -/
theorem recordedReady_of_retired (h : a.Inv P) {k : ℕ} (hk : k ≤ a.commitCount)
    (hr : a.stage k = .retired) : a.recordedReady k = a.readyAt k := by
  have hwb := recorded_of_ne ((h.writebackAt k).mpr hr)
  cases k with
  | zero => exact hwb
  | succ k =>
    rw [recordedReady, readyAt, hwb, recorded_of_ne ((h.commitAt k).mpr hk), WithTop.coe_max]

/-- An instruction that is not written back, or whose predecessor has not committed, is not ready to
commit. -/
theorem recordedReady_eq_top (h : a.Inv P) {k : ℕ} (hk : a.commitCount ≤ k)
    (hr : k = a.commitCount → a.stage k ≠ .retired) : a.recordedReady k = ⊤ := by
  rcases hk.eq_or_lt with rfl | hlt
  · have hwb := recorded_eq_top_iff.mpr (not_not.mp (mt (h.writebackAt _).mp (hr rfl)))
    unfold recordedReady
    split
    · next hz => rwa [hz] at hwb
    · next hz =>
      rw [hz] at hwb
      rw [hwb]
      exact max_eq_left le_top
  · obtain ⟨j, rfl⟩ : ∃ j, k = j + 1 := ⟨k - 1, by omega⟩
    have hc : ¬a.commitAt j ≠ valueEmpty := by
      intro hne
      have := (h.commitAt j).mp hne
      omega
    rw [recordedReady, recorded_eq_top_iff.mpr (not_not.mp hc)]
    exact max_eq_right le_top

/-- Commit follows in the cycle after the instruction is ready for it. -/
theorem commitAt_eq (ht : a.Timed P) (h : a.Inv P) (k : ℕ) :
    recorded (a.commitAt k) = asOf a.cycle (a.recordedReady k + 1) := by
  have hle := ht.commit_le k
  rcases Nat.lt_or_ge k a.commitCount with hk | hk
  · have hcommit := ht.commit k hk
    rw [recorded_of_ne ((h.commitAt k).mpr hk),
      recordedReady_of_retired h hk.le (h.committed k hk), ← WithTop.coe_one,
      ← WithTop.coe_add, asOf_coe, if_pos (by omega), hcommit]
  · have hnone : ¬a.commitAt k ≠ valueEmpty := fun hne => not_lt.mpr hk ((h.commitAt k).mp hne)
    rw [recorded_eq_top_iff.mpr (not_not.mp hnone)]
    by_cases hr : k = a.commitCount ∧ a.stage k = .retired
    · obtain ⟨rfl, hr⟩ := hr
      have hnow := ht.head hr
      rw [recordedReady_of_retired h (le_refl _) hr, ← WithTop.coe_one, ← WithTop.coe_add,
        asOf_coe, if_neg (by omega)]
    · rw [recordedReady_eq_top h hk fun hkc hr' => hr ⟨hkc, hr'⟩, WithTop.top_add, asOf_top]

end Timed

end Pipe

/-! ### Runs -/

namespace Trajectory

variable {a : ℕ → Pipe} {ks : ℕ → List ℕ} {v : ℕ → ℤ} {n s k : ℕ}

theorem timed (h : Trajectory P a ks v) (n : ℕ) : (a n).Timed P :=
  h.induction (p := fun _ b => b.Timed P) (Pipe.timed_init P) (fun _ _ hb => hb)
    (fun c _ hcov hb => hb.next (h.inv c) hcov) n

/-- Once started, an instruction keeps the cycle it started in. -/
theorem started_of_le (h : Trajectory P a ks v) (hs : ((a n).stage k).Started) {N : ℕ}
    (hN : n ≤ N) : ((a N).stage k).Started ∧ (a N).startOf P k = (a n).startOf P k := by
  refine h.induction_from
    (p := fun b => (b.stage k).Started ∧ b.startOf P k = (a n).startOf P k) ⟨hs, rfl⟩
    (fun N _ ih => ?_) hN
  exact ⟨((h.inv N).step (h.covers N) k).started ih.1,
    ((h.inv N).startOf_next (h.covers N) ih.1).trans ih.2⟩

/-- An instruction enters `exec` in the cycle after which it is first seen to have started. -/
theorem entersExec_succ_iff (h : Trajectory P a ks v) :
    EntersExec P k (n + 1) ↔ ((a (n + 1)).stage k).Started ∧ ¬((a n).stage k).Started := by
  rw [EntersExec, Nat.add_sub_cancel, (h.refines (n + 1)).inState_exec_iff,
    (h.refines n).inState_exec_iff]
  by_cases hf : (run P n).finish = true
  · rw [h.stay n hf]
    tauto
  · rw [h.next n (Bool.eq_false_iff.mpr hf)]
    have hstep := (h.inv n).step (v := v n) (h.covers n) k
    constructor
    · rintro ⟨⟨left, he⟩, hne⟩
      rw [he] at hstep ⊢
      refine ⟨trivial, fun hs => ?_⟩
      generalize (a n).stage k = st at hstep hne hs
      cases hstep with
      | exec _ => exact hne ⟨_, rfl⟩
      | issueStart => exact hs
      | start => exact hs
    · rintro ⟨hs', hs⟩
      refine ⟨⟨_, hstep.exec_of_not_started hs hs'⟩, ?_⟩
      rintro ⟨left, he⟩
      rw [he] at hs
      exact hs trivial

/-- **What it means to enter `exec` in cycle `s`**: from then on the instruction has started,
and it started in cycle `s`. -/
theorem started_iff_of_entersExec (h : Trajectory P a ks v) (hs : EntersExec P k s) (n : ℕ) :
    (((a n).stage k).Started ↔ s ≤ n) ∧ (s ≤ n → (a n).startOf P k = s) := by
  obtain ⟨c, rfl⟩ : ∃ c, s = c + 1 := by
    refine Nat.exists_eq_succ_of_ne_zero ?_
    rintro rfl
    exact hs.2 hs.1
  obtain ⟨hs', hns⟩ := h.entersExec_succ_iff.mp hs
  have hf : (run P c).finish = false := by
    refine Bool.eq_false_iff.mpr fun hf => hns ?_
    rwa [h.stay c hf] at hs'
  refine ⟨⟨fun hst => ?_, fun hn => (h.started_of_le hs' hn).1⟩, fun hn => ?_⟩
  · by_contra hlt
    exact hns (h.started_of_le hst (by omega)).1
  · rw [(h.started_of_le hs' hn).2]
    rw [h.next c hf] at hs' ⊢
    rw [(h.inv c).startOf_next_of_not_started (h.covers c) hns hs', h.cycle_eq hf]
    rfl

/-- Every started instruction has entered `exec` in some cycle. -/
theorem exists_entersExec (h : Trajectory P a ks v) (hs : ((a n).stage k).Started) :
    ∃ s, EntersExec P k s := by
  induction n with
  | zero =>
    rw [h.zero] at hs
    exact absurd hs id
  | succ n ih =>
    by_cases hn : ((a n).stage k).Started
    · exact ih hn
    · exact ⟨n + 1, h.entersExec_succ_iff.mpr ⟨hs, hn⟩⟩

/-- Its cycle of issue has been recorded by then. -/
theorem issuedAt_le_of_entersExec (h : Trajectory P a ks v) (hs : EntersExec P k s)
    (hle : s ≤ n) : (run P n).issuedAt k ≤ ((s : ℤ) : WithTop ℤ) := by
  obtain ⟨hst, hstart⟩ := h.started_iff_of_entersExec hs n
  rw [(h.refines n).issuedAt_eq, ← hstart hle]
  exact (h.timed n).issueAt_le_startOf (h.inv n) (hst.mpr hle)

/-- When the run has finished, an instruction is committed or past the end of the trace. -/
theorem committed_or_idle (h : Trajectory P a ks v) (hf : (run P n).finish = true) (k : ℕ) :
    k < (a n).commitCount ∨ (a n).stage k = .idle := by
  have hlen := ((h.finished n).mp hf).2
  refine (lt_or_ge k (a n).commitCount).imp_right fun hk => ?_
  exact ((h.inv n).idle_iff k).mpr ((h.inv n).pc_le.trans (hlen.trans hk))

/-- What is recorded by the counter of the machine is recorded by the number of cycles: they are
the same until the run has finished, and then nothing is left to be recorded. -/
theorem asOf_cycle (h : Trajectory P a ks v) {x : WithTop ℤ}
    (hx : (run P n).finish = true → x ≠ ⊤ → asOf (a n).cycle x ≠ ⊤) :
    asOf (a n).cycle x = asOf n x := by
  cases hf : (run P n).finish with
  | false => rw [h.cycle_eq hf]
  | true => exact asOf_mono (h.cycle_le n) (hx hf)

/-- Its cycle of execution is recorded when it comes, at whatever later time the run is looked at.
-/
theorem executedAt_of_entersExec (h : Trajectory P a ks v) (hs : EntersExec P k s) (n : ℕ) :
    (run P n).executedAt k = asOf n ((s + (P.type k).execCycles : ℤ) : WithTop ℤ) := by
  obtain ⟨hst, hstart⟩ := h.started_iff_of_entersExec hs n
  have hk : k < P.length := by
    have hs' := ((h.started_iff_of_entersExec hs s).1).mpr (le_refl s)
    exact (Pipe.Timed.lt_pc_of_started (h.inv s) hs').trans_le (h.inv s).pc_le
  rw [(h.refines n).executedAt_eq, ← Trace.latency_eq hk]
  by_cases hsn : s ≤ n
  · have hexec := (h.timed n).executeAt_eq_startOf (h.inv n) (hst.mpr hsn)
    rw [hstart hsn] at hexec
    rw [hexec]
    refine h.asOf_cycle fun hf _ => ?_
    -- every instruction of the trace has been written back by then
    have hk' := hk.trans_le ((h.finished n).mp hf).2
    rw [← hexec]
    exact mt recorded_eq_top_iff.mp
      (((h.inv n).executeAt k).mpr (.inr ((h.inv n).committed k hk')))
  · have hlat := Trace.two_le_latency hk
    rw [Pipe.Timed.executeAt_of_not_started (h.inv n) fun hh => hsn (hst.mp hh), asOf_coe,
      if_neg (by omega)]

/-- The cycle of write-back, at any time of the run. -/
theorem writtenBackAt_eq (h : Trajectory P a ks v) (n k : ℕ) :
    (run P n).writtenBackAt k = asOf n ((run P n).executedAt k + 1) := by
  have hback := (h.timed n).writebackAt_eq (h.inv n) k
  rw [(h.refines n).writtenBackAt_eq, (h.refines n).executedAt_eq, hback]
  refine h.asOf_cycle fun hf hne => ?_
  rw [← hback]
  refine mt recorded_eq_top_iff.mp (((h.inv n).writebackAt k).mpr ?_)
  rcases h.committed_or_idle hf k with hk | hk
  · exact (h.inv n).committed k hk
  · refine absurd ?_ hne
    rw [Pipe.Timed.executeAt_of_not_started (h.inv n) (by rw [hk]; exact id), WithTop.top_add]

/-- The cycle of commit, at any time of the run. -/
theorem recorded_commitAt_eq (h : Trajectory P a ks v) (n k : ℕ) :
    recorded ((a n).commitAt k) = asOf n ((a n).recordedReady k + 1) := by
  have hcommit := (h.timed n).commitAt_eq (h.inv n) k
  rw [hcommit]
  refine h.asOf_cycle fun hf hne => ?_
  rw [← hcommit]
  refine mt recorded_eq_top_iff.mp (((h.inv n).commitAt k).mpr ?_)
  refine (h.committed_or_idle hf k).resolve_right fun hidle => hne ?_
  have hk : (a n).commitCount ≤ k := by
    by_contra hlt
    have hret := (h.inv n).committed k (not_le.mp hlt)
    rw [hidle] at hret
    cases hret
  rw [Pipe.Timed.recordedReady_eq_top (h.inv n) hk fun _ => by rw [hidle]; simp, WithTop.top_add]

/-- An instruction with a cycle of execution has started. -/
theorem started_of_executedAt (h : Trajectory P a ks v) (hne : (run P n).executedAt k ≠ ⊤) :
    ((a n).stage k).Started := by
  by_contra hns
  rw [(h.refines n).executedAt_eq] at hne
  exact hne (Pipe.Timed.executeAt_of_not_started (h.inv n) hns)

/-- An instruction does not complete in the cycle it is issued in. -/
theorem issuedAt_lt_executedAt (h : Trajectory P a ks v) (hne : (run P n).executedAt k ≠ ⊤) :
    (run P n).issuedAt k < (run P n).executedAt k := by
  have hs := h.started_of_executedAt hne
  have hlt := (Pipe.Timed.lt_pc_of_started (h.inv n) hs).trans_le (h.inv n).pc_le
  have hlat := Trace.two_le_latency hlt
  have heq := (h.timed n).executeAt_eq_startOf (h.inv n) hs
  rw [(h.refines n).executedAt_eq, heq] at hne
  rw [(h.refines n).executedAt_eq, heq, asOf_eq_of_ne_top hne, (h.refines n).issuedAt_eq]
  exact ((h.timed n).issueAt_le_startOf (h.inv n) hs).trans_lt
    (WithTop.coe_lt_coe.mpr (by omega))

end Trajectory

/-- **Every run keeps to the timing law.** -/
theorem timingLaw_run (P : Trace) (n : ℕ) : TimingLaw P n (run P n) := by
  obtain ⟨a, ks, v, htr⟩ := exists_trajectory P
  have hr := htr.refines n
  have hexecute := fun i s hs => htr.executedAt_of_entersExec (k := i) (s := s) hs n
  have hwriteback := htr.writtenBackAt_eq n
  have hzero : (run P n).committedAt 0 = asOf n ((run P n).writtenBackAt 0 + 1) := by
    rw [hr.committedAt_eq, hr.writtenBackAt_eq]
    exact htr.recorded_commitAt_eq n 0
  have hsucc : ∀ i, (run P n).committedAt (i + 1) =
      asOf n (max ((run P n).writtenBackAt (i + 1)) ((run P n).committedAt i) + 1) := by
    intro i
    rw [hr.committedAt_eq, hr.writtenBackAt_eq, hr.committedAt_eq]
    exact htr.recorded_commitAt_eq n (i + 1)
  exact
    { counted := htr.counted n
      start := fun i s hs hle => htr.issuedAt_le_of_entersExec hs hle
      execute := hexecute
      entered := fun i hne => htr.exists_entersExec (htr.started_of_executedAt hne)
      writeback := hwriteback
      commit_zero := hzero
      commit_succ := hsucc
      comes := by
        intro i s hs hle
        have hexec := hexecute i s hs
        rw [asOf_coe, if_pos (by omega)] at hexec
        refine ⟨hexec, ?_⟩
        rw [hwriteback, hexec, ← WithTop.coe_one, ← WithTop.coe_add, asOf_coe, if_pos hle]
      issue_lt := fun i hne => htr.issuedAt_lt_executedAt hne
      execute_lt := fun i hne => lt_of_eq_asOf (hwriteback i) hne
      writeback_lt := by
        intro i hne
        cases i with
        | zero => exact lt_of_eq_asOf hzero hne
        | succ i => exact (le_max_left _ _).trans_lt (lt_of_eq_asOf (hsucc i) hne)
      in_order := fun i j hij hne => committed_lt hsucc hij hne
      one_commit := by
        intro i j hne heq
        -- commits in program order are in different cycles
        rcases lt_trichotomy i j with hij | hij | hij
        · exact absurd heq (committed_lt hsucc hij (heq ▸ hne)).ne
        · exact hij
        · exact absurd heq.symm (committed_lt hsucc hij hne).ne }

/-- `LW F2; MUL F4 F2 F6; ADD F8 F10 F12`: the `MUL` waits for `F2`, and the `ADD`, which is
written back first, for the commit of the `MUL`. -/
def lawTrace : Trace where
  insts := [⟨.lw, .f2, .f14, .noReg, 0⟩, ⟨.mul, .f4, .f2, .f6, -1⟩, ⟨.add, .f8, .f10, .f12, -1⟩]
  length_le := by decide
  wellFormed := by decide

/-- The `MUL` starts when the `LW` is written back in cycle 4, and ends execution in cycle 14. -/
theorem timingLaw_lawTrace : EntersExec lawTrace 1 4 ∧
    (run lawTrace 20).executedAt 1 = ((14 : ℤ) : WithTop ℤ) ∧
    (run lawTrace 20).writtenBackAt 1 = ((15 : ℤ) : WithTop ℤ) ∧
    (run lawTrace 20).committedAt 1 = ((16 : ℤ) : WithTop ℤ) ∧
    (run lawTrace 20).committedAt 2 = ((17 : ℤ) : WithTop ℤ) := by
  have hs : EntersExec lawTrace 1 4 := by decide +kernel
  have hlaw := timingLaw_run lawTrace 20
  obtain ⟨hexec, hback⟩ := hlaw.comes 1 4 hs (by decide)
  have hlw : (run lawTrace 20).committedAt 0 = ((5 : ℤ) : WithTop ℤ) := by decide +kernel
  have hadd : (run lawTrace 20).writtenBackAt 2 = ((6 : ℤ) : WithTop ℤ) := by decide +kernel
  have hmul := hlaw.commit_succ 0
  rw [hback, hlw] at hmul
  have hlast := hlaw.commit_succ 1
  rw [hmul, hadd] at hlast
  exact ⟨hs, hexec, hback, hmul.trans (by decide), hlast.trans (by decide)⟩

end AdvancedArchitecture.Tomasulo
