import Mathlib.Tactic.Cases
import AdvancedArchitecture.Tomasulo.Cycle

/-!
# Invariants of the instruction-level machine

`Pipe.Inv` holds in every state at the end of a cycle. Its first fields say where each
instruction is and which of its cycles are recorded; the last ones are about the waiting
flags: a flag is only set for the sake of an instruction in flight, and an instruction that
waits for a source always has an older instruction in flight that will broadcast it, so
that no wake-up is lost.

The fields about stages and records follow from `Stage.Step`, which leaves nine cases for each
instruction. The fields about flags need the phases: a flag that is up after a cycle was up
before and not taken down, or was raised by the dependency pass or by issue, and each of the
three has an instruction in flight behind it. Nothing is claimed about the other direction, a
writer in flight whose flag is down, which does happen (`Scoreboard.lean`).
-/

namespace AdvancedArchitecture.Tomasulo

variable {P : Trace} {a : Pipe} {ks : List ℕ} {v : ℤ}

/-! ### One instruction -/

namespace Stage.Step

variable {k : ℕ} {s s' : Stage}

/-- No instruction returns to `idle`: what is not issued at the end of a cycle was not issued
before. -/
theorem idle_of_idle (h : Step P k s s') (hs : s' = .idle) : s = .idle := by
  subst hs
  cases h
  rfl

theorem ne_idle (h : Step P k s s') (hs : s ≠ .idle) : s' ≠ .idle :=
  fun hs' => hs (h.idle_of_idle hs')

/-- An instruction is retired in the cycle after it was done, and stays so. -/
theorem retired_iff (h : Step P k s s') : s' = .retired ↔ s = .done ∨ s = .retired := by
  cases h <;> simp

/-- An instruction is done after its last cycle of execution, for one cycle. -/
theorem done_iff (h : Step P k s s') : s' = .done ↔ s = .exec 1 := by
  cases h <;> simp_all

/-- An instruction leaves the stations only by write-back. -/
theorem inFlight (h : Step P k s s') (hs : s.InFlight) : s' = .retired ∧ s = .done ∨
    s'.InFlight := by
  cases h with
  | idle => exact .inr hs
  | retired => exact .inr hs
  | retire => exact .inl ⟨rfl, rfl⟩
  | _ => exact .inr trivial

end Stage.Step

/-! ### The invariant -/

/-- **What holds at the end of every cycle.** -/
structure Pipe.Inv (P : Trace) (a : Pipe) : Prop where
  cycle_nonneg : 0 ≤ a.cycle
  pc_le : a.pc ≤ P.length
  idle_iff : ∀ k, a.stage k = .idle ↔ a.pc ≤ k
  exec_range : ∀ k left, a.stage k = .exec left → 1 ≤ left ∧ left ≤ P.latency k
  issued_mem : ∀ k wj wk, a.stage k = .issued wj wk → (P.type k).isMem = true →
    wj = false ∧ wk = false
  issueAt : ∀ k, a.issueAt k ≠ valueEmpty ↔ k < a.pc
  executeAt : ∀ k, a.executeAt k ≠ valueEmpty ↔ a.stage k = .done ∨ a.stage k = .retired
  writebackAt : ∀ k, a.writebackAt k ≠ valueEmpty ↔ a.stage k = .retired
  writeback_le : ∀ k, a.writebackAt k ≤ a.cycle
  commitAt : ∀ k, a.commitAt k ≠ valueEmpty ↔ k < a.commitCount
  committed : ∀ k, k < a.commitCount → a.stage k = .retired
  waiting : ∀ t, a.waiting t = true → ∃ k, (a.stage k).InFlight ∧ P.Writes k ∧ P.dest k = t
  marked : ∀ k, (P.type k).isMem = false →
    ((∃ wj wk, a.stage k = .issued wj wk) ∨ ∃ left, a.stage k = .exec left) →
      a.waiting (P.dest k) = true
  source1 : ∀ k wk, a.stage k = .issued true wk →
    ∃ i, i < k ∧ (a.stage i).InFlight ∧ P.Writes i ∧ P.dest i = P.src1 k
  source2 : ∀ k wj, a.stage k = .issued wj true →
    ∃ i, i < k ∧ (a.stage i).InFlight ∧ P.Writes i ∧ P.dest i = P.src2 k

theorem Stage.InFlight.ne_idle {s : Stage} (h : s.InFlight) : s ≠ .idle := by
  rintro rfl
  exact h

theorem Stage.InFlight.ne_retired {s : Stage} (h : s.InFlight) : s ≠ .retired := by
  rintro rfl
  exact h

/-- In flight is between issue and write-back. -/
theorem Stage.inFlight_iff {s : Stage} : s.InFlight ↔ s ≠ .idle ∧ s ≠ .retired := by
  cases s <;> simp [Stage.InFlight]

namespace Pipe

theorem inv_init (P : Trace) : (init : Pipe).Inv P where
  cycle_nonneg := le_refl _
  pc_le := Nat.zero_le _
  idle_iff _ := ⟨fun _ => Nat.zero_le _, fun _ => rfl⟩
  exec_range _ _ h := by cases h
  issued_mem _ _ _ h := by cases h
  issueAt _ := by simp [init]
  executeAt _ := by simp [init]
  writebackAt _ := by simp [init]
  writeback_le _ := by simp [init, valueEmpty]
  commitAt _ := by simp [init]
  committed _ h := absurd h (Nat.not_lt_zero _)
  waiting _ h := by cases h
  marked _ _ h := by
    rcases h with ⟨_, _, h⟩ | ⟨_, h⟩ <;> cases h
  source1 _ _ h := by cases h
  source2 _ _ h := by cases h

namespace Inv

theorem stage_pc (h : a.Inv P) : a.stage a.pc = .idle := (h.idle_iff _).mpr (le_refl _)

/-- An instruction has its cycle of issue recorded once it has been issued. -/
theorem issueAt_iff (h : a.Inv P) (k : ℕ) : a.issueAt k ≠ valueEmpty ↔ a.stage k ≠ .idle := by
  rw [h.issueAt, ne_eq, h.idle_iff]
  omega

/-- The instructions in flight were issued and not written back. -/
theorem inFlight_iff (h : a.Inv P) (k : ℕ) :
    (a.stage k).InFlight ↔ a.issueAt k ≠ valueEmpty ∧ a.writebackAt k = valueEmpty := by
  rw [Stage.inFlight_iff, h.issueAt_iff, ne_eq (a.stage k) .retired, ← h.writebackAt, not_not]

/-- An instruction in flight was issued, so it is before the program counter. -/
theorem lt_pc (h : a.Inv P) {k : ℕ} (hk : (a.stage k).InFlight) : k < a.pc := by
  by_contra hle
  exact hk.ne_idle ((h.idle_iff k).mpr (by omega))

theorem lt_length (h : a.Inv P) {k : ℕ} (hk : (a.stage k).InFlight) : k < P.length :=
  (h.lt_pc hk).trans_le h.pc_le

/-- Only issued instructions commit. -/
theorem commitCount_le (h : a.Inv P) : a.commitCount ≤ a.pc := by
  by_contra hlt
  have hret := h.committed a.pc (by omega)
  rw [h.stage_pc] at hret
  cases hret

/-- Each instruction makes a `Stage.Step` in every cycle. -/
theorem step (h : a.Inv P) (hcov : Covers ks a) (k : ℕ) :
    Stage.Step P k (a.stage k) ((a.next P ks v).stage k) :=
  next_step hcov h.stage_pc k

/-- The instructions that send are those that are done. -/
theorem sends_iff (hcov : Covers ks a) (t : DataRegTag) :
    a.Sends P ks t ↔ ∃ k, a.stage k = .done ∧ P.Writes k ∧ P.dest k = t := by
  refine ⟨fun ⟨k, _, hk⟩ => ⟨k, hk⟩, fun ⟨k, hk⟩ => ⟨k, hcov k hk.1, hk⟩⟩

/-- Where the list covers the instructions that are done, the flags taken down are those of their
registers; the order is irrelevant. -/
theorem clears_iff (hcov : Covers ks a) (t : DataRegTag) :
    a.Clears P ks t ↔ ∃ k, a.stage k = .done ∧ P.dest k = t := by
  refine ⟨fun ⟨k, _, hk⟩ => ⟨k, hk⟩, fun ⟨k, hk⟩ => ⟨k, hcov k hk.1, hk⟩⟩

/-- An instruction in flight before issue is in flight in the same stage or earlier. -/
theorem inFlight_beforeIssue (hcov : Covers ks a) {k : ℕ} :
    ((a.beforeIssue P ks).stage k).InFlight ↔ (a.stage k).InFlight ∧ a.stage k ≠ .done := by
  rw [beforeIssue_stage, stepStage]
  cases hst : a.stage k with
  | exec left =>
    dsimp only
    split_ifs <;> simp [Stage.InFlight]
  | done => simp [hcov k hst, Stage.InFlight]
  | _ => simp [Stage.InFlight]

/-! ### Preservation, stages and recorded cycles -/

/-- Nothing is issued past the end of the trace. -/
theorem canIssue_lt (hc : (a.beforeIssue P ks).CanIssue P) : a.pc < P.length := by
  rw [← beforeIssue_pc (P := P) ks a]
  exact hc.1

theorem entryStage_inFlight (b : Pipe) (k : ℕ) : (b.entryStage P k).InFlight := by
  rcases b.entryStage_cases (P := P) k with ⟨wj, wk, he, -⟩ | he
  · rw [he]
    trivial
  · rw [he]
    trivial

/-- A cycle keeps the issued instructions an initial segment of the trace. -/
theorem next_idle_iff (h : a.Inv P) (hcov : Covers ks a) (k : ℕ) :
    (a.next P ks v).stage k = .idle ↔ (a.next P ks v).pc ≤ k := by
  -- neither the start tests nor the phases before issue fill or empty `idle`
  have hstart : (a.next P ks v).stage k = .idle ↔
      ((a.beforeIssue P ks).issue P v).stage k = .idle := by
    rw [next_stage]
    split_ifs with hr
    · rw [hr.1]
      simp
    · rfl
  have hbefore : (a.beforeIssue P ks).stage k = .idle ↔ a.stage k = .idle := by
    rw [beforeIssue_stage, stepStage]
    cases hst : a.stage k with
    | exec left =>
      dsimp only
      split_ifs <;> simp
    | done => simp [hcov k hst]
    | _ => simp
  rw [hstart, issue_stage, next_pc, beforeIssue_pc]
  by_cases hc : (a.beforeIssue P ks).CanIssue P
  · rw [if_pos hc]
    by_cases hk : k = a.pc
    · rw [if_pos ⟨hk, hc⟩]
      exact iff_of_false (entryStage_inFlight _ _).ne_idle (by omega)
    · rw [if_neg fun hh => hk hh.1, hbefore, h.idle_iff]
      omega
  · rw [if_neg hc, if_neg fun hh => hc hh.2, hbefore, h.idle_iff]

theorem next_pc_le (h : a.Inv P) : (a.next P ks v).pc ≤ P.length := by
  rw [next_pc]
  split_ifs with hc
  · exact canIssue_lt hc
  · exact h.pc_le

/-- The cycles left are never negative, and zero only within a cycle. -/
theorem next_exec_range (h : a.Inv P) (hcov : Covers ks a) {k : ℕ} {left : ℤ}
    (hst : (a.next P ks v).stage k = .exec left) : 1 ≤ left ∧ left ≤ P.latency k := by
  have hlt : k < P.length := by
    by_contra hge
    have hle : (a.next P ks v).pc ≤ k := (next_pc_le h).trans (by omega)
    rw [(next_idle_iff h hcov k).mpr hle] at hst
    cases hst
  have hlat := Trace.two_le_latency hlt
  have hstep := h.step hcov (v := v) k
  rw [hst] at hstep
  generalize hs : a.stage k = s at hstep
  cases hstep with
  | issueStart => omega
  | start => omega
  | exec hne =>
    obtain ⟨h1, h2⟩ := h.exec_range k _ hs
    omega

/-- A load or a store never waits for a source. -/
theorem next_issued_mem (h : a.Inv P) (hcov : Covers ks a) {k : ℕ} {wj wk : Bool}
    (hst : (a.next P ks v).stage k = .issued wj wk) (hm : (P.type k).isMem = true) :
    wj = false ∧ wk = false := by
  have hstep := h.step hcov (v := v) k
  rw [hst] at hstep
  generalize hs : a.stage k = s at hstep
  cases hstep with
  | issue hmem => exact hmem hm
  | wait hj hk =>
    obtain ⟨rfl, rfl⟩ := h.issued_mem k _ _ hs hm
    exact ⟨Bool.eq_false_iff.mpr fun hw => Bool.false_ne_true (hj hw),
      Bool.eq_false_iff.mpr fun hw => Bool.false_ne_true (hk hw)⟩

/-- A recorded cycle is never mistaken for `VALUE_EMPTY`. -/
theorem cycle_succ_ne (h : a.Inv P) : a.cycle + 1 ≠ valueEmpty := by
  have := h.cycle_nonneg
  simp only [valueEmpty]
  omega

theorem next_issueAt_iff (h : a.Inv P) (k : ℕ) :
    (a.next P ks v).issueAt k ≠ valueEmpty ↔ k < (a.next P ks v).pc := by
  rw [next_issueAt, next_pc]
  by_cases hc : (a.beforeIssue P ks).CanIssue P
  · by_cases hk : k = a.pc
    · rw [if_pos ⟨hk, hc⟩, if_pos hc]
      exact iff_of_true h.cycle_succ_ne (by omega)
    · rw [if_neg fun hh => hk hh.1, if_pos hc, h.issueAt]
      omega
  · rw [if_neg fun hh => hc hh.2, if_neg hc, h.issueAt]

/-- The instructions with a cycle of execution are those that have left `exec`. -/
theorem next_executeAt_iff (h : a.Inv P) (hcov : Covers ks a) (k : ℕ) :
    (a.next P ks v).executeAt k ≠ valueEmpty ↔
      (a.next P ks v).stage k = .done ∨ (a.next P ks v).stage k = .retired := by
  have hstep := h.step hcov (v := v) k
  rw [next_executeAt, hstep.done_iff, hstep.retired_iff]
  split_ifs with he
  · exact iff_of_true h.cycle_succ_ne (.inl he)
  · rw [h.executeAt]
    simp [he]

/-- The instructions with a cycle of write-back are the retired ones. -/
theorem next_writebackAt_iff (h : a.Inv P) (hcov : Covers ks a) (k : ℕ) :
    (a.next P ks v).writebackAt k ≠ valueEmpty ↔ (a.next P ks v).stage k = .retired := by
  rw [next_writebackAt hcov, (h.step hcov (v := v) k).retired_iff]
  split_ifs with hd
  · exact iff_of_true h.cycle_succ_ne (.inl hd)
  · rw [h.writebackAt]
    simp [hd]

/-- Either the oldest uncommitted instruction was written back, and commits, or no
instruction commits. -/
theorem next_commit_cases (h : a.Inv P) (ks : List ℕ) (v : ℤ) :
    (a.stage a.commitCount = .retired ∧
      (a.next P ks v).commitCount = a.commitCount + 1 ∧
      (a.next P ks v).commitAt = Function.update a.commitAt a.commitCount (a.cycle + 1)) ∨
    (a.stage a.commitCount ≠ .retired ∧ (a.next P ks v).commitCount = a.commitCount ∧
      (a.next P ks v).commitAt = a.commitAt) := by
  have hnone : a.commitAt a.commitCount = valueEmpty := by
    by_contra hne
    exact lt_irrefl _ ((h.commitAt _).mp hne)
  obtain ⟨hat, hcount⟩ := next_commit (P := P) ks v a
  rw [hat, hcount]
  by_cases hr : a.stage a.commitCount = .retired
  · have hc : a.tick.writebackAt a.tick.commitCount ≠ valueEmpty ∧
        a.tick.commitAt a.tick.commitCount = valueEmpty := ⟨(h.writebackAt _).mpr hr, hnone⟩
    rw [commit, if_pos hc]
    exact .inl ⟨hr, rfl, rfl⟩
  · have hc : ¬(a.tick.writebackAt a.tick.commitCount ≠ valueEmpty ∧
        a.tick.commitAt a.tick.commitCount = valueEmpty) :=
      fun hh => hr ((h.writebackAt _).mp hh.1)
    rw [commit, if_neg hc]
    exact .inr ⟨hr, rfl, rfl⟩

/-- The committed instructions are the first `commitCount` of the trace. -/
theorem next_commitAt_iff (h : a.Inv P) (k : ℕ) :
    (a.next P ks v).commitAt k ≠ valueEmpty ↔ k < (a.next P ks v).commitCount := by
  rcases h.next_commit_cases ks v with ⟨-, hcount, hat⟩ | ⟨-, hcount, hat⟩
  · rw [hcount, hat]
    by_cases hk : k = a.commitCount
    · subst hk
      rw [Function.update_self]
      exact iff_of_true h.cycle_succ_ne (by omega)
    · rw [Function.update_of_ne hk, h.commitAt]
      omega
  · rw [hcount, hat, h.commitAt]

/-- What has committed has been written back. -/
theorem next_committed (h : a.Inv P) (hcov : Covers ks a) {k : ℕ}
    (hk : k < (a.next P ks v).commitCount) : (a.next P ks v).stage k = .retired := by
  rw [(h.step hcov (v := v) k).retired_iff]
  rcases h.next_commit_cases ks v with ⟨hr, hcount, -⟩ | ⟨-, hcount, -⟩
  · rw [hcount] at hk
    rcases Nat.lt_succ_iff_lt_or_eq.mp hk with hlt | rfl
    · exact .inr (h.committed k hlt)
    · exact .inr hr
  · rw [hcount] at hk
    exact .inr (h.committed k hk)

/-- A written-back instruction stays as it is. -/
theorem retired_next (h : a.Inv P) (hcov : Covers ks a) {k : ℕ} (hk : a.stage k = .retired) :
    (a.next P ks v).stage k = .retired ∧ (a.next P ks v).writebackAt k = a.writebackAt k := by
  refine ⟨(h.step hcov k).retired_iff.mpr (.inr hk), ?_⟩
  rw [next_writebackAt hcov, hk, if_neg (by decide)]

/-! ### Preservation, flags -/

theorem writes_of_isMem {k : ℕ} (hm : (P.type k).isMem = false) : P.Writes k := by
  intro hsw
  rw [hsw] at hm
  cases hm

/-- An instruction marks a register only while it is in flight and writes it. -/
theorem marks_writes {b : Pipe} {k : ℕ} (hm : b.Marks P k) :
    (b.stage k).InFlight ∧ P.Writes k := by
  rw [Marks] at hm
  cases hst : b.stage k with
  | issued wj wk =>
    rw [hst] at hm
    exact ⟨trivial, writes_of_isMem hm⟩
  | exec left =>
    rw [hst] at hm
    exact ⟨trivial, hm⟩
  | _ =>
    rw [hst] at hm
    exact absurd hm id

/-- An arithmetic instruction marks its register in every cycle from issue to completion. -/
theorem marks_of_arith {b : Pipe} {k : ℕ} (hm : (P.type k).isMem = false)
    (hst : (∃ wj wk, b.stage k = .issued wj wk) ∨ ∃ left, b.stage k = .exec left) :
    b.Marks P k := by
  rw [Marks]
  rcases hst with ⟨wj, wk, he⟩ | ⟨left, he⟩
  · rw [he]
    exact hm
  · rw [he]
    exact writes_of_isMem hm

/-- An instruction in flight before issue is in flight at the end of the cycle. -/
theorem inFlight_next {k : ℕ} (hk : ((a.beforeIssue P ks).stage k).InFlight) :
    ((a.next P ks v).stage k).InFlight := by
  rw [next_stage]
  split_ifs
  · trivial
  · rw [issue_stage]
    split_ifs
    · exact entryStage_inFlight _ _
    · exact hk

/-- The instructions issued earlier leave the stations before issue or not at all. -/
theorem inFlight_of_next {k : ℕ} (hk : k < a.pc) (hfl : ((a.next P ks v).stage k).InFlight) :
    ((a.beforeIssue P ks).stage k).InFlight := by
  have hissue : ((a.beforeIssue P ks).issue P v).stage k = (a.beforeIssue P ks).stage k := by
    rw [issue_stage, beforeIssue_pc, if_neg fun h => (Nat.ne_of_lt hk) h.1]
  rw [next_stage] at hfl
  split_ifs at hfl with hr
  · rw [← hissue, hr.1]
    trivial
  · rwa [hissue] at hfl

/-- **Where an executing instruction comes from.** -/
theorem next_exec {k : ℕ} {left : ℤ} (hst : (a.next P ks v).stage k = .exec left) :
    (a.stage k = .exec (left + 1) ∧ left ≠ 0) ∨
    (left = P.latency k ∧
      ((k = a.pc ∧ (a.beforeIssue P ks).CanIssue P ∧
        (a.beforeIssue P ks).entryStage P k = .exec (P.latency k)) ∨
      ((a.beforeIssue P ks).issue P v).Ready P k)) := by
  rw [next_stage] at hst
  split_ifs at hst with hr
  · -- it is started by the start tests
    injection hst with hl
    exact .inr ⟨hl.symm, .inr hr⟩
  · rw [issue_stage, beforeIssue_pc] at hst
    split_ifs at hst with hk
    · rcases (a.beforeIssue P ks).entryStage_cases (P := P) k with ⟨wj, wk, he, -⟩ | he
      · rw [he] at hst
        cases hst
      · rw [he] at hst
        injection hst with hl
        exact .inr ⟨hl.symm, .inl ⟨hk.1, hk.2, he⟩⟩
    · -- it is not the instruction issued, so it executed before the cycle
      rw [beforeIssue_stage, stepStage] at hst
      cases hs : a.stage k with
      | exec l =>
        rw [hs] at hst
        dsimp only at hst
        split_ifs at hst with hl
        injection hst with hl'
        exact .inl ⟨by rw [← hl', Int.sub_add_cancel], by omega⟩
      | done =>
        rw [hs] at hst
        dsimp only at hst
        split_ifs at hst
      | _ =>
        rw [hs] at hst
        cases hst

theorem beforeIssue_waiting_inFlight (h : a.Inv P) (hcov : Covers ks a) {t : DataRegTag}
    (hw : (a.beforeIssue P ks).waiting t = true) :
    ∃ k, ((a.beforeIssue P ks).stage k).InFlight ∧ P.Writes k ∧ P.dest k = t := by
  rcases (beforeIssue_waiting ks a t).mp hw with ⟨hwa, hcl⟩ | ⟨k, -, hm, ht⟩
  · obtain ⟨k, hfl, hwr, ht⟩ := h.waiting t hwa
    have hnd : a.stage k ≠ .done := fun hd => hcl ((clears_iff hcov t).mpr ⟨k, hd, ht⟩)
    exact ⟨k, (inFlight_beforeIssue hcov).mpr ⟨hfl, hnd⟩, hwr, ht⟩
  · obtain ⟨hfl, hwr⟩ := marks_writes hm
    exact ⟨k, hfl, hwr, ht⟩

/-- A flag that is up at the end of a cycle has an instruction in flight behind it. -/
theorem next_waiting_inFlight (h : a.Inv P) (hcov : Covers ks a) {t : DataRegTag}
    (hw : (a.next P ks v).waiting t = true) :
    ∃ k, ((a.next P ks v).stage k).InFlight ∧ P.Writes k ∧ P.dest k = t := by
  rw [next_waiting] at hw
  rcases (issue_waiting v _ t).mp hw with hwb | ⟨hc, hwr, ht⟩
  · obtain ⟨k, hfl, hwr, ht⟩ := h.beforeIssue_waiting_inFlight hcov hwb
    exact ⟨k, inFlight_next hfl, hwr, ht⟩
  · refine ⟨_, ?_, hwr, ht⟩
    rw [next_stage]
    split_ifs
    · trivial
    · rw [issue_stage, if_pos ⟨rfl, hc⟩]
      exact entryStage_inFlight _ _

/-- While an arithmetic instruction waits or executes, the flag of its register is up. -/
theorem next_marked (h : a.Inv P) {k : ℕ} (hm : (P.type k).isMem = false)
    (hst : (∃ wj wk, (a.next P ks v).stage k = .issued wj wk) ∨
      ∃ left, (a.next P ks v).stage k = .exec left) :
    (a.next P ks v).waiting (P.dest k) = true := by
  set b := a.beforeIssue P ks with hb
  -- what the start tests have started waited before them
  have hissued : (∃ wj wk, (b.issue P v).stage k = .issued wj wk) ∨
      ∃ left, (b.issue P v).stage k = .exec left := by
    by_cases hr : (b.issue P v).Ready P k
    · exact .inl ⟨false, false, hr.1⟩
    · rwa [next_stage, ← hb, if_neg hr] at hst
  rw [next_waiting, ← hb, issue_waiting]
  rw [issue_stage] at hissued
  by_cases hk : k = b.pc ∧ b.CanIssue P
  · -- issue marks the register of the instruction it issues
    rw [hk.1] at hm ⊢
    exact .inr ⟨hk.2, writes_of_isMem hm, rfl⟩
  · rw [if_neg hk] at hissued
    -- the dependency pass marks the registers of the others
    have hmark : b.Marks P k := marks_of_arith hm hissued
    have hfl : ((a.beforeIssue P ks).stage k).InFlight := (marks_writes hmark).1
    have hlt : k < P.length := by
      refine h.lt_length ?_
      rw [beforeIssue_stage, stepStage] at hfl
      cases hsk : a.stage k with
      | idle => rw [hsk] at hfl; exact hfl
      | retired => rw [hsk] at hfl; exact hfl
      | _ => trivial
    exact .inl ((beforeIssue_waiting ks a _).mpr (.inr ⟨k, hlt, hmark, rfl⟩))

/-- An arithmetic instruction waits for the sources whose flags are up when it is issued. -/
theorem entryStage_issued {b : Pipe} {k : ℕ} {wj wk : Bool}
    (h : b.entryStage P k = .issued wj wk) :
    ((P.type k).isMem = true ∧ wj = false ∧ wk = false) ∨
      ((P.type k).isMem = false ∧ wj = b.waiting (P.src1 k) ∧ wk = b.waiting (P.src2 k)) := by
  rw [entryStage] at h
  split_ifs at h with hm hw
  · injection h with hj hk
    exact .inl ⟨hm, hj.symm, hk.symm⟩
  · injection h with hj hk
    exact .inr ⟨Bool.eq_false_iff.mpr hm, hj.symm, hk.symm⟩

/-- **Where a waiting instruction comes from.** It was issued in this cycle, or it waits for
the sources it waited for before and that were not broadcast. -/
theorem issue_issued {k : ℕ} {wj wk : Bool}
    (hst : ((a.beforeIssue P ks).issue P v).stage k = .issued wj wk) :
    (k = a.pc ∧ (a.beforeIssue P ks).CanIssue P ∧
      (a.beforeIssue P ks).entryStage P k = .issued wj wk) ∨
    ∃ wj' wk', a.stage k = .issued wj' wk' ∧
      (wj = true ↔ wj' = true ∧ ¬a.Sends P ks (P.src1 k)) ∧
      (wk = true ↔ wk' = true ∧ ¬a.Sends P ks (P.src2 k)) := by
  rw [issue_stage, beforeIssue_pc] at hst
  split_ifs at hst with hk
  · exact .inl ⟨hk.1, hk.2, hst⟩
  · refine .inr ?_
    -- of what was in the stations before, only the waiting instructions still wait
    rw [beforeIssue_stage, stepStage] at hst
    cases hs : a.stage k with
    | issued wj' wk' =>
      rw [hs] at hst
      injection hst with hj hk
      refine ⟨wj', wk', rfl, ?_, ?_⟩
      · rw [← hj]
        simp
      · rw [← hk]
        simp
    | exec left =>
      rw [hs] at hst
      dsimp only at hst
      split_ifs at hst
    | done =>
      rw [hs] at hst
      dsimp only at hst
      split_ifs at hst
    | _ =>
      rw [hs] at hst
      cases hst

/-- An instruction that waits at the end of a cycle waited after the issue phase: the start tests
never make one wait. -/
theorem issue_of_next_issued {k : ℕ} {wj wk : Bool}
    (hst : (a.next P ks v).stage k = .issued wj wk) :
    ((a.beforeIssue P ks).issue P v).stage k = .issued wj wk := by
  rw [next_stage] at hst
  split_ifs at hst
  exact hst

/-- An older instruction in flight that will broadcast `t`. -/
def Producer (P : Trace) (a : Pipe) (k : ℕ) (t : DataRegTag) : Prop :=
  ∃ i, i < k ∧ (a.stage i).InFlight ∧ P.Writes i ∧ P.dest i = t

/-- A source that is marked at issue has a producer, which is older than the instruction issued. -/
theorem producer_of_waiting (h : a.Inv P) (hcov : Covers ks a) {t : DataRegTag}
    (hw : (a.beforeIssue P ks).waiting t = true) : Producer P (a.next P ks v) a.pc t := by
  obtain ⟨i, hfl, hwr, ht⟩ := h.beforeIssue_waiting_inFlight hcov hw
  exact ⟨i, h.lt_pc ((inFlight_beforeIssue hcov).mp hfl).1, inFlight_next hfl, hwr, ht⟩

/-- A producer is not lost as long as the register is not broadcast. -/
theorem producer_next (hcov : Covers ks a) {k : ℕ} {t : DataRegTag} (hp : Producer P a k t)
    (hs : ¬a.Sends P ks t) : Producer P (a.next P ks v) k t := by
  obtain ⟨i, hik, hfl, hwr, ht⟩ := hp
  have hnd : a.stage i ≠ .done := fun hd => hs ((sends_iff hcov t).mpr ⟨i, hd, hwr, ht⟩)
  exact ⟨i, hik, inFlight_next ((inFlight_beforeIssue hcov).mpr ⟨hfl, hnd⟩), hwr, ht⟩

/-- **No wake-up is lost**: what an instruction waits for after a cycle will be broadcast. -/
theorem producer_of_next_issued (h : a.Inv P) (hcov : Covers ks a) {k : ℕ} {wj wk : Bool}
    (hst : (a.next P ks v).stage k = .issued wj wk) :
    (wj = true → Producer P (a.next P ks v) k (P.src1 k)) ∧
      (wk = true → Producer P (a.next P ks v) k (P.src2 k)) := by
  rcases issue_issued (issue_of_next_issued hst) with ⟨rfl, -, he⟩ | ⟨wj', wk', hs, hj, hk⟩
  · -- it was issued in this cycle, and found its sources marked
    rcases entryStage_issued he with ⟨-, rfl, rfl⟩ | ⟨-, rfl, rfl⟩
    · exact ⟨fun hw => absurd hw Bool.false_ne_true, fun hw => absurd hw Bool.false_ne_true⟩
    · exact ⟨h.producer_of_waiting hcov, h.producer_of_waiting hcov⟩
  · refine ⟨fun hw => ?_, fun hw => ?_⟩
    · obtain ⟨rfl, hns⟩ := hj.mp hw
      exact producer_next hcov (h.source1 k wk' hs) hns
    · obtain ⟨rfl, hns⟩ := hk.mp hw
      exact producer_next hcov (h.source2 k wj' hs) hns

/-- **One cycle preserves the invariant.** -/
theorem next (h : a.Inv P) (hcov : Covers ks a) : (a.next P ks v).Inv P where
  cycle_nonneg := by
    have := h.cycle_nonneg
    rw [next_cycle]
    omega
  pc_le := next_pc_le h
  idle_iff := next_idle_iff h hcov
  exec_range _ _ := next_exec_range h hcov
  issued_mem _ _ _ := next_issued_mem h hcov
  issueAt := next_issueAt_iff h
  executeAt := next_executeAt_iff h hcov
  writebackAt := next_writebackAt_iff h hcov
  writeback_le k := by
    have hle := h.writeback_le k
    rw [next_writebackAt hcov, next_cycle]
    split_ifs <;> omega
  commitAt := next_commitAt_iff h
  committed _ := next_committed h hcov
  waiting _ := next_waiting_inFlight h hcov
  marked _ := next_marked h
  source1 _ _ hst := (producer_of_next_issued h hcov hst).1 rfl
  source2 _ _ hst := (producer_of_next_issued h hcov hst).2 rfl

end Inv

end Pipe

end AdvancedArchitecture.Tomasulo
