import Mathlib.Algebra.BigOperators.Group.Finset.Basic
import Mathlib.Algebra.Order.BigOperators.Group.Finset
import AdvancedArchitecture.Tomasulo.Observe

/-!
# When the simulation ends

The loop of `main` is meant to end on every trace (`Terminates`). It does not: an `SW` waits
until no instruction marks its register, also when the one that marks it is younger, and a
younger writer of that register waits in `check_reg` until the `SW` has committed. The
`Deadlocked` states are those in which this happens to the oldest uncommitted instruction
while nothing executes and nothing can be issued. They are the only way not to end
(`terminates_iff`): in any other state some instruction gets closer to its commit, which the
measure `Pipe.remaining` counts.

On the instruction-level machine a deadlock is a `Stuck` state: nothing executes, nothing is done,
nothing can be issued, and the oldest uncommitted instruction is not ready to commit. A stuck state
stays stuck, since a cycle moves no instruction in it. In a state that is not stuck the rank of some
instruction decreases and that of no other increases, so that the sum of the ranks, which is finite
to begin with, bounds the number of cycles.
-/

namespace AdvancedArchitecture.Tomasulo

variable {P : Trace} {a : Pipe} {ks : List ℕ} {v : ℤ}

/-! ### The property and the deadlock -/

/-- **The simulation ends**, and every instruction has been issued, executed, written back
and committed. -/
def Terminates (P : Trace) : Prop :=
  ∃ n, (run P n).finish = true ∧ ∀ k, k < P.length →
    ((run P n).inst.get k).issue ≠ valueEmpty ∧ ((run P n).inst.get k).execute ≠ valueEmpty ∧
    ((run P n).inst.get k).writeback ≠ valueEmpty ∧ ((run P n).inst.get k).commit ≠ valueEmpty

/-- **A deadlock.** No station executes or is done, the oldest uncommitted instruction is an
`SW` that waits for the flag of its register, and the next instruction has no station. -/
def Deadlocked (m : Machine) : Prop :=
  (∀ s ∈ slots, (m.entry s).state ≠ .exec ∧ (m.entry s).state ≠ .done) ∧
  (∃ s ∈ slots, s.1 = .store ∧ m.ptr s = some m.commitCount ∧ (m.entry s).state = .issued ∧
    m.waiting (m.entry s).destTag = true) ∧
  ¬(m.programCounter < m.instCount ∧ findStation m (m.inst.get m.programCounter).type ≠ none)

instance (m : Machine) : Decidable (Deadlocked m) := by unfold Deadlocked; infer_instance

namespace Pipe

/-- Nothing executes or is done, the oldest uncommitted instruction was issued and not
written back, and nothing can be issued. -/
structure Stuck (P : Trace) (a : Pipe) : Prop where
  not_exec : ∀ k left, a.stage k ≠ .exec left
  not_done : ∀ k, a.stage k ≠ .done
  issued : a.commitCount < a.pc
  not_retired : a.stage a.commitCount ≠ .retired
  not_canIssue : ¬a.CanIssue P

/-- No instruction is left that could start: what the start tests leave. -/
def Settled (P : Trace) (a : Pipe) : Prop := ∀ k, ¬a.Ready P k

/-- Before the first cycle no instruction waits, so none was left that could have started. -/
theorem settled_init (P : Trace) : (init : Pipe).Settled P := by
  rintro k ⟨hst, -⟩
  cases hst

/-- The start tests leave no instruction behind that could start. -/
theorem settled_next (ks : List ℕ) (v : ℤ) (a : Pipe) : (a.next P ks v).Settled P := by
  rintro k ⟨hst, hready⟩
  have hc := Inv.issue_of_next_issued hst
  have hr : ((a.beforeIssue P ks).issue P v).Ready P k := ⟨hc, hready⟩
  rw [next_stage, if_pos hr] at hst
  cases hst

/-- With nothing in flight every class has a free station. -/
theorem canIssue_of_no_inFlight (hlt : a.pc < P.length) (hempty : ∀ k, ¬(a.stage k).InFlight) :
    a.CanIssue P := by
  have hclass : a.inClass P (P.rsClass a.pc) = ∅ :=
    Finset.filter_eq_empty_iff.mpr fun k _ hk => hempty k hk.2
  refine ⟨hlt, ?_⟩
  rw [hclass]
  decide

/-! ### The oldest uncommitted instruction -/

namespace Inv

/-- It waits for no source: the instructions that could broadcast it are committed. -/
theorem oldest_issued (h : a.Inv P) {wj wk : Bool}
    (hst : a.stage a.commitCount = .issued wj wk) : wj = false ∧ wk = false := by
  have hold : ∀ i, i < a.commitCount → ¬(a.stage i).InFlight := fun i hi hfl =>
    hfl.ne_retired (h.committed i hi)
  refine ⟨Bool.eq_false_iff.mpr ?_, Bool.eq_false_iff.mpr ?_⟩
  · rintro rfl
    obtain ⟨i, hi, hfl, -⟩ := h.source1 _ _ hst
    exact hold i hi hfl
  · rintro rfl
    obtain ⟨i, hi, hfl, -⟩ := h.source2 _ _ hst
    exact hold i hi hfl

/-- `check_reg` finds its register free, so that after the start tests only an `SW` is left
in `issued`. -/
theorem sw_of_oldest_issued (h : a.Inv P) (hset : a.Settled P) {wj wk : Bool}
    (hst : a.stage a.commitCount = .issued wj wk) : P.type a.commitCount = .sw := by
  obtain ⟨rfl, rfl⟩ := h.oldest_issued hst
  by_contra hne
  refine hset a.commitCount ⟨hst, ?_⟩
  rw [if_neg hne]
  exact fun i hi hcommit => absurd hcommit ((h.commitAt i).mpr hi)

end Inv

/-! ### A stuck state stays stuck -/

namespace Stuck

/-- In a stuck state the phases before issue move no instruction. -/
theorem stage_beforeIssue (h : a.Stuck P) (k : ℕ) :
    (a.beforeIssue P ks).stage k = a.stage k := by
  have hns : ∀ t, ¬a.Sends P ks t := fun t ⟨j, _, hj, _⟩ => h.not_done j hj
  rw [beforeIssue_stage, stepStage]
  cases hst : a.stage k with
  | exec left => exact absurd hst (h.not_exec k left)
  | done => exact absurd hst (h.not_done k)
  | issued wj wk => simp [hns]
  | _ => rfl

/-- They free no station either. -/
theorem not_canIssue_beforeIssue (h : a.Stuck P) : ¬(a.beforeIssue P ks).CanIssue P := by
  have hclass : (a.beforeIssue P ks).inClass P = a.inClass P := by
    funext c
    simp only [inClass, h.stage_beforeIssue]
  rw [CanIssue, beforeIssue_pc, hclass]
  exact h.not_canIssue

/-- **A cycle changes no stage of a stuck state.** -/
theorem next_stage_eq (h : a.Stuck P) (hinv : a.Inv P) (hset : a.Settled P) (k : ℕ) :
    (a.next P ks v).stage k = a.stage k := by
  have hissue : ((a.beforeIssue P ks).issue P v).stage k = a.stage k := by
    rw [issue_stage, if_neg fun hh => h.not_canIssue_beforeIssue hh.2, h.stage_beforeIssue]
  rw [next_stage, if_neg, hissue]
  rintro ⟨hst, hready⟩
  refine hset k ⟨hissue ▸ hst, ?_⟩
  split_ifs at hready ⊢ with hsw
  · -- the flag was set before the cycle, and nothing was there to clear it
    by_contra hw
    refine Bool.false_ne_true (hready.symm.trans ?_)
    refine (issue_waiting v _ _).mpr (.inl ((beforeIssue_waiting ks a _).mpr (.inl ⟨?_, ?_⟩)))
    · exact Bool.eq_true_of_not_eq_false hw
    · rintro ⟨j, -, hj, -⟩
      exact h.not_done j hj
  · intro i hi hcommit
    refine hready i hi ?_
    rw [(issue_core v _).2.2.2.2, (beforeIssue_commit ks a).1, commit, if_neg]
    · exact hcommit
    · rintro ⟨hwb, -⟩
      exact h.not_retired ((hinv.writebackAt _).mp hwb)

/-- **A deadlock stays.** With nothing done, nothing takes down the flag that the oldest store waits
for. -/
theorem next (h : a.Stuck P) (hinv : a.Inv P) (hset : a.Settled P) :
    (a.next P ks v).Stuck P := by
  have hstage : (a.next P ks v).stage = a.stage := funext (h.next_stage_eq hinv hset)
  have hpc : (a.next P ks v).pc = a.pc := by
    rw [next_pc, if_neg h.not_canIssue_beforeIssue]
  have hcount : (a.next P ks v).commitCount = a.commitCount := by
    rcases hinv.next_commit_cases ks v with ⟨hr, -⟩ | ⟨-, hcount, -⟩
    · exact absurd hr h.not_retired
    · exact hcount
  have hclass : (a.next P ks v).inClass P = a.inClass P := by
    funext c
    simp only [inClass, hstage]
  refine ⟨?_, ?_, ?_, ?_, ?_⟩
  · rw [hstage]
    exact h.not_exec
  · rw [hstage]
    exact h.not_done
  · rw [hcount, hpc]
    exact h.issued
  · rw [hstage, hcount]
    exact h.not_retired
  · rw [CanIssue, hpc, hclass]
    exact h.not_canIssue

end Stuck

/-! ### Any other state makes progress -/

/-- The cycles and steps an instruction still needs, once it may take them. -/
def rank (P : Trace) (a : Pipe) (k : ℕ) : ℕ :=
  if k < a.commitCount then 0
  else match a.stage k with
    | .idle => (P.latency k).toNat + 4
    | .issued _ _ => (P.latency k).toNat + 3
    | .exec left => left.toNat + 2
    | .done => 2
    | .retired => 1

/-- **The measure.** -/
def remaining (P : Trace) (a : Pipe) : ℕ := ∑ k ∈ Finset.range P.length, a.rank P k

namespace Inv

/-- Commits are not undone. -/
theorem commitCount_le_next (h : a.Inv P) (ks : List ℕ) (v : ℤ) :
    a.commitCount ≤ (a.next P ks v).commitCount := by
  rcases h.next_commit_cases ks v with ⟨-, hcount, -⟩ | ⟨-, hcount, -⟩ <;> omega

/-- A committed instruction keeps its rank. -/
theorem rank_of_committed (h : a.Inv P) {k : ℕ} (hk : k < a.commitCount) :
    (a.next P ks v).rank P k = a.rank P k := by
  have hle := h.commitCount_le_next ks v
  rw [rank, rank, if_pos hk, if_pos (by omega)]

/-- A cycle does not increase a rank, and decreases it unless the instruction waits. -/
theorem rank_next (h : a.Inv P) (hcov : Covers ks a) {k : ℕ} (hk : ¬k < a.commitCount) :
    (a.next P ks v).rank P k ≤ a.rank P k ∧
      ((∃ left, a.stage k = .exec left) ∨ a.stage k = .done ∨
        (a.stage k = .idle ∧ (a.next P ks v).stage k ≠ .idle) →
          (a.next P ks v).rank P k < a.rank P k) := by
  have hstep := h.step (v := v) hcov k
  have hexec := h.exec_range k
  unfold rank
  rw [if_neg hk]
  generalize (a.next P ks v).stage k = s' at hstep ⊢
  generalize a.stage k = s at hstep hexec ⊢
  split_ifs with hk'
  · -- committed in this cycle
    refine ⟨Nat.zero_le _, fun _ => ?_⟩
    cases s <;> simp
  · cases hstep with
    | idle => simp
    | issue _ => simp
    | issueStart => simp
    | wait _ _ => simp
    | start => simp
    | exec hne =>
      have hrange := hexec _ rfl
      dsimp only
      exact ⟨by omega, fun _ => by omega⟩
    | complete => simp
    | retire => simp
    | retired => simp

/-- No instruction gets further away from its commit. -/
theorem rank_le (h : a.Inv P) (hcov : Covers ks a) (k : ℕ) :
    (a.next P ks v).rank P k ≤ a.rank P k := by
  by_cases hk : k < a.commitCount
  · exact le_of_eq (h.rank_of_committed hk)
  · exact (h.rank_next hcov hk).1

/-- The commit of the oldest uncommitted instruction. -/
theorem rank_commit (h : a.Inv P) (hr : a.stage a.commitCount = .retired) :
    (a.next P ks v).rank P a.commitCount < a.rank P a.commitCount := by
  have hcount : (a.next P ks v).commitCount = a.commitCount + 1 := by
    rcases h.next_commit_cases ks v with ⟨-, hcount, -⟩ | ⟨hne, -⟩
    · exact hcount
    · exact absurd hr hne
  rw [rank, rank, hcount, hr, if_pos (Nat.lt_succ_self _), if_neg (lt_irrefl _)]
  exact Nat.one_pos

/-- A class that has a free station at the end of a cycle still has one when the next issue phase
begins. -/
theorem canIssue_beforeIssue (hcov : Covers ks a) (hc : a.CanIssue P) :
    (a.beforeIssue P ks).CanIssue P := by
  rw [CanIssue, beforeIssue_pc]
  refine ⟨hc.1, lt_of_le_of_lt (Finset.card_le_card ?_) hc.2⟩
  refine Finset.monotone_filter_right _ fun k _ hk => ?_
  exact ⟨hk.1, ((inFlight_beforeIssue hcov).mp hk.2).1⟩

/-- With every issued instruction committed the stations are empty. -/
theorem canIssue_of_all_committed (h : a.Inv P) (hlt : a.pc < P.length)
    (hall : a.commitCount = a.pc) : a.CanIssue P := by
  refine canIssue_of_no_inFlight hlt fun k hk => ?_
  have hkpc := h.lt_pc hk
  exact hk.ne_retired (h.committed k (by omega))

/-- **Progress.** In a state that is neither finished nor stuck some rank decreases. -/
theorem exists_rank_lt (h : a.Inv P) (hcov : Covers ks a) (hlt : a.commitCount < P.length)
    (hstuck : ¬a.Stuck P) :
    ∃ k, k < P.length ∧ (a.next P ks v).rank P k < a.rank P k := by
  have hback : ∀ k, a.stage k ≠ .retired → ¬k < a.commitCount :=
    fun k hr hk => hr (h.committed k hk)
  by_cases hex : ∃ k, (∃ left, a.stage k = .exec left) ∨ a.stage k = .done
  · obtain ⟨k, hk⟩ := hex
    refine ⟨k, h.lt_length ?_, (h.rank_next hcov (hback k ?_)).2 ?_⟩
    · rcases hk with ⟨left, he⟩ | he <;> rw [he] <;> trivial
    · rcases hk with ⟨left, he⟩ | he <;> rw [he] <;> simp
    · exact hk.imp_right .inl
  -- otherwise an instruction is issued or committed
  have hissue : a.CanIssue P → ∃ k, k < P.length ∧
      (a.next P ks v).rank P k < a.rank P k := by
    intro hc
    have hidle := h.stage_pc
    refine ⟨a.pc, hc.1, (h.rank_next hcov (hback _ ?_)).2 (.inr (.inr ⟨hidle, ?_⟩))⟩
    · rw [hidle]
      simp
    · intro hid
      have hle := (h.next_idle_iff hcov _).mp hid
      rw [next_pc, if_pos (canIssue_beforeIssue hcov hc)] at hle
      omega
  rcases Nat.lt_or_ge a.commitCount a.pc with hcc | hcc
  · by_cases hr : a.stage a.commitCount = .retired
    · exact ⟨a.commitCount, hlt, h.rank_commit hr⟩
    · by_cases hc : a.CanIssue P
      · exact hissue hc
      · refine absurd ⟨fun k left he => hex ⟨k, .inl ⟨left, he⟩⟩,
          fun k he => hex ⟨k, .inr he⟩, hcc, hr, hc⟩ hstuck
  · have heq : a.commitCount = a.pc := le_antisymm h.commitCount_le hcc
    exact hissue (h.canIssue_of_all_committed (by omega) heq)

/-- So the measure decreases as long as the run is neither finished nor stuck. -/
theorem remaining_lt (h : a.Inv P) (hcov : Covers ks a) (hlt : a.commitCount < P.length)
    (hstuck : ¬a.Stuck P) : (a.next P ks v).remaining P < a.remaining P := by
  obtain ⟨k, hk, hrank⟩ := h.exists_rank_lt (v := v) hcov hlt hstuck
  exact Finset.sum_lt_sum (fun j _ => h.rank_le hcov j) ⟨k, Finset.mem_range.mpr hk, hrank⟩

end Inv

end Pipe

/-! ### The simulator -/

variable {m : Machine}

/-- In a settled state the oldest instruction of a stuck machine is an `SW` whose register is
marked. -/
theorem Refines.deadlocked_iff (h : Refines P m a) (hinv : a.Inv P) (hset : a.Settled P) :
    Deadlocked m ↔ a.Stuck P := by
  constructor
  · rintro ⟨hquiet, ⟨s, hs, hstore, hp, hst, hw⟩, hissue⟩
    rw [h.commitCount] at hp
    obtain ⟨wj, wk, hstage⟩ := (h.stations.represents s _ hp).state_issued_iff.mp hst
    refine ⟨fun k left he => ?_, fun k he => ?_, ?_, ?_, mt h.canIssue_iff.mpr hissue⟩
    · obtain ⟨s', hs', -, hex⟩ := h.inState_exec_iff.mpr ⟨left, he⟩
      exact (hquiet s' hs').1 hex
    · obtain ⟨s', hs', -, hex⟩ := h.inState_done_iff.mpr he
      exact (hquiet s' hs').2 hex
    · exact hinv.lt_pc (by rw [hstage]; trivial)
    · rw [hstage]
      simp
  · intro hs
    have hidle : a.stage a.commitCount ≠ .idle := by
      intro hid
      have hle := (hinv.idle_iff _).mp hid
      have hlt := hs.issued
      omega
    obtain ⟨s, hmem, hp⟩ := h.stations.held a.commitCount
      (Stage.inFlight_iff.mpr ⟨hidle, hs.not_retired⟩)
    have hrep := h.stations.represents s _ hp
    -- it is issued, and not because of its sources or of `check_reg`
    obtain ⟨wj, wk, hst⟩ : ∃ wj wk, a.stage a.commitCount = .issued wj wk := by
      cases hst : a.stage a.commitCount with
      | idle => exact absurd hst hidle
      | issued wj wk => exact ⟨wj, wk, rfl⟩
      | exec left => exact absurd hst (hs.not_exec _ left)
      | done => exact absurd hst (hs.not_done _)
      | retired => exact absurd hst hs.not_retired
    obtain ⟨rfl, rfl⟩ := hinv.oldest_issued hst
    have hsw : P.type a.commitCount = .sw := hinv.sw_of_oldest_issued hset hst
    have hnr := hset a.commitCount
    have hwait : a.waiting (P.dest a.commitCount) = true := by
      by_contra hne
      refine hnr ⟨hst, ?_⟩
      rw [if_pos hsw]
      exact Bool.eq_false_iff.mpr hne
    refine ⟨fun s' hs' => ⟨fun hex => ?_, fun hex => ?_⟩, ⟨s, hmem, ?_, ?_, ?_, ?_⟩,
      mt h.canIssue_iff.mp hs.not_canIssue⟩
    · obtain ⟨k, hp'⟩ := h.exists_ptr hex (by decide)
      obtain ⟨left, he⟩ := (h.stations.represents s' k hp').state_exec_iff.mp hex
      exact hs.not_exec k left he
    · obtain ⟨k, hp'⟩ := h.exists_ptr hex (by decide)
      exact hs.not_done k ((h.stations.represents s' k hp').state_done_iff.mp hex)
    · exact (h.store_iff hp).mpr fun hw => hw hsw
    · rw [h.commitCount]
      exact hp
    · exact hrep.state_issued_iff.mpr ⟨_, _, hst⟩
    · rw [h.stations.destTag s _ hp, h.waiting_eq (Trace.dest_ne_noReg (h.stations.lt s _ hp))]
      exact hwait

/-- So no state of a run has an instruction that could start. -/
theorem Trajectory.settled {a : ℕ → Pipe} {ks : ℕ → List ℕ} {v : ℕ → ℤ}
    (h : Trajectory P a ks v) (n : ℕ) : (a n).Settled P :=
  h.induction (p := fun _ b => b.Settled P) (Pipe.settled_init P) (fun _ _ hb => hb)
    (fun n _ _ _ => Pipe.settled_next (ks n) (v n) (a n)) n

/-- **A deadlock lasts**: after a deadlocked state the run does not end. -/
theorem not_finish_of_deadlocked {n : ℕ} (hd : Deadlocked (run P n)) (k : ℕ) :
    (run P k).finish = false := by
  obtain ⟨a, ks, v, htr⟩ := exists_trajectory P
  have hnot : ∀ c, (a c).Stuck P → (run P c).finish = false := by
    intro c hs
    refine Bool.eq_false_iff.mpr fun hf => ?_
    have hle := ((htr.finished c).mp hf).2
    have hlt := hs.issued
    have hpc := (htr.inv c).pc_le
    omega
  have hstuck : (a n).Stuck P :=
    ((htr.refines n).deadlocked_iff (htr.inv n) (htr.settled n)).mp hd
  have hlater : ∀ c, (a (n + c)).Stuck P := by
    intro c
    induction c with
    | zero => exact hstuck
    | succ c ih =>
      rw [← Nat.add_assoc, htr.next _ (hnot _ ih)]
      exact ih.next (htr.inv _) (htr.settled _)
  refine Bool.eq_false_iff.mpr fun hf => ?_
  -- a run that had ended before would be at its end in a stuck state
  have hend : (run P (k + n)).finish = true := by
    rw [run_of_finish hf (Nat.le_add_right k n)]
    exact hf
  rw [Nat.add_comm, hnot _ (hlater k)] at hend
  cases hend

/-- **The wait is circular**: the register of the waiting `SW` is marked for a younger
instruction, which is issued and cannot start before the `SW` has committed. -/
theorem exists_younger_of_deadlocked {n : ℕ} (hd : Deadlocked (run P n)) :
    ∃ y, (run P n).commitCount < y ∧ P.Writes y ∧
      P.dest y = P.dest (run P n).commitCount ∧ (run P n).InState y .issued := by
  obtain ⟨a, ks, v, htr⟩ := exists_trajectory P
  have hr := htr.refines n
  have hinv := htr.inv n
  have hs := (hr.deadlocked_iff hinv (htr.settled n)).mp hd
  obtain ⟨-, ⟨s, -, -, hp, -, hw⟩, -⟩ := hd
  rw [hr.stations.destTag s _ hp,
    hr.waiting_eq (Trace.dest_ne_noReg (hr.stations.lt s _ hp))] at hw
  obtain ⟨y, hfl, hwr, hdest⟩ := hinv.waiting _ hw
  have hstore : ¬P.Writes (run P n).commitCount := by
    obtain ⟨s', -, hst', hp', -⟩ := ((hr.deadlocked_iff hinv (htr.settled n)).mpr hs).2.1
    exact (hr.store_iff hp').mp hst'
  -- the older ones are committed, so the instruction behind the flag is younger
  have hle : (a n).commitCount ≤ y := by
    by_contra hlt
    exact hfl.ne_retired (hinv.committed y (by omega))
  refine ⟨y, lt_of_le_of_ne (hr.commitCount ▸ hle) ?_, hwr, hdest, hr.inState_issued_iff.mpr ?_⟩
  · rintro rfl
    exact hstore hwr
  · cases hst : (a n).stage y with
    | issued wj wk => exact ⟨wj, wk, rfl⟩
    | exec left => exact absurd hst (hs.not_exec y left)
    | done => exact absurd hst (hs.not_done y)
    | _ => rw [hst] at hfl; exact absurd hfl id

/-- A run that reaches a deadlock does not end. -/
theorem not_terminates_of_deadlocked {n : ℕ} (hd : Deadlocked (run P n)) : ¬Terminates P := by
  rintro ⟨k, hf, -⟩
  rw [not_finish_of_deadlocked hd k] at hf
  cases hf

/-- Without a deadlock the measure cannot decrease for ever. -/
theorem exists_finish (hd : ∀ n, ¬Deadlocked (run P n)) : ∃ n, (run P n).finish = true := by
  obtain ⟨a, ks, v, htr⟩ := exists_trajectory P
  by_contra hall
  have hnf : ∀ n, (run P n).finish = false := fun n =>
    Bool.eq_false_iff.mpr fun hf => hall ⟨n, hf⟩
  have hcycle : ∀ n, (a n).cycle = n := fun n => htr.cycle_eq (hnf n)
  -- from the first cycle on every cycle makes progress
  have hdecr : ∀ n, (a (n + 2)).remaining P < (a (n + 1)).remaining P := by
    intro n
    have hlt : (a (n + 1)).commitCount < P.length := by
      by_contra hge
      have hfin : (a (n + 1)).Finished P := ⟨by rw [hcycle]; omega, by omega⟩
      rw [← htr.finished, hnf] at hfin
      cases hfin
    have hns : ¬(a (n + 1)).Stuck P := fun hs => hd (n + 1)
      (((htr.refines _).deadlocked_iff (htr.inv _) (htr.settled _)).mpr hs)
    rw [htr.next (n + 1) (hnf _)]
    exact (htr.inv (n + 1)).remaining_lt (htr.covers (n + 1)) hlt hns
  -- so the measure bounds the number of cycles
  have hbound : ∀ n, (a (n + 1)).remaining P + n ≤ (a 1).remaining P := by
    intro n
    induction n with
    | zero => exact le_refl _
    | succ n ih =>
      have hlt : (a (n + 1 + 1)).remaining P < (a (n + 1)).remaining P := hdecr n
      omega
  have hle := hbound ((a 1).remaining P + 1)
  omega

/-- When the simulation ends, every instruction has all four of its cycles recorded. -/
theorem fields_of_finish {n : ℕ} (hf : (run P n).finish = true) {k : ℕ} (hk : k < P.length) :
    ((run P n).inst.get k).issue ≠ valueEmpty ∧ ((run P n).inst.get k).execute ≠ valueEmpty ∧
    ((run P n).inst.get k).writeback ≠ valueEmpty ∧
    ((run P n).inst.get k).commit ≠ valueEmpty := by
  obtain ⟨a, ks, v, htr⟩ := exists_trajectory P
  have hr := htr.refines n
  have hinv := htr.inv n
  have hkc : k < (a n).commitCount := hk.trans_le ((htr.finished n).mp hf).2
  have hret := hinv.committed k hkc
  rw [hr.issue_eq, hr.execute_eq, hr.writeback_eq, hr.commit_eq]
  exact ⟨(hinv.issueAt k).mpr (hkc.trans_le hinv.commitCount_le),
    (hinv.executeAt k).mpr (.inr hret), (hinv.writebackAt k).mpr hret,
    (hinv.commitAt k).mpr hkc⟩

/-- **The simulation ends exactly when no cycle ends in a deadlock.** -/
theorem terminates_iff (P : Trace) : Terminates P ↔ ∀ n, ¬Deadlocked (run P n) := by
  refine ⟨fun ht n hd => not_terminates_of_deadlocked hd ht, fun hd => ?_⟩
  obtain ⟨n, hf⟩ := exists_finish hd
  exact ⟨n, hf, fun k hk => fields_of_finish hf hk⟩

/-- `ADD F2 F4 F6; SW F2; ADD F2 F2 F4`: the second `ADD` marks `F2` again before the `SW` is
tested. -/
def deadlockTrace : Trace where
  insts := [⟨.add, .f2, .f4, .f6, -1⟩, ⟨.sw, .f2, .f14, .noReg, 0⟩, ⟨.add, .f2, .f2, .f4, -1⟩]
  length_le := by decide
  wellFormed := by decide

/-- **The simulation of `deadlockTrace` does not end.** -/
theorem not_terminates_deadlockTrace : ¬Terminates deadlockTrace :=
  not_terminates_of_deadlocked (n := 5) (by decide +kernel)

end AdvancedArchitecture.Tomasulo
