import AdvancedArchitecture.Tomasulo.Termination

/-!
# The oldest instruction

The simulator has no rule that favours the oldest uncommitted instruction, and three tests that
could hold it back: the search for a station, the tags `Qj` and `Qk`, and `check_reg`. All three
look at older instructions only, and these are committed; an `SW` alone is tested against the
flag of its register, which a younger instruction may have raised. So at the end of a cycle the
oldest uncommitted instruction is issued and, unless it is an `SW`, executes or is done
(`oldest_proceeds`). A trace without `SW` therefore never deadlocks (`terminates_of_writes`).

That it is issued is an induction along the run. If a cycle commits the last instruction that
was issued, everything before the program counter was written back in an earlier cycle; the
stations are empty, and the issue phase of the same cycle finds one.
-/

namespace AdvancedArchitecture.Tomasulo

variable {P : Trace} {a : Pipe} {ks : List ℕ} {v : ℤ} {m : Machine}

/-- Instruction `k` is the oldest uncommitted one. -/
def Oldest (P : Trace) (m : Machine) (k : ℕ) : Prop :=
  k < P.length ∧ (m.inst.get k).commit = valueEmpty ∧
    ∀ i, i < k → (m.inst.get i).commit ≠ valueEmpty

instance (P : Trace) (m : Machine) (k : ℕ) : Decidable (Oldest P m k) := by
  unfold Oldest; infer_instance

/-- While some instruction is uncommitted there is an oldest one. -/
theorem exists_oldest (h : ∃ k, k < P.length ∧ (m.inst.get k).commit = valueEmpty) :
    ∃ k, Oldest P m k := by
  obtain ⟨hlt, hnone⟩ := Nat.find_spec h
  refine ⟨Nat.find h, hlt, hnone, fun i hi hcommit => ?_⟩
  exact Nat.find_min h hi ⟨hi.trans hlt, hcommit⟩

/-- There is at most one oldest uncommitted instruction. -/
theorem Oldest.unique {k k' : ℕ} (h : Oldest P m k) (h' : Oldest P m k') :
    k = k' := by
  have hle : ¬k' < k := fun hlt => h.2.2 k' hlt h'.2.1
  have hge : ¬k < k' := fun hlt => h'.2.2 k hlt h.2.1
  omega

namespace Pipe.Inv

/-! ### One cycle -/

/-- **The oldest instruction is issued.** If a cycle commits the last instruction that was
issued, its issue phase finds the stations empty. -/
theorem next_commitCount_lt_pc (h : a.Inv P) (hcov : Covers ks a)
    (hlt : (a.next P ks v).commitCount < P.length) :
    (a.next P ks v).commitCount < (a.next P ks v).pc := by
  have hle : (a.next P ks v).commitCount ≤ a.pc := by
    rcases h.next_commit_cases ks v with ⟨hr, hcount, -⟩ | ⟨-, hcount, -⟩
    · have hne : a.commitCount ≠ a.pc := by
        intro heq
        rw [heq, h.stage_pc] at hr
        cases hr
      have := h.commitCount_le
      omega
    · rw [hcount]
      exact h.commitCount_le
  rw [next_pc]
  by_cases hall : (a.next P ks v).commitCount = a.pc
  · have hcan : (a.beforeIssue P ks).CanIssue P := by
      refine canIssue_of_no_inFlight ?_ fun k hk => ?_
      · rw [beforeIssue_pc, ← hall]
        exact hlt
      · have hkpc := h.lt_pc ((inFlight_beforeIssue hcov).mp hk).1
        exact (inFlight_next hk).ne_retired ((h.next hcov).committed k (hall ▸ hkpc))
    rw [if_pos hcan, hall]
    exact Nat.lt_succ_self _
  · split_ifs <;> omega

/-- **The oldest instruction is not held back** by a start test, unless it is an `SW`. -/
theorem oldest_exec_or_done (h : a.Inv P) (hset : a.Settled P) (hw : P.Writes a.commitCount)
    (hfl : (a.stage a.commitCount).InFlight) :
    (∃ left, a.stage a.commitCount = .exec left) ∨ a.stage a.commitCount = .done := by
  cases hst : a.stage a.commitCount with
  | issued wj wk => exact absurd (h.sw_of_oldest_issued hset hst) hw
  | exec left => exact .inl ⟨left, rfl⟩
  | done => exact .inr rfl
  | _ => rw [hst] at hfl; exact absurd hfl id

end Pipe.Inv

/-! ### Runs -/

/-- Since the committed instructions are an initial segment, `commitCount` is the oldest uncommitted
one. -/
theorem Refines.oldest (h : Refines P m a) (hinv : a.Inv P) (hlt : a.commitCount < P.length) :
    Oldest P m a.commitCount := by
  refine ⟨hlt, ?_, fun i hi => ?_⟩
  · rw [h.commit_eq]
    by_contra hsome
    exact lt_irrefl _ ((hinv.commitAt _).mp hsome)
  · rw [h.commit_eq]
    exact (hinv.commitAt i).mpr hi

/-- And it is the only one. -/
theorem Refines.oldest_eq (h : Refines P m a) (hinv : a.Inv P) {k : ℕ} (hk : Oldest P m k) :
    k = a.commitCount := by
  have hle : a.commitCount ≤ k := by
    by_contra hlt
    exact (hinv.commitAt k).mpr (by omega) (h.commit_eq k ▸ hk.2.1)
  exact hk.unique (h.oldest hinv (hle.trans_lt hk.1))

/-- After the first cycle the oldest uncommitted instruction is issued: when all issued instructions
have committed the stations are empty, and the next one was issued in the same cycle. -/
theorem Trajectory.commitCount_lt_pc {a : ℕ → Pipe} {ks : ℕ → List ℕ} {v : ℕ → ℤ}
    (h : Trajectory P a ks v) (n : ℕ) (hlt : (a (n + 1)).commitCount < P.length) :
    (a (n + 1)).commitCount < (a (n + 1)).pc := by
  by_cases hf : (run P n).finish = true
  · rw [h.stay n hf] at hlt
    have hle := ((h.finished n).mp hf).2
    omega
  · have hnext := h.next n (Bool.eq_false_iff.mpr hf)
    rw [hnext] at hlt ⊢
    exact (h.inv n).next_commitCount_lt_pc (h.covers n) hlt

/-- **The oldest instruction proceeds.** At the end of every cycle that leaves an instruction
uncommitted, the oldest uncommitted one has been issued, and unless it is an `SW` or was written
back, a station holds it and executes it or is done. -/
theorem oldest_proceeds (P : Trace) (n : ℕ)
    (h : ∃ k, k < P.length ∧ ((run P (n + 1)).inst.get k).commit = valueEmpty) :
    ∃ k, Oldest P (run P (n + 1)) k ∧ ((run P (n + 1)).inst.get k).issue ≠ valueEmpty ∧
      (P.Writes k → ((run P (n + 1)).inst.get k).writeback = valueEmpty →
        (run P (n + 1)).Holds k ∧ ∀ s ∈ slots, (run P (n + 1)).ptr s = some k →
          ((run P (n + 1)).entry s).state = .exec ∨ ((run P (n + 1)).entry s).state = .done) := by
  obtain ⟨a, ks, v, htr⟩ := exists_trajectory P
  have hr := htr.refines (n + 1)
  have hinv := htr.inv (n + 1)
  obtain ⟨k, hold⟩ := exists_oldest h
  obtain rfl : k = (a (n + 1)).commitCount := hr.oldest_eq hinv hold
  have hissue : ((run P (n + 1)).inst.get (a (n + 1)).commitCount).issue ≠ valueEmpty := by
    rw [hr.issue_eq]
    exact (hinv.issueAt _).mpr (htr.commitCount_lt_pc n hold.1)
  refine ⟨_, hold, hissue, fun hw hback => ?_⟩
  have hfl := (hr.recorded_iff hinv).mp ⟨hissue, hback⟩
  refine ⟨hr.holds_iff.mpr hfl, fun s _ hp => ?_⟩
  have hrep := hr.stations.represents s _ hp
  exact (hinv.oldest_exec_or_done (htr.settled _) hw hfl).imp hrep.state_exec_iff.mpr
    hrep.state_done_iff.mpr

/-- `LW F2; ADD F2 F2 F4`: the `ADD` waits for `F2`, and then for the commit of the `LW`. -/
def waitTrace : Trace where
  insts := [⟨.lw, .f2, .f14, .noReg, 0⟩, ⟨.add, .f2, .f2, .f4, -1⟩]
  length_le := by decide
  wellFormed := by decide

/-- The cycle that commits the `LW` lets the `ADD` execute. -/
theorem oldest_proceeds_waitTrace :
    (run waitTrace 4).InState 1 .issued ∧ Oldest waitTrace (run waitTrace 5) 1 ∧
      ((run waitTrace 5).inst.get 1).issue ≠ valueEmpty ∧
      ∀ s ∈ slots, (run waitTrace 5).ptr s = some 1 →
        ((run waitTrace 5).entry s).state = .exec ∨
          ((run waitTrace 5).entry s).state = .done := by
  have hold : Oldest waitTrace (run waitTrace 5) 1 := by decide +kernel
  obtain ⟨k, hk, hissue, hruns⟩ := oldest_proceeds waitTrace 4 ⟨1, by decide +kernel⟩
  obtain rfl := hk.unique hold
  exact ⟨by decide +kernel, hold, hissue, (hruns (by decide) (by decide +kernel)).2⟩

/-- **A trace without `SW` runs to its end**: a deadlock needs one. -/
theorem terminates_of_writes (h : ∀ k, k < P.length → P.Writes k) : Terminates P := by
  obtain ⟨a, ks, v, htr⟩ := exists_trajectory P
  refine (terminates_iff P).mpr ?_
  rintro n ⟨-, ⟨s, -, hstore, hp, -⟩, -⟩
  have hr := htr.refines n
  exact (hr.store_iff hp).mp hstore (h _ (hr.stations.lt s _ hp))

end AdvancedArchitecture.Tomasulo
