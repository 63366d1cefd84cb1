import AdvancedArchitecture.Tomasulo.Observe

/-!
# Read after write

An instruction should not start to execute before the latest earlier writer of each register
it reads has been written back (`RawSafe`). The simulator waits for a register and not for
its writer, so this fails; `not_rawSafe_rawTrace` is a run in which an `ADD` reads `F2` two
cycles before the load of `F2` is written back. Three tests can go wrong: the flag an
instruction consults at issue, the broadcast that wakes it up, and the flag an `SW` consults
before it starts. `RawGuard` says that none of them does in a cycle, and `rawSafe_run` that a
run is safe as long as that holds.

The invariant `Pipe.RawInv` has two parts. While an instruction waits, it waits for every source
whose latest earlier writer is in flight; and once it has started, these writers are retired. The
first part is what the guard protects, the second follows from it in the cycle in which the
instruction starts. For an `SW`, which never waits for a source, the guard is needed at its start.
-/

namespace AdvancedArchitecture.Tomasulo

variable {P : Trace} {a : Pipe} {ks : List ℕ} {v : ℤ}

/-! ### The property and the guard -/

/-- **Read-after-write safety** in a state of a run: once `j` executes, the latest earlier
writer `i` of a register it reads has been written back, and when `j` has executed, it began
in no earlier cycle. -/
def RawSafe (P : Trace) (m : Machine) : Prop :=
  ∀ j r i, r ∈ P.reads j → P.LastWriter j r i →
    (m.InState j .exec → (m.inst.get i).writeback ≠ valueEmpty) ∧
    ((m.inst.get j).execute ≠ valueEmpty → (m.inst.get i).writeback ≠ valueEmpty ∧
      (m.inst.get i).writeback ≤ (m.inst.get j).execute - P.latency j)

/-- An arithmetic instruction that is issued to `m` finds the register of a writer in flight
marked. -/
def IssueFinds (P : Trace) (m : Machine) : Prop :=
  m.programCounter < m.instCount ∧ findStation m (m.inst.get m.programCounter).type ≠ none →
    P.type m.programCounter ≠ .sw → ∀ r ∈ P.reads m.programCounter,
      ∀ i, i < m.programCounter → P.LastWriter m.programCounter r i → m.Holds i →
        m.waiting r = true

/-- A write-back from `m` that wakes up an instruction is the one of the writer it waits
for. -/
def WakeUpFinds (P : Trace) (m : Machine) : Prop :=
  ∀ s ∈ slots, (m.entry s).state = .done → s.1 ≠ .store →
    ∀ s' ∈ slots, (m.entry s').state = .issued →
      ((m.entry s').qj = findRegIndex (m.entry s).destTag ∨
        (m.entry s').qk = findRegIndex (m.entry s).destTag) →
      ∀ j ∈ m.ptr s', ∀ i, i < j → P.LastWriter j (m.entry s).destTag i → m.Holds i →
        m.InState i .done

/-- An `SW` that is tested in `m` finds the register of a writer in flight marked. -/
def StoreFinds (P : Trace) (m : Machine) : Prop :=
  ∀ s ∈ slots, s.1 = .store → (m.entry s).state = .issued →
    ∀ j ∈ m.ptr s, ∀ i, i < j → P.LastWriter j (P.dest j) i → m.Holds i →
      m.waiting (P.dest j) = true

instance (P : Trace) (m : Machine) : Decidable (IssueFinds P m) := by
  unfold IssueFinds; infer_instance

instance (P : Trace) (m : Machine) : Decidable (WakeUpFinds P m) := by
  unfold WakeUpFinds; infer_instance

instance (P : Trace) (m : Machine) : Decidable (StoreFinds P m) := by
  unfold StoreFinds; infer_instance

/-- **The three tests of a cycle find what they should.** The write-backs start from `m`, the
issue phase sees `beforeIssue m`, and the start tests see `issue (beforeIssue m)`. -/
def RawGuard (P : Trace) (m : Machine) : Prop :=
  IssueFinds P (beforeIssue m) ∧ WakeUpFinds P m ∧ StoreFinds P (issue (beforeIssue m))

instance (P : Trace) (m : Machine) : Decidable (RawGuard P m) := by
  unfold RawGuard; infer_instance

/-! ### The invariant -/

namespace Pipe

/-- If instruction `j` has started, `i` was written back by then. -/
def StartsAfter (P : Trace) (a : Pipe) (j i : ℕ) : Prop :=
  match a.stage j with
  | .idle | .issued _ _ => True
  | .exec left =>
    a.stage i = .retired ∧ a.writebackAt i ≤ a.cycle - (P.latency j - left)
  | .done | .retired =>
    a.stage i = .retired ∧ a.writebackAt i ≤ a.executeAt j - P.latency j

/-- The guard on the instruction-level machine. -/
structure RawGuard (P : Trace) (ks : List ℕ) (v : ℤ) (a : Pipe) : Prop where
  issue : (a.beforeIssue P ks).CanIssue P → ∀ r ∈ P.reads a.pc, P.type a.pc ≠ .sw →
    ∀ i, P.LastWriter a.pc r i → ((a.beforeIssue P ks).stage i).InFlight →
      (a.beforeIssue P ks).waiting r = true
  wake : ∀ k j wj wk i, a.stage k = .done → P.Writes k → a.stage j = .issued wj wk →
    (wj = true ∧ P.src1 j = P.dest k ∨ wk = true ∧ P.src2 j = P.dest k) →
      P.LastWriter j (P.dest k) i → (a.stage i).InFlight → a.stage i = .done
  store : ∀ j i, P.type j = .sw →
    ((a.beforeIssue P ks).issue P v).stage j = .issued false false →
      P.LastWriter j (P.dest j) i →
        (((a.beforeIssue P ks).issue P v).stage i).InFlight →
          ((a.beforeIssue P ks).issue P v).waiting (P.dest j) = true

/-- **The invariant of a guarded run.** An instruction waits for a source as long as its
latest earlier writer is in flight, and starts after it. -/
structure RawInv (P : Trace) (a : Pipe) : Prop where
  source1 : ∀ j wj wk i, (P.type j).isMem = false → a.stage j = .issued wj wk →
    P.LastWriter j (P.src1 j) i → (a.stage i).InFlight → wj = true
  source2 : ∀ j wj wk i, (P.type j).isMem = false → a.stage j = .issued wj wk →
    P.LastWriter j (P.src2 j) i → (a.stage i).InFlight → wk = true
  ordered : ∀ j r i, r ∈ P.reads j → P.LastWriter j r i → a.StartsAfter P j i

theorem rawInv_init (P : Trace) : (init : Pipe).RawInv P where
  source1 _ _ _ _ _ h := by cases h
  source2 _ _ _ _ _ h := by cases h
  ordered _ _ _ _ _ := trivial

namespace RawInv

/-- After issue, a waiting instruction still waits for a source whose latest earlier writer
is in flight. -/
theorem issued_source (h : a.RawInv P) (hcov : Covers ks a)
    (hg : a.RawGuard P ks v) {i j : ℕ} {r : DataRegTag} {wj wk : Bool}
    (hm : (P.type j).isMem = false)
    (hst : ((a.beforeIssue P ks).issue P v).stage j = .issued wj wk)
    (hlw : P.LastWriter j r i) (hfl : ((a.beforeIssue P ks).stage i).InFlight) :
    (P.src1 j = r → wj = true) ∧ (P.src2 j = r → wk = true) := by
  rcases Inv.issue_issued hst with ⟨rfl, hc, he⟩ | ⟨wj', wk', hs, hj, hk⟩
  · -- issued in this cycle: the issue phase finds the register marked
    have hmark : r ∈ P.reads a.pc → (a.beforeIssue P ks).waiting r = true := fun hr =>
      hg.issue hc r hr (Inv.writes_of_isMem hm) i hlw hfl
    rw [Trace.reads_of_arith (Inv.canIssue_lt hc) hm, List.mem_pair] at hmark
    rcases Inv.entryStage_issued he with ⟨hm', -, -⟩ | ⟨-, hwj, hwk⟩
    · exact absurd (hm.symm.trans hm') Bool.false_ne_true
    · refine ⟨fun hr => ?_, fun hr => ?_⟩
      · rw [hwj, hr]
        exact hmark (.inl hr.symm)
      · rw [hwk, hr]
        exact hmark (.inr hr.symm)
  · -- issued before: no broadcast of another writer wakes it up
    obtain ⟨hfa, hnd⟩ := (Inv.inFlight_beforeIssue hcov).mp hfl
    have hsend : (wj' = true ∧ P.src1 j = r ∨ wk' = true ∧ P.src2 j = r) →
        ¬a.Sends P ks r := by
      rintro hw ⟨k, -, hkd, hkw, rfl⟩
      exact hnd (hg.wake k j wj' wk' i hkd hkw hs hw hlw hfa)
    refine ⟨fun hr => ?_, fun hr => ?_⟩
    · have hw := h.source1 j wj' wk' i hm hs (hr ▸ hlw) hfa
      exact hj.mpr ⟨hw, hr ▸ hsend (.inl ⟨hw, hr⟩)⟩
    · have hw := h.source2 j wj' wk' i hm hs (hr ▸ hlw) hfa
      exact hk.mpr ⟨hw, hr ▸ hsend (.inr ⟨hw, hr⟩)⟩

/-- **The start.** When an instruction enters `exec`, the latest earlier writer of a register
it reads is no longer in flight. -/
theorem not_inFlight_of_start (h : a.RawInv P) (hinv : a.Inv P) (hcov : Covers ks a)
    (hg : a.RawGuard P ks v) {j i : ℕ} {r : DataRegTag} (hr : r ∈ P.reads j)
    (hlw : P.LastWriter j r i)
    (hstart : (j = a.pc ∧ (a.beforeIssue P ks).CanIssue P ∧
        (a.beforeIssue P ks).entryStage P j = .exec (P.latency j)) ∨
      ((a.beforeIssue P ks).issue P v).Ready P j) :
    ¬((a.beforeIssue P ks).stage i).InFlight := by
  intro hfl
  rcases hstart with ⟨rfl, hc, he⟩ | ⟨hst, hready⟩
  · -- it starts at issue: it is arithmetic, and no source is marked
    rw [entryStage] at he
    split_ifs at he with hm hw
    have hm' : (P.type a.pc).isMem = false := Bool.eq_false_iff.mpr hm
    have hmark := hg.issue hc r hr (Inv.writes_of_isMem hm') i hlw hfl
    rw [Trace.reads_of_arith (Inv.canIssue_lt hc) hm', List.mem_pair] at hr
    rcases hr with rfl | rfl
    · exact Bool.false_ne_true (hw.1.symm.trans hmark)
    · exact Bool.false_ne_true (hw.2.symm.trans hmark)
  · -- it is started by the start tests
    have hij : i ≠ (a.beforeIssue P ks).pc := by
      rw [beforeIssue_pc]
      exact Nat.ne_of_lt (hinv.lt_pc ((Inv.inFlight_beforeIssue hcov).mp hfl).1)
    cases hm : (P.type j).isMem with
    | true =>
      by_cases hsw : P.type j = .sw
      · -- an `SW` tests the flag of the register it stores
        rw [if_pos hsw] at hready
        rw [Trace.reads_of_sw hsw, List.mem_singleton] at hr
        subst hr
        have hfl' : (((a.beforeIssue P ks).issue P v).stage i).InFlight := by
          rwa [issue_stage, if_neg fun hh => hij hh.1]
        exact Bool.false_ne_true (hready.symm.trans (hg.store j i hsw hst hlw hfl'))
      · -- an `LW` reads no register
        have hlw' : P.reads j = [] := by
          cases ht : P.type j with
          | sw => exact absurd ht hsw
          | lw => exact Trace.reads_of_lw ht
          | nop => rw [Trace.reads, ht]
          | _ => rw [ht] at hm; cases hm
        rw [hlw'] at hr
        cases hr
    | false =>
      -- an arithmetic instruction waits for no source any more, hence for no writer
      have hlt : j < P.length := by
        have hnext : (a.next P ks v).stage j = .exec (P.latency j) := by
          rw [next_stage, if_pos ⟨hst, hready⟩]
        exact (hinv.next (v := v) hcov).lt_length (by rw [hnext]; trivial)
      rw [Trace.reads_of_arith hlt hm, List.mem_pair] at hr
      rcases hr with rfl | rfl
      · exact Bool.false_ne_true ((h.issued_source hcov hg hm hst hlw hfl).1 rfl)
      · exact Bool.false_ne_true ((h.issued_source hcov hg hm hst hlw hfl).2 rfl)

/-- The latest earlier writer has been written back when the start is over. -/
theorem retired_of_start (h : a.RawInv P) (hinv : a.Inv P) (hcov : Covers ks a)
    (hg : a.RawGuard P ks v) {j i : ℕ} {r : DataRegTag} (hr : r ∈ P.reads j)
    (hlw : P.LastWriter j r i) (hi : i < a.pc)
    (hstart : (j = a.pc ∧ (a.beforeIssue P ks).CanIssue P ∧
        (a.beforeIssue P ks).entryStage P j = .exec (P.latency j)) ∨
      ((a.beforeIssue P ks).issue P v).Ready P j) :
    (a.next P ks v).stage i = .retired := by
  have hnfl := h.not_inFlight_of_start hinv hcov hg hr hlw hstart
  have hidle : a.stage i ≠ .idle := fun hid => by
    have := (hinv.idle_iff i).mp hid
    omega
  by_contra hne
  exact hnfl (Inv.inFlight_of_next hi
    (Stage.inFlight_iff.mpr ⟨(hinv.step hcov i).ne_idle hidle, hne⟩))

/-- The start stays behind the write-back of the writer. -/
theorem startsAfter_next (h : a.RawInv P) (hinv : a.Inv P) (hcov : Covers ks a)
    (hg : a.RawGuard P ks v) {j i : ℕ} {r : DataRegTag} (hr : r ∈ P.reads j)
    (hlw : P.LastWriter j r i) (hi : (a.next P ks v).stage j ≠ .idle → i < a.pc) :
    (a.next P ks v).StartsAfter P j i := by
  have hold := h.ordered j r i hr hlw
  have hstep := hinv.step (v := v) hcov j
  have hexec : (a.next P ks v).executeAt j =
      if a.stage j = .exec 1 then a.cycle + 1 else a.executeAt j := next_executeAt ks v a j
  rw [StartsAfter] at hold ⊢
  cases hst : (a.next P ks v).stage j with
  | idle => trivial
  | issued wj wk => trivial
  | exec left =>
    dsimp only
    rw [next_cycle]
    rcases Inv.next_exec hst with ⟨hs, -⟩ | ⟨rfl, hstart⟩
    · -- it was executing already
      rw [hs] at hold
      obtain ⟨hret, hle⟩ := hold
      obtain ⟨hret', hwb⟩ := hinv.retired_next (v := v) hcov hret
      rw [hwb]
      exact ⟨hret', by omega⟩
    · -- it starts in this cycle
      have hret := h.retired_of_start hinv hcov hg hr hlw (hi (by rw [hst]; simp)) hstart
      have hle := (hinv.next (v := v) hcov).writeback_le i
      rw [next_cycle] at hle
      exact ⟨hret, by omega⟩
  | done =>
    dsimp only
    rw [hst] at hstep
    have hs := hstep.done_iff.mp rfl
    rw [hs] at hold hexec
    obtain ⟨hret, hle⟩ := hold
    obtain ⟨hret', hwb⟩ := hinv.retired_next (v := v) hcov hret
    rw [hwb, hexec, if_pos rfl]
    exact ⟨hret', by omega⟩
  | retired =>
    dsimp only
    rw [hst] at hstep
    rcases hstep.retired_iff.mp rfl with hs | hs
    · rw [hs] at hold hexec
      obtain ⟨hret', hwb⟩ := hinv.retired_next (v := v) hcov hold.1
      rw [hwb, hexec, if_neg (by simp)]
      exact ⟨hret', hold.2⟩
    · rw [hs] at hold hexec
      obtain ⟨hret', hwb⟩ := hinv.retired_next (v := v) hcov hold.1
      rw [hwb, hexec, if_neg (by simp)]
      exact ⟨hret', hold.2⟩

/-- **One guarded cycle preserves the invariant.** -/
theorem next (h : a.RawInv P) (hinv : a.Inv P) (hcov : Covers ks a)
    (hg : a.RawGuard P ks v) : (a.next P ks v).RawInv P := by
  have hlt : ∀ {i j : ℕ}, i < j → (a.next P ks v).stage j ≠ .idle → i < a.pc := by
    intro i j hij hj
    have hjpc : j < (a.next P ks v).pc := by
      by_contra hge
      exact hj (((hinv.next (v := v) hcov).idle_iff j).mpr (by omega))
    rw [next_pc] at hjpc
    split_ifs at hjpc <;> omega
  refine ⟨fun j wj wk i hm hst hlw hfl => ?_, fun j wj wk i hm hst hlw hfl => ?_,
    fun j r i hr hlw => h.startsAfter_next hinv hcov hg hr hlw (hlt hlw.1)⟩
  · have hi : i < a.pc := hlt hlw.1 (by rw [hst]; simp)
    exact (h.issued_source hcov hg hm (Inv.issue_of_next_issued hst) hlw
      (Inv.inFlight_of_next hi hfl)).1 rfl
  · have hi : i < a.pc := hlt hlw.1 (by rw [hst]; simp)
    exact (h.issued_source hcov hg hm (Inv.issue_of_next_issued hst) hlw
      (Inv.inFlight_of_next hi hfl)).2 rfl

end RawInv

end Pipe

/-! ### From the simulator to the instruction-level machine -/

/-- The guard of the simulator is the guard of the instruction-level machine. -/
theorem RawGuard.abstract {m : Machine} (hg : RawGuard P m) (hm : Refines P m a)
    (hb : Refines P (beforeIssue m) (a.beforeIssue P ks))
    (hc : Refines P (issue (beforeIssue m)) ((a.beforeIssue P ks).issue P v)) :
    a.RawGuard P ks v := by
  obtain ⟨hissue, hwake, hstore⟩ := hg
  refine ⟨fun hcan r hr hsw i hlw hfl => ?_, fun k j wj wk i hkd hkw hst hsrc hlw hfl => ?_,
    fun j i hsw hst hlw hfl => ?_⟩
  · -- the flags at issue
    have hpc : (beforeIssue m).programCounter = a.pc := by
      rw [hb.programCounter, Pipe.beforeIssue_pc]
    have hlt : a.pc < P.length := Pipe.Inv.canIssue_lt hcan
    have hne : r ≠ .noReg := Trace.reads_ne_noReg hlt hr
    rw [← hb.waiting_eq hne]
    rw [IssueFinds, hb.canIssue_iff, hpc] at hissue
    exact hissue hcan hsw r hr i hlw.1 hlw (hb.holds_iff.mpr hfl)
  · -- the broadcasts, from the station of `k` to that of `j`
    obtain ⟨s, hs, hp⟩ := hm.stations.held k (by rw [hkd]; trivial)
    obtain ⟨s', hs', hp'⟩ := hm.stations.held j (by rw [hst]; trivial)
    have hdone := (hm.stations.represents s k hp).state_done_iff.mpr hkd
    have hissued := (hm.stations.represents s' j hp').state_issued_iff.mpr ⟨wj, wk, hst⟩
    have hns : s.1 ≠ .store := fun hstore => (hm.store_iff hp).mp hstore hkw
    have hdest := hm.stations.destTag s k hp
    have hops := hm.stations.represents s' j hp'
    rw [hst] at hops
    refine hm.inState_done_iff.mp (hwake s hs hdone hns s' hs' hissued ?_ j hp' i hlw.1
      (hdest.symm ▸ hlw) (hm.holds_iff.mpr hfl))
    rcases hsrc with ⟨rfl, hsrc⟩ | ⟨rfl, hsrc⟩
    · refine .inl ?_
      rw [hops.2.2.1.qj, if_pos rfl, hsrc, hdest]
    · refine .inr ?_
      rw [hops.2.2.1.qk, if_pos rfl, hsrc, hdest]
  · -- the flag an `SW` tests
    obtain ⟨s, hs, hp⟩ := hc.stations.held j (by rw [hst]; trivial)
    have hissued := (hc.stations.represents s j hp).state_issued_iff.mpr ⟨_, _, hst⟩
    have hclass : s.1 = .store := (hc.store_iff hp).mpr fun hw => hw hsw
    have hne := Trace.dest_ne_noReg (hc.stations.lt s j hp)
    rw [← hc.waiting_eq hne]
    exact hstore s hs hclass hissued j hp i hlw.1 hlw (hc.holds_iff.mpr hfl)

/-! ### Runs -/

/-- The invariant says of the abstract state what `RawSafe` says of the simulator. -/
theorem Pipe.RawInv.rawSafe {m : Machine} (h : a.RawInv P) (hinv : a.Inv P)
    (hm : Refines P m a) : RawSafe P m := by
  intro j r i hr hlw
  have hord := h.ordered j r i hr hlw
  rw [Pipe.StartsAfter] at hord
  rw [hm.writeback_eq, hm.execute_eq]
  constructor
  · intro hex
    obtain ⟨left, hst⟩ := hm.inState_exec_iff.mp hex
    rw [hst] at hord
    exact (hinv.writebackAt i).mpr hord.1
  · intro hex
    rcases (hinv.executeAt j).mp hex with hst | hst
    · rw [hst] at hord
      exact ⟨(hinv.writebackAt i).mpr hord.1, hord.2⟩
    · rw [hst] at hord
      exact ⟨(hinv.writebackAt i).mpr hord.1, hord.2⟩

/-- **A run whose cycles are guarded is safe.** -/
theorem rawSafe_run (P : Trace) (n : ℕ)
    (hguard : ∀ c, c < n → (run P c).finish = false → RawGuard P (run P c)) :
    RawSafe P (run P n) := by
  obtain ⟨a, ks, v, htr⟩ := exists_trajectory P
  have hraw : n ≤ n → (a n).RawInv P := by
    refine htr.induction (p := fun c b => c ≤ n → b.RawInv P) (fun _ => Pipe.rawInv_init P)
      (fun c b hb hc => hb (by omega)) (fun c hf hcov hb hc => ?_) n
    have hg := (hguard c (by omega) hf).abstract (htr.refines c) (htr.before c hf)
      (htr.issued c hf)
    exact (hb (by omega)).next (htr.inv c) hcov hg
  exact (hraw (le_refl n)).rawSafe (htr.inv n) (htr.refines n)

/-- `LW F2; ADD F4 F2 F2; SW F4`: each instruction reads what the previous one writes. -/
def chainTrace : Trace where
  insts := [⟨.lw, .f2, .f14, .noReg, 0⟩, ⟨.add, .f4, .f2, .f2, -1⟩, ⟨.sw, .f4, .f14, .noReg, 0⟩]
  length_le := by decide
  wellFormed := by decide

/-- A guarded run, up to the cycle in which it ends. -/
theorem rawSafe_chainTrace :
    (run chainTrace 12).finish = true ∧ RawSafe chainTrace (run chainTrace 12) :=
  ⟨by decide +kernel, rawSafe_run chainTrace 12 (by decide +kernel)⟩

/-- `SW F2; LW F2; LW F8; ADD F4 F2 F2`: the write-back of the `SW` clears the flag the `LW`
set, just before the `ADD` is issued. -/
def rawTrace : Trace where
  insts := [⟨.sw, .f2, .f14, .noReg, 0⟩, ⟨.lw, .f2, .f14, .noReg, 0⟩,
    ⟨.lw, .f8, .f14, .noReg, 0⟩, ⟨.add, .f4, .f2, .f2, -1⟩]
  length_le := by decide
  wellFormed := by decide

/-- **Read-after-write safety fails**: in cycle 4 the `ADD` executes, and the `LW` that writes
its sources has not been written back. -/
theorem not_rawSafe_rawTrace : ¬RawSafe rawTrace (run rawTrace 4) := by
  intro h
  have hlw : rawTrace.LastWriter 3 .f2 1 := by decide
  have hex : (run rawTrace 4).InState 3 .exec := by decide +kernel
  have hwb : ((run rawTrace 4).inst.get 1).writeback = valueEmpty := by decide +kernel
  exact (h 3 .f2 1 (by decide) hlw).1 hex hwb

end AdvancedArchitecture.Tomasulo
