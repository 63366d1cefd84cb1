import AdvancedArchitecture.Tomasulo.Observe

/-!
# Write after write

Two writers of one register should be written back in program order, so that a register ends
with the value of its last writer (`WawOrdered`). `check_reg` enforces this for an
instruction that is started by the start tests, but an arithmetic instruction whose sources
are present starts at issue, where nothing compares it with the writers in flight. Once it
does, the cycles left decide: `WawGuard` says that a writer in `exec` has fewer cycles left
than every younger writer of its register that has started, and `wawOrdered_iff` that the
order is kept exactly when this holds at the end of every cycle.

Under the guard a writer that is done has its younger writers behind it (`Pipe.WawInv`), and a
run goes on long enough for the converse: a writer that is not ahead is written back together
with the younger one or after it. The values of the registers need no guard while they are
followed (`Pipe.ValueInv`), since a register has the value of whichever writer was written back
last; the order says which one that is.
-/

namespace AdvancedArchitecture.Tomasulo

variable {P : Trace} {a : Pipe} {ks : List ℕ} {v : ℤ}

/-! ### The property and the guard -/

/-- `i` and `j` are writers of one register, `i` before `j`. -/
def Trace.SameDest (P : Trace) (i j : ℕ) : Prop :=
  i < j ∧ j < P.length ∧ P.Writes i ∧ P.Writes j ∧ P.dest i = P.dest j

instance (P : Trace) (i j : ℕ) : Decidable (P.SameDest i j) := by
  unfold Trace.SameDest; infer_instance

/-- **Write-after-write order**: two writers of one register are written back in program
order, and when the loop ends every register that is written holds the result of its last
writer. -/
def WawOrdered (P : Trace) : Prop :=
  (∀ n i j, P.SameDest i j → ((run P n).inst.get i).writeback ≠ valueEmpty →
    ((run P n).inst.get j).writeback ≠ valueEmpty →
      ((run P n).inst.get i).writeback < ((run P n).inst.get j).writeback) ∧
  ∀ n, (run P n).finish = true → ∀ k, k < P.length → P.Writes k →
    (∀ j, ¬P.SameDest k j) →
      (readReg (run P n).fpReg (findRegIndex (P.dest k))).value = memOffset + k

/-- **A writer in `exec` is ahead of the younger writers of its register**: each of them is
not issued, or waits, or is in `exec` with more cycles left. -/
def WawGuard (P : Trace) (m : Machine) : Prop :=
  ∀ s ∈ slots, (m.entry s).state = .exec → ∀ i ∈ m.ptr s, ∀ j, j < P.length →
    P.SameDest i j →
      (m.inst.get j).issue = valueEmpty ∨ m.InState j .issued ∨
      ∃ s' ∈ slots, m.ptr s' = some j ∧ (m.entry s').state = .exec ∧
        (m.entry s).cycleLast < (m.entry s').cycleLast

instance (P : Trace) (m : Machine) : Decidable (WawGuard P m) := by
  unfold WawGuard; infer_instance

namespace Pipe

/-- An instruction that has not started, or has more than `left` cycles left. -/
def Behind (left : ℤ) : Stage → Prop
  | .idle | .issued _ _ => True
  | .exec left' => left < left'
  | .done | .retired => False

/-- The guard on the instruction-level machine. -/
def WawGuard (P : Trace) (a : Pipe) : Prop :=
  ∀ i j left, P.SameDest i j → a.stage i = .exec left → Behind left (a.stage j)

/-- **The invariant of a guarded run.** -/
structure WawInv (P : Trace) (a : Pipe) : Prop where
  done : ∀ i j, P.SameDest i j → a.stage i = .done → Behind 0 (a.stage j)
  retired : ∀ i j, P.SameDest i j → a.stage i = .retired → a.stage j = .retired →
    a.writebackAt i < a.writebackAt j

theorem wawInv_init (P : Trace) : (init : Pipe).WawInv P where
  done _ _ _ h := by cases h
  retired _ _ _ h := by cases h

/-- An instruction that is behind by one cycle is behind after it. -/
theorem Behind.step {k : ℕ} {s s' : Stage} (h : Behind 1 s) (hlat : 0 < P.latency k)
    (hstep : Stage.Step P k s s') : Behind 0 s' := by
  cases hstep with
  | idle => trivial
  | issue _ => trivial
  | issueStart => exact hlat
  | wait _ _ => trivial
  | start => exact hlat
  | exec _ =>
    have hlt : (1 : ℤ) < _ := h
    change (0 : ℤ) < _
    omega
  | complete => exact absurd h (lt_irrefl _)
  | retire => exact h
  | retired => exact h

namespace WawInv

/-- **One cycle.** Under the guard the writers of a register leave `exec` in program order, and what
is done is written back in the next cycle. -/
theorem next (h : a.WawInv P) (hinv : a.Inv P) (hcov : Covers ks a) (hg : a.WawGuard P) :
    (a.next P ks v).WawInv P := by
  refine ⟨fun i j hij hi => ?_, fun i j hij hi hj => ?_⟩
  · have hi' := (hinv.step (v := v) hcov i).done_iff.mp hi
    have hlat := Trace.two_le_latency hij.2.1
    exact (hg i j 1 hij hi').step (by omega) (hinv.step hcov j)
  · have hwi := next_writebackAt (P := P) hcov v i
    have hwj := next_writebackAt (P := P) hcov v j
    rcases (hinv.step (v := v) hcov i).retired_iff.mp hi with hsi | hsi
    · -- `i` is written back in this cycle, so `j` was not done before it
      have hb := h.done i j hij hsi
      rcases (hinv.step (v := v) hcov j).retired_iff.mp hj with hsj | hsj
      · rw [hsj] at hb
        exact absurd hb id
      · rw [hsj] at hb
        exact absurd hb id
    · rw [hsi, if_neg (by decide)] at hwi
      rcases (hinv.step (v := v) hcov j).retired_iff.mp hj with hsj | hsj
      · rw [hsj, if_pos rfl] at hwj
        have hle := hinv.writeback_le i
        rw [hwi, hwj]
        omega
      · rw [hsj, if_neg (by decide)] at hwj
        rw [hwi, hwj]
        exact h.retired i j hij hsi hsj

end WawInv

/-! ### Values -/

/-- **The value of a register** that no instruction in flight writes: the result of the
writer that was written back last, if one was written back strictly last. -/
def ValueInv (P : Trace) (a : Pipe) : Prop :=
  ∀ k, a.stage k = .retired → P.Writes k →
    (∀ j, (a.stage j).InFlight → P.Writes j → P.dest j ≠ P.dest k) →
    (∀ j, j ≠ k → a.stage j = .retired → P.Writes j → P.dest j = P.dest k →
      a.writebackAt j < a.writebackAt k) →
    a.value (P.dest k) = memOffset + k

theorem valueInv_init (P : Trace) : (init : Pipe).ValueInv P := by
  intro k hk
  cases hk

/-- A write-back to the register makes its instruction the last one; without one nothing changes. -/
theorem ValueInv.next (h : a.ValueInv P) (hinv : a.Inv P) (hcov : Covers ks a) :
    (a.next P ks v).ValueInv P := by
  intro k hk hw hfree hlast
  -- no writer of the register is issued in this cycle
  have hissue : (a.next P ks v).value (P.dest k) =
      (a.beforeIssue P ks).value (P.dest k) := by
    rw [next_value, issue_value, if_neg]
    rintro ⟨hc, hwpc, hdest⟩
    have hidle : (a.next P ks v).stage a.pc ≠ .idle := by
      intro hid
      have hle := (hinv.next_idle_iff hcov _).mp hid
      rw [next_pc, if_pos hc] at hle
      omega
    have hret : (a.next P ks v).stage a.pc ≠ .retired := by
      intro hr
      have hold := (hinv.step (v := v) hcov a.pc).retired_iff.mp hr
      rw [hinv.stage_pc] at hold
      rcases hold with h | h <;> cases h
    rw [beforeIssue_pc] at hwpc hdest
    exact hfree a.pc (Stage.inFlight_iff.mpr ⟨hidle, hret⟩) hwpc hdest
  rw [hissue]
  rcases beforeIssue_value (P := P) ks a (P.dest k) with ⟨hns, hval⟩ | ⟨j, -, hjd, hjw, hjt, hval⟩
  · rw [hval]
    have hnd : ∀ j, P.Writes j → P.dest j = P.dest k → a.stage j ≠ .done := fun j hjw hjt hjd =>
      hns ((Inv.sends_iff hcov _).mpr ⟨j, hjd, hjw, hjt⟩)
    have hback : ∀ j, P.Writes j → P.dest j = P.dest k →
        (a.next P ks v).stage j = .retired → a.stage j = .retired := by
      intro j hjw hjt hj
      exact ((hinv.step (v := v) hcov j).retired_iff.mp hj).resolve_left (hnd j hjw hjt)
    have hwb : ∀ j, a.stage j = .retired →
        (a.next P ks v).writebackAt j = a.writebackAt j := fun j hj =>
      (hinv.retired_next hcov hj).2
    have hka := hback k hw rfl hk
    refine h k hka hw (fun j hfl hjw hjt => ?_) (fun j hjk hj hjw hjt => ?_)
    · exact hfree j (Inv.inFlight_next ((Inv.inFlight_beforeIssue hcov).mpr
        ⟨hfl, hnd j hjw hjt⟩)) hjw hjt
    · have hlt := hlast j hjk (hinv.retired_next hcov hj).1 hjw hjt
      rwa [hwb j hj, hwb k hka] at hlt
  · -- the register is written back in this cycle, by `k` since `k` was written back last
    have hjk : j = k := by
      by_contra hne
      have hret := (hinv.step (v := v) hcov j).retired_iff.mpr (.inl hjd)
      have hlt := hlast j hne hret hjw hjt
      have hle := (hinv.next (v := v) hcov).writeback_le k
      rw [next_writebackAt hcov v j, if_pos hjd] at hlt
      rw [next_cycle] at hle
      omega
    rw [hval, hjk]

end Pipe

/-! ### Runs -/

/-- The guard can be read off the stations. -/
theorem Refines.wawGuard_iff {m : Machine} (h : Refines P m a) (hinv : a.Inv P) :
    WawGuard P m ↔ a.WawGuard P := by
  constructor
  · intro hg i j left hij hi
    obtain ⟨s, hs, hp, hst⟩ := h.inState_exec_iff.mpr ⟨left, hi⟩
    have hrep := h.stations.represents s i hp
    rw [hi] at hrep
    rcases hg s hs hst i hp j hij.2.1 hij with hidle | hissued | ⟨s', -, hp', hst', hlt⟩
    · rw [h.issue_eq] at hidle
      have hj : a.stage j = .idle := by
        by_contra hne
        exact (hinv.issueAt_iff j).mpr hne hidle
      rw [hj]
      trivial
    · obtain ⟨wj, wk, hj⟩ := h.inState_issued_iff.mp hissued
      rw [hj]
      trivial
    · have hrep' := h.stations.represents s' j hp'
      obtain ⟨left', hj⟩ := hrep'.state_exec_iff.mp hst'
      rw [hj] at hrep' ⊢
      rw [hrep.2.1, hrep'.2.1] at hlt
      exact hlt
  · intro hg s hs hst i hp j _ hij
    have hrep := h.stations.represents s i hp
    obtain ⟨left, hi⟩ := hrep.state_exec_iff.mp hst
    rw [hi] at hrep
    have hb := hg i j left hij hi
    cases hj : a.stage j with
    | idle =>
      refine .inl ?_
      rw [h.issue_eq]
      by_contra hne
      exact (hinv.issueAt_iff j).mp hne hj
    | issued wj wk => exact .inr (.inl (h.inState_issued_iff.mpr ⟨wj, wk, hj⟩))
    | exec left' =>
      obtain ⟨s', hs', hp', hst'⟩ := h.inState_exec_iff.mpr ⟨left', hj⟩
      have hrep' := h.stations.represents s' j hp'
      rw [hj] at hrep' hb
      refine .inr (.inr ⟨s', hs', hp', hst', ?_⟩)
      rw [hrep.2.1, hrep'.2.1]
      exact hb
    | done =>
      rw [hj] at hb
      exact absurd hb id
    | retired =>
      rw [hj] at hb
      exact absurd hb id

section Trajectory

variable {a : ℕ → Pipe} {ks : ℕ → List ℕ} {v : ℕ → ℤ}

/-- Under the guard the writers are in order at every time of a run. -/
theorem Trajectory.wawInv (h : Trajectory P a ks v) (hg : ∀ n, (a n).WawGuard P) (n : ℕ) :
    (a n).WawInv P :=
  h.induction (p := fun _ b => b.WawInv P) (Pipe.wawInv_init P) (fun _ _ hb => hb)
    (fun c _ hcov hb => hb.next (h.inv c) hcov (hg c)) n

theorem Trajectory.valueInv (h : Trajectory P a ks v) (n : ℕ) : (a n).ValueInv P :=
  h.induction (p := fun _ b => b.ValueInv P) (Pipe.valueInv_init P) (fun _ _ hb => hb)
    (fun c _ hcov hb => hb.next (h.inv c) hcov) n

/-- Where the guard fails, the younger writer is written back first. -/
theorem Trajectory.exists_unordered (h : Trajectory P a ks v) {n : ℕ}
    (hg : ¬(a n).WawGuard P) :
    ∃ N i j, P.SameDest i j ∧ (a N).stage i = .retired ∧ (a N).stage j = .retired ∧
      (a N).writebackAt j ≤ (a N).writebackAt i := by
  rw [Pipe.WawGuard] at hg
  push Not at hg
  obtain ⟨i, j, left, hij, hi, hb⟩ := hg
  obtain ⟨M, hM, hri, hwi⟩ := h.retired_of_exec hi
  have hleft := ((h.inv n).exec_range i left hi).1
  -- `j` is written back no later than `i`
  obtain ⟨M', hrj, hwj⟩ : ∃ M', (a M').stage j = .retired ∧
      (a M').writebackAt j ≤ (a n).cycle + left + 1 := by
    cases hj : (a n).stage j with
    | idle => rw [hj] at hb; exact absurd trivial hb
    | issued wj wk => rw [hj] at hb; exact absurd trivial hb
    | exec left' =>
      rw [hj] at hb
      have hle : ¬left < left' := hb
      obtain ⟨M', -, hr, hw⟩ := h.retired_of_exec hj
      exact ⟨M', hr, by omega⟩
    | done =>
      obtain ⟨hr, hw⟩ := h.retired_of_done hj
      exact ⟨n + 1, hr, by omega⟩
    | retired =>
      have hle := (h.inv n).writeback_le j
      exact ⟨n, hj, by omega⟩
  obtain ⟨hri', hwi'⟩ := h.retired_of_le hri (Nat.le_max_left M M')
  obtain ⟨hrj', hwj'⟩ := h.retired_of_le hrj (Nat.le_max_right M M')
  exact ⟨max M M', i, j, hij, hri', hrj', by omega⟩

end Trajectory

/-- **Writers of one register are written back in program order exactly when, at the end of
every cycle, a writer in `exec` is ahead of the younger ones.** -/
theorem wawOrdered_iff (P : Trace) : WawOrdered P ↔ ∀ n, WawGuard P (run P n) := by
  obtain ⟨a, ks, v, htr⟩ := exists_trajectory P
  constructor
  · rintro ⟨hord, -⟩ n
    rw [(htr.refines n).wawGuard_iff (htr.inv n)]
    by_contra hg
    -- a writer that is not ahead comes out in the wrong order
    obtain ⟨N, i, j, hij, hi, hj, hle⟩ := htr.exists_unordered hg
    have hlt := hord N i j hij
    rw [(htr.refines N).writeback_eq, (htr.refines N).writeback_eq, (htr.inv N).writebackAt,
      (htr.inv N).writebackAt] at hlt
    exact absurd (hlt hi hj) (by omega)
  · intro hg
    have hguard : ∀ n, (a n).WawGuard P := fun n =>
      ((htr.refines n).wawGuard_iff (htr.inv n)).mp (hg n)
    refine ⟨fun n i j hij hi hj => ?_, fun n hf k hk hw hlast => ?_⟩
    · rw [(htr.refines n).writeback_eq, (htr.inv n).writebackAt] at hi hj
      rw [(htr.refines n).writeback_eq, (htr.refines n).writeback_eq]
      exact (htr.wawInv hguard n).retired i j hij hi hj
    · -- all instructions are written back, and `k` is the last writer of its register
      have hall : ∀ j, j < P.length → (a n).stage j = .retired := fun j hj =>
        (htr.inv n).committed j (hj.trans_le ((htr.finished n).mp hf).2)
      rw [(htr.refines n).value _ (Trace.dest_ne_noReg hk)]
      refine htr.valueInv n k (hall k hk) hw (fun j hfl _ _ => ?_) (fun j hjk hjr hjw hjt => ?_)
      · exact absurd (hall j ((htr.inv n).lt_length hfl)) hfl.ne_retired
      · have hjlt : j < k ∨ k < j := Nat.lt_or_gt_of_ne hjk
        rcases hjlt with hlt | hlt
        · exact (htr.wawInv hguard n).retired j k ⟨hlt, hk, hjw, hw, hjt⟩
            (hall j (hlt.trans hk)) (hall k hk)
        · have hjl : j < P.length := by
            by_contra hge
            have hidle := ((htr.inv n).idle_iff j).mpr ((htr.inv n).pc_le.trans (by omega))
            rw [hjr] at hidle
            cases hidle
          exact absurd ⟨hlt, hjl, hw, hjw, hjt.symm⟩ (hlast j)

/-- `SUB F4 F6 F6; ADD F2 F4 F4; SUB F2 F6 F6`: the `ADD` waits for the first `SUB`, and the
second `SUB` starts at issue. -/
def wawTrace : Trace where
  insts := [⟨.sub, .f4, .f6, .f6, -1⟩, ⟨.add, .f2, .f4, .f4, -1⟩, ⟨.sub, .f2, .f6, .f6, -1⟩]
  length_le := by decide
  wellFormed := by decide

/-- **Write-after-write order fails**: the second `SUB` is written back in cycle 6, the `ADD`
in cycle 7. -/
theorem not_wawOrdered_wawTrace : ¬WawOrdered wawTrace := by
  rintro ⟨hord, -⟩
  have hij : wawTrace.SameDest 1 2 := by decide
  have hi : ((run wawTrace 9).inst.get 1).writeback = 7 := by decide +kernel
  have hj : ((run wawTrace 9).inst.get 2).writeback = 6 := by decide +kernel
  have hlt := hord 9 1 2 hij (by rw [hi]; decide) (by rw [hj]; decide)
  rw [hi, hj] at hlt
  exact absurd hlt (by decide)

end AdvancedArchitecture.Tomasulo
