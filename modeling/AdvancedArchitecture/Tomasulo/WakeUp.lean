import AdvancedArchitecture.Tomasulo.Observe

/-!
# No lost wake-up

A source that is marked at issue is waited for: the station keeps the register in `Qj` or `Qk`,
and the broadcast of the register moves it to `Vj` or `Vk`. The broadcast skips the stations that
are not `issued`, so that a tag must not outlive this state (`Entry.Quiet`); and it is made once,
so that a tag must not be taken from a flag whose writer has already been written back. In every
state of a run a tag has an older instruction in flight that writes its register, and once that
instruction is written back the tag is gone (`noLostWakeUp`).

The first is a property of the stations that the refinement relation does not mention, and is
carried through the phases beside it (`Machine.Quiet.cycle`). The second is part of `Pipe.Inv`, as
the `Producer` of a source: when a flag is up at issue some older instruction in flight writes the
register, and it stays in flight until the register is broadcast. It need not be the latest writer,
which is how a wake-up can come too early (`ReadAfterWrite.lean`), but it cannot fail to come.
-/

namespace AdvancedArchitecture.Tomasulo

variable {P : Trace} {a : Pipe} {m : Machine}

/-! ### Operands -/

/-- The two operands of an arithmetic instruction. -/
inductive Operand
  | j | k
  deriving DecidableEq, Repr

/-- `Vj` or `Vk`. -/
def Entry.v (e : Entry) : Operand → ℤ
  | .j => e.vj
  | .k => e.vk

/-- `Qj` or `Qk`. -/
def Entry.q (e : Entry) : Operand → ℤ
  | .j => e.qj
  | .k => e.qk

/-- The source register of an operand. -/
def Trace.src (P : Trace) (i : ℕ) : Operand → DataRegTag
  | .j => P.src1 i
  | .k => P.src2 i

/-- An arithmetic instruction has both of its sources. -/
theorem Trace.src_ne_noReg {i : ℕ} (hi : i < P.length) (hm : (P.type i).isMem = false)
    (o : Operand) : P.src i o ≠ .noReg := by
  cases o with
  | j => exact src1_ne_noReg hi
  | k => exact src2_ne_noReg hi hm

/-- An instruction waits for an operand. -/
def Stage.awaits : Stage → Operand → Bool
  | .issued wj _, .j => wj
  | .issued _ wk, .k => wk
  | _, _ => false

/-- Only a station that is `issued` keeps a tag. -/
def Entry.Quiet (e : Entry) : Prop := e.state ≠ .issued → ∀ o, e.q o = valueEmpty

/-- The tag of a quiet station is the register its instruction waits for, `VALUE_EMPTY` if it waits
for none. -/
theorem Represents.q_eq {k : ℕ} {e : Entry} {st : Stage} (h : Represents P k e st)
    (hq : e.Quiet) (o : Operand) :
    e.q o = if st.awaits o then findRegIndex (P.src k o) else valueEmpty := by
  cases st with
  | idle => exact absurd h id
  | retired => exact absurd h id
  | issued wj wk =>
    cases o with
    | j => exact h.2.2.1.qj
    | k => exact h.2.2.1.qk
  | exec left => exact hq (by rw [h.1]; decide) o
  | done => exact hq (by rw [show e.state = .done from h]; decide) o

/-- Until the instruction is done, the value field names the sources it does not wait for. -/
theorem Represents.v_eq {k : ℕ} {e : Entry} {st : Stage} (h : Represents P k e st)
    (hm : (P.type k).isMem = false) (hst : e.state = .issued ∨ e.state = .exec) (o : Operand) :
    e.v o = if st.awaits o then valueEmpty else findRegIndex (P.src k o) := by
  cases st with
  | idle => exact absurd h id
  | retired => exact absurd h id
  | issued wj wk =>
    cases o with
    | j => exact h.2.2.1.vj hm
    | k => exact h.2.2.1.vk hm
  | exec left =>
    cases o with
    | j => exact h.2.2.vj hm
    | k => exact h.2.2.vk hm
  | done =>
    rw [show e.state = .done from h] at hst
    rcases hst with hst | hst <;> cases hst

/-! ### Tags are only kept while waiting -/

namespace Entry

theorem quiet_unused : Entry.unused.Quiet := by
  rintro - (_ | _) <;> rfl

theorem Quiet.tick {e : Entry} (h : e.Quiet) : e.tick.Quiet := by
  rw [Entry.tick]
  split_ifs
  · intro hne o
    have hq := h hne o
    cases o <;> exact hq
  · exact h

/-- A broadcast can only remove a tag. -/
theorem Quiet.receive {e : Entry} (h : e.Quiet) (r : ℤ) : (e.receive r).Quiet := by
  rw [Entry.receive]
  by_cases hst : e.state = .issued
  · rw [if_pos hst]
    intro hne
    exact absurd hst hne
  · rw [if_neg hst]
    exact h

/-- Only a station that leaves `issued` could keep a tag it should not have. -/
theorem Quiet.setState {e : Entry} (h : e.Quiet) (hst : e.state ≠ .issued) (st : RsState) :
    (e.setState st).Quiet := by
  rintro - o
  have hq := h hst o
  cases o <;> exact hq

/-- A station starts with both of its tags gone. -/
theorem Quiet.start {e : Entry} (h : e.Quiet) (m : Machine) (c : RsClass) :
    (e.start m c).Quiet := by
  rw [Entry.start]
  split_ifs with hc
  · obtain ⟨-, -, hj, hk, -⟩ := hc
    rintro - (_ | _)
    · exact hj
    · exact hk
  · exact h

/-- A station that is filled starts at once or keeps a tag. -/
theorem quiet_fillEntry (m : Machine) (p : ℕ) : (m.fillEntry p).Quiet := by
  rw [Machine.fillEntry]
  split_ifs
  · rintro - (_ | _) <;> rfl
  · intro hne o
    by_cases hq : (fillRs m.fpReg (m.inst.get p) p (m.inst.get p).type.latency).qj = valueEmpty ∧
        (fillRs m.fpReg (m.inst.get p) p (m.inst.get p).type.latency).qk = valueEmpty
    · cases o with
      | j => exact hq.1
      | k => exact hq.2
    · exact absurd (if_neg hq) hne

end Entry

/-- Every station is quiet. -/
def Machine.Quiet (m : Machine) : Prop := ∀ s ∈ slots, (m.entry s).Quiet

theorem quiet_init (P : Trace) : (init P).Quiet := by
  intro s _
  rw [entry_init]
  exact Entry.quiet_unused

theorem entry_commit (m : Machine) : (commit m).entry = m.entry := by
  funext ⟨c, i⟩
  rw [commit]
  split_ifs
  · cases c <;> rfl
  · rfl

/-- The issue phase fills at most one station. -/
theorem Refines.entry_issue (h : Refines P m a) (s : Slot) :
    (Tomasulo.issue m).entry s = m.entry s ∨
      ∃ m' p, (Tomasulo.issue m).entry s = Machine.fillEntry m' p := by
  by_cases hlt : m.programCounter < m.instCount
  · cases hfs : findStation m (m.inst.get m.programCounter).type with
    | none =>
      rw [issue_of_none hlt hfs]
      exact .inl rfl
    | some i =>
      have hne : (m.inst.get m.programCounter).type ≠ .nop := by
        rw [h.inst]
        exact Trace.type_ne_nop (h.instCount ▸ hlt)
      have hfills := fills_setIdle (m := { m with rsIndex := some i }) hne rfl
        (findStation_some hne hfs).1
      rw [issue_of_some hlt hfs]
      have hentry := hfills.entry s
      split_ifs at hentry
      · exact .inr ⟨_, _, hentry⟩
      · exact .inl hentry
  · rw [Tomasulo.issue, if_neg hlt]
    exact .inl rfl

namespace Machine.Quiet

theorem decrement (hq : m.Quiet) : (decrement m).Quiet := by
  intro s hs
  rw [entry_decrement]
  exact (hq s hs).tick

theorem commit (hq : m.Quiet) : (commit m).Quiet := by
  intro s hs
  rw [entry_commit]
  exact hq s hs

/-- A write-back resets its own station and broadcasts to the others. -/
theorem writeback (hq : m.Quiet) (h : Refines P m a) : (writeback m).Quiet := by
  -- the broadcast is described for stations that hold instructions of the trace
  have hboth : (∃ a, Refines P (Tomasulo.writeback m) a) ∧ (Tomasulo.writeback m).Quiet := by
    rw [writeback_eq_foldl]
    refine List.foldlRecOn (motive := fun m => (∃ a, Refines P m a) ∧ m.Quiet) slots _
      ⟨⟨a, h⟩, hq⟩ fun m ⟨⟨a, h⟩, hq⟩ s hs => ⟨h.exists_slot slotBody_writeback hs, ?_⟩
    intro s' hs'
    rw [h.entry_writebackSlot hs]
    split_ifs
    · exact Entry.quiet_unused
    · exact hq s' hs'
    · exact (hq s' hs').receive _
    · exact hq s' hs'
  exact hboth.2

theorem complete (hq : m.Quiet) : (complete m).Quiet := by
  rw [complete_eq_foldl]
  refine List.foldlRecOn (motive := Machine.Quiet) slots _ hq fun m hq s hs s' hs' => ?_
  rw [entry_completeSlot hs]
  split_ifs with hc
  · exact (hq s hs).setState (by rw [hc.2.2]; decide) _
  · exact hq s' hs'

theorem depend (hq : m.Quiet) : (depend m).Quiet := by
  rw [depend_eq_foldl]
  refine List.foldlRecOn (motive := Machine.Quiet) slots _ hq fun m hq s _ s' hs' => ?_
  rw [entry_dependSlot]
  exact hq s' hs'

/-- A station is filled in state `issued`, or in `exec` with no tag. -/
theorem issue (hq : m.Quiet) (h : Refines P m a) : (issue m).Quiet := by
  intro s hs
  rcases h.entry_issue s with he | ⟨m', p, he⟩
  · rw [he]
    exact hq s hs
  · rw [he]
    exact Entry.quiet_fillEntry m' p

theorem start (hq : m.Quiet) : (start m).Quiet := by
  intro s hs
  rw [entry_start]
  exact (hq s hs).start _ _

/-- **Every phase keeps the stations quiet.** -/
theorem cycle (hq : m.Quiet) (h : Refines P m a) (hinv : a.Inv P) : (cycle m).Quiet := by
  obtain ⟨ks, v, -, hr, -, -⟩ := h.cycle hinv
  have hcounted : ({ m with cycleCounter := m.cycleCounter + 1 } : Machine).Quiet := hq
  have hback := hcounted.decrement.commit.writeback h.tick.commit
  have hbefore : (beforeIssue m).Quiet := hback.complete.depend
  intro s hs
  rw [cycle_eq, entry_checked]
  exact (hbefore.issue hr).start s hs

end Machine.Quiet

/-! ### A tag has a producer -/

namespace Pipe.Inv

variable {ks : List ℕ} {v : ℤ} {k : ℕ} {o : Operand}

/-- An instruction that waits for a source has a producer in flight. -/
theorem producer_of_awaits (h : a.Inv P) (hw : (a.stage k).awaits o = true) :
    Producer P a k (P.src k o) := by
  cases hst : a.stage k with
  | issued wj wk =>
    rw [hst] at hw
    cases o with
    | j =>
      obtain rfl : wj = true := hw
      exact h.source1 k wk hst
    | k =>
      obtain rfl : wk = true := hw
      exact h.source2 k wj hst
  | _ => rw [hst] at hw; cases hw

/-- An instruction that was issued earlier only waits for what it waited for, and was not
broadcast. -/
theorem awaits_of_next (hidle : a.stage k ≠ .idle) (hpc : a.stage a.pc = .idle)
    (hw : ((a.next P ks v).stage k).awaits o = true) :
    (a.stage k).awaits o = true ∧ ¬a.Sends P ks (P.src k o) := by
  cases hst : (a.next P ks v).stage k with
  | issued wj wk =>
    rw [hst] at hw
    rcases issue_issued (issue_of_next_issued hst) with ⟨rfl, -, -⟩ | ⟨wj', wk', hs, hj, hk⟩
    · exact absurd hpc hidle
    · rw [hs]
      cases o with
      | j => exact hj.mp hw
      | k => exact hk.mp hw
  | _ => rw [hst] at hw; cases hw

/-- **The broadcast wakes up.** While an instruction waits for an operand, no instruction in
flight that writes the register is written back. -/
theorem inFlight_of_awaits_next (h : a.Inv P) (hcov : Covers ks a) (hidle : a.stage k ≠ .idle)
    {i : ℕ} (hfl : (a.stage i).InFlight) (hwr : P.Writes i) (hdest : P.dest i = P.src k o)
    (hw : ((a.next P ks v).stage k).awaits o = true) : ((a.next P ks v).stage i).InFlight := by
  obtain ⟨-, hns⟩ := awaits_of_next hidle h.stage_pc hw
  have hnd : a.stage i ≠ .done := fun hd => hns ((sends_iff hcov _).mpr ⟨i, hd, hwr, hdest⟩)
  exact inFlight_next ((inFlight_beforeIssue hcov).mpr ⟨hfl, hnd⟩)

end Pipe.Inv

/-! ### Runs -/

namespace Trajectory

variable {a : ℕ → Pipe} {ks : ℕ → List ℕ} {v : ℕ → ℤ}

/-- In no state of a run does a tag outlive the state `issued`. -/
theorem quiet (h : Trajectory P a ks v) (n : ℕ) : (run P n).Quiet := by
  induction n with
  | zero => exact quiet_init P
  | succ n ih =>
    rw [run_succ, step]
    split_ifs
    · exact ih
    · exact ih.cycle (h.refines n) (h.inv n)

/-- Once a producer of an operand was written back, the instruction does not wait for the
operand. -/
theorem not_awaits_of_retired (h : Trajectory P a ks v) {n N k i : ℕ} {o : Operand}
    (hidle : (a n).stage k ≠ .idle) (hfl : ((a n).stage i).InFlight) (hwr : P.Writes i)
    (hdest : P.dest i = P.src k o) (hN : n ≤ N) (hret : (a N).stage i = .retired) :
    ((a N).stage k).awaits o = false := by
  have hkeep := h.induction_from (n := n)
    (p := fun b => b.stage k ≠ .idle ∧ ((b.stage k).awaits o = true → (b.stage i).InFlight))
    ⟨hidle, fun _ => hfl⟩ (fun N _ ⟨hidle, hfl⟩ => ?_) hN
  · refine Bool.eq_false_iff.mpr fun hw => ?_
    exact (hkeep.2 hw).ne_retired hret
  · refine ⟨((h.inv N).step (h.covers N) k).ne_idle hidle, fun hw => ?_⟩
    have hbefore := (Pipe.Inv.awaits_of_next hidle (h.inv N).stage_pc hw).1
    exact (h.inv N).inFlight_of_awaits_next (h.covers N) hidle (hfl hbefore) hwr hdest hw

end Trajectory

/-- **The write-back of `i` clears the tag** of operand `o` of instruction `k`: after it, no
station that holds `k` has a register there. -/
def ClearsTag (P : Trace) (n i k : ℕ) (o : Operand) : Prop :=
  ∀ N, n ≤ N → ((run P N).inst.get i).writeback ≠ valueEmpty →
    ∀ s ∈ slots, (run P N).ptr s = some k → ((run P N).entry s).q o = valueEmpty

/-- **No wake-up is lost** in the state at the end of cycle `n`. An arithmetic station that is
issued or executes has each operand either in `V` or in `Q`; one that executes has none in `Q`;
and a register in `Q` is the destination of an older instruction that was issued, is not yet
written back, and will clear the tag. -/
structure NoLostWakeUp (P : Trace) (n : ℕ) : Prop where
  exactly_one : ∀ s ∈ slots, s.1 = .addSub ∨ s.1 = .mulDiv →
    ((run P n).entry s).state = .issued ∨ ((run P n).entry s).state = .exec →
      ∀ o, Xor (((run P n).entry s).v o ≠ valueEmpty) (((run P n).entry s).q o ≠ valueEmpty)
  exec : ∀ s ∈ slots, ((run P n).entry s).state = .exec →
    ∀ o, ((run P n).entry s).q o = valueEmpty
  producer : ∀ s ∈ slots, ∀ o, ((run P n).entry s).q o ≠ valueEmpty →
    ∃ k i, (run P n).ptr s = some k ∧ i < k ∧ P.Writes i ∧
      ((run P n).entry s).q o = findRegIndex (P.dest i) ∧
      ((run P n).inst.get i).issue ≠ valueEmpty ∧
      ((run P n).inst.get i).writeback = valueEmpty ∧ ClearsTag P n i k o

theorem Trace.isMem_of_rsClass {k : ℕ} (h : P.rsClass k = .addSub ∨ P.rsClass k = .mulDiv) :
    (P.type k).isMem = false := by
  rw [Trace.rsClass] at h
  cases htype : P.type k with
  | lw | sw | nop => rw [htype] at h; rcases h with h | h <;> cases h
  | _ => rfl

/-- An operand that is not waited for is present. -/
theorem Refines.xor_operand (h : Refines P m a) (hq : m.Quiet) {s : Slot} (hs : s ∈ slots)
    (hc : s.1 = .addSub ∨ s.1 = .mulDiv)
    (hst : (m.entry s).state = .issued ∨ (m.entry s).state = .exec) (o : Operand) :
    Xor ((m.entry s).v o ≠ valueEmpty) ((m.entry s).q o ≠ valueEmpty) := by
  obtain ⟨k, hp⟩ : ∃ k, m.ptr s = some k := by
    rcases hst with hst | hst
    · exact h.exists_ptr hst (by decide)
    · exact h.exists_ptr hst (by decide)
  have hrep := h.stations.represents s k hp
  have hm : (P.type k).isMem = false := by
    rw [← h.stations.rsClass s k hp] at hc
    exact Trace.isMem_of_rsClass hc
  have hidx := findRegIndex_ne_valueEmpty (Trace.src_ne_noReg (h.stations.lt s k hp) hm o)
  rw [hrep.q_eq (hq s hs), hrep.v_eq hm hst]
  cases (a.stage k).awaits o with
  | true => exact .inr ⟨hidx, fun hv => hv rfl⟩
  | false => exact .inl ⟨hidx, fun hq => hq rfl⟩

/-- A tag is kept for an operand that the instruction of the station waits for. -/
theorem Refines.exists_awaits (h : Refines P m a) (hq : m.Quiet) {s : Slot} (hs : s ∈ slots)
    {o : Operand} (hne : (m.entry s).q o ≠ valueEmpty) :
    ∃ k, m.ptr s = some k ∧ (a.stage k).awaits o = true ∧
      (m.entry s).q o = findRegIndex (P.src k o) := by
  have hissued : (m.entry s).state = .issued := by
    by_contra hni
    exact hne (hq s hs hni o)
  obtain ⟨k, hp⟩ := h.exists_ptr hissued (by decide)
  have htag := (h.stations.represents s k hp).q_eq (hq s hs) o
  refine ⟨k, hp, ?_⟩
  by_cases hw : (a.stage k).awaits o = true
  · rw [if_pos hw] at htag
    exact ⟨hw, htag⟩
  · rw [if_neg hw] at htag
    exact absurd htag hne

/-- The write-back of a producer clears the tag. -/
theorem Trajectory.clearsTag {a : ℕ → Pipe} {ks : ℕ → List ℕ} {v : ℕ → ℤ}
    (h : Trajectory P a ks v) {n k i : ℕ} {o : Operand} (hidle : (a n).stage k ≠ .idle)
    (hfl : ((a n).stage i).InFlight) (hwr : P.Writes i) (hdest : P.dest i = P.src k o) :
    ClearsTag P n i k o := by
  intro N hN hback s hs hp
  rw [(h.refines N).writeback_eq, (h.inv N).writebackAt] at hback
  have hrep := (h.refines N).stations.represents s k hp
  rw [hrep.q_eq (h.quiet N s hs), h.not_awaits_of_retired hidle hfl hwr hdest hN hback, if_neg]
  exact Bool.false_ne_true

/-- **In every state of a run no wake-up is lost.** -/
theorem noLostWakeUp (P : Trace) (n : ℕ) : NoLostWakeUp P n := by
  obtain ⟨a, ks, v, htr⟩ := exists_trajectory P
  have hr := htr.refines n
  have hinv := htr.inv n
  have hq := htr.quiet n
  refine ⟨fun s hs hc hst o => hr.xor_operand hq hs hc hst o,
    fun s hs hst => hq s hs (by rw [hst]; decide), fun s hs o hne => ?_⟩
  obtain ⟨k, hp, hw, htag⟩ := hr.exists_awaits hq hs hne
  obtain ⟨i, hik, hfl, hwr, hdest⟩ := hinv.producer_of_awaits hw
  have hidle := (hr.stations.represents s k hp).inFlight.ne_idle
  obtain ⟨hissue, hback⟩ := (hr.recorded_iff hinv).mpr hfl
  refine ⟨k, i, hp, hik, hwr, ?_, hissue, hback, htr.clearsTag hidle hfl hwr hdest⟩
  rw [htag, hdest]

end AdvancedArchitecture.Tomasulo
