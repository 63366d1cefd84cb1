import Mathlib.Data.Finset.Card
import AdvancedArchitecture.Tomasulo.Invariant
import AdvancedArchitecture.Tomasulo.Refinement

/-!
# Every run of the simulator is a run of the instruction-level machine

The issue phase and the start tests refine their abstract counterparts, hence so does the
loop body of `main`. `Trajectory` collects an abstract run beside the run of the simulator on
a trace, and `exists_trajectory` says that every trace has one: a property of all runs is
proved about trajectories and read off the simulator through `Refines`.

For issue the question is whether a station is free. The simulator searches an array, the
abstract machine counts the instructions in flight of a class, and the two agree because the
stations in use and the instructions in flight correspond (`Refines.card_lt_iff`). For the
start tests it is `check_reg`, which reads the commit cycles of the older instructions.

A trajectory makes a cycle in each round until the simulation has finished, and then stays
where it is; `Trajectory.induction` is the induction along it, with the invariant and the
coverage of the write-backs at hand in the step.
-/

namespace AdvancedArchitecture.Tomasulo

variable {P : Trace} {m : Machine} {a : Pipe}

/-! ### Issue -/

/-- The search of a station array answers with an unused station of it. -/
theorem findIdle_some {α : Type} [Inhabited α] {n : ℕ} {state : α → RsState} {rs : Table α n}
    {i : ℕ} (h : findIdle state rs = some i) : i < n ∧ state (rs.get i) = .unused := by
  have hp := List.find?_some h
  have hm := List.mem_of_find?_eq_some h
  exact ⟨List.mem_range.mp hm, by simpa using hp⟩

theorem findIdle_none {α : Type} [Inhabited α] {n : ℕ} {state : α → RsState} {rs : Table α n}
    (h : findIdle state rs = none) {i : ℕ} (hi : i < n) : state (rs.get i) ≠ .unused := by
  simpa using List.find?_eq_none.mp h i (List.mem_range.mpr hi)

/-- The search made for an operation answers with an unused station of its class. -/
theorem findStation_some {op : InstOp} (hop : op ≠ .nop) {i : ℕ}
    (h : findStation m op = some i) :
    i < stationsPerClass ∧ (m.entry (op.rsClass, i)).state = .unused := by
  cases op <;> first | exact absurd rfl hop | exact findIdle_some h

/-- If it fails, the class is full. -/
theorem findStation_none {op : InstOp} (hop : op ≠ .nop) (h : findStation m op = none) {i : ℕ}
    (hi : i < stationsPerClass) : (m.entry (op.rsClass, i)).state ≠ .unused := by
  cases op <;> first | exact absurd rfl hop | exact findIdle_none h hi

theorem Represents.state_ne_unused {k : ℕ} {e : Entry} {st : Stage}
    (h : Represents P k e st) : e.state ≠ .unused := by
  have hfl := h.inFlight
  rw [h.state_eq]
  cases st <;> first | exact absurd hfl id | exact RsState.noConfusion

/-- The unused stations are those that point to no instruction. -/
theorem Refines.unused_iff (h : Refines P m a) (s : Slot) :
    (m.entry s).state = .unused ↔ m.ptr s = none := by
  refine ⟨fun hs => ?_, h.stations.unused s⟩
  cases hp : m.ptr s with
  | none => rfl
  | some k => exact absurd hs (h.stations.represents s k hp).state_ne_unused

/-- A station in use holds an instruction. -/
theorem Refines.exists_ptr (h : Refines P m a) {s : Slot} {st : RsState}
    (hst : (m.entry s).state = st) (hne : st ≠ .unused) : ∃ k, m.ptr s = some k := by
  rw [← hst, ne_eq, h.unused_iff] at hne
  exact Option.ne_none_iff_exists'.mp hne

/-- The instructions of a class in flight are as many as its stations in use. -/
theorem Refines.card_inClass (h : Refines P m a) (c : RsClass) :
    (a.inClass P c).card =
      ((Finset.range stationsPerClass).filter fun i => (m.ptr (c, i)).isSome).card := by
  symm
  refine Finset.card_bij (fun i _ => (m.ptr (c, i)).getD 0) (fun i hi => ?_)
    (fun i hi j hj hij => ?_) (fun k hk => ?_)
  · obtain ⟨-, hi⟩ := Finset.mem_filter.mp hi
    obtain ⟨k, hk⟩ := Option.isSome_iff_exists.mp hi
    rw [hk, Option.getD_some]
    refine Finset.mem_filter.mpr ⟨Finset.mem_range.mpr (h.stations.lt _ k hk),
      h.stations.rsClass _ k hk, (h.stations.represents _ k hk).inFlight⟩
  · obtain ⟨k, hk⟩ := Option.isSome_iff_exists.mp (Finset.mem_filter.mp hi).2
    obtain ⟨k', hk'⟩ := Option.isSome_iff_exists.mp (Finset.mem_filter.mp hj).2
    have hkk : k = k' := by simpa [hk, hk'] using hij
    subst hkk
    exact congrArg Prod.snd (h.stations.unique _ _ k hk hk')
  · obtain ⟨-, hcl, hfl⟩ := Finset.mem_filter.mp hk
    obtain ⟨⟨c', i⟩, hs, hp⟩ := h.stations.held k hfl
    have hcc : c = c' := hcl.symm.trans (h.stations.rsClass _ k hp)
    subst hcc
    have hpi : m.ptr (c, i) = some k := hp
    exact ⟨i, Finset.mem_filter.mpr ⟨Finset.mem_range.mpr (mem_slots.mp hs), by rw [hpi]; rfl⟩,
      by rw [hpi, Option.getD_some]⟩

/-- **A free station.** Fewer than three instructions of a class are in flight exactly when one of
its stations is unused, since the stations in use and the instructions in flight correspond one to
one. -/
theorem Refines.card_lt_iff (h : Refines P m a) (c : RsClass) :
    (a.inClass P c).card < stationsPerClass ↔
      ∃ i, i < stationsPerClass ∧ (m.entry (c, i)).state = .unused := by
  rw [h.card_inClass]
  constructor
  · intro hlt
    by_contra hall
    have hfull : ((Finset.range stationsPerClass).filter
        fun i => (m.ptr (c, i)).isSome) = Finset.range stationsPerClass := by
      refine Finset.filter_true_of_mem fun i hi => ?_
      by_contra hn
      exact hall ⟨i, Finset.mem_range.mp hi,
        (h.unused_iff _).mpr (by simpa using hn)⟩
    rw [hfull, Finset.card_range] at hlt
    exact lt_irrefl _ hlt
  · rintro ⟨i, hi, hs⟩
    have hss : ((Finset.range stationsPerClass).filter fun i => (m.ptr (c, i)).isSome) ⊂
        Finset.range stationsPerClass := by
      refine Finset.filter_ssubset.mpr ⟨i, Finset.mem_range.mpr hi, ?_⟩
      rw [(h.unused_iff _).mp hs]
      exact Bool.false_ne_true
    have hcard := Finset.card_lt_card hss
    rwa [Finset.card_range] at hcard

/-- The entry `setIdle` leaves at the station it fills. -/
def Machine.fillEntry (m : Machine) (p : ℕ) : Entry :=
  let i := m.inst.get p
  if i.type.isMem then
    { state := .issued, instPtr := some p, op := i.type, destTag := i.destTag
      vj := valueEmpty, vk := valueEmpty, qj := valueEmpty, qk := valueEmpty
      cycleLast := i.type.latency }
  else (fillRs m.fpReg i p i.type.latency).toEntry

/-- The machine `setIdle` leaves, given the station it fills. -/
structure Fills (m m' : Machine) (s : Slot) (p : ℕ) : Prop where
  instCount : m'.instCount = m.instCount
  cycleCounter : m'.cycleCounter = m.cycleCounter
  commitCount : m'.commitCount = m.commitCount
  inst : m'.inst = m.inst.set p { m.inst.get p with issue := m.cycleCounter }
  entry : ∀ s', m'.entry s' = if s' = s then m.fillEntry p else m.entry s'
  store : (m.inst.get p).type = .sw → m'.fpReg = m.fpReg
  claim : (m.inst.get p).type ≠ .sw → ∃ v,
    m'.fpReg = writeReg m.fpReg (findRegIndex (m.inst.get p).destTag) (claimReg p v)

/-- The dispatch of the issue phase rewrites one station of the class of the instruction. -/
theorem setIdle_eq_modifyRs {op : InstOp} (hne : op ≠ .nop) {p i : ℕ}
    (hop : (m.inst.get p).type = op) :
    ∃ f g reg, setIdle m i p op =
        ((m.withInst (m.inst.set p { m.inst.get p with issue := m.cycleCounter })).withReg
          reg).modifyRs (op.rsClass, i) f g ∧
      (op = .sw → reg = m.fpReg) ∧
      (op ≠ .sw → ∃ v,
        reg = writeReg m.fpReg (findRegIndex (m.inst.get p).destTag) (claimReg p v)) ∧
      (op.isMem = true → ∀ rs, (f rs).toEntry = m.fillEntry p) ∧
      (op.isMem = false → ∀ rs, (g rs).toEntry = m.fillEntry p) := by
  cases op with
  | nop => exact absurd rfl hne
  | lw =>
    refine ⟨fun _ => _, id, _, rfl, fun h => (by cases h), fun _ => ⟨_, rfl⟩, fun _ _ => ?_,
      fun h => (by cases h)⟩
    simp only [Machine.fillEntry, hop]
    rfl
  | sw =>
    refine ⟨fun _ => _, id, _, rfl, fun _ => rfl, fun h => absurd rfl h, fun _ _ => ?_,
      fun h => (by cases h)⟩
    simp only [Machine.fillEntry, hop]
    rfl
  | add | sub =>
    refine ⟨id, fun _ => _, _, rfl, fun h => (by cases h), fun _ => ⟨_, rfl⟩,
      fun h => (by cases h), fun _ _ => ?_⟩
    simp only [Machine.fillEntry, hop]
    rfl
  | mul | div =>
    refine ⟨id, fun _ => _, _, rfl, fun h => (by cases h), fun _ => ⟨_, rfl⟩,
      fun h => (by cases h), fun _ _ => ?_⟩
    simp only [Machine.fillEntry, hop]
    rfl

/-- The loads and stores are the operations with a `RS_LS` station. -/
theorem InstOp.isMem_iff {op : InstOp} (hne : op ≠ .nop) :
    op.isMem = true ↔ op.rsClass = .load ∨ op.rsClass = .store := by
  cases op <;> simp [InstOp.isMem, InstOp.rsClass] at hne ⊢

/-- `set_IDLE_to_ISSUED` fills the station that was found, whichever array it is in. -/
theorem fills_setIdle {op : InstOp} (hne : op ≠ .nop) {p i : ℕ}
    (hop : (m.inst.get p).type = op) (hi : i < stationsPerClass) :
    Fills m (setIdle m i p op) (op.rsClass, i) p := by
  obtain ⟨f, g, reg, heq, hsw, hreg, hf, hg⟩ := setIdle_eq_modifyRs (i := i) hne hop
  have hcore := ((m.withInst (m.inst.set p
    { m.inst.get p with issue := m.cycleCounter })).withReg reg).sameCore_modifyRs
      (op.rsClass, i) f g
  rw [heq]
  refine ⟨hcore.instCount, hcore.cycleCounter, hcore.commitCount, hcore.inst, fun s' => ?_,
    fun h => ?_, fun h => ?_⟩
  · rw [Machine.entry_modifyRs (h := fun _ => m.fillEntry p) hi (fun hc => ?_) (fun hc => ?_),
      Machine.entry_withReg, Machine.entry_withInst]
    · exact hf ((InstOp.isMem_iff hne).mpr hc)
    · refine hg (Bool.eq_false_iff.mpr fun hm => ?_)
      rcases (InstOp.isMem_iff hne).mp hm with h | h <;> rcases hc with h' | h' <;>
        rw [h] at h' <;> cases h'
  · exact hcore.fpReg.trans (hsw (hop ▸ h))
  · obtain ⟨v, hv⟩ := hreg (hop ▸ h)
    exact ⟨v, hcore.fpReg.trans hv⟩

/-- The new station holds what the entry stage of its instruction says. -/
theorem Refines.represents_fillEntry (h : Refines P m a) (hlt : a.pc < P.length) :
    Represents P a.pc (m.fillEntry a.pc) (a.entryStage P a.pc) := by
  have hinst := h.inst a.pc
  unfold Machine.fillEntry Pipe.entryStage
  simp only [hinst, Pipe.instReg]
  by_cases hm : (P.type a.pc).isMem = true
  · rw [if_pos hm, if_pos hm]
    -- a load or store has no operand fields
    refine ⟨rfl, rfl, ⟨rfl, rfl, fun h => ?_, fun h => ?_⟩, fun _ => ⟨rfl, rfl⟩⟩
    · rw [hm] at h
      cases h
    · rw [hm] at h
      cases h
  · have hmem : (P.type a.pc).isMem = false := Bool.eq_false_iff.mpr hm
    have hw1 := h.waiting _ (Trace.src1_ne_noReg hlt)
    have hw2 := h.waiting _ (Trace.src2_ne_noReg hlt hmem)
    have hn1 := findRegIndex_ne_valueEmpty (Trace.src1_ne_noReg hlt)
    have hn2 := findRegIndex_ne_valueEmpty (Trace.src2_ne_noReg hlt hmem)
    rw [if_neg hm, if_neg hm]
    unfold fillRs RS.toEntry
    simp only [hw1, hw2]
    cases h1 : a.waiting (P.src1 a.pc) <;> cases h2 : a.waiting (P.src2 a.pc)
    · -- both sources are present, and the instruction starts
      simp only [Bool.false_eq_true, if_false, and_self, if_true]
      exact ⟨rfl, rfl, ⟨rfl, rfl, fun _ => rfl, fun _ => rfl⟩⟩
    all_goals
      simp only [Bool.false_eq_true, Bool.true_eq_false, if_false, if_true, hn1, hn2, and_false,
        false_and, and_self]
      exact ⟨rfl, rfl, ⟨rfl, rfl, fun _ => rfl, fun _ => rfl⟩,
        fun h => absurd h (by rw [hmem]; decide)⟩

theorem Machine.fillEntry_fields (m : Machine) (p : ℕ) :
    (m.fillEntry p).instPtr = some p ∧ (m.fillEntry p).op = (m.inst.get p).type ∧
      (m.fillEntry p).destTag = (m.inst.get p).destTag := by
  simp only [Machine.fillEntry]
  split_ifs
  · exact ⟨rfl, rfl, rfl⟩
  · exact ⟨rfl, rfl, rfl⟩

/-- The registers after issue, for some value of the claimed one. -/
theorem Refines.fpReg_fills {m' : Machine} {s : Slot} (h : Refines P m a) (hc : a.CanIssue P)
    (hf : Fills m m' s a.pc) :
    ∃ v, ∀ t, t ≠ .noReg →
      (readReg m'.fpReg (findRegIndex t)).waiting = (a.issue P v).waiting t ∧
      (readReg m'.fpReg (findRegIndex t)).value = (a.issue P v).value t := by
  have htype : (m.inst.get a.pc).type = P.type a.pc := by rw [h.inst]; rfl
  have hdest : (m.inst.get a.pc).destTag = P.dest a.pc := by rw [h.inst]; rfl
  have hd := Trace.dest_ne_noReg hc.1
  by_cases hsw : P.type a.pc = .sw
  · have hnw : ¬P.Writes a.pc := fun hw => hw hsw
    refine ⟨0, fun t ht => ?_⟩
    rw [hf.store (htype.trans hsw), h.waiting t ht, h.value t ht, Pipe.issue, if_pos hc]
    simp only [if_neg hnw, and_self]
  · have hw : P.Writes a.pc := hsw
    obtain ⟨v, hv⟩ := hf.claim (by rw [htype]; exact hsw)
    refine ⟨v, fun t ht => ?_⟩
    rw [hv, hdest, readReg_writeReg hd, Pipe.issue, if_pos hc]
    simp only [if_pos hw, Function.update_apply]
    split_ifs
    · exact ⟨rfl, rfl⟩
    · exact ⟨h.waiting t ht, h.value t ht⟩

/-- Filling a free station with the next instruction. -/
theorem Refines.fills {m' : Machine} {s : Slot} (h : Refines P m a) (hidle : a.stage a.pc = .idle)
    (hc : a.CanIssue P) (hs : s ∈ slots) (hcl : P.rsClass a.pc = s.1)
    (hfree : (m.entry s).state = .unused) (hf : Fills m m' s m.programCounter) :
    ∃ v, Refines P { m' with programCounter := m.programCounter + 1 } (a.issue P v) := by
  rw [h.programCounter] at hf ⊢
  obtain ⟨v, hreg⟩ := h.fpReg_fills hc hf
  obtain ⟨hptr, hop, hdest⟩ := m.fillEntry_fields a.pc
  -- an instruction that is not issued is in no station
  have hnot : ∀ s', m.ptr s' ≠ some a.pc := by
    intro s' hp
    have hr := h.stations.represents s' a.pc hp
    rw [hidle] at hr
    exact hr
  have hstage : ∀ k, (a.issue P v).stage k =
      if k = a.pc then a.entryStage P a.pc else a.stage k := by
    intro k
    rw [Pipe.issue_stage]
    split_ifs with hk hpc hpc
    · rw [hpc]
    · exact absurd hk.1 hpc
    · exact absurd ⟨hpc, hc⟩ hk
    · rfl
  obtain ⟨hcycle, hcount, he, hwb, hcm⟩ := Pipe.issue_core (P := P) v a
  refine ⟨v, ?_, ?_, ?_, ?_, fun k => ?_, fun t ht => (hreg t ht).1, fun t ht => (hreg t ht).2,
    ?_, fun i hi => ?_, ?_⟩
  · exact hf.instCount.trans h.instCount
  · exact hf.cycleCounter.trans (h.cycleCounter.trans hcycle.symm)
  · rw [Pipe.issue_pc, if_pos hc]
  · exact hf.commitCount.trans (h.commitCount.trans hcount.symm)
  · change m'.inst.get k = _
    rw [hf.inst, Table.get_set, h.inst, h.cycleCounter]
    have hmax : a.pc < maxInstNum := hc.1.trans_le Trace.length_le_max
    simp only [Pipe.instReg, Pipe.issue_issueAt, he, hwb, hcm]
    by_cases hk : k = a.pc
    · rw [if_pos ⟨hk, hmax⟩, hk]
      simp [hc]
    · rw [if_neg fun hh => hk hh.1, h.inst]
      simp [Pipe.instReg, hk]
  · rw [hcycle]
    exact h.cycle_nonneg
  · rw [hwb, hcm]
    rw [hcount] at hi
    exact h.committed i hi
  · have hrep := h.represents_fillEntry hc.1
    rw [h.inst] at hop hdest
    exact h.stations.fill hs ((h.unused_iff s).mp hfree) hnot hf.entry hstage hc.1 hcl hptr hop
      hdest hrep

theorem issue_of_some {i : ℕ} (hlt : m.programCounter < m.instCount)
    (hfs : findStation m (m.inst.get m.programCounter).type = some i) :
    issue m =
      { setIdle { m with rsIndex := some i } i m.programCounter
          (m.inst.get m.programCounter).type with
        programCounter := m.programCounter + 1 } := by
  rw [issue]
  rw [if_pos hlt]
  simp only [hfs]

/-- The issue phase with a full class: nothing is issued, and `RS_index` is `RS_NOT_FOUND`. -/
theorem issue_of_none (hlt : m.programCounter < m.instCount)
    (hfs : findStation m (m.inst.get m.programCounter).type = none) :
    issue m = { m with rsIndex := none } := by
  rw [issue]
  rw [if_pos hlt]
  simp only [hfs]

/-- **Issue.** -/
theorem Refines.issue (h : Refines P m a) (hidle : a.stage a.pc = .idle) :
    ∃ v, Refines P (issue m) (a.issue P v) := by
  -- `RS_index` is read by no later phase
  have hidx : ∀ r, Refines P { m with rsIndex := r } a := fun r =>
    ⟨h.instCount, h.cycleCounter, h.programCounter, h.commitCount, h.inst, h.waiting, h.value,
      h.cycle_nonneg, h.committed, h.stations⟩
  have htype : (m.inst.get m.programCounter).type = P.type a.pc := by
    rw [h.programCounter, h.inst]
    rfl
  have hlt_iff : m.programCounter < m.instCount ↔ a.pc < P.length := by
    rw [h.programCounter, h.instCount]
  by_cases hlt : a.pc < P.length
  · have hne := Trace.type_ne_nop hlt
    cases hfs : findStation m (m.inst.get m.programCounter).type with
    | some i =>
      rw [issue_of_some (hlt_iff.mpr hlt) hfs]
      rw [htype] at hfs ⊢
      obtain ⟨hi, hfree⟩ := findStation_some hne hfs
      have hc : a.CanIssue P := ⟨hlt, (h.card_lt_iff _).mpr ⟨i, hi, hfree⟩⟩
      exact (hidx (some i)).fills hidle hc (mem_slots.mpr hi) rfl hfree
        (fills_setIdle (m := { m with rsIndex := some i }) hne htype hi)
    | none =>
      rw [issue_of_none (hlt_iff.mpr hlt) hfs]
      rw [htype] at hfs
      have hc : ¬a.CanIssue P := by
        intro hc
        -- with a place in the class the search would not have failed
        obtain ⟨i, hi, hfree⟩ := (h.card_lt_iff _).mp hc.2
        exact findStation_none hne hfs hi hfree
      refine ⟨0, ?_⟩
      rw [Pipe.issue, if_neg hc]
      exact hidx _
  · refine ⟨0, ?_⟩
    rw [Tomasulo.issue, if_neg (mt hlt_iff.mp hlt), Pipe.issue, if_neg fun hc => hlt hc.1]
    exact h

/-! ### Start -/

/-- `check_reg` lets an instruction start if its register is free. -/
theorem Refines.allowExec_iff (h : Refines P m a) {s : Slot} {k : ℕ} (hp : m.ptr s = some k) :
    allowExec m (m.ptr s) (P.dest k) = true ↔ a.RegFree P k := by
  have hlt := h.stations.lt s k hp
  have hid : (m.inst.get k).id = k := by
    rw [h.inst, Pipe.instReg]
    exact if_pos hlt
  rw [hp, allowExec, checkReg, hid]
  simp only [List.all_eq_true, List.mem_range, Int.toNat_natCast, Bool.not_eq_true',
    decide_eq_false_iff_not, h.inst, not_and]
  exact Iff.rfl

/-- The operand fields are empty when nothing is waited for. -/
theorem Represents.operands_iff {k : ℕ} {e : Entry} {st : Stage} (h : Represents P k e st)
    (hlt : k < P.length) :
    (e.state = .issued ∧ e.qj = valueEmpty ∧ e.qk = valueEmpty) ↔ st = .issued false false := by
  constructor
  · rintro ⟨hst, hqj, hqk⟩
    obtain ⟨wj, wk, rfl⟩ := h.state_issued_iff.mp hst
    obtain ⟨-, -, hop, hmem⟩ := h
    have hj : wj = false := by
      rw [hop.qj] at hqj
      cases wj
      · rfl
      · exact absurd hqj (findRegIndex_ne_valueEmpty (Trace.src1_ne_noReg hlt))
    have hk : wk = false := by
      cases hm : (P.type k).isMem with
      | true => exact (hmem hm).2
      | false =>
        rw [hop.qk] at hqk
        cases wk
        · rfl
        · exact absurd hqk (findRegIndex_ne_valueEmpty (Trace.src2_ne_noReg hlt hm))
    rw [hj, hk]
  · rintro rfl
    exact ⟨h.1, h.2.2.1.qj, h.2.2.1.qk⟩

/-- The start test of a station is the start test of its instruction. -/
theorem Refines.canStart_iff (h : Refines P m a) {s : Slot} {k : ℕ} (hp : m.ptr s = some k) :
    (m.entry s).CanStart m s.1 ↔ a.Ready P k := by
  have hlt := h.stations.lt s k hp
  have hdest := h.stations.destTag s k hp
  have hstore : s.1 = .store ↔ P.type k = .sw := by
    rw [h.store_iff hp, Trace.Writes, not_not]
  have hops := (h.stations.represents s k hp).operands_iff hlt
  have hptr : (m.entry s).instPtr ≠ none := by
    rw [show (m.entry s).instPtr = some k from hp]
    exact Option.some_ne_none k
  -- the last test is on the flag for a store station, and `check_reg` for the others
  have htest : (if s.1 = .store then
        (readReg m.fpReg (findRegIndex (m.entry s).destTag)).waiting = false
      else allowExec m (m.entry s).instPtr (m.entry s).destTag = true) ↔
      if P.type k = .sw then a.waiting (P.dest k) = false else a.RegFree P k := by
    by_cases hs : s.1 = .store
    · rw [if_pos hs, if_pos (hstore.mp hs), hdest, h.waiting _ (Trace.dest_ne_noReg hlt)]
    · rw [if_neg hs, if_neg (mt hstore.mpr hs), hdest]
      exact h.allowExec_iff hp
  unfold Entry.CanStart Pipe.Ready
  rw [htest, ← hops]
  constructor
  · rintro ⟨-, h1, h2, h3, h4⟩
    exact ⟨⟨h1, h2, h3⟩, h4⟩
  · rintro ⟨⟨h1, h2, h3⟩, h4⟩
    exact ⟨hptr, h1, h2, h3, h4⟩

/-- **Start.** -/
theorem Refines.start (h : Refines P m a) : Refines P (start m) (a.start P) := by
  have hentry : (Tomasulo.start m).entry = fun s => (m.entry s).start m s.1 :=
    funext (entry_start m)
  have hkeep : ∀ (c : RsClass) (e : Entry), (e.start m c).instPtr = e.instPtr ∧
      (e.start m c).op = e.op ∧ (e.start m c).destTag = e.destTag := by
    intro c e
    rw [Entry.start]
    split_ifs <;> exact ⟨rfl, rfl, rfl⟩
  refine ⟨h.instCount, h.cycleCounter, h.programCounter, h.commitCount, h.inst, h.waiting,
    h.value, h.cycle_nonneg, h.committed, ?_⟩
  rw [hentry]
  refine h.stations.map (fun s => (hkeep _ _).1) (fun s => (hkeep _ _).2.1)
    (fun s => (hkeep _ _).2.2) (fun s hs => ?_) (fun s k hk hr => ?_) (fun k hk => ?_)
  · exact if_neg fun hc => hc.1 hs
  · unfold Pipe.start Entry.start
    dsimp only
    by_cases hc : a.Ready P k
    · rw [if_pos hc, if_pos ((h.canStart_iff hk).mpr hc)]
      rw [hc.1] at hr
      exact ⟨rfl, hr.2.1, ⟨hr.2.2.1.qj, hr.2.2.1.qk, hr.2.2.1.vj, hr.2.2.1.vk⟩⟩
    · rw [if_neg hc, if_neg (mt (h.canStart_iff hk).mp hc)]
      exact hr
  · by_cases hc : a.Ready P k
    · rw [hc.1]
      trivial
    · simpa only [Pipe.start, if_neg hc] using hk

/-! ### Whole runs -/

theorem entry_init (P : Trace) (s : Slot) : (init P).entry s = Entry.unused := by
  obtain ⟨c, i⟩ := s
  cases c with
  | load => exact congrArg RsLs.toEntry (Table.get_replicate_default i)
  | store => exact congrArg RsLs.toEntry (Table.get_replicate_default i)
  | addSub => exact congrArg RS.toEntry (Table.get_replicate_default i)
  | mulDiv => exact congrArg RS.toEntry (Table.get_replicate_default i)

/-- The two initial states correspond: no station is in use and nothing is recorded. -/
theorem refines_init (P : Trace) : Refines P (init P) Pipe.init where
  instCount := rfl
  cycleCounter := rfl
  programCounter := rfl
  commitCount := rfl
  inst k := by
    -- past the end of the trace the array holds what `inst_reg_init` left
    have hget : (init P).inst.get k = loadInst P k := by
      by_cases hk : k < maxInstNum
      · exact Table.get_ofFn hk _
      · have hnone : P.insts[k]? = none :=
          List.getElem?_eq_none (P.length_le.trans (by omega))
        rw [Table.get_of_le _ (by omega), loadInst, hnone]
        rfl
    rw [hget, loadInst, Pipe.instReg]
    by_cases hk : k < P.length
    · have hsome : P.insts[k]? = some (P.insts.get ⟨k, hk⟩) := List.getElem?_eq_getElem hk
      simp [hsome, hk, Trace.type, Trace.dest, Trace.src1, Trace.src2, Trace.offset, initInst,
        Pipe.init]
    · have hnone : P.insts[k]? = none := List.getElem?_eq_none (Nat.le_of_not_lt hk)
      simp [hnone, hk, Trace.type, Trace.dest, Trace.src1, Trace.src2, Trace.offset, initInst,
        Pipe.init]
  waiting t ht := by
    cases t <;> rfl
  value t ht := by
    cases t <;> rfl
  cycle_nonneg := le_refl _
  committed i hi := absurd hi (Nat.not_lt_zero i)
  stations := by
    have hnone : ∀ s k, ((init P).entry s).instPtr ≠ some k := by
      intro s k hk
      rw [entry_init] at hk
      cases hk
    refine ⟨fun s k hk => absurd hk (hnone s k), fun s k hk => absurd hk (hnone s k),
      fun s k hk => absurd hk (hnone s k), fun s k hk => absurd hk (hnone s k),
      fun s k hk => absurd hk (hnone s k), fun s _ => by rw [entry_init]; rfl,
      fun s _ k hk => absurd hk (hnone s k), fun k hk => absurd hk id⟩

/-- The abstract machine has committed every instruction, after at least one cycle. -/
def Pipe.Finished (P : Trace) (a : Pipe) : Prop := 0 < a.cycle ∧ P.length ≤ a.commitCount

/-- The simulation ends when everything has committed. -/
theorem Refines.checkFinish_iff (h : Refines P m a) (hinv : a.Inv P) :
    checkFinish m.inst m.instCount = true ↔ P.length ≤ a.commitCount := by
  have hcommit : ∀ k, (m.inst.get k).commit = valueEmpty ↔ ¬k < a.commitCount := by
    intro k
    rw [h.inst, ← hinv.commitAt, not_not]
    exact Iff.rfl
  rw [checkFinish, h.instCount]
  simp only [List.all_eq_true, List.mem_range, Bool.not_eq_true', decide_eq_false_iff_not,
    hcommit, not_not]
  constructor
  · intro hall
    by_contra hlt
    exact lt_irrefl _ (hall a.commitCount (by omega))
  · intro hle k hk
    omega

/-- The end of the loop body: `finish = check_finish(inst, inst_count)`. -/
def Machine.checked (m : Machine) : Machine :=
  { m with finish := checkFinish m.inst m.instCount }

/-- The loop body of `main`, cut at the issue phase. -/
theorem cycle_eq (m : Machine) : cycle m = (start (issue (beforeIssue m))).checked := rfl

/-- The test at the end of the loop changes nothing but `finish`. -/
theorem Refines.checked (h : Refines P m a) : Refines P m.checked a :=
  ⟨h.instCount, h.cycleCounter, h.programCounter, h.commitCount, h.inst, h.waiting, h.value,
    h.cycle_nonneg, h.committed, h.stations⟩

theorem Machine.checked_finish (m : Machine) :
    m.checked.finish = checkFinish m.checked.inst m.checked.instCount := rfl

theorem Machine.entry_checked (m : Machine) : m.checked.entry = m.entry := by
  funext ⟨c, i⟩
  cases c <;> rfl

/-- **One cycle of the loop of `main` is one abstract cycle.** -/
theorem Refines.cycle (h : Refines P m a) (hinv : a.Inv P) :
    ∃ ks v, Pipe.Covers ks a ∧ Refines P (beforeIssue m) (a.beforeIssue P ks) ∧
      Refines P (Tomasulo.issue (beforeIssue m)) ((a.beforeIssue P ks).issue P v) ∧
      Refines P (Tomasulo.cycle m) (a.next P ks v) := by
  have hcommit := h.tick.commit
  have hbefore := hcommit.retire.complete.depend
  set ks := (Tomasulo.commit (decrement
    { m with cycleCounter := m.cycleCounter + 1 })).heldInsts with hks
  have hcov : Pipe.Covers ks a := by
    intro k hk
    refine hcommit.mem_heldInsts ?_
    rw [Pipe.tick_commit_stage, hk]
    trivial
  have hidle : (a.beforeIssue P ks).stage (a.beforeIssue P ks).pc = .idle := by
    rw [Pipe.beforeIssue_pc, Pipe.beforeIssue_stage, Pipe.stepStage, hinv.stage_pc]
  obtain ⟨v, hissue⟩ := Refines.issue (show Refines P (beforeIssue m) _ from hbefore) hidle
  refine ⟨ks, v, hcov, hbefore, hissue, ?_⟩
  rw [cycle_eq]
  exact hissue.start.checked

/-- The instruction-level machine simulates the simulator. -/
theorem Refines.exists_next (h : Refines P m a) (hinv : a.Inv P) :
    ∃ a', a.Next P a' ∧ Refines P (Tomasulo.cycle m) a' := by
  obtain ⟨ks, v, hcov, -, -, hcycle⟩ := h.cycle hinv
  exact ⟨a.next P ks v, ⟨ks, v, hcov, rfl⟩, hcycle⟩

theorem run_succ (P : Trace) (n : ℕ) : run P (n + 1) = step (run P n) := by
  simp only [run, Function.iterate_succ_apply']

theorem run_succ_of_finish {n : ℕ} (h : (run P n).finish = true) : run P (n + 1) = run P n := by
  rw [run_succ, step, if_pos h]

/-- A run that has not ended makes a cycle. -/
theorem run_succ_of_not_finish {n : ℕ} (h : (run P n).finish = false) :
    run P (n + 1) = cycle (run P n) := by
  rw [run_succ, step, if_neg (by rw [h]; decide)]

/-- **Trajectories.** An abstract run beside the run of the simulator: `a n` is the state at
the end of cycle `n`, and `ks`, `v` the choices the abstract machine leaves open. -/
structure Trajectory (P : Trace) (a : ℕ → Pipe) (ks : ℕ → List ℕ) (v : ℕ → ℤ) : Prop where
  zero : a 0 = Pipe.init
  refines : ∀ n, Refines P (run P n) (a n)
  finished : ∀ n, (run P n).finish = true ↔ (a n).Finished P
  covers : ∀ n, Pipe.Covers (ks n) (a n)
  stay : ∀ n, (run P n).finish = true → a (n + 1) = a n
  next : ∀ n, (run P n).finish = false → a (n + 1) = (a n).next P (ks n) (v n)
  before : ∀ n, (run P n).finish = false →
    Refines P (beforeIssue (run P n)) ((a n).beforeIssue P (ks n))
  issued : ∀ n, (run P n).finish = false →
    Refines P (issue (beforeIssue (run P n))) (((a n).beforeIssue P (ks n)).issue P (v n))

/-- The step of a trajectory. -/
private def Continues (P : Trace) (n : ℕ) (a a' : Pipe) : Prop :=
  ∃ ks v, Pipe.Covers ks a ∧
    ((run P n).finish = true → a' = a) ∧
    ((run P n).finish = false → a' = a.next P ks v ∧
      Refines P (beforeIssue (run P n)) (a.beforeIssue P ks) ∧
      Refines P (issue (beforeIssue (run P n))) ((a.beforeIssue P ks).issue P v))

/-- What a trajectory keeps. -/
private structure Tracks (P : Trace) (n : ℕ) (a : Pipe) : Prop where
  refines : Refines P (run P n) a
  inv : a.Inv P
  finished : (run P n).finish = true ↔ a.Finished P

/-- An abstract state beside the simulator can be carried over one more cycle. -/
private theorem Tracks.exists_continues {n : ℕ} (h : Tracks P n a) :
    ∃ a', Tracks P (n + 1) a' ∧ Continues P n a a' := by
  obtain ⟨ks, v, hcov, hbefore, hissue, hcycle⟩ := h.refines.cycle h.inv
  by_cases hf : (run P n).finish = true
  · refine ⟨a, ⟨?_, h.inv, ?_⟩, ks, v, hcov, fun _ => rfl,
      fun h => absurd (hf.symm.trans h) (by decide)⟩
    · rw [run_succ_of_finish hf]
      exact h.refines
    · rw [run_succ_of_finish hf]
      exact h.finished
  · have hff : (run P n).finish = false := Bool.eq_false_iff.mpr hf
    have hinv := h.inv.next (v := v) hcov
    rw [← run_succ_of_not_finish hff] at hcycle
    refine ⟨a.next P ks v, ⟨hcycle, hinv, ?_⟩, ks, v, hcov, fun h => absurd h hf,
      fun _ => ⟨rfl, hbefore, hissue⟩⟩
    have hcheck : (run P (n + 1)).finish =
        checkFinish (run P (n + 1)).inst (run P (n + 1)).instCount := by
      rw [run_succ_of_not_finish hff, cycle_eq, Machine.checked_finish]
    rw [hcheck, hcycle.checkFinish_iff hinv, Pipe.Finished, Pipe.next_cycle]
    have := h.inv.cycle_nonneg
    exact ⟨fun hle => ⟨by omega, hle⟩, And.right⟩

/-- Dependent choice along the natural numbers. -/
theorem exists_seq_of_step {α : Type*} {R : ℕ → α → Prop} {S : ℕ → α → α → Prop} {x : α}
    (h0 : R 0 x) (hstep : ∀ n y, R n y → ∃ z, R (n + 1) z ∧ S n y z) :
    ∃ f : ℕ → α, f 0 = x ∧ (∀ n, R n (f n)) ∧ ∀ n, S n (f n) (f (n + 1)) := by
  choose g hg using hstep
  let f : ∀ n, { y // R n y } := fun n =>
    Nat.rec ⟨x, h0⟩ (fun n y => ⟨g n y.1 y.2, (hg n y.1 y.2).1⟩) n
  exact ⟨fun n => (f n).1, rfl, fun n => (f n).2, fun n => (hg n (f n).1 (f n).2).2⟩

/-- **Every trace has a trajectory.** -/
theorem exists_trajectory (P : Trace) : ∃ a ks v, Trajectory P a ks v := by
  have h0 : Tracks P 0 Pipe.init := by
    refine ⟨refines_init P, Pipe.inv_init P, ?_⟩
    exact iff_of_false Bool.false_ne_true fun h => lt_irrefl _ h.1
  obtain ⟨a, hzero, htracks, hcont⟩ :=
    exists_seq_of_step h0 fun n a h => Tracks.exists_continues h
  choose ks v hcov hstay hnext using hcont
  exact ⟨a, ks, v, hzero, fun n => (htracks n).refines, fun n => (htracks n).finished, hcov,
    hstay, fun n h => (hnext n h).1, fun n h => (hnext n h).2.1, fun n h => (hnext n h).2.2⟩

namespace Trajectory

variable {a : ℕ → Pipe} {ks : ℕ → List ℕ} {v : ℕ → ℤ}

/-- **Induction along a run.** A property of the initial state that every cycle of the
abstract machine preserves holds at the end of every cycle. -/
theorem induction (h : Trajectory P a ks v) {p : ℕ → Pipe → Prop} (hzero : p 0 Pipe.init)
    (hstay : ∀ n b, p n b → p (n + 1) b)
    (hnext : ∀ n, (run P n).finish = false → Pipe.Covers (ks n) (a n) → p n (a n) →
      p (n + 1) ((a n).next P (ks n) (v n))) (n : ℕ) : p n (a n) := by
  induction n with
  | zero =>
    rw [h.zero]
    exact hzero
  | succ n ih =>
    by_cases hf : (run P n).finish = true
    · rw [h.stay n hf]
      exact hstay n _ ih
    · have hff : (run P n).finish = false := Bool.eq_false_iff.mpr hf
      rw [h.next n hff]
      exact hnext n hff (h.covers n) ih

/-- The same from cycle `n` on. -/
theorem induction_from (h : Trajectory P a ks v) {p : Pipe → Prop} {n : ℕ} (hn : p (a n))
    (hnext : ∀ N, n ≤ N → p (a N) → p ((a N).next P (ks N) (v N))) {N : ℕ} (hN : n ≤ N) :
    p (a N) := by
  induction N, hN using Nat.le_induction with
  | base => exact hn
  | succ N hN ih =>
    by_cases hf : (run P N).finish = true
    · rw [h.stay N hf]
      exact ih
    · rw [h.next N (Bool.eq_false_iff.mpr hf)]
      exact hnext N hN ih

theorem inv (h : Trajectory P a ks v) (n : ℕ) : (a n).Inv P :=
  h.induction (p := fun _ b => b.Inv P) (Pipe.inv_init P) (fun _ _ hb => hb)
    (fun _ _ hcov hb => hb.next hcov) n

end Trajectory

end AdvancedArchitecture.Tomasulo
