import AdvancedArchitecture.Tomasulo.Observe

/-!
# The stations in use, and the bounds of the arrays

At the end of every cycle the stations in use hold exactly the instructions that are issued and
not written back (`StationInvariant`). The simulator relies on it wherever it follows an
`inst_ptr` or indexes `fp_reg` with what `find_reg_index` returned, which is `VALUE_EMPTY` for
the `NO_REG` of an unused station.

`checkedRun` is the simulator with these accesses tested before each step, at the place in the
loop where the step is made. It never fails, and is the simulator (`checkedRun_eq`).

The test before a round of a loop is about the state that the rounds before it have left. Each of
these states refines some abstract state, and a refined state passes every test, whichever it is;
so nothing has to be known about how far the loop has come (`Refines.foldlM_slots`). `commit` is
the exception: it indexes the instructions with its own counter, which is in bounds as long as the
simulation has not finished.
-/

namespace AdvancedArchitecture.Tomasulo

variable {P : Trace} {a : Pipe} {m : Machine}

/-! ### Accesses -/

/-- An index of `fp_reg`; `VALUE_EMPTY` is none. -/
def RegIndex (i : ℤ) : Prop := 0 ≤ i ∧ i < numReg

instance (i : ℤ) : Decidable (RegIndex i) := by unfold RegIndex; infer_instance

namespace Machine

/-- A pointer to an instruction of the trace. -/
def ValidPtr (m : Machine) (ptr : Option ℕ) : Prop := ∃ p ∈ ptr, p < m.instCount

instance (m : Machine) (ptr : Option ℕ) : Decidable (m.ValidPtr ptr) := by
  unfold ValidPtr; infer_instance

/-- `commit` reads the instructions up to `commit_count`. -/
def CommitInBounds (m : Machine) : Prop :=
  m.commitCount < maxInstNum ∧ (0 < m.instCount → m.commitCount < m.instCount)

/-- A station that is done is written back through its `inst_ptr`, to the register of its
`dest_tag`. -/
def WritebackInBounds (m : Machine) (s : Slot) : Prop :=
  (m.entry s).state = .done →
    m.ValidPtr (m.ptr s) ∧ RegIndex (findRegIndex (m.entry s).destTag)

/-- A station that completes records the cycle through its `inst_ptr`. -/
def CompleteInBounds (m : Machine) (s : Slot) : Prop :=
  (m.entry s).cycleLast = 0 ∧ (m.entry s).state = .exec → m.ValidPtr (m.ptr s)

/-- The dependency pass writes to the registers of the stations it looks at. -/
def DependInBounds (m : Machine) (s : Slot) : Prop :=
  (m.entry s).state = .exec ∨ (m.entry s).state = .issued ∧ s.1 ≠ .load →
    RegIndex (findRegIndex (m.entry s).destTag)

/-- The issue phase reads `inst[program_counter]`, indexes a station array with `RS_index`
unless it is `RS_NOT_FOUND`, and the registers with the destination and the sources. -/
def IssueInBounds (m : Machine) : Prop :=
  m.programCounter < m.instCount → m.programCounter < maxInstNum ∧
    ∀ k ∈ findStation m (m.inst.get m.programCounter).type, k < stationsPerClass ∧
      ((m.inst.get m.programCounter).type ≠ .sw →
        RegIndex (findRegIndex (m.inst.get m.programCounter).destTag)) ∧
      ((m.inst.get m.programCounter).type.isMem = false →
        RegIndex (findRegIndex (m.inst.get m.programCounter).src1Tag) ∧
        RegIndex (findRegIndex (m.inst.get m.programCounter).src2Tag))

/-- The start tests follow every `inst_ptr` that is not `NULL`; `check_reg` reads the
instructions below its `ID`, and a store station reads the register of its `dest_tag`. -/
def StartInBounds (m : Machine) (s : Slot) : Prop :=
  ∀ p ∈ m.ptr s, p < m.instCount ∧ (m.inst.get p).id ≤ maxInstNum ∧
    (s.1 = .store → RegIndex (findRegIndex (m.entry s).destTag))

instance (m : Machine) : Decidable m.CommitInBounds := by
  unfold CommitInBounds; infer_instance

instance (m : Machine) (s : Slot) : Decidable (m.WritebackInBounds s) := by
  unfold WritebackInBounds; infer_instance

instance (m : Machine) (s : Slot) : Decidable (m.CompleteInBounds s) := by
  unfold CompleteInBounds; infer_instance

instance (m : Machine) (s : Slot) : Decidable (m.DependInBounds s) := by
  unfold DependInBounds; infer_instance

instance (m : Machine) : Decidable m.IssueInBounds := by
  unfold IssueInBounds; infer_instance

instance (m : Machine) (s : Slot) : Decidable (m.StartInBounds s) := by
  unfold StartInBounds; infer_instance

end Machine

/-- The body of the `while` loop, with every access checked. The loops that decrement index with
constant bounds, and the dump follows the pointers that the start tests have followed. -/
def checkedCycle (m : Machine) : Option Machine := do
  let m := decrement { m with cycleCounter := m.cycleCounter + 1 }
  let m ← guarded m.CommitInBounds (commit m)
  let m ← slots.foldlM (fun m s => guarded (m.WritebackInBounds s) (writebackSlot m s)) m
  let m ← slots.foldlM (fun m s => guarded (m.CompleteInBounds s) (completeSlot m s)) m
  let m ← slots.foldlM (fun m s => guarded (m.DependInBounds s) (dependSlot m s)) m
  let m ← guarded m.IssueInBounds (issue m)
  let m ← guarded (∀ s ∈ slots, m.StartInBounds s) (start m)
  guarded (m.instCount ≤ maxInstNum) m.checked

/-- One test and body of the `while` loop, checked. -/
def checkedStep (m : Machine) : Option Machine :=
  if m.finish = true then some m else checkedCycle m

/-- The checked run, `none` once an access was out of bounds. -/
def checkedRun (P : Trace) : ℕ → Option Machine
  | 0 => some (init P)
  | n + 1 => (checkedRun P n).bind checkedStep

/-! ### Every access is in bounds -/

/-- Every register but `NO_REG` has an index of the array. -/
theorem regIndex_findRegIndex {t : DataRegTag} (h : t ≠ .noReg) : RegIndex (findRegIndex t) := by
  cases t <;> first | exact absurd rfl h | decide

namespace Refines

/-- A station in use has a destination register, so its flag and value can be accessed. -/
theorem regIndex_destTag (h : Refines P m a) {s : Slot} {st : RsState}
    (hst : (m.entry s).state = st) (hne : st ≠ .unused) :
    RegIndex (findRegIndex (m.entry s).destTag) :=
  regIndex_findRegIndex (h.destTag_ne_noReg hst hne)

/-- A station in use points to an instruction of the trace. -/
theorem validPtr (h : Refines P m a) {s : Slot} {st : RsState} (hst : (m.entry s).state = st)
    (hne : st ≠ .unused) : m.ValidPtr (m.ptr s) := by
  obtain ⟨k, hp⟩ := h.exists_ptr hst hne
  refine ⟨k, hp, ?_⟩
  rw [h.instCount]
  exact h.stations.lt s k hp

/-- The write-back of a station that is done follows a pointer that is not `NULL`. -/
theorem writebackInBounds (h : Refines P m a) (s : Slot) : m.WritebackInBounds s := fun hst =>
  ⟨h.validPtr hst (by decide), h.regIndex_destTag hst (by decide)⟩

theorem completeInBounds (h : Refines P m a) (s : Slot) : m.CompleteInBounds s := fun hst =>
  h.validPtr hst.2 (by decide)

/-- The dependency pass looks at stations in use only. -/
theorem dependInBounds (h : Refines P m a) (s : Slot) : m.DependInBounds s := by
  rintro (hst | ⟨hst, -⟩)
  · exact h.regIndex_destTag hst (by decide)
  · exact h.regIndex_destTag hst (by decide)

/-- The next instruction has a register to write, and sources to read if it is arithmetic; the
station that was found is one of its array. -/
theorem issueInBounds (h : Refines P m a) : m.IssueInBounds := by
  intro hlt
  rw [h.instCount] at hlt
  have hne : (m.inst.get m.programCounter).type ≠ .nop := by
    rw [h.inst]
    exact Trace.type_ne_nop hlt
  refine ⟨hlt.trans_le Trace.length_le_max, fun k hk => ⟨(findStation_some hne hk).1, ?_⟩⟩
  rw [h.inst]
  exact ⟨fun _ => regIndex_findRegIndex (Trace.dest_ne_noReg hlt), fun hm =>
    ⟨regIndex_findRegIndex (Trace.src1_ne_noReg hlt),
      regIndex_findRegIndex (Trace.src2_ne_noReg hlt hm)⟩⟩

/-- `check_reg` reads the instructions before its own, which all exist. -/
theorem startInBounds (h : Refines P m a) (s : Slot) : m.StartInBounds s := by
  intro p hp
  have hlt := h.stations.lt s p hp
  have hid : (m.inst.get p).id = p := by
    rw [h.inst]
    exact if_pos hlt
  have hmax := Trace.length_le_max (P := P)
  refine ⟨by rw [h.instCount]; exact hlt, by rw [hid]; omega, fun _ => ?_⟩
  rw [h.stations.destTag s p hp]
  exact regIndex_findRegIndex (Trace.dest_ne_noReg hlt)

/-- A loop along the stations whose accesses a refined state keeps in bounds. -/
theorem foldlM_slots {body : Machine → Slot → Machine} {op : Pipe → ℕ → Pipe}
    (hbody : SlotBody P body op) {ok : Machine → Slot → Prop} [∀ m s, Decidable (ok m s)]
    (hok : ∀ {m a}, Refines P m a → ∀ s, ok m s) (h : Refines P m a) :
    slots.foldlM (fun m s => guarded (ok m s) (body m s)) m = some (slots.foldl body m) :=
  foldlM_guarded (I := fun m => ∃ a, Refines P m a) (fun s _ _ ⟨_, hr⟩ => hok hr s)
    (fun _ hs _ ⟨_, hr⟩ => hr.exists_slot hbody hs) ⟨a, h⟩

end Refines

/-- **One cycle.** Where `commit` is in bounds, so is every access of the cycle. -/
theorem checkedCycle_eq (h : Refines P m a) (hinv : a.Inv P) (hcommit : m.CommitInBounds) :
    checkedCycle m = some (cycle m) := by
  set m₁ := decrement { m with cycleCounter := m.cycleCounter + 1 } with hm₁
  -- the states in which the loops begin all refine an abstract one
  have hr₂ : Refines P (commit m₁) _ := h.tick.commit
  have hr₃ : Refines P (writeback (commit m₁)) _ := hr₂.retire
  have hr₄ : Refines P (complete (writeback (commit m₁))) _ := hr₃.complete
  obtain ⟨ks, v, -, hbefore, hissue, -⟩ := h.cycle hinv
  have hcommit₁ : m₁.CommitInBounds := hcommit
  have hback := hr₂.foldlM_slots slotBody_writeback Refines.writebackInBounds
  have hcomplete := hr₃.foldlM_slots slotBody_complete Refines.completeInBounds
  have hdepend := hr₄.foldlM_slots slotBody_depend Refines.dependInBounds
  have hstart : ∀ s ∈ slots, (issue (beforeIssue m)).StartInBounds s := fun s _ =>
    hissue.startInBounds s
  have hcount : (start (issue (beforeIssue m))).instCount ≤ maxInstNum := by
    rw [hissue.start.instCount]
    exact Trace.length_le_max
  -- the loops of the simulator are these folds
  rw [← writeback_eq_foldl] at hback
  rw [← complete_eq_foldl] at hcomplete
  rw [← depend_eq_foldl] at hdepend
  simp only [checkedCycle, ← hm₁, guarded_of hcommit₁, Option.bind_eq_bind, Option.bind_some,
    hback, hcomplete, hdepend]
  change (guarded (beforeIssue m).IssueInBounds (issue (beforeIssue m))).bind _ = _
  rw [guarded_of hbefore.issueInBounds, Option.bind_some, guarded_of hstart, Option.bind_some,
    guarded_of hcount, cycle_eq]

/-- `commit_count` reaches the number of instructions in the last cycle only, after which `commit`
is not called again. -/
theorem Trajectory.commitInBounds {a : ℕ → Pipe} {ks : ℕ → List ℕ} {v : ℕ → ℤ}
    (h : Trajectory P a ks v) {n : ℕ} (hf : (run P n).finish = false) :
    (run P n).CommitInBounds := by
  have hr := h.refines n
  have hmax := Trace.length_le_max (P := P)
  have hlt : (a n).commitCount = 0 ∨ (a n).commitCount < P.length := by
    cases n with
    | zero =>
      rw [h.zero]
      exact .inl rfl
    | succ n =>
      have hnot : ¬(a (n + 1)).Finished P := by
        rw [← h.finished, hf]
        exact Bool.false_ne_true
      rw [Pipe.Finished, h.cycle_eq hf] at hnot
      exact .inr (by omega)
  rw [Machine.CommitInBounds, hr.commitCount, hr.instCount, maxInstNum]
  rw [maxInstNum] at hmax
  omega

/-- **No access is out of bounds**: the checked run is the run. -/
theorem checkedRun_eq (P : Trace) (n : ℕ) : checkedRun P n = some (run P n) := by
  obtain ⟨a, ks, v, htr⟩ := exists_trajectory P
  induction n with
  | zero => rfl
  | succ n ih =>
    rw [checkedRun, ih, Option.bind_some, checkedStep, run_succ, step]
    by_cases hf : (run P n).finish = true
    · rw [if_pos hf, if_pos hf]
    · rw [if_neg hf, if_neg hf]
      exact checkedCycle_eq (htr.refines n) (htr.inv n)
        (htr.commitInBounds (Bool.eq_false_iff.mpr hf))

/-- A station that is done and holds no instruction would be written back through `NULL`. -/
example : checkedStep { init ⟨[], by decide, by decide⟩ with
    rsLoad := .replicate _ { resetRsLs with state := .done } } = none := by
  decide +kernel

/-! ### The stations in use -/

/-- **The stations in use** hold the instructions that were issued and not written back, each
one in one station, which is of its class and holds its operation and its register. -/
structure StationInvariant (P : Trace) (m : Machine) : Prop where
  holds_iff : ∀ k, m.Holds k ↔
    (m.inst.get k).issue ≠ valueEmpty ∧ (m.inst.get k).writeback = valueEmpty
  unique : ∀ s ∈ slots, ∀ s' ∈ slots, ∀ k, m.ptr s = some k → m.ptr s' = some k → s = s'
  unused_iff : ∀ s ∈ slots, (m.entry s).state = .unused ↔ m.ptr s = none
  fields : ∀ s ∈ slots, ∀ k, m.ptr s = some k → P.rsClass k = s.1 ∧
    (m.entry s).op = P.type k ∧ (m.entry s).destTag = P.dest k

/-- The correspondence of stations and instructions in flight, stated about the simulator alone. -/
theorem Refines.stationInvariant (h : Refines P m a) (hinv : a.Inv P) : StationInvariant P m where
  holds_iff _ := h.holds_iff.trans (h.recorded_iff hinv).symm
  unique s _ s' _ k hp hp' := h.stations.unique s s' k hp hp'
  unused_iff s _ := by
    constructor
    · intro hst
      cases hp : m.ptr s with
      | none => rfl
      | some k => exact absurd hst (h.stations.represents s k hp).state_ne_unused
    · exact h.stations.unused s
  fields s _ k hp :=
    ⟨h.stations.rsClass s k hp, h.stations.op s k hp, h.stations.destTag s k hp⟩

/-- **At the end** nothing is in flight: every station is unused and no register waits. -/
theorem Refines.unused_of_no_inFlight (h : Refines P m a) (hinv : a.Inv P)
    (hempty : ∀ k, ¬(a.stage k).InFlight) :
    (∀ s ∈ slots, (m.entry s).state = .unused) ∧ ∀ r, r ≠ .noReg → m.waiting r = false := by
  refine ⟨fun s _ => h.stations.unused s ?_, fun r hne => ?_⟩
  · refine Option.eq_none_iff_forall_ne_some.mpr fun k hp => ?_
    exact hempty k (h.stations.represents s k hp).inFlight
  · rw [h.waiting_eq hne]
    refine Bool.eq_false_iff.mpr fun hw => ?_
    obtain ⟨k, hk, -⟩ := hinv.waiting r hw
    exact hempty k hk

/-- **The stations represent the instructions in flight.** At the end of every cycle the station
invariant holds, no access was out of bounds so far, and if the simulation has ended, every
station is unused and no register waits. -/
theorem stations_represent (P : Trace) (n : ℕ) :
    StationInvariant P (run P n) ∧ checkedRun P n = some (run P n) ∧
      ((run P n).finish = true →
        (∀ s ∈ slots, ((run P n).entry s).state = .unused) ∧
          ∀ r, r ≠ .noReg → (run P n).waiting r = false) := by
  obtain ⟨a, ks, v, htr⟩ := exists_trajectory P
  refine ⟨(htr.refines n).stationInvariant (htr.inv n), checkedRun_eq P n, fun hf => ?_⟩
  refine (htr.refines n).unused_of_no_inFlight (htr.inv n) fun k hk => ?_
  rw [htr.not_finish_of_inFlight hk] at hf
  cases hf

end AdvancedArchitecture.Tomasulo
