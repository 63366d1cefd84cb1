import Mathlib.Tactic.Cases
import AdvancedArchitecture.Tomasulo.Station

/-!
# The simulator refines the instruction-level machine

`Refines P m a` relates a simulator state to an abstract one: the recorded cycles and the
counters are equal, the flags and values of the registers are equal, and the stations in use
are in one-to-one correspondence with the instructions in flight, each holding what the
stage of its instruction says. The phases up to issue are treated here, one at a time; a loop
along the stations becomes a fold along the instructions they hold (`Refines.foldl_slots`).

A phase changes the correspondence in one of three ways: a station advances with its
instruction, is freed, or is filled (`StationRel.advance`, `StationRel.release`,
`StationRel.fill`). What one round of a loop does to the station it visits is the matter of
`Refines.completeSlot`, `Refines.retireOne` and `Refines.markOne`; that an unused station is
passed over, and that every instruction in flight is visited, is the same argument for all
three loops and made once (`SlotBody`).

The relation says nothing about the tags of a station that is done, and no later phase reads
them; `WakeUp.lean` has more to say about these.
-/

namespace AdvancedArchitecture.Tomasulo

variable {P : Trace} {m : Machine} {a : Pipe}

/-! ### The relation -/

/-- The offset of instruction `k`, printed only. -/
def Trace.offset (P : Trace) (k : ℕ) : ℤ := (P.insts[k]?.map Instr.offset).getD valueEmpty

/-- The `INST_REG` of instruction `k`. -/
def Pipe.instReg (P : Trace) (a : Pipe) (k : ℕ) : InstReg where
  issue := a.issueAt k
  execute := a.executeAt k
  writeback := a.writebackAt k
  commit := a.commitAt k
  id := if k < P.length then k else valueEmpty
  type := P.type k
  offset := P.offset k
  src1Tag := P.src1 k
  src2Tag := P.src2 k
  destTag := P.dest k

/-- The operand fields: a source that is waited for is in `Q`, one that is present in `V`. -/
structure Operands (P : Trace) (k : ℕ) (wj wk : Bool) (e : Entry) : Prop where
  qj : e.qj = if wj then findRegIndex (P.src1 k) else valueEmpty
  qk : e.qk = if wk then findRegIndex (P.src2 k) else valueEmpty
  vj : (P.type k).isMem = false →
    e.vj = if wj then valueEmpty else findRegIndex (P.src1 k)
  vk : (P.type k).isMem = false →
    e.vk = if wk then valueEmpty else findRegIndex (P.src2 k)

/-- The entry of instruction `k` in a stage. -/
def Represents (P : Trace) (k : ℕ) (e : Entry) : Stage → Prop
  | .issued wj wk =>
    e.state = .issued ∧ e.cycleLast = P.latency k ∧ Operands P k wj wk e ∧
      ((P.type k).isMem = true → wj = false ∧ wk = false)
  | .exec left => e.state = .exec ∧ e.cycleLast = left ∧ Operands P k false false e
  | .done => e.state = .done
  | .idle | .retired => False

/-- The stations in use hold the instructions in flight. -/
structure StationRel (P : Trace) (e : Slot → Entry) (st : ℕ → Stage) : Prop where
  lt : ∀ s k, (e s).instPtr = some k → k < P.length
  rsClass : ∀ s k, (e s).instPtr = some k → P.rsClass k = s.1
  op : ∀ s k, (e s).instPtr = some k → (e s).op = P.type k
  destTag : ∀ s k, (e s).instPtr = some k → (e s).destTag = P.dest k
  represents : ∀ s k, (e s).instPtr = some k → Represents P k (e s) (st k)
  unused : ∀ s, (e s).instPtr = none → (e s).state = .unused
  unique : ∀ s s' k, (e s).instPtr = some k → (e s').instPtr = some k → s = s'
  held : ∀ k, (st k).InFlight → ∃ s ∈ slots, (e s).instPtr = some k

/-- **The refinement relation.** -/
structure Refines (P : Trace) (m : Machine) (a : Pipe) : Prop where
  instCount : m.instCount = P.length
  cycleCounter : m.cycleCounter = a.cycle
  programCounter : m.programCounter = a.pc
  commitCount : m.commitCount = a.commitCount
  inst : ∀ k, m.inst.get k = a.instReg P k
  waiting : ∀ t, t ≠ .noReg → (readReg m.fpReg (findRegIndex t)).waiting = a.waiting t
  value : ∀ t, t ≠ .noReg → (readReg m.fpReg (findRegIndex t)).value = a.value t
  cycle_nonneg : 0 ≤ a.cycle
  committed : ∀ i, i < a.commitCount →
    a.writebackAt i ≠ valueEmpty ∧ a.commitAt i ≠ valueEmpty
  stations : StationRel P m.entry a.stage

/-! ### Entries and stages -/

/-- A station holds an instruction in flight; no stage without a station is represented. -/
theorem Represents.inFlight {k : ℕ} {e : Entry} {st : Stage} (h : Represents P k e st) :
    st.InFlight := by
  cases st with
  | idle => exact h
  | retired => exact h
  | issued wj wk => trivial
  | exec left => trivial
  | done => trivial

/-- The state of the station that holds an instruction. -/
def Stage.rsState : Stage → RsState
  | .idle | .retired => .unused
  | .issued _ _ => .issued
  | .exec _ => .exec
  | .done => .done

/-- The state of the station is a function of the stage. -/
theorem Represents.state_eq {k : ℕ} {e : Entry} {st : Stage} (h : Represents P k e st) :
    e.state = st.rsState := by
  cases st with
  | idle => exact absurd h id
  | retired => exact absurd h id
  | issued wj wk => exact h.1
  | exec left => exact h.1
  | done => exact h

theorem Represents.state_done_iff {k : ℕ} {e : Entry} {st : Stage} (h : Represents P k e st) :
    e.state = .done ↔ st = .done := by
  rw [h.state_eq]
  cases st <;> simp [Stage.rsState]

theorem Represents.state_exec_iff {k : ℕ} {e : Entry} {st : Stage} (h : Represents P k e st) :
    e.state = .exec ↔ ∃ left, st = .exec left := by
  rw [h.state_eq]
  cases st <;> simp [Stage.rsState]

theorem Represents.state_issued_iff {k : ℕ} {e : Entry} {st : Stage}
    (h : Represents P k e st) : e.state = .issued ↔ ∃ wj wk, st = .issued wj wk := by
  rw [h.state_eq]
  cases st <;> simp [Stage.rsState]

/-- Taking a cycle off a station is taking it off its instruction. -/
theorem Represents.tick {k : ℕ} {e : Entry} {st : Stage} (h : Represents P k e st) :
    Represents P k e.tick st.tick := by
  rw [Entry.tick]
  cases st with
  | idle => exact absurd h id
  | retired => exact absurd h id
  | issued wj wk =>
    rw [if_neg (by rw [h.1]; decide)]
    exact h
  | exec left =>
    obtain ⟨hst, hcl, hop⟩ := h
    rw [if_pos hst]
    exact ⟨hst, by rw [hcl], ⟨hop.qj, hop.qk, hop.vj, hop.vk⟩⟩
  | done =>
    have hst : e.state = .done := h
    rw [if_neg (by rw [hst]; decide)]
    exact hst

/-- The entry an operand field leaves after a broadcast. -/
private theorem receive_field {w : Bool} {q v : ℤ} {s t : DataRegTag} (ht : t ≠ .noReg)
    (hq : q = if w then findRegIndex s else valueEmpty) :
    ((if q = findRegIndex t then valueEmpty else q) =
      if (w && decide (t ≠ s)) then findRegIndex s else valueEmpty) ∧
    ((v = if w then valueEmpty else findRegIndex s) →
      (if q = findRegIndex t then findRegIndex t else v) =
        if (w && decide (t ≠ s)) then valueEmpty else findRegIndex s) := by
  have hidx : findRegIndex t ≠ valueEmpty := findRegIndex_ne_valueEmpty ht
  cases w with
  | false =>
    have hne : q ≠ findRegIndex t := by
      rw [hq]
      exact Ne.symm hidx
    simp only [hne, if_false, Bool.false_and, Bool.false_eq_true]
    exact ⟨by simpa using hq, fun hv => by simpa using hv⟩
  | true =>
    simp only [if_true] at hq
    by_cases hts : t = s
    · subst hts
      simp [hq]
    · have hne : q ≠ findRegIndex t := by
        rw [hq]
        exact fun h => hts (findRegIndex_injective h).symm
      simp only [hne, if_false, Bool.true_and, decide_eq_true hts, if_true, ne_eq]
      exact ⟨hq, fun hv => by simpa using hv⟩

/-- A broadcast at a station is a broadcast at its instruction. -/
theorem Represents.receive {k : ℕ} {e : Entry} {st : Stage} {t : DataRegTag}
    (ht : t ≠ .noReg) (h : Represents P k e st) :
    Represents P k (e.receive (findRegIndex t)) (st.receive t (P.src1 k) (P.src2 k)) := by
  rw [Entry.receive]
  cases st with
  | idle => exact absurd h id
  | retired => exact absurd h id
  | issued wj wk =>
    obtain ⟨hst, hcl, hop, hmem⟩ := h
    rw [if_pos hst]
    refine ⟨hst, hcl, ⟨?_, ?_, fun hm => ?_, fun hm => ?_⟩, fun hm => ?_⟩
    · exact (receive_field (v := 0) ht hop.qj).1
    · exact (receive_field (v := 0) ht hop.qk).1
    · exact (receive_field ht hop.qj).2 (hop.vj hm)
    · exact (receive_field ht hop.qk).2 (hop.vk hm)
    · obtain ⟨rfl, rfl⟩ := hmem hm
      exact ⟨rfl, rfl⟩
  | exec left =>
    rw [if_neg (by rw [h.1]; decide)]
    exact h
  | done =>
    have hst : e.state = .done := h
    rw [if_neg (by rw [hst]; decide)]
    exact hst

/-! ### Rewriting stations in place -/

/-- An operation that leaves the instruction of every station, and takes each station in use
from its old to its new stage, keeps the correspondence. -/
theorem StationRel.map {e e' : Slot → Entry} {st st' : ℕ → Stage} (h : StationRel P e st)
    (hptr : ∀ s, (e' s).instPtr = (e s).instPtr) (hop : ∀ s, (e' s).op = (e s).op)
    (hdest : ∀ s, (e' s).destTag = (e s).destTag)
    (hunused : ∀ s, (e s).instPtr = none → e' s = e s)
    (hrep : ∀ s k, (e s).instPtr = some k → Represents P k (e s) (st k) →
      Represents P k (e' s) (st' k))
    (hfl : ∀ k, (st' k).InFlight → (st k).InFlight) : StationRel P e' st' where
  lt s k hk := h.lt s k (by rw [← hptr, hk])
  rsClass s k hk := h.rsClass s k (by rw [← hptr, hk])
  op s k hk := by rw [hop]; exact h.op s k (by rw [← hptr, hk])
  destTag s k hk := by rw [hdest]; exact h.destTag s k (by rw [← hptr, hk])
  represents s k hk := by
    rw [hptr] at hk
    exact hrep s k hk (h.represents s k hk)
  unused s hs := by
    rw [hptr] at hs
    rw [hunused s hs]
    exact h.unused s hs
  unique s s' k hk hk' := h.unique s s' k (by rw [← hptr, hk]) (by rw [← hptr, hk'])
  held k hk := by
    obtain ⟨s, hs, hk⟩ := h.held k (hfl k hk)
    exact ⟨s, hs, by rw [hptr, hk]⟩

/-- **Advancing a station.** Its instruction stays and goes to another stage. -/
theorem StationRel.advance {e e' : Slot → Entry} {st st' : ℕ → Stage} (h : StationRel P e st)
    {s : Slot} {k : ℕ} {f : Entry} {sp : Stage} (hp : (e s).instPtr = some k)
    (hentry : ∀ s', e' s' = if s' = s then f else e s')
    (hstage : ∀ j, st' j = if j = k then sp else st j) (hptr : f.instPtr = (e s).instPtr)
    (hop : f.op = (e s).op) (hdest : f.destTag = (e s).destTag) (hrep : Represents P k f sp)
    (hfl : (st k).InFlight) : StationRel P e' st' := by
  have hkeep : ∀ s', (e' s').instPtr = (e s').instPtr ∧ (e' s').op = (e s').op ∧
      (e' s').destTag = (e s').destTag := by
    intro s'
    rw [hentry]
    split_ifs with hs'
    · rw [hs']
      exact ⟨hptr, hop, hdest⟩
    · exact ⟨rfl, rfl, rfl⟩
  refine h.map (fun s' => (hkeep s').1) (fun s' => (hkeep s').2.1) (fun s' => (hkeep s').2.2)
    (fun s' hn => ?_) (fun s' j hj hr => ?_) fun j hj => ?_
  · -- an unused station is not the one that advances
    rw [hentry, if_neg]
    rintro rfl
    rw [hn] at hp
    cases hp
  · rw [hentry, hstage]
    by_cases hs' : s' = s
    · rw [hs', hp] at hj
      rw [if_pos hs', if_pos (Option.some_injective _ hj).symm, ← Option.some_injective _ hj]
      exact hrep
    · -- another station does not hold `k`
      rw [if_neg hs', if_neg fun hjk => hs' (h.unique s' s k (by rw [← hjk, hj]) hp)]
      exact hr
  · rw [hstage] at hj
    by_cases hjk : j = k
    · rw [hjk]
      exact hfl
    · rwa [if_neg hjk] at hj

/-- **Freeing a station.** The instruction of a station leaves it, and each of the other
stations in use goes from its old to its new stage. -/
theorem StationRel.release {e e' : Slot → Entry} {st st' : ℕ → Stage} (h : StationRel P e st)
    {s : Slot} {k : ℕ} (hp : (e s).instPtr = some k) (hself : e' s = Entry.unused)
    (hgone : ¬(st' k).InFlight) (hptr : ∀ s', s' ≠ s → (e' s').instPtr = (e s').instPtr)
    (hop : ∀ s', s' ≠ s → (e' s').op = (e s').op)
    (hdest : ∀ s', s' ≠ s → (e' s').destTag = (e s').destTag)
    (hunused : ∀ s', s' ≠ s → (e s').instPtr = none → e' s' = e s')
    (hrep : ∀ s' j, s' ≠ s → j ≠ k → (e s').instPtr = some j → Represents P j (e s') (st j) →
      Represents P j (e' s') (st' j))
    (hfl : ∀ j, j ≠ k → (st' j).InFlight → (st j).InFlight) : StationRel P e' st' := by
  -- a station in use after the release is another one, and was in use before
  have hback : ∀ s' j, (e' s').instPtr = some j →
      s' ≠ s ∧ j ≠ k ∧ (e s').instPtr = some j := by
    intro s' j hj
    have hs' : s' ≠ s := by
      rintro rfl
      rw [hself] at hj
      cases hj
    rw [hptr s' hs'] at hj
    refine ⟨hs', ?_, hj⟩
    rintro rfl
    exact hs' (h.unique s' s j hj hp)
  refine ⟨fun s' j hj => ?_, fun s' j hj => ?_, fun s' j hj => ?_, fun s' j hj => ?_,
    fun s' j hj => ?_, fun s' hn => ?_, fun s' s'' j hj hj' => ?_, fun j hj => ?_⟩
  · exact h.lt s' j (hback s' j hj).2.2
  · exact h.rsClass s' j (hback s' j hj).2.2
  · obtain ⟨hs', -, hj⟩ := hback s' j hj
    rw [hop s' hs']
    exact h.op s' j hj
  · obtain ⟨hs', -, hj⟩ := hback s' j hj
    rw [hdest s' hs']
    exact h.destTag s' j hj
  · obtain ⟨hs', hjk, hj⟩ := hback s' j hj
    exact hrep s' j hs' hjk hj (h.represents s' j hj)
  · by_cases hs' : s' = s
    · rw [hs', hself]
      rfl
    · rw [hptr s' hs'] at hn
      rw [hunused s' hs' hn]
      exact h.unused s' hn
  · exact h.unique s' s'' j (hback s' j hj).2.2 (hback s'' j hj').2.2
  · have hjk : j ≠ k := by
      rintro rfl
      exact hgone hj
    obtain ⟨s', hs', hj⟩ := h.held j (hfl j hjk hj)
    have hne : s' ≠ s := by
      rintro rfl
      exact hjk (Option.some_injective _ (hj.symm.trans hp))
    exact ⟨s', hs', by rw [hptr s' hne, hj]⟩

/-- **Filling a station.** A free station takes an instruction that no station holds. -/
theorem StationRel.fill {e e' : Slot → Entry} {st st' : ℕ → Stage} (h : StationRel P e st)
    {s : Slot} {p : ℕ} {f : Entry} {sp : Stage} (hs : s ∈ slots) (hfree : (e s).instPtr = none)
    (hnot : ∀ s', (e s').instPtr ≠ some p) (hentry : ∀ s', e' s' = if s' = s then f else e s')
    (hstage : ∀ k, st' k = if k = p then sp else st k) (hlt : p < P.length)
    (hcl : P.rsClass p = s.1) (hptr : f.instPtr = some p) (hop : f.op = P.type p)
    (hdest : f.destTag = P.dest p) (hrep : Represents P p f sp) : StationRel P e' st' := by
  have hself : e' s = f := by rw [hentry, if_pos rfl]
  -- what a station holds afterwards: `p` if it is `s`, and what it held before otherwise
  have hback : ∀ s' k, (e' s').instPtr = some k →
      s' = s ∧ k = p ∨ k ≠ p ∧ e' s' = e s' ∧ (e s').instPtr = some k := by
    intro s' k hk
    rw [hentry] at hk ⊢
    by_cases hs' : s' = s
    · rw [if_pos hs', hptr] at hk
      exact .inl ⟨hs', (Option.some_injective _ hk).symm⟩
    · rw [if_neg hs'] at hk ⊢
      refine .inr ⟨?_, rfl, hk⟩
      rintro rfl
      exact hnot s' hk
  refine ⟨fun s' k hk => ?_, fun s' k hk => ?_, fun s' k hk => ?_, fun s' k hk => ?_,
    fun s' k hk => ?_, fun s' hn => ?_, fun s' s'' k hk hk' => ?_, fun k hk => ?_⟩
  · rcases hback s' k hk with ⟨-, rfl⟩ | ⟨-, -, hk⟩
    · exact hlt
    · exact h.lt s' k hk
  · rcases hback s' k hk with ⟨rfl, rfl⟩ | ⟨-, -, hk⟩
    · exact hcl
    · exact h.rsClass s' k hk
  · rcases hback s' k hk with ⟨rfl, rfl⟩ | ⟨-, he, hk⟩
    · rw [hself]
      exact hop
    · rw [he]
      exact h.op s' k hk
  · rcases hback s' k hk with ⟨rfl, rfl⟩ | ⟨-, he, hk⟩
    · rw [hself]
      exact hdest
    · rw [he]
      exact h.destTag s' k hk
  · rcases hback s' k hk with ⟨rfl, rfl⟩ | ⟨hne, he, hk⟩
    · rw [hself, hstage, if_pos rfl]
      exact hrep
    · rw [he, hstage, if_neg hne]
      exact h.represents s' k hk
  · rw [hentry] at hn ⊢
    by_cases hs' : s' = s
    · rw [if_pos hs', hptr] at hn
      cases hn
    · rw [if_neg hs'] at hn ⊢
      exact h.unused s' hn
  · -- no two stations hold one instruction: `p` was in none
    rcases hback s' k hk with ⟨rfl, rfl⟩ | ⟨hne, -, hk⟩
    · rcases hback s'' _ hk' with ⟨rfl, -⟩ | ⟨hne, -, -⟩
      · rfl
      · exact absurd rfl hne
    · rcases hback s'' _ hk' with ⟨-, he⟩ | ⟨-, -, hk'⟩
      · exact absurd he hne
      · exact h.unique s' s'' k hk hk'
  · rw [hstage] at hk
    by_cases hkp : k = p
    · exact ⟨s, hs, by rw [hself, hptr, hkp]⟩
    · rw [if_neg hkp] at hk
      obtain ⟨s', hs', hk⟩ := h.held k hk
      have hne : s' ≠ s := by
        rintro rfl
        rw [hk] at hfree
        cases hfree
      exact ⟨s', hs', by rw [hentry, if_neg hne, hk]⟩

theorem Stage.inFlight_tick {st : Stage} : st.tick.InFlight ↔ st.InFlight := by
  cases st <;> rfl

theorem Stage.inFlight_receive {st : Stage} {t s1 s2 : DataRegTag} :
    (st.receive t s1 s2).InFlight ↔ st.InFlight := by
  cases st <;> rfl

/-- **Decrement.** -/
theorem Refines.tick (h : Refines P m a) :
    Refines P (decrement { m with cycleCounter := m.cycleCounter + 1 }) a.tick where
  instCount := h.instCount
  cycleCounter := by
    change m.cycleCounter + 1 = a.cycle + 1
    rw [h.cycleCounter]
  programCounter := h.programCounter
  commitCount := h.commitCount
  inst := h.inst
  waiting := h.waiting
  value := h.value
  cycle_nonneg := by
    have hc := h.cycle_nonneg
    change 0 ≤ a.cycle + 1
    omega
  committed := h.committed
  stations := by
    have he : (decrement { m with cycleCounter := m.cycleCounter + 1 }).entry =
        fun s => (m.entry s).tick := by
      funext s
      rw [entry_decrement]
      rfl
    rw [he]
    have hkeep : ∀ e : Entry, e.tick.instPtr = e.instPtr ∧ e.tick.op = e.op ∧
        e.tick.destTag = e.destTag := by
      intro e
      rw [Entry.tick]
      split_ifs <;> exact ⟨rfl, rfl, rfl⟩
    refine h.stations.map (fun s => (hkeep _).1) (fun s => (hkeep _).2.1)
      (fun s => (hkeep _).2.2) (fun s hs => ?_) (fun s k _ hr => hr.tick)
      (fun k => Stage.inFlight_tick.mp)
    have hst := h.stations.unused s hs
    rw [Entry.tick, if_neg (by rw [hst]; decide)]

/-! ### Commit -/

/-- With all earlier instructions committed the loop of `commit` ends with `TRUE`. -/
theorem Refines.commitCheck (h : Refines P m a) : commitCheck m = true := by
  have hdone : ∀ i, i < m.commitCount →
      (m.inst.get i).writeback ≠ valueEmpty ∧ (m.inst.get i).commit ≠ valueEmpty := by
    intro i hi
    rw [h.commitCount] at hi
    rw [h.inst]
    exact h.committed i hi
  rw [Tomasulo.commitCheck]
  cases hcc : m.commitCount with
  | zero => rfl
  | succ c =>
    rw [forRange_succ]
    exact decide_eq_true (hdone c (by omega))

theorem Pipe.instReg_commit (a : Pipe) (c : ℕ) (v : ℤ) (k : ℕ) :
    ({ a with commitAt := Function.update a.commitAt c v, commitCount := c + 1 } :
      Pipe).instReg P k =
      if k = c then { a.instReg P c with commit := v } else a.instReg P k := by
  by_cases hk : k = c
  · subst hk
    simp [instReg]
  · simp [instReg, hk]

/-- **Commit** compares the records of one instruction, which both machines have. -/
theorem Refines.commit (h : Refines P m a) : Refines P (commit m) a.commit := by
  have hinst := h.inst a.commitCount
  have hcond : ((m.inst.get m.commitCount).writeback ≠ valueEmpty ∧
      (m.inst.get m.commitCount).commit = valueEmpty ∧ Tomasulo.commitCheck m = true) ↔
      (a.writebackAt a.commitCount ≠ valueEmpty ∧ a.commitAt a.commitCount = valueEmpty) := by
    rw [h.commitCount, hinst]
    simp only [h.commitCheck, and_true]
    exact Iff.rfl
  unfold Tomasulo.commit Pipe.commit
  by_cases hc : a.writebackAt a.commitCount ≠ valueEmpty ∧
      a.commitAt a.commitCount = valueEmpty
  · rw [if_pos hc]
    simp only [if_pos (hcond.mpr hc)]
    -- past the end of the array nothing is recorded as written back
    have hlt : a.commitCount < maxInstNum := by
      by_contra hge
      rw [Table.get_of_le _ (by omega)] at hinst
      exact hc.1 (congrArg InstReg.writeback hinst).symm
    have hcyc : a.cycle ≠ valueEmpty := by
      have := h.cycle_nonneg
      simp only [valueEmpty]
      omega
    refine ⟨h.instCount, h.cycleCounter, h.programCounter, ?_, fun k => ?_, h.waiting,
      h.value, h.cycle_nonneg, fun i hi => ?_, h.stations⟩
    · simp only [h.commitCount]
    · simp only [h.commitCount]
      rw [Pipe.instReg_commit, Table.get_set, hinst, h.cycleCounter]
      by_cases hk : k = a.commitCount
      · rw [if_pos ⟨hk, hlt⟩, if_pos hk]
      · rw [if_neg fun hh => hk hh.1, if_neg hk, h.inst]
    · by_cases hi' : i = a.commitCount
      · subst hi'
        exact ⟨hc.1, by simpa using hcyc⟩
      · have := h.committed i (by simp only at hi; omega)
        exact ⟨this.1, by simpa [hi'] using this.2⟩
  · rw [if_neg hc]
    simp only [if_neg (mt hcond.mp hc)]
    exact h

/-! ### Loops along the stations -/

/-- The body of a loop along the stations: at a station in use it refines an operation on its
instruction, at an unused station it does nothing, and it leaves the instructions of the other
stations. -/
structure SlotBody (P : Trace) (body : Machine → Slot → Machine) (op : Pipe → ℕ → Pipe) :
    Prop where
  use : ∀ m a s k, s ∈ slots → Refines P m a → m.ptr s = some k → Refines P (body m s) (op a k)
  free : ∀ m a s, Refines P m a → m.ptr s = none → body m s = m
  other : ∀ m a s s', s ∈ slots → Refines P m a → s' ≠ s → (body m s).ptr s' = m.ptr s'

section SlotBody

variable {body : Machine → Slot → Machine} {op : Pipe → ℕ → Pipe}

/-- One iteration. -/
theorem Refines.exists_slot (hbody : SlotBody P body op) {s : Slot} (hs : s ∈ slots)
    (h : Refines P m a) : ∃ a', Refines P (body m s) a' := by
  cases hp : m.ptr s with
  | none =>
    refine ⟨a, ?_⟩
    rw [hbody.free m a s h hp]
    exact h
  | some k => exact ⟨op a k, hbody.use m a s k hs h hp⟩

/-- **Loops along the stations** refine the fold of the operation along the instructions
held. -/
theorem Refines.foldl_slots (hbody : SlotBody P body op) {L : List Slot}
    (hL : ∀ s ∈ L, s ∈ slots) (hnd : L.Nodup) (h : Refines P m a) :
    Refines P (L.foldl body m) ((L.filterMap m.ptr).foldl op a) := by
  induction L generalizing m a with
  | nil => exact h
  | cons s L ih =>
    obtain ⟨hsL, hnd⟩ := List.nodup_cons.mp hnd
    have hs : s ∈ slots := hL s (by simp)
    have hkeep : L.filterMap (body m s).ptr = L.filterMap m.ptr :=
      List.filterMap_congr fun s' hs' => hbody.other m a s s' hs h fun he => hsL (he ▸ hs')
    have hL' : ∀ s' ∈ L, s' ∈ slots := fun s' hs' => hL s' (by simp [hs'])
    rw [List.foldl_cons]
    cases hp : m.ptr s with
    | none =>
      rw [List.filterMap_cons_none hp, hbody.free m a s h hp]
      exact ih hL' hnd h
    | some k =>
      rw [List.filterMap_cons_some hp, List.foldl_cons, ← hkeep]
      exact ih hL' hnd (hbody.use m a s k hs h hp)

end SlotBody

/-- The instructions held by the stations, in the order of the loops. -/
def Machine.heldInsts (m : Machine) : List ℕ := slots.filterMap m.ptr

/-- Every instruction in flight is in some station. -/
theorem Refines.mem_heldInsts (h : Refines P m a) {k : ℕ} (hk : (a.stage k).InFlight) :
    k ∈ m.heldInsts := by
  obtain ⟨s, hs, hp⟩ := h.stations.held k hk
  exact List.mem_filterMap.mpr ⟨s, hs, hp⟩

/-! ### Completion -/

/-- Completion of one instruction. -/
def Pipe.completeOne (a : Pipe) (k : ℕ) : Pipe :=
  if a.stage k = .exec 0 then
    { a with
      stage := Function.update a.stage k .done
      executeAt := Function.update a.executeAt k a.cycle }
  else a

/-- Completion along a list completes the instructions of the list. -/
theorem Pipe.foldl_completeOne (ks : List ℕ) (a : Pipe) :
    ks.foldl completeOne a =
      { a with
        stage := fun k => if k ∈ ks then (a.stage k).complete else a.stage k
        executeAt := fun k =>
          if k ∈ ks ∧ a.stage k = .exec 0 then a.cycle else a.executeAt k } := by
  induction ks generalizing a with
  | nil => simp
  | cons k ks ih =>
    rw [List.foldl_cons, ih, completeOne]
    by_cases hk : a.stage k = .exec 0
    · rw [if_pos hk]
      congr 1
      · funext j
        by_cases hj : j = k
        · subst hj
          simp [hk, Stage.complete]
        · simp [hj]
      · funext j
        by_cases hj : j = k
        · subst hj
          simp [hk]
        · simp [hj]
    · rw [if_neg hk]
      -- an instruction that has cycles left, or does not execute, is left alone by `complete`
      have hst : (a.stage k).complete = a.stage k := by
        cases hs : a.stage k with
        | exec left =>
          have hne : left ≠ 0 := fun h0 => hk (by rw [hs, h0])
          simp [Stage.complete, hne]
        | _ => rfl
      congr 1
      · funext j
        by_cases hj : j = k
        · subst hj
          simp [hst]
        · simp [hj]
      · funext j
        by_cases hj : j = k
        · subst hj
          simp [hk]
        · simp [hj]

/-- Completing the instructions of a list one after the other completes them all, if no instruction
in flight is missing. -/
theorem Pipe.foldl_completeOne_eq {ks : List ℕ} {a : Pipe}
    (hks : ∀ k, (a.stage k).InFlight → k ∈ ks) : ks.foldl completeOne a = a.complete := by
  rw [foldl_completeOne, complete]
  congr 1
  · funext k
    by_cases hk : k ∈ ks
    · rw [if_pos hk]
    · rw [if_neg hk]
      cases hst : a.stage k with
      | exec left => exact absurd (hks k (by rw [hst]; trivial)) hk
      | _ => rfl
  · funext k
    by_cases hk : a.stage k = .exec 0
    · rw [if_pos ⟨hks k (by rw [hk]; trivial), hk⟩, if_pos hk]
    · rw [if_neg fun hh => hk hh.2, if_neg hk]

/-- Writing a field of the instruction at a station. -/
theorem Refines.get_setInst (h : Refines P m a) {s : Slot} {k : ℕ} (hp : m.ptr s = some k)
    (f : InstReg → InstReg) (j : ℕ) :
    (setInst m.inst (m.ptr s) f).get j =
      if j = k then f (a.instReg P k) else a.instReg P j := by
  have hlt : k < maxInstNum := (h.stations.lt s k hp).trans_le Trace.length_le_max
  rw [hp, setInst, Table.get_set, h.inst]
  by_cases hj : j = k
  · rw [if_pos ⟨hj, hlt⟩, if_pos hj]
  · rw [if_neg fun hh => hj hh.1, if_neg hj, h.inst]

/-- The test of the completion loop, on the stage. -/
theorem Represents.exec_zero_iff {k : ℕ} {e : Entry} {st : Stage} (h : Represents P k e st) :
    (e.cycleLast = 0 ∧ e.state = .exec) ↔ st = .exec 0 := by
  rw [h.state_exec_iff]
  constructor
  · rintro ⟨hcl, left, rfl⟩
    rw [← h.2.1, hcl]
  · rintro rfl
    exact ⟨h.2.1, 0, rfl⟩

/-- The completion loop changes the station it looks at, and only if its counter has run out. -/
theorem entry_completeSlot {s : Slot} (hs : s ∈ slots) (m : Machine) (s' : Slot) :
    (completeSlot m s).entry s' =
      if s' = s ∧ (m.entry s).cycleLast = 0 ∧ (m.entry s).state = .exec then
        (m.entry s).setState .done
      else m.entry s' := by
  rw [completeSlot_eq]
  by_cases hc : (m.entry s).cycleLast = 0 ∧ (m.entry s).state = .exec
  · rw [if_pos hc, Machine.entry_withInst, Machine.entry_modifyRs (mem_slots.mp hs)
      (h := Entry.setState .done) (fun _ _ => rfl) (fun _ _ => rfl)]
    simp only [hc, and_true]
  · rw [if_neg hc, if_neg fun hh => hc hh.2]

/-- One round of the completion loop, on a station in use. -/
theorem Refines.completeSlot {s : Slot} {k : ℕ} (hs : s ∈ slots) (h : Refines P m a)
    (hp : m.ptr s = some k) : Refines P (completeSlot m s) (a.completeOne k) := by
  have hiff := (h.stations.represents s k hp).exec_zero_iff
  have hentry := entry_completeSlot hs m
  rw [completeSlot_eq] at hentry ⊢
  rw [Pipe.completeOne]
  by_cases hc : a.stage k = .exec 0
  · rw [if_pos hc, if_pos (hiff.mpr hc)]
    rw [if_pos (hiff.mpr hc)] at hentry
    have hcore := m.sameCore_modifyRs s (.setState .done) (.setState .done)
    refine ⟨hcore.instCount.trans h.instCount, hcore.cycleCounter.trans h.cycleCounter,
      hcore.programCounter.trans h.programCounter, hcore.commitCount.trans h.commitCount,
      fun j => ?_, fun t ht => ?_, fun t ht => ?_, h.cycle_nonneg, h.committed, ?_⟩
    · change (setInst m.inst (m.ptr s) fun i => { i with execute := m.cycleCounter }).get j = _
      rw [h.get_setInst hp, h.cycleCounter]
      by_cases hj : j = k
      · subst hj
        simp [Pipe.instReg]
      · simp [Pipe.instReg, hj]
    · rw [← h.waiting t ht]
      exact congrArg (fun reg => (readReg reg (findRegIndex t)).waiting) hcore.fpReg
    · rw [← h.value t ht]
      exact congrArg (fun reg => (readReg reg (findRegIndex t)).value) hcore.fpReg
    · -- the station stays with its instruction, which goes on to `done`
      refine h.stations.advance (f := (m.entry s).setState .done) hp (fun s' => ?_)
        (fun j => Function.update_apply _ _ _ _) rfl rfl rfl ?_ (by rw [hc]; trivial)
      · rw [hentry]
        simp only [hiff.mpr hc, and_self, and_true]
      · exact rfl
  · rw [if_neg hc, if_neg (mt hiff.mp hc)]
    exact h

/-- The completion loop visits the stations; an unused one is left alone. -/
theorem slotBody_complete : SlotBody P Tomasulo.completeSlot Pipe.completeOne where
  use _ _ _ _ hs h hp := h.completeSlot hs hp
  free m a s h hp := by
    have hst := h.stations.unused s hp
    rw [completeSlot_eq, if_neg]
    rintro ⟨-, hex⟩
    rw [hst] at hex
    exact RsState.noConfusion hex
  other m a s s' hs _ hne := by
    rw [Machine.ptr, entry_completeSlot hs, if_neg fun hh => hne hh.1]
    rfl

/-- **Completion.** -/
theorem Refines.complete (h : Refines P m a) : Refines P (complete m) a.complete := by
  rw [complete_eq_foldl, ← Pipe.foldl_completeOne_eq fun k => h.mem_heldInsts]
  exact Refines.foldl_slots slotBody_complete (fun s hs => hs) slots_nodup h

/-! ### Write-back -/

/-- The stores are the instructions that do not write a register. -/
theorem Trace.rsClass_eq_store_iff {k : ℕ} : P.rsClass k = .store ↔ ¬P.Writes k := by
  rw [Trace.rsClass, Trace.Writes, not_not]
  cases P.type k <;> simp [InstOp.rsClass]

/-- The store stations hold the instructions that do not write. -/
theorem Refines.store_iff {s : Slot} {k : ℕ} (h : Refines P m a) (hp : m.ptr s = some k) :
    s.1 = .store ↔ ¬P.Writes k := by
  rw [← h.stations.rsClass s k hp]
  exact Trace.rsClass_eq_store_iff

/-- A broadcast changes the tags and values of a station and nothing else. -/
theorem Entry.receive_keep (r : ℤ) (e : Entry) : (e.receive r).instPtr = e.instPtr ∧
    (e.receive r).op = e.op ∧ (e.receive r).destTag = e.destTag := by
  rw [Entry.receive]
  split_ifs <;> exact ⟨rfl, rfl, rfl⟩

/-- An unused station has no tag that a broadcast could match. -/
theorem Entry.receive_of_unused {r : ℤ} {e : Entry} (h : e.state = .unused) :
    e.receive r = e := by
  rw [Entry.receive, if_neg (by rw [h]; decide)]

/-- The machine `writebackSlot` leaves when the station is done. -/
private def retired (m : Machine) (s : Slot) : Machine :=
  clearReg
    ((if s.1 = .store then m.withInst (setWriteback m (m.ptr s))
      else broadcast m (m.ptr s) (findRegIndex (m.entry s).destTag)).modifyRs s
        (fun _ => resetRsLs) (fun _ => resetRs))
    (findRegIndex (m.entry s).destTag)

/-- The stations after one of them was written back: that one is unused, and the others have heard
its broadcast if there was one. -/
private theorem entry_retired {s : Slot} (hs : s ∈ slots)
    (hd : (m.entry s).destTag ≠ .noReg) (s' : Slot) :
    (retired m s).entry s' =
      if s' = s then Entry.unused
      else if s.1 = .store then m.entry s'
      else (m.entry s').receive (findRegIndex (m.entry s).destTag) := by
  have hclear : ∀ (m : Machine) (i : ℤ), (clearReg m i).entry = m.entry := by
    intro m i
    exact Machine.entry_withReg m _
  rw [retired, hclear, Machine.entry_modifyRs (mem_slots.mp hs) (h := fun _ => Entry.unused)
    (fun _ _ => rfl) (fun _ _ => rfl)]
  by_cases hs' : s' = s
  · rw [if_pos hs', if_pos hs']
  · rw [if_neg hs', if_neg hs']
    by_cases hst : s.1 = .store
    · rw [if_pos hst, if_pos hst, Machine.entry_withInst]
    · rw [if_neg hst, if_neg hst, broadcast,
        entry_updateRs (findRegIndex_ne_valueEmpty hd)]
      congr 1

/-- A write-back records the cycle in one instruction and leaves the counters alone. -/
private theorem retired_core (m : Machine) (s : Slot) :
    (retired m s).instCount = m.instCount ∧ (retired m s).cycleCounter = m.cycleCounter ∧
      (retired m s).programCounter = m.programCounter ∧
      (retired m s).commitCount = m.commitCount ∧
      (retired m s).inst = setWriteback m (m.ptr s) := by
  obtain ⟨c, i⟩ := s
  cases c <;> exact ⟨rfl, rfl, rfl, rfl, rfl⟩

/-- The registers after a write-back: the flag is cleared, and a writing class leaves its
result. -/
private theorem retired_fpReg {s : Slot} (hd : (m.entry s).destTag ≠ .noReg)
    (t : DataRegTag) :
    readReg (retired m s).fpReg (findRegIndex t) =
      if t = (m.entry s).destTag then
        if s.1 = .store then resetReg (readReg m.fpReg (findRegIndex t))
        else resetReg
          { readReg m.fpReg (findRegIndex t) with value := resultValue m (m.ptr s) }
      else readReg m.fpReg (findRegIndex t) := by
  have hcore := (if s.1 = .store then m.withInst (setWriteback m (m.ptr s))
      else broadcast m (m.ptr s) (findRegIndex (m.entry s).destTag)).sameCore_modifyRs s
        (fun _ => resetRsLs) (fun _ => resetRs)
  rw [retired, clearReg]
  simp only [hcore.fpReg]
  rw [readReg_writeReg hd]
  by_cases ht : t = (m.entry s).destTag
  · subst ht
    rw [if_pos rfl, if_pos rfl]
    by_cases hst : s.1 = .store
    · rw [if_pos hst, if_pos hst]
      rfl
    · rw [if_neg hst, if_neg hst, broadcast]
      change resetReg (readReg (writeReg m.fpReg _ _) _) = _
      -- the broadcast writes the same register before the flag is cleared
      rw [readReg_writeReg hd, if_pos rfl]
  · rw [if_neg ht, if_neg ht]
    by_cases hst : s.1 = .store
    · rw [if_pos hst]
      rfl
    · rw [if_neg hst, broadcast]
      change readReg (writeReg m.fpReg _ _) _ = _
      rw [readReg_writeReg hd, if_neg ht]

/-- The stations after the write-back of instruction `k`. -/
private theorem stationRel_retired {s : Slot} {k : ℕ} (hs : s ∈ slots) (h : Refines P m a)
    (hp : m.ptr s = some k) (hc : a.stage k = .done) :
    StationRel P (retired m s).entry (a.retireOne P k).stage := by
  have hlt := h.stations.lt s k hp
  have hdest := h.stations.destTag s k hp
  have hd := Trace.dest_ne_noReg hlt
  have hstore : s.1 = .store ↔ ¬P.Writes k := h.store_iff hp
  have hentry := entry_retired (m := m) hs (by rwa [hdest])
  have hother : ∀ s', s' ≠ s → ((retired m s).entry s').instPtr = (m.entry s').instPtr ∧
      ((retired m s).entry s').op = (m.entry s').op ∧
      ((retired m s).entry s').destTag = (m.entry s').destTag := by
    intro s' hs'
    rw [hentry, if_neg hs']
    split_ifs
    · exact ⟨rfl, rfl, rfl⟩
    · exact Entry.receive_keep _ _
  have hstage : ∀ j, (a.retireOne P k).stage j =
      if j = k then .retired
      else if P.Writes k then (a.stage j).receive (P.dest k) (P.src1 j) (P.src2 j)
      else a.stage j := fun j => by rw [Pipe.retireOne, if_pos hc]
  refine h.stations.release hp ?_ ?_ (fun s' hs' => (hother s' hs').1)
    (fun s' hs' => (hother s' hs').2.1) (fun s' hs' => (hother s' hs').2.2)
    (fun s' hs' hn => ?_) (fun s' j hs' hjk _ hrep => ?_) (fun j hjk hj => ?_)
  · rw [hentry, if_pos rfl]
  · rw [hstage, if_pos rfl]
    exact id
  · rw [hentry, if_neg hs', Entry.receive_of_unused (h.stations.unused s' hn), ite_self]
  · -- the other stations hear the broadcast, if there is one
    rw [hentry, if_neg hs', hstage, if_neg hjk, hdest]
    by_cases hw : P.Writes k
    · rw [if_neg fun hh => hstore.mp hh hw, if_pos hw]
      exact hrep.receive hd
    · rw [if_pos (hstore.mpr hw), if_neg hw]
      exact hrep
  · rw [hstage, if_neg hjk] at hj
    split_ifs at hj
    · exact Stage.inFlight_receive.mp hj
    · exact hj

/-- One round of the write-back loop, on a station in use. -/
theorem Refines.retireOne {s : Slot} {k : ℕ} (hs : s ∈ slots) (h : Refines P m a)
    (hp : m.ptr s = some k) : Refines P (writebackSlot m s) (a.retireOne P k) := by
  have hiff := (h.stations.represents s k hp).state_done_iff
  have hlt := h.stations.lt s k hp
  have hdest := h.stations.destTag s k hp
  have hd : (m.entry s).destTag ≠ .noReg := by
    rw [hdest]
    exact Trace.dest_ne_noReg hlt
  have hstore : s.1 = .store ↔ ¬P.Writes k := h.store_iff hp
  rw [writebackSlot_eq]
  by_cases hc : a.stage k = .done
  · rw [if_pos (hiff.mpr hc)]
    change Refines P (retired m s) _
    have hstations := stationRel_retired hs h hp hc
    obtain ⟨h1, h2, h3, h4, h5⟩ := retired_core m s
    rw [Pipe.retireOne, if_pos hc] at hstations ⊢
    refine ⟨h1.trans h.instCount, h2.trans h.cycleCounter, h3.trans h.programCounter,
      h4.trans h.commitCount, fun j => ?_, fun t ht => ?_, fun t ht => ?_, h.cycle_nonneg,
      fun i hi => ?_, hstations⟩
    · rw [h5, setWriteback, h.get_setInst hp, h.cycleCounter]
      by_cases hj : j = k
      · subst hj
        simp [Pipe.instReg]
      · simp [Pipe.instReg, hj]
    · -- the flag, which is taken down for an `SW` also
      rw [retired_fpReg hd, hdest]
      dsimp only
      by_cases htd : t = P.dest k
      · rw [if_pos htd, htd, Function.update_self]
        split_ifs <;> rfl
      · rw [if_neg htd, Function.update_of_ne htd]
        exact h.waiting t ht
    · -- the value, which an `SW` leaves
      rw [retired_fpReg hd, hdest]
      dsimp only
      by_cases htd : t = P.dest k
      · rw [if_pos htd]
        by_cases hw : P.Writes k
        · rw [if_neg fun hh => hstore.mp hh hw, if_pos hw, htd, Function.update_self]
          change resultValue m (m.ptr s) = _
          rw [hp, resultValue, h.inst, Pipe.instReg]
          simp [hlt]
        · rw [if_pos (hstore.mpr hw), if_neg hw]
          exact h.value t ht
      · rw [if_neg htd]
        by_cases hw : P.Writes k
        · rw [if_pos hw, Function.update_of_ne htd]
          exact h.value t ht
        · rw [if_neg hw]
          exact h.value t ht
    · have hcom := h.committed i hi
      refine ⟨?_, hcom.2⟩
      have hcyc : a.cycle ≠ valueEmpty := by
        have := h.cycle_nonneg
        simp only [valueEmpty]
        omega
      by_cases hik : i = k
      · simpa [hik] using hcyc
      · simpa [hik] using hcom.1
  · rw [if_neg (mt hiff.mp hc), Pipe.retireOne, if_neg hc]
    exact h

/-- A station in use has a register, so no write of the loops goes astray. -/
theorem Refines.destTag_ne_noReg (h : Refines P m a) {s : Slot} {st : RsState}
    (hst : (m.entry s).state = st) (hne : st ≠ .unused) : (m.entry s).destTag ≠ .noReg := by
  cases hp : (m.entry s).instPtr with
  | none =>
    rw [h.stations.unused s hp] at hst
    exact absurd hst.symm hne
  | some k =>
    rw [h.stations.destTag s k hp]
    exact Trace.dest_ne_noReg (h.stations.lt s k hp)

/-- The stations after one iteration of `writeback`. -/
theorem Refines.entry_writebackSlot {s : Slot} (h : Refines P m a) (hs : s ∈ slots)
    (s' : Slot) : (writebackSlot m s).entry s' =
      if (m.entry s).state = .done then
        if s' = s then Entry.unused
        else if s.1 = .store then m.entry s'
        else (m.entry s').receive (findRegIndex (m.entry s).destTag)
      else m.entry s' := by
  rw [writebackSlot_eq]
  by_cases hd : (m.entry s).state = .done
  · rw [if_pos hd, if_pos hd]
    exact entry_retired hs (h.destTag_ne_noReg hd (by decide)) s'
  · rw [if_neg hd, if_neg hd]

theorem slotBody_writeback : SlotBody P writebackSlot (Pipe.retireOne P) where
  use _ _ _ _ hs h hp := h.retireOne hs hp
  free m a s h hp := by
    have hst := h.stations.unused s hp
    rw [writebackSlot_eq, if_neg (by rw [hst]; decide)]
  other m a s s' hs h hne := by
    rw [Machine.ptr, h.entry_writebackSlot hs, if_neg hne]
    split_ifs
    · rfl
    · exact (Entry.receive_keep _ _).1
    · rfl

/-- **Write-back.** -/
theorem Refines.retire (h : Refines P m a) :
    Refines P (writeback m) (a.retire P m.heldInsts) := by
  rw [writeback_eq_foldl]
  exact Refines.foldl_slots slotBody_writeback (fun s hs => hs) slots_nodup h

/-! ### Register dependency -/

/-- One marking instruction. -/
def Pipe.markOne (P : Trace) (a : Pipe) (k : ℕ) : Pipe :=
  if a.Marks P k then { a with waiting := Function.update a.waiting (P.dest k) true } else a

/-- Marking along a list raises the flags of the registers that some instruction of it marks. -/
theorem Pipe.foldl_markOne (ks : List ℕ) (a : Pipe) :
    ks.foldl (markOne P) a =
      { a with
        waiting := fun t =>
          a.waiting t || decide (∃ k, k ∈ ks ∧ a.Marks P k ∧ P.dest k = t) } := by
  induction ks generalizing a with
  | nil => simp
  | cons k ks ih =>
    rw [List.foldl_cons, ih, markOne]
    by_cases hk : a.Marks P k
    · rw [if_pos hk]
      congr 1
      funext t
      have hmarks : ∀ j, ({ a with waiting := Function.update a.waiting (P.dest k) true } :
          Pipe).Marks P j ↔ a.Marks P j := fun j => Iff.rfl
      by_cases ht : t = P.dest k
      · subst ht
        simp [hk]
      · simp [hmarks, ht, Ne.symm ht]
    · rw [if_neg hk]
      congr 1
      funext t
      simp [hk]

theorem Pipe.Marks.inFlight {a : Pipe} {k : ℕ} (h : a.Marks P k) : (a.stage k).InFlight := by
  rw [Pipe.Marks] at h
  cases hst : a.stage k with
  | idle => rw [hst] at h; exact h
  | retired => rw [hst] at h; exact h
  | issued wj wk => trivial
  | exec left => trivial
  | done => trivial

/-- Marking along a list is the dependency pass, if no instruction in flight is missing. -/
theorem Pipe.foldl_markOne_eq {ks : List ℕ} {a : Pipe}
    (hks : ∀ k, (a.stage k).InFlight → k ∈ ks) (hlt : ∀ k ∈ ks, k < P.length) :
    ks.foldl (markOne P) a = a.depend P := by
  rw [foldl_markOne, depend]
  congr 1
  funext t
  congr 1
  refine decide_eq_decide.mpr ⟨?_, ?_⟩
  · rintro ⟨k, hk, hm, ht⟩
    exact ⟨k, hlt k hk, hm, ht⟩
  · rintro ⟨k, -, hm, ht⟩
    exact ⟨k, hks k hm.inFlight, hm, ht⟩

/-- Rewriting the flag of one register. -/
theorem Refines.withReg (h : Refines P m a) {tag : DataRegTag} (htag : tag ≠ .noReg) {r : DataReg}
    {w : DataRegTag → Bool}
    (hw : ∀ t, t ≠ .noReg →
      (if t = tag then r else readReg m.fpReg (findRegIndex t)).waiting = w t)
    (hv : r.value = (readReg m.fpReg (findRegIndex tag)).value) :
    Refines P (m.withReg (writeReg m.fpReg (findRegIndex tag) r)) { a with waiting := w } := by
  refine ⟨h.instCount, h.cycleCounter, h.programCounter, h.commitCount, h.inst,
    fun t ht => ?_, fun t ht => ?_, h.cycle_nonneg, h.committed, ?_⟩
  · change (readReg (writeReg m.fpReg _ _) _).waiting = _
    rw [readReg_writeReg htag, hw t ht]
  · change (readReg (writeReg m.fpReg _ _) _).value = _
    rw [readReg_writeReg htag, ← h.value t ht]
    split_ifs with htd
    · rw [hv, htd]
    · rfl
  · rw [Machine.entry_withReg]
    exact h.stations

/-- The dependency loops mark exactly for the marking instructions. -/
theorem Refines.marks_iff {s : Slot} {k : ℕ} (h : Refines P m a) (hp : m.ptr s = some k) :
    a.Marks P k ↔ ((m.entry s).state = .exec ∨ (m.entry s).state = .issued ∧ s.1 ≠ .load) ∧
      s.1 ≠ .store := by
  have hrep := h.stations.represents s k hp
  have hcl : (P.type k).rsClass = s.1 := h.stations.rsClass s k hp
  have hnop := Trace.type_ne_nop (h.stations.lt s k hp)
  have hload : s.1 ≠ .load → s.1 ≠ .store → (P.type k).isMem = false := by
    rw [← hcl]
    cases htype : P.type k with
    | nop => exact absurd htype hnop
    | lw => exact fun hl _ => absurd rfl hl
    | sw => exact fun _ hs => absurd rfl hs
    | _ => exact fun _ _ => rfl
  have hstore : s.1 = .store ↔ P.type k = .sw := by
    rw [h.store_iff hp, Trace.Writes, not_not]
  have hmem : (P.type k).isMem = false → s.1 ≠ .load ∧ s.1 ≠ .store := by
    rw [← hcl]
    cases htype : P.type k with
    | nop => exact absurd htype hnop
    | _ => simp [InstOp.rsClass, InstOp.isMem]
  -- by the stage of the instruction, which the state of its station follows
  unfold Pipe.Marks Trace.Writes
  cases hst : a.stage k with
  | idle => rw [hst] at hrep; exact absurd hrep id
  | retired => rw [hst] at hrep; exact absurd hrep id
  | issued wj wk =>
    rw [hst] at hrep
    rw [hrep.1]
    refine ⟨fun h => ⟨.inr ⟨rfl, (hmem h).1⟩, (hmem h).2⟩, ?_⟩
    rintro ⟨hx | ⟨-, hl⟩, hs⟩
    · cases hx
    · exact hload hl hs
  | exec left =>
    rw [hst] at hrep
    rw [hrep.1]
    simp only [true_or, true_and, ne_eq, hstore]
  | done =>
    rw [hst] at hrep
    rw [show (m.entry s).state = .done from hrep]
    simp

theorem Refines.markOne {s : Slot} {k : ℕ} (h : Refines P m a) (hp : m.ptr s = some k) :
    Refines P (dependSlot m s) (a.markOne P k) := by
  have hiff := h.marks_iff hp
  have hdest := h.stations.destTag s k hp
  have hd := Trace.dest_ne_noReg (h.stations.lt s k hp)
  rw [← hdest] at hd
  rw [dependSlot_eq, Pipe.markOne]
  by_cases hst : (m.entry s).state = .exec ∨ (m.entry s).state = .issued ∧ s.1 ≠ .load
  · rw [if_pos hst]
    by_cases hs : s.1 = .store
    · rw [if_pos hs, if_neg fun hm => (hiff.mp hm).2 hs]
      refine h.withReg hd (w := a.waiting) (fun t ht => ?_) rfl
      rw [← h.waiting t ht]
      split_ifs with htd
      · rw [htd]
      · rfl
    · rw [if_neg hs, if_pos (hiff.mpr ⟨hst, hs⟩)]
      refine h.withReg hd (fun t ht => ?_) rfl
      rw [← hdest]
      by_cases htd : t = (m.entry s).destTag
      · rw [if_pos htd, htd, Function.update_self]
      · rw [if_neg htd, Function.update_of_ne htd]
        exact h.waiting t ht
  · rw [if_neg hst, if_neg fun hm => hst (hiff.mp hm).1]
    exact h

/-- The dependency pass writes to the registers, not to the stations. -/
theorem entry_dependSlot (m : Machine) (s : Slot) : (dependSlot m s).entry = m.entry := by
  rw [dependSlot_eq]
  split_ifs
  · exact Machine.entry_withReg m _
  · exact Machine.entry_withReg m _
  · rfl

theorem slotBody_depend : SlotBody P dependSlot (Pipe.markOne P) where
  use _ _ _ _ _ h hp := h.markOne hp
  free m a s h hp := by
    have hst := h.stations.unused s hp
    rw [dependSlot_eq, if_neg (by simp [hst])]
  other m a s s' _ _ _ := by
    rw [Machine.ptr, entry_dependSlot]
    rfl

/-- **Register dependency.** -/
theorem Refines.depend (h : Refines P m a) : Refines P (depend m) (a.depend P) := by
  have hlt : ∀ k ∈ m.heldInsts, k < P.length := by
    intro k hk
    obtain ⟨s, -, hp⟩ := List.mem_filterMap.mp hk
    exact h.stations.lt s k hp
  rw [depend_eq_foldl, ← Pipe.foldl_markOne_eq (fun k => h.mem_heldInsts) hlt]
  exact Refines.foldl_slots slotBody_depend (fun s hs => hs) slots_nodup h

end AdvancedArchitecture.Tomasulo
