import AdvancedArchitecture.Outorder.Runs

/-!
# What holds in every cycle

The invariant of the machine, read as guarantees about each state that a simulation reaches at the
start of a cycle: the two queues have the operations they should have, an operand waits for the
right operation, a ready operation is not forgotten, a load does not overtake a store it depends
on, and the speculative operations are those after the one mispredicted branch.
-/

namespace AdvancedArchitecture.Outorder

open Bpred (MdAddr sizeofMdInst)

variable {σ τ W U : Type} {S : Setup σ τ W U} {m : Machine σ τ W U} {regs : σ} {pc : MdAddr}
  {p : RsPtr} {i k n : ℕ}

namespace Core

variable {names : MdInst → Names} {s : Core U}

/-- Who waits for an operand waits for an older operation. -/
theorem Inv.older_of_not_ready (h : s.Inv names {}) (hp : s.Live p)
    (hr : (s.station p).operandsReady = false) :
    ∃ q, s.Live q ∧ (s.station q).completed = false ∧ (s.station q).seq < (s.station p).seq := by
  have hk : ∃ k < maxIdeps, (s.station p).idepReady k = false := by
    by_contra hall
    have hready : ∀ k < maxIdeps, (s.station p).idepReady k = true := fun k hk => by
      by_contra hne
      exact hall ⟨k, hk, by simpa using hne⟩
    rw [Station.operandsReady, hready 0 (by decide), hready 1 (by decide),
      hready 2 (by decide)] at hr
    exact absurd hr (by simp)
  obtain ⟨k, hk, hr⟩ := hk
  obtain ⟨q, i, hw⟩ := h.deps.linked p k hp hk hr
  obtain ⟨hwrites, hopen⟩ := h.deps.list_open q i _ hw
  exact ⟨q, hwrites.1, hopen.resolve_right (by simp), h.deps.older q i _ hw (s.valid_link p k)⟩

/-- The operands of the oldest instruction are ready. -/
theorem Inv.first_ready (h : s.Inv names {}) (hn : 0 < s.ruu.num) :
    (s.station s.firstRuu).operandsReady = true := by
  by_contra hr
  obtain ⟨q, hq, -, hlt⟩ := h.older_of_not_ready (p := s.firstRuu)
    (h.window.ruu_ok.head_mem hn) (by simpa using hr)
  by_cases hfirst : s.First q
  · rcases hfirst with rfl | ⟨hea, rfl⟩
    · exact absurd hlt (lt_irrefl _)
    · have := (h.window.seq_firstLsq hn hea).2
      omega
  · have := h.window.first_lt hn (Or.inl rfl) hq hfirst
    omega

/-- So are those of its memory access, when the address has been computed. -/
theorem Inv.firstLsq_ready (h : s.Inv names {}) (hn : 0 < s.ruu.num)
    (hc : (s.station s.firstRuu).completed = true) (hea : (s.station s.firstRuu).eaComp = true) :
    (s.station s.firstLsq).operandsReady = true := by
  have hlsq := h.window.seq_firstLsq hn hea
  by_contra hr
  obtain ⟨q, hq, hopen, hlt⟩ :=
    h.older_of_not_ready (p := s.firstLsq) (h.window.lsq_ok.head_mem hlsq.1) (by simpa using hr)
  by_cases hfirst : s.First q
  · rcases hfirst with rfl | ⟨-, rfl⟩
    · exact absurd (hc.symm.trans hopen) (by simp)
    · exact absurd hlt (lt_irrefl _)
  · have := h.window.first_lt hn (Or.inr ⟨hea, rfl⟩) hq hfirst
    omega

/-- No store is before the oldest entry of the LSQ. -/
theorem Window.not_storeBefore (h : s.Window) (hn : 0 < s.lsq.num) (j : ℕ) :
    ¬s.StoreBefore s.lsq.head j := by
  rintro ⟨hj, -, hlt⟩
  have hord := h.lsq_ordered
  rw [h.lsq_ok.slots_pop hn] at hord hj
  rcases List.mem_cons.mp hj with rfl | hj
  · exact absurd hlt (lt_irrefl _)
  · exact absurd ((List.pairwise_cons.mp hord).1 j hj) hlt.not_gt

end Core

open Outorder.Core

namespace Machine

theorem Reached.inv (h : Reached S regs pc m) : m.core.Inv S.target.names {} := h.good.back.inv

/-! ### The queues -/

/-- The ready queue has exactly one valid link for each operation that is queued, and the event
queue for each one that has issued and not completed. Events are in the order of their times, and
none is in the past. -/
theorem Reached.queues_exact (h : Reached S regs pc m) (p : RsPtr) :
    (m.core.readyQueue.countP fun ℓ => ℓ.rs = p ∧ m.core.Valid ℓ) =
        (if m.core.Live p ∧ (m.core.station p).queued = true then 1 else 0) ∧
      (m.core.eventQueue.countP fun ℓ => ℓ.rs = p ∧ m.core.Valid ℓ) =
        (if m.core.Live p ∧ (m.core.station p).issued = true ∧ (m.core.station p).completed = false
          then 1 else 0) ∧
      (m.core.eventQueue.Pairwise fun a b => a.x ≤ b.x) ∧
      ∀ ℓ ∈ m.core.eventQueue, m.core.simCycle ≤ ℓ.x :=
  have hs := h.inv.scheduled
  ⟨hs.ready.count p, hs.events.count p, hs.sorted, h.good.back.timely⟩

/-- In the fourth cycle the jump is being executed. -/
theorem queues_exact_loop :
    ((loopAt 4).core.readyQueue.countP fun ℓ =>
        ℓ.rs = ⟨false, 3⟩ ∧ (loopAt 4).core.Valid ℓ) = 0 ∧
      ((loopAt 4).core.eventQueue.countP fun ℓ =>
        ℓ.rs = ⟨false, 3⟩ ∧ (loopAt 4).core.Valid ℓ) = 1 := by
  obtain ⟨hready, hevents, -⟩ := (reached_loopAt (n := 4) (by decide)).queues_exact ⟨false, 3⟩
  obtain ⟨hlive, hq, hi, hc⟩ := LoopStates.jump₄ loopStates
  exact ⟨hready.trans (if_neg fun h => by simp [hq] at h), hevents.trans (if_pos ⟨hlive, hi, hc⟩)⟩

/-- An operation is queued, issued or completed after its operands are ready only, and in this
order; and one whose operands are ready is on its way, but for a load that `lsq_refresh` has to
let go. -/
theorem Reached.lifecycle (h : Reached S regs pc m) (hp : m.core.Live p) :
    let st := m.core.station p
    (st.queued = true → st.operandsReady = true ∧ st.issued = false) ∧
      (st.issued = true → st.operandsReady = true) ∧ (st.completed = true → st.issued = true) ∧
      (st.operandsReady = true → st.queued = true ∨ st.issued = true ∨
        p.inLSQ = true ∧ st.op.isStore = false) := by
  have hs := h.inv.scheduled
  refine ⟨fun hq => ?_, hs.issued p hp, hs.completed p hp, fun hr => ?_⟩
  · exact ⟨(hs.queued p hp hq).1, (hs.queued p hp hq).2.1⟩
  · by_cases hself : (m.core.station p).selfQueued = true
    · exact (h.inv.awake p hp (List.not_mem_nil) hself hr).imp_right Or.inl
    · rw [Station.selfQueued, h.inv.window.inLSQ p hp] at hself
      exact Or.inr (Or.inr (by simpa using hself))

/-- In the fourth cycle the operands of the addition on the wrong path are ready. -/
theorem lifecycle_loop : ((loopAt 4).core.station ⟨false, 4⟩).queued = true ∨
    ((loopAt 4).core.station ⟨false, 4⟩).issued = true := by
  obtain ⟨hlive, hr⟩ := LoopStates.addition₄ loopStates
  obtain ⟨-, -, -, hready⟩ := (reached_loopAt (n := 4) (by decide)).lifecycle hlive
  exact (hready hr).imp_right fun h => h.resolve_right (by simp)

/-! ### Operands -/

/-- An operand that is not ready is on the output list of one operation, the last before its own
that writes the register, and this one has not completed. An operand that is ready has no writer
before it, or the last one has completed. -/
theorem Reached.operand_exact (h : Reached S regs pc m) (hp : m.core.Live p) (hk : k < maxIdeps) :
    let n := ((m.core.station p).names S.target.names).input k
    if (m.core.station p).idepReady k then m.core.Settled n (m.core.station p).seq
    else ∃ q i, (∀ q' i', m.core.Waits p k q' i' ↔ q' = q ∧ i' = i) ∧ m.core.Writes q i n ∧
      (m.core.station q).completed = false ∧ (m.core.station q).seq < (m.core.station p).seq ∧
      m.core.LastBefore q n (m.core.station p).seq := by
  have hd := h.inv.deps
  cases hr : (m.core.station p).idepReady k
  · obtain ⟨q, i, hw⟩ := hd.linked p k hp hk hr
    have hv := m.core.valid_link p k
    obtain ⟨hwrites, hopen⟩ := hd.list_open q i _ hw
    have hn := hd.reads q i _ hw hv
    refine ⟨q, i, fun q' i' => ⟨fun hw' => ?_, ?_⟩, ?_, ?_, hd.older q i _ hw hv, ?_⟩
    · exact hd.unique p k q' i' q i hw' hw
    · rintro ⟨rfl, rfl⟩
      exact hw
    · exact hn ▸ hwrites
    · exact hopen.resolve_right (by simp)
    · exact hn ▸ hd.last q i _ hw hv
  · exact hd.ready p k hp hk hr

/-- In the fourth cycle the store waits for its address. -/
theorem operand_exact_loop : ∃ q i, (loopAt 4).core.Waits ⟨true, 0⟩ 1 q i ∧
    (loopAt 4).core.Writes q i DTMP ∧ ((loopAt 4).core.station q).completed = false := by
  obtain ⟨hlive, hr, hn⟩ := LoopStates.store₄ loopStates
  have h := (reached_loopAt (n := 4) (by decide)).operand_exact hlive (k := 1) (by decide)
  rw [hr, hn] at h
  obtain ⟨q, i, hw, hwrites, hc, -⟩ := h
  exact ⟨q, i, (hw q i).mpr ⟨rfl, rfl⟩, hwrites, hc⟩

/-! ### Progress -/

/-- The oldest instruction is never stuck: it has completed, or it is queued or being executed. Its
memory access, if it has one, has completed too, or is queued or being executed, or it is a load
with its operands that no store is in the way of. -/
theorem Reached.head_progress (h : Reached S regs pc m) (hn : 0 < m.core.ruu.num) :
    let head := m.core.station m.core.firstRuu
    let access := m.core.station m.core.firstLsq
    (head.completed = true ∨ head.queued = true ∨ head.issued = true) ∧
      (head.completed = true → head.eaComp = true →
        access.completed = true ∨ access.queued = true ∨ access.issued = true ∨
          access.op.isStore = false ∧ access.operandsReady = true ∧
            m.core.Clear m.core.lsq.head) := by
  have hinv := h.inv
  have hlive : m.core.Live m.core.firstRuu := hinv.window.ruu_ok.head_mem hn
  refine ⟨Or.inr (hinv.awake _ hlive (by simp) ?_ (hinv.first_ready hn)), fun hc hea => Or.inr ?_⟩
  · rw [Station.selfQueued, hinv.window.inLSQ _ hlive]
    rfl
  · have hpos := (hinv.window.seq_firstLsq hn hea).1
    have hready := hinv.firstLsq_ready hn hc hea
    have hmem : m.core.Live m.core.firstLsq := hinv.window.lsq_ok.head_mem hpos
    cases hs : (m.core.station m.core.firstLsq).op.isStore
    · have hclear : m.core.Clear m.core.lsq.head :=
        ⟨fun j hj => absurd hj (hinv.window.not_storeBefore hpos j),
          fun j hj => absurd hj (hinv.window.not_storeBefore hpos j)⟩
      exact Or.inr (Or.inr ⟨rfl, hready, hclear⟩)
    · refine (hinv.awake _ hmem (by simp) ?_ hready).imp_right Or.inl
      rw [Station.selfQueued, hs, Bool.or_true]

/-- In the seventh cycle the address of the load has been computed. -/
theorem head_progress_loop :
    let access := (loopAt 7).core.station (loopAt 7).core.firstLsq
    access.completed = true ∨ access.queued = true ∨ access.issued = true ∨
      access.op.isStore = false ∧ access.operandsReady = true ∧
        (loopAt 7).core.Clear (loopAt 7).core.lsq.head := by
  obtain ⟨hn, hc, hea⟩ := LoopStates.head₇ loopStates
  exact ((reached_loopAt (n := 7) (by decide)).head_progress hn).2 hc hea

/-! ### Loads and stores -/

/-- A load that has been queued or has issued does not overtake a store: the stores before it have
their addresses, and the last one at its address has its value. -/
theorem Reached.load_order (h : Reached S regs pc m) (hi : i ∈ m.core.lsq.slots)
    (hload : (m.core.entry i).op.isStore = false)
    (hq : (m.core.entry i).queued = true ∨ (m.core.entry i).issued = true) : m.core.Clear i :=
  h.inv.memOrder i hi hload hq

theorem load_order_loop : (loopAt 7).core.Clear 1 := by
  obtain ⟨hmem, hload, hissued⟩ := LoopStates.load₇ loopStates
  exact (reached_loopAt (n := 7) (by decide)).load_order hmem hload (Or.inr hissued)

/-! ### Speculation -/

/-- Outside of speculative mode nothing is speculative and no misprediction is outstanding. In
speculative mode there is one branch that will recover, and the speculative operations are exactly
those after it. -/
theorem Reached.speculation (h : Reached S regs pc m) :
    (m.core.specMode = false → ∀ p, m.core.Live p →
      (m.core.station p).specMode = false ∧
        ((m.core.station p).recoverInst = true → (m.core.station p).completed = true)) ∧
    (m.core.specMode = true → ∃ b, m.core.Live b ∧ b.inLSQ = false ∧
      (m.core.station b).recoverInst = true ∧ (m.core.station b).completed = false ∧
      ∀ p, m.core.Live p →
        ((m.core.station p).recoverInst = true → (m.core.station p).completed = false → p = b) ∧
        ((m.core.station p).specMode = true ↔
          (m.core.station b).seq < (m.core.station p).seq)) := by
  have hinv := h.inv
  refine ⟨fun hm p hp => ?_, fun hm => ?_⟩
  · obtain ⟨hspec, hpend⟩ := hinv.speculation.normal hm p hp
    refine ⟨hspec, fun hr => ?_⟩
    by_contra hc
    exact hpend ⟨hp, hr, by simpa using hc⟩
  · obtain ⟨b, hb⟩ := hinv.speculation.branch hm
    refine ⟨b, hb.pending.live, ?_, hb.pending.recoverInst, hb.pending.completed,
      fun p hp => ⟨fun hr hc => hb.unique p ⟨hp, hr, hc⟩, hb.spec p hp⟩⟩
    exact (hinv.branch_of_recoverInst hb.pending.live hb.pending.recoverInst
      hb.pending.completed).2.2

/-- In the fourth cycle the jump is outstanding, and the addition and the load after it are
speculative. -/
theorem speculation_loop : ∃ b, (loopAt 4).core.Live b ∧ ∀ p, (loopAt 4).core.Live p →
    (((loopAt 4).core.station p).specMode = true ↔
      ((loopAt 4).core.station b).seq < ((loopAt 4).core.station p).seq) := by
  obtain ⟨b, hb, -, -, -, hspec⟩ :=
    (reached_loopAt (n := 4) (by decide)).speculation.2 (LoopStates.spec₄ loopStates)
  exact ⟨b, hb, fun p hp => (hspec p hp).2⟩

/-! ### Recovery -/

/-- Sequence numbers increase along the RUU until they roll over, and the LSQ has one entry for each
address computation of the RUU, in the same order, with the next number. -/
theorem Reached.window_paired (h : Reached S regs pc m) :
    (m.core.instSeq < 2 ^ 32 → m.core.ruu.slots.Pairwise fun i j =>
        (m.core.station ⟨false, i⟩).seqNum < (m.core.station ⟨false, j⟩).seqNum) ∧
      (m.core.lsq.slots.map fun i => (m.core.station ⟨true, i⟩).seqNum) =
        (m.core.ruu.slots.filter fun i => (m.core.station ⟨false, i⟩).eaComp).map
          (fun i => (m.core.station ⟨false, i⟩).seqNum + 1) ∧
      m.core.lsq.num ≤ m.core.ruu.num ∧ m.core.ruu.num ≤ S.cfg.ruuSize ∧
      m.core.lsq.num ≤ S.cfg.lsqSize := by
  have hw := h.inv.window
  refine ⟨fun hlt => ?_, ?_, hw.lsq_num_le, ?_, ?_⟩
  · refine hw.ordered.imp_of_mem fun {i j} hi hj hij => ?_
    have hi' : (m.core.station ⟨false, i⟩).seq ≤ m.core.instSeq := hw.seq_le hi
    have hj' : (m.core.station ⟨false, j⟩).seq ≤ m.core.instSeq := hw.seq_le hj
    have hle := (m.core.station ⟨false, i⟩).seq_le_lastSeq
    exact Station.seqNum_lt (hle.trans_lt hij) (hj'.trans_lt hlt)
  · have hpaired := congrArg (List.map (BitVec.ofNat 32)) hw.paired
    rw [List.map_map, List.map_map] at hpaired
    refine hpaired.trans (List.map_congr_left fun i _ => ?_)
    exact BitVec.ofNat_add _ _
  · rw [← h.good.back.ruu_size]
    exact hw.ruu_ok.num_le
  · rw [← h.good.back.lsq_size]
    exact hw.lsq_ok.num_le

/-- In the fourth cycle a store and two loads are in the window. -/
theorem window_paired_loop :
    ((loopAt 4).core.ruu.slots.Pairwise fun i j =>
      ((loopAt 4).core.station ⟨false, i⟩).seqNum < ((loopAt 4).core.station ⟨false, j⟩).seqNum) ∧
      ((loopAt 4).core.ruu.slots.filter fun i =>
        ((loopAt 4).core.station ⟨false, i⟩).eaComp) = [1, 2, 5] ∧
      (loopAt 4).core.lsq.slots.map (fun i => ((loopAt 4).core.station ⟨true, i⟩).seqNum) =
        [1, 2, 5].map fun i => ((loopAt 4).core.station ⟨false, i⟩).seqNum + 1 := by
  obtain ⟨hincreasing, hpaired, -⟩ := (reached_loopAt (n := 4) (by decide)).window_paired
  rw [LoopStates.agens₄ loopStates] at hpaired
  exact ⟨hincreasing (LoopStates.few₄ loopStates), LoopStates.agens₄ loopStates, hpaired⟩

/-! ### The create vector -/

/-- What `CREATE_VECTOR` has for a register is the last operation that writes it, which has not
completed; if it has nothing, there is none, or the last one has completed. -/
theorem Reached.create_vector (h : Reached S regs pc m) (hn : n ≠ NA) :
    match m.core.readCreateVector n with
    | some l => m.core.Writes l.rs l.odepNum n ∧ (m.core.station l.rs).completed = false ∧
        ∀ q j, m.core.Writes q j n → (m.core.station q).seq ≤ (m.core.station l.rs).seq
    | none => ∀ q j, m.core.Writes q j n → ∃ q' j', m.core.Writes q' j' n ∧
        (m.core.station q).seq ≤ (m.core.station q').seq ∧
          (m.core.station q').completed = true := by
  have hread := h.inv.cv.read hn
  rcases hl : m.core.readCreateVector n with _ | l
  · rw [hl] at hread
    intro q j hq
    obtain ⟨q', j', hw, -, hle, hc⟩ := hread q j hq trivial
    exact ⟨q', j', hw, hle, hc⟩
  · rw [hl] at hread
    obtain ⟨hw, -, ho, hle⟩ := hread
    exact ⟨hw, ho.resolve_right (by simp), fun q j hq => hle q j hq trivial⟩

/-- In the second cycle the addition is the last operation that writes its register. -/
theorem create_vector_loop : ∃ l, (loopAt 2).core.readCreateVector 5 = some l ∧
    ∀ q j, (loopAt 2).core.Writes q j 5 →
      ((loopAt 2).core.station q).seq ≤ ((loopAt 2).core.station l.rs).seq := by
  have h := (reached_loopAt (n := 2) (by decide)).create_vector (n := 5) (by decide)
  obtain ⟨l, hl⟩ := Option.isSome_iff_exists.mp (LoopStates.created₂ loopStates)
  rw [hl] at h
  exact ⟨l, hl, h.2.2⟩

/-! ### The fetch queue -/

/-- If the program does not write its own text, the records of the fetch queue are the instructions
of the text on the predicted path, and outside of speculative mode the first of them is the next
instruction of the program. -/
theorem Reached.fetch_path (h : Reached S regs pc m)
    (hfix : S.target.FixedText { regs := regs, pc := pc }) :
    (∀ i ∈ m.ifq.slots, (m.fetchData i).IR = S.target.instAt m.regs (m.fetchData i).regsPC) ∧
      (∃ pc', Path m.fetchData pc' m.ifq.slots m.fetchPredPC) ∧
      (0 < m.ifq.num → m.core.specMode = false → ∃ k t,
        seqRun S.target { regs := regs, pc := pc } k = some t ∧
        t.trace = m.retired ++ inflight m.core ∧ t.pc = (m.fetchData m.ifq.head).regsPC) := by
  have hfront := h.good.front
  obtain ⟨pc', hpath, hprog⟩ := hfront.program
  refine ⟨(hprog hfix).fetched, ⟨pc', hpath⟩, fun hn hm => ?_⟩
  obtain ⟨k, t, hrun, -, htpc, -, htrace⟩ := hfront.head hfix hn hm
  exact ⟨k, t, hrun, htrace, htpc⟩

/-- In the second cycle the load and the jump wait in the fetch queue. -/
theorem fetch_path_loop : ∃ k t, seqRun loopTarget { regs := ⟨0, 0, 0⟩, pc := 0 } k = some t ∧
    t.pc = 8 := by
  obtain ⟨-, -, hnext⟩ := (reached_loopAt (n := 2) (by decide)).fetch_path (fixedText_loop _)
  obtain ⟨k, t, hrun, -, hpc⟩ :=
    hnext (LoopStates.waiting₂ loopStates) (LoopStates.normal₂ loopStates)
  exact ⟨k, t, hrun, hpc.trans (LoopStates.next₂ loopStates)⟩

end Machine

end AdvancedArchitecture.Outorder
