import AdvancedArchitecture.Outorder.Decode

/-!
# Runs of the pipeline

`ruu_fetch` extends the path of the fetch queue, and so a whole turn of the main loop keeps the
invariant. The sanity checks of `sim_main` and the panics of the stages are never reached: a run
stops only for a fault of the program, an assertion of the branch predictor, or a load/store queue
that is larger than the array of `lsq_refresh`.
-/

namespace AdvancedArchitecture.Outorder

open Bpred (MdAddr sizeofMdInst)

variable {σ τ W U : Type}

open Outorder.Core

namespace Machine

variable {S : Setup σ τ W U} {m m' : Machine σ τ W U} {start : SeqState σ} {due : ℕ}
  {E : Halt → Prop}

/-! ### Fetch -/

/-- The prediction changes no more than the predictor, and there is none but for branches. -/
theorem predictNext_eq (S : Setup σ τ W U) (m : Machine σ τ W U) (inst : MdInst) :
    ∃ target update w, m.predictNext S inst = ((target, update), { m with world := w }) ∧
      (((S.target.decode inst).getD {}).ctrl = false → target = 0) := by
  rw [predictNext]
  split
  · exact ⟨_, _, m.world, rfl, fun _ => rfl⟩
  · split
    · rename_i hctrl
      exact ⟨_, _, _, rfl, fun h => absurd (hctrl.symm.trans h) (by simp)⟩
    · exact ⟨_, _, m.world, rfl, fun _ => rfl⟩

theorem fetchInst_eq (S : Setup σ τ W U) (m : Machine σ τ W U) (inst : MdInst) :
    ∃ jumps predPC update w, m.fetchInst S inst =
        (jumps, { m with
          world := w
          fetchPredPC := predPC
          fetchData := Function.update m.fetchData m.ifq.tail
            { IR := inst, regsPC := m.fetchRegsPC, predPC := predPC, update := update }
          ifq := m.ifq.push }) ∧
      (((S.target.decode inst).getD {}).ctrl = false → predPC = m.fetchRegsPC + sizeofMdInst) := by
  obtain ⟨target, update, w, heq, hctrl⟩ := predictNext_eq S m inst
  rw [Machine.fetchInst, heq]
  exact ⟨_, _, update, w, rfl, fun hc => if_pos (hctrl hc)⟩

/-- An instruction enters the fetch queue. -/
theorem Front.fetched_at (h : m.Front S start) (hroom : m.ifq.num < m.ifq.size) {r : FetchRec U}
    (hr : r.Straight S.target) (hinst : r.IR = S.target.instAt m.regs r.regsPC)
    (hpc : r.regsPC = m.fetchPredPC) (w : W) :
    { m with
      world := w
      fetchPredPC := r.predPC
      fetchData := Function.update m.fetchData m.ifq.tail r
      ifq := m.ifq.push }.Front S start := by
  have hnot := h.ifq_ok.tail_notMem hroom
  -- What is true of the records that were there and of the new one is true of all.
  have hall : ∀ {p : FetchRec U → Prop}, (∀ i ∈ m.ifq.slots, p (m.fetchData i)) → p r →
      ∀ i ∈ m.ifq.push.slots, p (Function.update m.fetchData m.ifq.tail r i) := by
    intro p hold hnew i hi
    rw [h.ifq_ok.slots_push, List.mem_append, List.mem_singleton] at hi
    rcases hi with hi | rfl
    · have hne : i ≠ m.ifq.tail := fun heq => hnot (heq ▸ hi)
      rw [Function.update_of_ne hne]
      exact hold i hi
    · rw [Function.update_self]
      exact hnew
  obtain ⟨pc, hpath, hprog⟩ := h.program
  refine ⟨h.ifq_ok.push hroom, h.ifq_size,
    hall (p := fun r => r.Straight S.target) h.straight hr, pc, ?_, fun hT => ?_⟩
  · rw [h.ifq_ok.slots_push]
    exact hpath.snoc hnot hpc
  · exact ⟨hall (p := fun r => r.IR = S.target.instAt m.regs r.regsPC) (hprog hT).fetched hinst,
      (hprog hT).order⟩

theorem fetchMiss_eq (S : Setup σ τ W U) (m : Machine σ τ W U) :
    ∃ miss w d, m.fetchMiss S = (miss, { m with world := w, fetchIssueDelay := d }) := by
  have hlat : ∃ l w, m.fetchLatency S = (l, { m with world := w }) := by
    rw [fetchLatency]
    split <;> exact ⟨_, _, rfl⟩
  obtain ⟨l, w, heq⟩ := hlat
  rw [fetchMiss]
  split
  · rw [heq]
    dsimp only
    split <;> exact ⟨_, _, _, rfl⟩
  · exact ⟨_, m.world, m.fetchIssueDelay, rfl⟩

/-- The loop of `ruu_fetch`. -/
theorem fetchLoop_good (n branches : ℕ) (h : m.Good S start {} due) :
    (fetchLoop S n branches m).Good S start {} due ∧ (fetchLoop S n branches m).core = m.core := by
  induction n generalizing branches m with
  | zero => exact ⟨h, rfl⟩
  | succ n ih =>
    rw [fetchLoop]
    split
    · rename_i hroom
      rw [← h.front.ifq_size] at hroom
      obtain ⟨miss, w, d, hmiss⟩ := fetchMiss_eq S { m with fetchRegsPC := m.fetchPredPC }
      rw [hmiss]
      dsimp only
      split
      · exact ⟨⟨{ h.back with }, h.front.congr { SameFront.refl m with }⟩, rfl⟩
      · obtain ⟨jumps, predPC, update, w', heq, hpred⟩ := fetchInst_eq S
          { m with fetchRegsPC := m.fetchPredPC, world := w, fetchIssueDelay := d }
          ((S.target.fetchInst m.regs m.fetchPredPC).getD S.target.nopInst)
        have hfront := h.front.fetched_at hroom (r := ⟨_, m.fetchPredPC, predPC, update⟩)
          hpred rfl rfl w'
        have hgood : Good S start {} due (fetchInst S
            { m with fetchRegsPC := m.fetchPredPC, world := w, fetchIssueDelay := d }
            ((S.target.fetchInst m.regs m.fetchPredPC).getD S.target.nopInst)).2 := by
          rw [heq]
          exact ⟨{ h.back with }, hfront.congr ⟨rfl, rfl, rfl, rfl, rfl, rfl, rfl⟩⟩
        split
        · exact ⟨hgood, by rw [heq]⟩
        · obtain ⟨h₁, h₂⟩ := ih _ hgood
          exact ⟨h₁, h₂.trans (by rw [heq])⟩
    · exact ⟨h, rfl⟩

/-- `ruu_fetch` keeps the invariant. -/
theorem ruuFetch_good (h : m.Good S start {} due) :
    (m.ruuFetch S).Good S start {} due ∧ (m.ruuFetch S).core = m.core := fetchLoop_good _ _ h

/-! ### A turn of the main loop -/

/-- What can stop a simulation. -/
inductive Stops (S : Setup σ τ W U) : Halt → Prop
  | fault : Stops S (.fatal "non-speculative fault detected")
  | predictor : Stops S (.assertion "bpred_update")
  | stdUnknowns : maxStdUnknowns < S.cfg.lsqSize →
      Stops S (.fatal "STD unknown array overflow, increase MAX_STD_UNKNOWNS")

/-- The sanity checks of `sim_main` are met. -/
theorem sanityCheck_eq (h : m.Back S {} due) : m.sanityCheck S = .ok () := by
  have hw := h.inv.window
  rw [sanityCheck, if_neg hw.lsq_num_le.not_gt, ← h.ruu_size,
    if_neg (not_not.mpr hw.ruu_ok.tail_eq), ← h.lsq_size, if_neg (not_not.mpr hw.lsq_ok.tail_eq)]

theorem Good.refreshIssue (h : m.Good S start {} due) (hdue : due ≤ m.core.simCycle + 1) :
    Meets (Stops S) (fun m' => m'.Good S start {} due ∧ m'.core.simCycle = m.core.simCycle)
      (m.refreshIssue S) :=
  refreshIssue_meets h hdue ((le_or_gt S.cfg.lsqSize maxStdUnknowns).imp_right .stdUnknowns)

/-- The end of a turn. -/
theorem Good.nextCycle (h : m.Good S start {} (m.core.simCycle + 1)) :
    (m.nextCycle S).Good S start {} (m.nextCycle S).core.simCycle ∧
      (m.nextCycle S).core.simCycle = m.core.simCycle + 1 := by
  have htick : ∀ m' : Machine σ τ W U, m'.Good S start {} (m.core.simCycle + 1) →
      m'.core = m.core → Good S start {} (m'.core.simCycle + 1)
        { m' with core := { m'.core with simCycle := m'.core.simCycle + 1 } } := by
    intro m' h' hcore
    rw [← hcore] at h'
    exact ⟨{ h'.back with inv := h'.back.inv.tick _ },
      h'.front.congr { SameFront.refl m' with }⟩
  rw [Machine.nextCycle]
  dsimp only
  split
  · obtain ⟨h', hcore⟩ := ruuFetch_good h
    exact ⟨htick _ h' hcore, by rw [hcore]⟩
  · exact ⟨htick _ ⟨{ h.back with }, h.front.congr { SameFront.refl m with }⟩ rfl, rfl⟩

/-- One turn of the main loop keeps the invariant. -/
theorem cycle_meets (h : m.Good S start {} m.core.simCycle) :
    Meets (Stops S) (fun m' => m'.Good S start {} m'.core.simCycle ∧
      m'.core.simCycle = m.core.simCycle + 1) (m.cycle S) := by
  rw [cycle, sanityCheck_eq h.back]
  refine (ruuCommit_meets .predictor h).bind fun m₁ ⟨h₁, hc₁⟩ => ?_
  refine (ruuWriteback_meets .predictor (h₁.env (ruuReleaseFu S.cfg.pool m₁.fuBusy) m₁.world)).bind
    fun m₂ ⟨h₂, hc₂⟩ => ?_
  have hc₂' : m₂.core.simCycle = m.core.simCycle := hc₂.trans hc₁
  rw [show m₁.core.simCycle = m.core.simCycle from hc₁] at h₂
  -- Both stages keep this, in either order.
  have hdispatch : ∀ m' : Machine σ τ W U, m'.Good S start {} (m.core.simCycle + 1) ∧
      m'.core.simCycle = m.core.simCycle → Meets (Stops S) (fun m' =>
        m'.Good S start {} (m.core.simCycle + 1) ∧ m'.core.simCycle = m.core.simCycle)
        (m'.ruuDispatch S) := fun m' ⟨h', hc'⟩ =>
    (ruuDispatch_meets .predictor .fault h').mono fun _ ⟨h'', hc''⟩ => ⟨h'', hc''.trans hc'⟩
  have hissue : ∀ m' : Machine σ τ W U, m'.Good S start {} (m.core.simCycle + 1) ∧
      m'.core.simCycle = m.core.simCycle → Meets (Stops S) (fun m' =>
        m'.Good S start {} (m.core.simCycle + 1) ∧ m'.core.simCycle = m.core.simCycle)
        (m'.refreshIssue S) := fun m' ⟨h', hc'⟩ =>
    (h'.refreshIssue (by rw [hc'])).mono fun _ ⟨h'', hc''⟩ => ⟨h'', hc''.trans hc'⟩
  have hend : ∀ m' : Machine σ τ W U, m'.Good S start {} (m.core.simCycle + 1) ∧
      m'.core.simCycle = m.core.simCycle → (m'.nextCycle S).Good S start {}
        (m'.nextCycle S).core.simCycle ∧ (m'.nextCycle S).core.simCycle = m.core.simCycle + 1 :=
    fun m' ⟨h', hc'⟩ => by
      rw [← hc'] at h' ⊢
      exact h'.nextCycle
  cases hb : S.cfg.bugcompat
  · exact (hissue m₂ ⟨h₂, hc₂'⟩).bind fun m₃ h₃ => (hdispatch m₃ h₃).bind hend
  · exact (hdispatch m₂ ⟨h₂, hc₂'⟩).bind fun m₃ h₃ => (hissue m₃ h₃).bind hend

end Machine

end AdvancedArchitecture.Outorder
