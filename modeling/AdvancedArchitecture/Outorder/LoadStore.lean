import AdvancedArchitecture.Outorder.Guarantees

/-!
# What the load/store queue answers

Two questions that the simulator answers with a walk of the LSQ. `lsq_refresh` queues a load exactly
when no store is in its way, although it keeps no more than a list of addresses on its way; and
the scan of `ruu_issue` finds a store to forward from exactly when there is one before the load at
its address.
-/

namespace AdvancedArchitecture.Outorder

open Bpred (MdAddr)

variable {σ τ W U : Type}

namespace Core

variable {names : MdInst → Names} {d : Doing} {s s' : Core U} {p : RsPtr} {i j k m n : ℕ}
  {addr : MdAddr}

/-! ### Forwarding -/

theorem Window.slot_ne (h : s.Window) (hjk : j < k) (hk : k < s.lsq.num) :
    s.lsq.slot j ≠ s.lsq.slot k := Ring.rel_slot h.lsq_ok.nodup_slots hjk hk

/-- The addresses in the list, but for those that have been cleared, are those where the value of
the last store is unknown. -/
def LastUnknown (s : Core U) (m : ℕ) (stdUnknowns : List MdAddr) : Prop :=
  ∀ a ∈ stdUnknowns, a ≠ 0 → ∃ k < m, (s.entry (s.lsq.slot k)).op.isStore = true ∧
    (s.entry (s.lsq.slot k)).addr = a ∧ (s.entry (s.lsq.slot k)).operandsReady = false ∧
    ∀ k' < m, k < k' → (s.entry (s.lsq.slot k')).op.isStore = true →
      (s.entry (s.lsq.slot k')).addr ≠ a

/-- One more entry is passed. -/
theorem LastUnknown.succ {std : List MdAddr} (h : s.LastUnknown n std) :
    Meets (fun _ => True) (s.LastUnknown (n + 1))
      (stdUnknownsAfter (s.entry (s.lsq.slot n)) std) := by
  -- An address stays in the list unless the entry is a store there.
  have hold : ∀ a ∈ std, a ≠ 0 → ((s.entry (s.lsq.slot n)).op.isStore = true →
      (s.entry (s.lsq.slot n)).addr ≠ a) → ∃ k < n + 1,
      (s.entry (s.lsq.slot k)).op.isStore = true ∧ (s.entry (s.lsq.slot k)).addr = a ∧
      (s.entry (s.lsq.slot k)).operandsReady = false ∧ ∀ k' < n + 1, k < k' →
        (s.entry (s.lsq.slot k')).op.isStore = true → (s.entry (s.lsq.slot k')).addr ≠ a := by
    intro a ha hne hno
    obtain ⟨k, hk, hs, haddr, hr, hlast⟩ := h a ha hne
    refine ⟨k, hk.trans (Nat.lt_succ_self n), hs, haddr, hr, fun k' hk' hlt => ?_⟩
    rcases Nat.lt_succ_iff_lt_or_eq.mp hk' with hk' | rfl
    · exact hlast k' hk' hlt
    · exact hno
  rw [stdUnknownsAfter]
  refine Meets.ite (fun hs => ?_) fun hs => Meets.ite (fun hr => ?_) fun hr => ?_
  · exact fun a ha hne => hold a ha hne fun hs' => absurd hs' (by simpa using hs)
  · refine Meets.ite (fun _ => trivial) fun _ a ha hne => ?_
    have hs : (s.entry (s.lsq.slot n)).op.isStore = true := by simpa using hs
    by_cases haddr : (s.entry (s.lsq.slot n)).addr = a
    · exact ⟨n, Nat.lt_succ_self n, hs, haddr, by simpa using hr, fun k' hk' hlt => by omega⟩
    · refine hold a ((List.mem_append.mp ha).resolve_right fun ha' => ?_) hne fun _ => haddr
      exact haddr (List.mem_singleton.mp ha').symm
  · intro a ha hne
    obtain ⟨a', ha', rfl⟩ := List.mem_map.mp ha
    by_cases haddr : a' = (s.entry (s.lsq.slot n)).addr
    · rw [if_pos haddr] at hne
      exact absurd rfl hne
    · rw [if_neg haddr] at hne ⊢
      exact hold a' ha' hne fun _ heq => haddr heq.symm

/-- The address of a load that is clear is not in the list. -/
theorem LastUnknown.notMem {std : List MdAddr} (h : s.LastUnknown n std) (hw : s.Window)
    (hn : n < s.lsq.num) (hclear : s.Clear (s.lsq.slot n))
    (hne : (s.entry (s.lsq.slot n)).addr ≠ 0) : (s.entry (s.lsq.slot n)).addr ∉ std := by
  intro hmem
  obtain ⟨k, hk, hs, haddr, hr, hlast⟩ := h _ hmem hne
  have hbefore : ∀ {j}, j < s.lsq.num → (s.entry (s.lsq.slot j)).op.isStore = true → j < n →
      s.StoreBefore (s.lsq.slot n) (s.lsq.slot j) := fun hj hs hlt =>
    ⟨Ring.mem_slots.mpr ⟨_, hj, rfl⟩, hs, (hw.slot_lt_iff hj hn).mpr hlt⟩
  have hready := hclear.value _ (hbefore (hk.trans hn) hs hk) haddr fun j ⟨hj, hs', hlt'⟩ hlt => by
    obtain ⟨j, hj', rfl⟩ := Ring.mem_slots.mp hj
    exact hlast j ((hw.slot_lt_iff hj' hn).mp hlt') ((hw.slot_lt_iff (hk.trans hn) hj').mp hlt) hs'
  rw [hr] at hready
  exact absurd hready (by simp)

/-- What has been queued stays queued. -/
theorem queued_readyqEnqueue {q : RsPtr} (hq : (s.station p).queued = true) :
    Meets (fun _ => True) (fun s' => (s'.station p).queued = true) (s.readyqEnqueue q) := by
  rw [readyqEnqueue]
  refine Meets.ite (fun _ => trivial) fun _ => ?_
  change ((s.modify q fun st => { st with queued := true }).station p).queued = true
  rw [station_modify]
  split
  · rfl
  · exact hq

theorem queued_lsqRefreshLoop {std : List MdAddr} (hq : (s.station p).queued = true) :
    Meets (fun _ => True) (fun s' => (s'.station p).queued = true)
      (lsqRefreshLoop n i std s) := by
  induction n generalizing i std s with
  | zero => exact hq
  | succ n ih =>
    rw [lsqRefreshLoop]
    refine Meets.ite (fun _ => hq) fun _ => ?_
    have hstd : Meets (fun _ => True) (fun _ => True)
        (stdUnknownsAfter (s.station ⟨true, i⟩) std) := by
      cases stdUnknownsAfter (s.station ⟨true, i⟩) std <;> trivial
    refine hstd.bind fun std' _ => Meets.ite (fun _ => ?_) fun _ => ih hq
    exact (queued_readyqEnqueue hq).bind fun s' hq' => ih hq'

/-- A load that waits in the LSQ. -/
structure WaitingLoad (st : Station U) : Prop where
  isLoad : st.op.isLoad = true
  isStore : st.op.isStore = false
  ready : st.operandsReady = true
  queued : st.queued = false
  issued : st.issued = false
  completed : st.completed = false

/-- A load that the loop has still to come to, and that it will queue. -/
structure ToQueue (s : Core U) (m j : ℕ) : Prop where
  le : m ≤ j
  lt : j < s.lsq.num
  load : WaitingLoad (s.entry (s.lsq.slot j))
  addr : (s.entry (s.lsq.slot j)).addr ≠ 0
  clear : s.Clear (s.lsq.slot j)

theorem ToQueue.same (h : s.ToQueue m j) (hmj : m < j) (hs : Same s s')
    (hst : s'.entry (s.lsq.slot j) = s.entry (s.lsq.slot j)) : s'.ToQueue (m + 1) j := by
  have hlsq : s'.lsq = s.lsq := hs.lsq
  refine ⟨hmj, ?_, ?_, ?_, ?_⟩
  all_goals rw [hlsq]
  · exact h.lt
  · exact hst ▸ h.load
  · exact hst ▸ h.addr
  · exact h.clear.congr hlsq fun j => hs.sameAccess _

theorem LastUnknown.same {std : List MdAddr} (h : s.LastUnknown n std) (hs : Same s s') :
    s'.LastUnknown n std := by
  have hlsq : s'.lsq = s.lsq := hs.lsq
  have hop : ∀ i, (s'.entry i).op = (s.entry i).op := fun i => hs.get Station.op fun _ => rfl
  have haddr : ∀ i, (s'.entry i).addr = (s.entry i).addr := fun i =>
    hs.get Station.addr fun _ => rfl
  have hready : ∀ i, (s'.entry i).operandsReady = (s.entry i).operandsReady :=
    fun i => hs.operandsReady
  rw [LastUnknown]
  simp only [hlsq, hop, haddr, hready]
  exact h

/-- The loop queues a load that is clear when it comes to it. -/
theorem lsqRefreshLoop_toQueue {std : List MdAddr} (hw : s.Window) (hl : s.ToQueue m j)
    (h : s.LastUnknown m std) (hmn : m + n = s.lsq.num) :
    Meets (fun _ => True) (fun s' => (s'.entry (s.lsq.slot j)).queued = true)
      (lsqRefreshLoop n (s.lsq.slot m) std s) := by
  induction n generalizing s m std with
  | zero =>
    have := hl.le
    have := hl.lt
    omega
  | succ n ih =>
    have hm : m < s.lsq.num := by omega
    rw [lsqRefreshLoop]
    rcases Nat.lt_or_eq_of_le hl.le with hlt | rfl
    · have hbefore : (s.entry (s.lsq.slot m)).op.isStore = true →
          s.StoreBefore (s.lsq.slot j) (s.lsq.slot m) := fun hs =>
        ⟨Ring.mem_slots.mpr ⟨m, hm, rfl⟩, hs, (hw.slot_lt_iff hm hl.lt).mpr hlt⟩
      refine Meets.ite (fun hstop => ?_) fun _ => ?_
      · obtain ⟨hs, hr⟩ := Bool.and_eq_true_iff.mp hstop
        rw [hl.clear.addr _ (hbefore hs)] at hr
        exact absurd hr (by simp)
      refine h.succ.bind fun std' hstd => ?_
      -- What is left of the loop, after the entry has been queued or not.
      have hrest : ∀ s', Same s s' → s'.entry (s.lsq.slot j) = s.entry (s.lsq.slot j) →
          Meets (fun _ => True) (fun s' => (s'.entry (s.lsq.slot j)).queued = true)
            (lsqRefreshLoop n (s'.lsq.next (s.lsq.slot m)) std' s') := by
        intro s' hs hst
        have hlsq : s'.lsq = s.lsq := hs.lsq
        rw [← hlsq, Ring.next_slot]
        exact ih (hw.frame hs.frame) (hl.same hlt hs hst) (hstd.same hs) (by rw [hlsq]; omega)
      refine Meets.ite (fun hgo => ?_) fun _ => hrest s (SameUpTo.refl s) rfl
      simp only [Bool.and_eq_true, Bool.not_eq_true'] at hgo
      rw [readyqEnqueue_eq hgo.1.1.1.1.2]
      refine hrest _ (s.same_enqueued _) (station_enqueued_ne fun heq => ?_)
      exact hw.slot_ne hlt hl.lt (RsPtr.mk.inj heq).2.symm
    · refine Meets.ite (fun hstop => ?_) fun _ => ?_
      · rw [hl.load.isStore] at hstop
        exact absurd hstop (by simp)
      have hstd : stdUnknownsAfter (s.entry (s.lsq.slot m)) std = .ok std := by
        rw [stdUnknownsAfter, hl.load.isStore]
        rfl
      rw [hstd]
      have hnot := h.notMem hw hm hl.clear hl.addr
      refine Meets.ite (fun _ => ?_) fun hno => absurd ?_ hno
      · rw [readyqEnqueue_eq hl.load.queued]
        exact queued_lsqRefreshLoop (by simp [station_enqueued])
      · obtain ⟨hload, -, hr, hq, hi, hc⟩ := hl.load
        simp [hload, hr, hq, hi, hc, hnot]

/-- `lsq_refresh` queues a load with its operands exactly if no store is in its way. The address 0
is what the list has in place of the addresses that have been cleared. -/
theorem Inv.lsqRefresh_iff (h : s.Inv names d) (hs : s.lsqRefresh = .ok s')
    (hi : i ∈ s.lsq.slots) (hload : WaitingLoad (s.entry i)) (haddr : (s.entry i).addr ≠ 0) :
    (s'.entry i).queued = true ↔ s.Clear i := by
  constructor
  · intro hq
    obtain ⟨hinv, hsame, -⟩ :=
      (h.lsqRefresh (fun _ => True) (Or.inr trivial)).of_eq_ok hs
    have hlsq : s'.lsq = s.lsq := hsame.lsq
    have hop : (s'.entry i).op.isStore = false := by
      rw [hsame.sameAccess ⟨true, i⟩ |>.op]
      exact hload.isStore
    exact (hinv.memOrder i (hlsq ▸ hi) hop (Or.inl hq)).congr hlsq.symm
      fun j => Same.sameAccess hsame.symm _
  · intro hclear
    obtain ⟨k, hk, rfl⟩ := Ring.mem_slots.mp hi
    have hto : s.ToQueue 0 k := ⟨Nat.zero_le k, hk, hload, haddr, hclear⟩
    rw [Core.lsqRefresh, ← h.window.lsq_ok.slot_zero] at hs
    exact (lsqRefreshLoop_toQueue h.window hto (fun a ha => absurd ha (by simp))
      (Nat.zero_add _)).of_eq_ok hs

end Core

namespace Machine

variable {S : Setup σ τ W U} {m m' : Machine σ τ W U} {regs : σ} {pc : MdAddr} {i : ℕ}

/-- The part of a turn of the main loop before `lsq_refresh`. -/
def beforeRefresh (S : Setup σ τ W U) (m : Machine σ τ W U) : Except Halt (Machine σ τ W U) := do
  m.sanityCheck S
  let m ← m.ruuCommit S
  let m ← { m with fuBusy := ruuReleaseFu S.cfg.pool m.fuBusy }.ruuWriteback S
  if S.cfg.bugcompat then m.ruuDispatch S else .ok m

/-- A turn goes on with `lsq_refresh` and `ruu_issue`, whichever of the stages are before them. -/
theorem cycle_eq (S : Setup σ τ W U) (m : Machine σ τ W U) : m.cycle S = do
    let m ← m.beforeRefresh S
    let m ← m.refreshIssue S
    let m ← if S.cfg.bugcompat then .ok m else m.ruuDispatch S
    return m.nextCycle S := by
  rw [cycle, beforeRefresh]
  cases S.cfg.bugcompat
  · simp only [bind_assoc, Bool.not_false, if_true, Bool.false_eq_true, if_false]
    rfl
  · simp only [bind_assoc, Bool.not_true, if_true, Bool.false_eq_true, if_false]
    rfl

theorem beforeRefresh_meets {start : SeqState σ} (h : m.Good S start {} m.core.simCycle) :
    Meets (Stops S) (fun m' => m'.Good S start {} (m.core.simCycle + 1)) (m.beforeRefresh S) := by
  rw [beforeRefresh, sanityCheck_eq h.back]
  refine (ruuCommit_meets .predictor h).bind fun m₁ ⟨h₁, hc₁⟩ => ?_
  refine (ruuWriteback_meets .predictor (h₁.env (ruuReleaseFu S.cfg.pool m₁.fuBusy) m₁.world)).bind
    fun m₂ ⟨h₂, _⟩ => ?_
  rw [show m₁.core.simCycle = m.core.simCycle from hc₁] at h₂
  exact Meets.ite (fun _ => (ruuDispatch_meets .predictor .fault h₂).mono fun _ h' => h'.1)
    fun _ => h₂

/-! ### In every cycle -/

/-- In every cycle `lsq_refresh` queues a load that has its operands, and that has not been queued
or issued before, exactly if the stores before it have their addresses and the last one at its
address has its value. -/
theorem Reached.lsqRefresh_exact (h : Reached S regs pc m) (hm : m.beforeRefresh S = .ok m')
    {s' : Core U} (hs : m'.core.lsqRefresh = .ok s') (hi : i ∈ m'.core.lsq.slots)
    (hload : Core.WaitingLoad (m'.core.entry i)) (haddr : (m'.core.entry i).addr ≠ 0) :
    (s'.entry i).queued = true ↔ m'.core.Clear i :=
  ((beforeRefresh_meets h.good).of_eq_ok hm).back.inv.lsqRefresh_iff hs hi hload haddr

/-- The loop in the cycle with number `n`, before `lsq_refresh`. -/
@[irreducible]
def loopBeforeRefresh (n : ℕ) : Machine LoopRegs Unit Unit Unit :=
  ((loopAt n).beforeRefresh loopSetup).toOption.getD (loopAt n)

/-- The address of the load has just been computed. -/
theorem lsqRefresh_exact_loop : (loopBeforeRefresh 6).core.Clear 1 := by
  have hm : (loopAt 6).beforeRefresh loopSetup = .ok (loopBeforeRefresh 6) := by
    rw [loopBeforeRefresh]
    exact eq_ok_of_isSome (by decide +kernel) _
  have hs := eq_ok_of_isSome (x := (loopBeforeRefresh 6).core.lsqRefresh) (by decide +kernel)
    (loopBeforeRefresh 6).core
  refine ((reached_loopAt (n := 6) (by decide)).lsqRefresh_exact hm hs (i := 1) (by decide +kernel)
    ⟨?_, ?_, ?_, ?_, ?_, ?_⟩ (by decide +kernel)).mp (by decide +kernel) <;> decide +kernel

end Machine

end AdvancedArchitecture.Outorder
