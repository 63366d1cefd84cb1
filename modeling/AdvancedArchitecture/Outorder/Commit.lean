import AdvancedArchitecture.Outorder.Issue

/-!
# Commit

`ruu_commit` retires completed instructions from the head of the RUU. What leaves is older than
all that stays and nobody waits for it, so the invariant is kept; the retired instruction moves
from the front of what is in flight to the end of the trace.
-/

namespace AdvancedArchitecture.Outorder

variable {σ τ W U : Type}

namespace Core

variable {names : MdInst → Names} {s s' : Core U} {p q : RsPtr} {K : RsPtr → Prop}

/-! ### The stations -/

/-- The head of the RUU. -/
abbrev firstRuu (s : Core U) : RsPtr := ⟨false, s.ruu.head⟩

/-- The head of the LSQ. -/
abbrev firstLsq (s : Core U) : RsPtr := ⟨true, s.lsq.head⟩

/-- The entry of the oldest instruction in the LSQ leaves, if it has one. -/
def dropAccess (s : Core U) : Core U :=
  if (s.station s.firstRuu).eaComp then
    { s.modify s.firstLsq fun st => { st with tag := st.tag + 1 } with lsq := s.lsq.pop }
  else s

/-- The oldest instruction leaves. -/
def dropFirst (s : Core U) : Core U :=
  { s.dropAccess.modify s.firstRuu fun st => { st with tag := st.tag + 1 } with ruu := s.ruu.pop }

/-- The stations that `dropFirst` removes. -/
def First (s : Core U) (p : RsPtr) : Prop :=
  p = s.firstRuu ∨ (s.station s.firstRuu).eaComp = true ∧ p = s.firstLsq

/-- Nobody waits for a completed operation. -/
theorem Deps.odepList_eq_nil (h : s.Deps names none) (hc : (s.station p).completed = true)
    (i : ℕ) : (s.station p).odepList i = [] := by
  by_contra hne
  obtain ⟨ℓ, hℓ⟩ := List.exists_mem_of_ne_nil _ hne
  rcases (h.list_open p i ℓ hℓ).2 with hc' | ⟨_, -, hbusy⟩
  · rw [hc] at hc'
    exact absurd hc' (by simp)
  · exact absurd hbusy (by simp)

/-- The heads of RUU and LSQ belong together, if the head of the RUU is an address computation. -/
theorem Window.seq_firstLsq (h : s.Window) (hn : 0 < s.ruu.num)
    (hea : (s.station s.firstRuu).eaComp = true) :
    0 < s.lsq.num ∧ (s.station s.firstLsq).seq = (s.station s.firstRuu).seq + 1 := by
  obtain ⟨i, hi, -⟩ := h.exists_access (h.ruu_ok.head_mem hn) hea
  have hpos := Ring.num_pos_of_mem hi
  have hpaired := h.paired
  rw [h.ruu_ok.slots_pop hn, h.lsq_ok.slots_pop hpos, List.filter_cons, hea, if_pos rfl] at hpaired
  exact ⟨hpos, (List.cons.inj hpaired).1⟩

/-- The oldest instruction is older than all others. -/
theorem Window.first_lt (h : s.Window) (hn : 0 < s.ruu.num) (hp : s.First p) (hq : s.Live q)
    (hnot : ¬s.First q) : (s.station p).seq < (s.station q).seq := by
  have hlast : (s.station p).seq ≤ (s.station s.firstRuu).lastSeq := by
    rcases hp with rfl | ⟨hea, rfl⟩
    · exact Station.seq_le_lastSeq _
    · rw [(h.seq_firstLsq hn hea).2, Station.lastSeq, if_pos hea]
  refine hlast.trans_lt ?_
  obtain ⟨_ | _, i⟩ := q
  · refine h.head_lt hn hq fun hi => hnot (Or.inl ?_)
    rw [hi]
  · obtain ⟨j, hj, hea, hseq⟩ := h.exists_agen (live_lsq.mp hq)
    by_cases hjh : j = s.ruu.head
    · subst hjh
      have hsame : (s.station ⟨true, i⟩).seq = (s.station s.firstLsq).seq :=
        hseq.trans (h.seq_firstLsq hn hea).2.symm
      have hlsq : s.Live s.firstLsq := h.lsq_ok.head_mem (h.seq_firstLsq hn hea).1
      exact absurd (Or.inr ⟨hea, h.eq_of_seq_eq hq hlsq hsame⟩) hnot
    · have hlt : (s.station s.firstRuu).lastSeq < _ := h.head_lt hn hj hjh
      omega

theorem removed_firstRuu (h : s.ruu.Ok) (hn : 0 < s.ruu.num)
    (hlist : ∀ i, (s.station s.firstRuu).odepList i = []) :
    s.Removed { s.modify s.firstRuu fun st => { st with tag := st.tag + 1 } with
      ruu := s.ruu.pop } (· = s.firstRuu) := by
  refine removed_of_modify (l := s.lsq) (h.head_mem hn) rfl hlist fun q => ?_
  obtain ⟨_ | _, i⟩ := q <;> simp [Live, h.mem_slots_pop hn]

theorem removed_firstLsq (h : s.lsq.Ok) (hn : 0 < s.lsq.num)
    (hlist : ∀ i, (s.station s.firstLsq).odepList i = []) :
    s.Removed { s.modify s.firstLsq fun st => { st with tag := st.tag + 1 } with
      lsq := s.lsq.pop } (· = s.firstLsq) := by
  refine removed_of_modify (r := s.ruu) (h.head_mem hn) rfl hlist fun q => ?_
  obtain ⟨_ | _, i⟩ := q <;> simp [Live, h.mem_slots_pop hn]

/-- The oldest instruction is removed. -/
theorem Inv.removed_dropFirst (h : s.Inv names {}) (hn : 0 < s.ruu.num)
    (hdone : ∀ p, s.First p → (s.station p).completed = true) :
    s.Removed s.dropFirst s.First := by
  have hruu := h.deps.odepList_eq_nil (hdone _ (Or.inl rfl))
  cases hea : (s.station s.firstRuu).eaComp
  · rw [dropFirst, dropAccess, hea]
    exact (removed_firstRuu h.window.ruu_ok hn hruu).congr fun p => by simp [First, hea]
  · have hlsq := removed_firstLsq h.window.lsq_ok (h.window.seq_firstLsq hn hea).1
      (h.deps.odepList_eq_nil (hdone _ (Or.inr ⟨hea, rfl⟩)))
    rw [dropFirst, dropAccess, hea]
    refine (hlsq.trans (removed_firstRuu h.window.ruu_ok hn fun i => ?_)).congr fun p => ?_
    · exact (congrArg (fun st => Station.odepList st i)
        (hlsq.same _ (RsPtr.ruu_ne_lsq _ _))).trans (hruu i)
    · rw [First, hea, eq_self, true_and]
      exact or_comm

theorem station_dropAccess (s : Core U) :
    s.dropAccess.station s.firstRuu = s.station s.firstRuu := by
  have hne : (s.modify s.firstLsq fun st => { st with tag := st.tag + 1 }).station s.firstRuu =
      s.station s.firstRuu := station_modify_ne (RsPtr.ruu_ne_lsq _ _)
  rw [dropAccess]
  split
  · exact hne
  · rfl

theorem dropAccess_ruu (s : Core U) : s.dropAccess.ruu = s.ruu := by
  rw [dropAccess]
  split <;> rfl

theorem dropFirst_ruu (s : Core U) : s.dropFirst.ruu = s.ruu.pop := rfl

theorem dropFirst_lsq (s : Core U) :
    s.dropFirst.lsq = if (s.station s.firstRuu).eaComp then s.lsq.pop else s.lsq := by
  change s.dropAccess.lsq = _
  rw [dropAccess]
  split <;> rfl

theorem Window.dropFirst (h : s.Window) (hn : 0 < s.ruu.num)
    (hr : s.Removed s.dropFirst s.First) : s.dropFirst.Window := by
  have hpaired := h.paired
  have hsub : s.dropFirst.ruu.slots.Sublist s.ruu.slots := by
    rw [h.ruu_ok.slots_pop hn]
    exact List.sublist_cons_self _ _
  rw [h.ruu_ok.slots_pop hn, List.filter_cons] at hpaired
  cases hea : (s.station s.firstRuu).eaComp
  · rw [hea] at hpaired
    have hlsq : s.dropFirst.lsq = s.lsq := by rw [dropFirst_lsq, hea]; rfl
    exact h.removed hr (h.ruu_ok.pop hn) (hlsq ▸ h.lsq_ok) hsub (hlsq ▸ hpaired)
  · rw [hea, if_pos rfl] at hpaired
    have hpos := (h.seq_firstLsq hn hea).1
    have hlsq : s.dropFirst.lsq = s.lsq.pop := by rw [dropFirst_lsq, hea]; rfl
    rw [h.lsq_ok.slots_pop hpos] at hpaired
    exact h.removed hr (h.ruu_ok.pop hn) (hlsq ▸ h.lsq_ok.pop hpos) hsub
      (hlsq ▸ (List.cons.inj hpaired).2)

/-- The invariant is kept when the oldest instruction is retired. -/
theorem Inv.dropFirst (h : s.Inv names {}) (hn : 0 < s.ruu.num)
    (hdone : ∀ p, s.First p → (s.station p).completed = true) : s.dropFirst.Inv names {} := by
  have hr := h.removed_dropFirst hn hdone
  have hconv : ∀ q q' c, s.Live q → s.Live q' → s.Live c → ¬s.First q → ¬s.First c →
      (s.station q).seq ≤ (s.station q').seq → (s.station q').seq < (s.station c).seq →
      ¬s.First q' := by
    intro q q' c hq _ _ hKq _ hle _ hKq'
    have := h.window.first_lt hn hKq' hq hKq
    omega
  have hdep : ∀ c k p i, s.Waits c k p i → ¬s.First c → ¬s.First p := by
    intro c k p i hw _ hKp
    rw [Waits, h.deps.odepList_eq_nil (hdone p hKp)] at hw
    exact absurd hw (by simp)
  refine ⟨h.window.dropFirst hn hr, h.scheduled.removed hr, h.deps.removed hr hdep hconv,
    h.cv.retired hr (fun p q hp hq hnot => h.window.first_lt hn hp hq hnot) hdone ?_ ?_,
    h.speculation.retired hr hdone, h.awake.removed hr, h.memOrder.removed hr hconv⟩
  · change s.dropAccess.specCreateVector = _
    rw [dropAccess]
    split <;> rfl
  · change s.dropAccess.useSpecCv = _
    rw [dropAccess]
    split <;> rfl

/-- The head of the RUU is not speculative when it has completed. -/
theorem Inv.first_specMode (h : s.Inv names {}) (hn : 0 < s.ruu.num)
    (hdone : ∀ p, s.First p → (s.station p).completed = true) :
    (s.station s.firstRuu).specMode = false := by
  have hlive : s.Live s.firstRuu := h.window.ruu_ok.head_mem hn
  cases hm : s.specMode
  · exact (h.speculation.normal hm _ hlive).1
  · obtain ⟨b, hb⟩ := h.speculation.branch hm
    have hnot : ¬s.First b := fun hK => by
      have hc := hb.pending.completed
      rw [hdone b hK] at hc
      exact absurd hc (by simp)
    have hlt := h.window.first_lt hn (Or.inl rfl) hb.pending.live hnot
    by_contra hspec
    have := (hb.spec _ hlive).mp (by simpa using hspec)
    omega

end Core

/-- The retired instruction was the first in flight. -/
theorem inflight_dropFirst {names : MdInst → Names} {s : Core U} (h : s.Inv names {})
    (hn : 0 < s.ruu.num) (hdone : ∀ p, s.First p → (s.station p).completed = true) :
    inflight s = ((s.station s.firstRuu).PC, (s.station s.firstRuu).IR) ::
      inflight s.dropFirst := by
  have hr := h.removed_dropFirst hn hdone
  have hsame : ∀ i ∈ s.ruu.pop.slots, s.dropFirst.station ⟨false, i⟩ = s.station ⟨false, i⟩ :=
    fun i hi => hr.same _ ((hr.live ⟨false, i⟩).mp hi).2
  have hrest : inflight s.dropFirst =
      (s.ruu.pop.slots.filter fun i => !(s.station ⟨false, i⟩).specMode).map fun i =>
        ((s.station ⟨false, i⟩).PC, (s.station ⟨false, i⟩).IR) := by
    rw [inflight, Core.dropFirst_ruu, List.filter_congr fun i hi =>
      congrArg (fun st => !Station.specMode st) (hsame i hi)]
    refine List.map_congr_left fun i hi => ?_
    rw [hsame i (List.mem_of_mem_filter hi)]
  rw [hrest, inflight, h.window.ruu_ok.slots_pop hn, List.filter_cons,
    h.first_specMode hn hdone]
  rfl

/-! ### The stage -/

namespace Machine

variable {S : Setup σ τ W U} {m : Machine σ τ W U} {start : SeqState σ} {due : ℕ} {E : Halt → Prop}

/-- An instruction is retired. -/
theorem Good.retire (h : m.Good S start {} due) (hn : 0 < m.core.ruu.num)
    (hdone : ∀ p, m.core.First p → (m.core.station p).completed = true) (busy : ℕ → ℕ) (w : W) :
    { m with
      core := m.core.dropFirst
      retired := m.retired ++
        [((m.core.station m.core.firstRuu).PC, (m.core.station m.core.firstRuu).IR)]
      fuBusy := busy
      world := w }.Good S start {} due where
  back :=
    { inv := h.back.inv.dropFirst hn hdone
      ruu_size := h.back.ruu_size
      lsq_size := by
        rw [Core.dropFirst_lsq]
        split
        · exact h.back.lsq_size
        · exact h.back.lsq_size
      decoded := fun i hi => by
        have hr := h.back.inv.removed_dropFirst hn hdone
        obtain ⟨hl, hK⟩ := (hr.live ⟨true, i⟩).mp hi
        have hst : m.core.dropFirst.entry i = m.core.entry i := hr.same _ hK
        rw [hst]
        exact h.back.decoded i hl
      timely := (h.back.inv.removed_dropFirst hn hdone).eventQueue ▸ h.back.timely }
  front := h.front.congr
    { SameFront.refl m with
      specMode := (h.back.inv.removed_dropFirst hn hdone).specMode
      program := by
        rw [inflight_dropFirst h.back.inv hn hdone, List.append_assoc]
        rfl }

/-- The update of the predictor changes no more than the predictor, and stops only for its own
assertion. -/
theorem updatePred_meets (hE : E (.assertion "bpred_update")) (stage : SpecUpdate) (op : Opcode)
    (PC nextPC predPC : Bpred.MdAddr) (inst : MdInst) (u : Option U) :
    Meets E (fun m' => ∃ w, m' = { m with world := w })
      (m.updatePred S stage op PC nextPC predPC inst u) := by
  rw [updatePred]
  split
  · exact ⟨m.world, rfl⟩
  · split
    · split
      · exact hE
      · exact ⟨_, rfl⟩
    · exact ⟨m.world, rfl⟩

/-- The store port and the caches are what the commit of a store changes. -/
theorem commitStore_meets {c : FuClass}
    (hc : (m.core.station m.core.firstLsq).op.fuclass = some c) :
    Meets E (fun r => ∀ m', r = some m' → ∃ busy w, m' = { m with fuBusy := busy, world := w })
      (m.commitStore S) := by
  rw [commitStore]
  dsimp only
  rw [hc]
  refine (S.cfg.pool_ok.resGet E).bind fun fu hfree => ?_
  cases fu with
  | none => exact fun m' hm' => absurd hm' (by simp)
  | some fu =>
    refine Meets.guard (by simp [(hfree fu rfl).2]) fun m' hm' => ?_
    obtain rfl := Option.some.inj hm'
    exact ⟨_, _, rfl⟩

/-- The load/store queue part of `ruu_commit`. -/
theorem commitLsq_meets (h : m.Good S start {} due) (hn : 0 < m.core.ruu.num) :
    Meets E (fun r => ∀ m', r = some m' →
      ((m.core.station m.core.firstRuu).eaComp = true →
        (m.core.station m.core.firstLsq).completed = true) ∧
      ∃ busy w, m' = { m with core := m.core.dropAccess, fuBusy := busy, world := w })
      (m.commitLsq S) := by
  have hinv := h.back.inv
  rw [commitLsq]
  refine Meets.ite (fun hea => ?_) fun hea m' hm' => ?_
  · have hpos := (hinv.window.seq_firstLsq hn hea).1
    have hmem := hinv.window.lsq_ok.head_mem hpos
    have hlsq : (m.core.station m.core.firstLsq).inLSQ = true := hinv.window.inLSQ _ hmem
    refine Meets.guard (by simp [hpos.ne', hlsq]) (Meets.ite (fun _ m' hm' => ?_) fun hc => ?_)
    · exact absurd hm' (by simp)
    -- What is left after the port has been taken, if the entry is a store.
    have hrest : ∀ (r : Option (Machine σ τ W U)), (∀ m', r = some m' →
        ∃ busy w, m' = { m with fuBusy := busy, world := w }) →
        Meets E (fun r => ∀ m', r = some m' →
          ((m.core.station m.core.firstRuu).eaComp = true →
            (m.core.station m.core.firstLsq).completed = true) ∧
          ∃ busy w, m' = { m with core := m.core.dropAccess, fuBusy := busy, world := w })
          (r.elim (.ok none) fun m =>
            let m := m.invalidate ⟨true, m.core.lsq.head⟩
            .ok (some { m with core := { m.core with lsq := m.core.lsq.pop } })) := by
      intro r hr
      cases r with
      | none => exact fun m' hm' => absurd hm' (by simp)
      | some m₁ =>
        obtain ⟨busy, w, rfl⟩ := hr m₁ rfl
        rintro m' hm'
        obtain rfl := Option.some.inj hm'
        refine ⟨fun _ => by simpa using hc, busy, w, ?_⟩
        rw [Core.dropAccess, if_pos hea]
        rfl
    refine Meets.ite (fun _ => ?_) fun _ => ?_
    · obtain ⟨c, hfu⟩ : ∃ c, (m.core.station m.core.firstLsq).op.fuclass = some c :=
        Option.ne_none_iff_exists'.mp (S.target.mem_fuclass _ _ (h.back.decoded _ hmem)
          (hinv.window.access_mem _ hmem))
      refine (commitStore_meets hfu).bind fun r hr => ?_
      convert hrest r hr using 1
      cases r <;> rfl
    · exact hrest (some m) fun m' hm' => ⟨m.fuBusy, m.world, (Option.some.inj hm').symm⟩
  · obtain rfl := Option.some.inj hm'
    refine ⟨fun hea' => absurd hea' hea, m.fuBusy, m.world, ?_⟩
    rw [Core.dropAccess, if_neg hea]

/-- The rest of the retirement, when the load/store queue part is done. -/
theorem retireHead_meets (h : m.Good S start {} due)
    (hdone : ∀ p, m.core.First p → (m.core.station p).completed = true) (busy : ℕ → ℕ) (w : W) :
    Meets E (fun m' => m' = { m with
        core := m.core.dropFirst
        retired := m.retired ++
          [((m.core.station m.core.firstRuu).PC, (m.core.station m.core.firstRuu).IR)]
        fuBusy := busy
        world := w })
      { m with core := m.core.dropAccess, fuBusy := busy, world := w }.retireHead := by
  have hlist := h.back.inv.deps.odepList_eq_nil (hdone _ (Or.inl rfl))
  have hself : m.core.dropAccess.station ⟨false, m.core.dropAccess.ruu.head⟩ =
      m.core.station m.core.firstRuu := by rw [Core.dropAccess_ruu, Core.station_dropAccess]
  rw [retireHead]
  dsimp only
  rw [hself]
  refine Meets.ite (fun _ => ?_) fun hne => absurd ?_ hne
  · simp only [meets_ok, invalidate, Core.modify_ruu, Core.dropAccess_ruu]
    rfl
  · simp [hlist]

/-- The loop of `ruu_commit`. -/
theorem commitLoop_meets (hE : E (.assertion "bpred_update")) (n : ℕ)
    (h : m.Good S start {} due) :
    Meets E (fun m' => m'.Good S start {} due ∧ m'.core.simCycle = m.core.simCycle)
      (commitLoop S n m) := by
  induction n generalizing m with
  | zero => exact ⟨h, rfl⟩
  | succ n ih =>
    rw [commitLoop]
    refine Meets.ite (fun _ => ⟨h, rfl⟩) fun hnum => Meets.ite (fun _ => ⟨h, rfl⟩) fun hc => ?_
    have hn : 0 < m.core.ruu.num := Nat.pos_of_ne_zero hnum
    refine (commitLsq_meets h hn).bind fun r hr => ?_
    cases r with
    | none => exact ⟨h, rfl⟩
    | some m₁ =>
      obtain ⟨hlsq, busy, w, rfl⟩ := hr m₁ rfl
      refine (updatePred_meets hE _ _ _ _ _ _ _).bind fun m₂ ⟨w, hm₂⟩ => ?_
      subst hm₂
      have hdone : ∀ p, m.core.First p → (m.core.station p).completed = true := by
        rintro p (rfl | ⟨hea, rfl⟩)
        · simpa using hc
        · exact hlsq hea
      refine (retireHead_meets h hdone busy w).bind ?_
      rintro _ rfl
      have hcycle := (h.back.inv.removed_dropFirst hn hdone).simCycle
      exact (ih (h.retire hn hdone busy w)).mono fun m' hm' => ⟨hm'.1, hm'.2.trans hcycle⟩

/-- `ruu_commit` does not stop, and keeps the invariant. -/
theorem ruuCommit_meets (hE : E (.assertion "bpred_update")) (h : m.Good S start {} due) :
    Meets E (fun m' => m'.Good S start {} due ∧ m'.core.simCycle = m.core.simCycle)
      (m.ruuCommit S) := commitLoop_meets hE _ h

end Machine

end AdvancedArchitecture.Outorder
