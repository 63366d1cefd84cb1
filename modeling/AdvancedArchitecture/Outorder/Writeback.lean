import AdvancedArchitecture.Outorder.Commit

/-!
# Writeback

`ruu_writeback` completes the operations whose events are due and broadcasts their results. If the
operation is the mispredicted branch, all that has been dispatched after it is squashed first, and
the fetch stage is sent back to the right path. After the stage there are only events in the
future.
-/

namespace AdvancedArchitecture.Outorder

variable {σ τ W U : Type}

namespace Core

variable {names : MdInst → Names} {s s' : Core U} {p q : RsPtr} {d : Doing} {E : Halt → Prop}

/-! ### Completion -/

theorem issued_completedBy (s : Core U) (p q : RsPtr) :
    ((s.completedBy p).station q).issued = (s.station q).issued :=
  get_modify Station.issued fun _ => rfl

theorem queued_completedBy (s : Core U) (p q : RsPtr) :
    ((s.completedBy p).station q).queued = (s.station q).queued :=
  get_modify Station.queued fun _ => rfl

theorem window_completedBy (h : s.Window) (p : RsPtr) : (s.completedBy p).Window :=
  h.congr (fun _ => (s.completes_completedBy p).same.get Station.static fun _ => rfl) rfl rfl rfl

theorem awake_completedBy {l : List RsPtr} (h : s.Awake l) (p : RsPtr) :
    (s.completedBy p).Awake l := by
  have hs := (s.completes_completedBy p).same
  refine h.congr (fun _ => id) (fun _ => hs.get Station.selfQueued fun _ => rfl)
    (fun q _ hr _ => Or.inl ?_) fun q _ hflag => ?_
  · rwa [hs.get Station.operandsReady fun _ => rfl] at hr
  · rwa [queued_completedBy, issued_completedBy]

theorem memOrder_completedBy (h : s.MemOrder) (p : RsPtr) : (s.completedBy p).MemOrder := by
  refine h.congr rfl (fun j => SameUpTo.sameAccess (s.completes_completedBy p).same (fun _ => rfl)
    (fun _ => rfl) (fun _ => rfl) (fun _ => rfl) _) fun i _ _ hflag => ?_
  rwa [entry, queued_completedBy, issued_completedBy] at hflag

/-- An operation that does not recover completes. -/
theorem Inv.completedBy (h : s.Inv names {}) (he : (s.nextEvent s.eventQueue).1 = some p)
    (hrec : (s.station p).recoverInst = false) :
    (s.completedBy p).Inv names { busy := some (p, 0) } :=
  have hc := s.completes_completedBy p
  ⟨window_completedBy h.window p, h.scheduled.completedBy he, hc.deps h.deps, hc.cv h.cv,
    h.speculation.congr (hc.specAgree hrec), awake_completedBy h.awake p,
    memOrder_completedBy h.memOrder p⟩

/-- Where no event is due, squashed events are dropped. -/
theorem Inv.of_nextEvent_none (h : s.Inv names d) (he : (s.nextEvent s.eventQueue).1 = none) :
    { s with eventQueue := (s.nextEvent s.eventQueue).2 }.Inv names d := by
  have hs : Same s { s with eventQueue := (s.nextEvent s.eventQueue).2 } :=
    (SameUpTo.refl s).queues s.readyQueue _
  exact ⟨h.window.frame hs.frame, h.scheduled.of_nextEvent_none he, h.deps.congr hs,
    h.cv.congr hs.frame, h.speculation.congr hs.frame.specAgree, fun p hp => h.awake p hp,
    h.memOrder.congr rfl (fun _ => hs.sameAccess _) fun _ _ _ => id⟩

/-- The results of a completed operation are broadcast. -/
theorem Inv.broadcast (h : s.Inv names { busy := some (p, 0) })
    (hc : (s.station p).completed = true) :
    Meets E (fun s' => s'.Inv names {} ∧ s.Moved s')
      ((List.range maxOdeps).foldlM (broadcast p) s) := by
  refine (broadcast_all E h.deps h.cv h.scheduled hc).mono fun s' ⟨hd, hcv, hs, hm⟩ => ?_
  exact ⟨⟨hm.window h.window, hs, hd, hcv, h.speculation.congr hm.specAgree, hm.awake_of h.awake,
    hm.memOrder h.memOrder fun i hi => h.window.inLSQ ⟨true, i⟩ hi⟩, hm⟩

/-! ### Recovery -/

/-- A branch that recovers is the one of the speculative mode. -/
theorem Inv.branch_of_recoverInst (h : s.Inv names d) (hp : s.Live p)
    (hrec : (s.station p).recoverInst = true) (hc : (s.station p).completed = false) :
    s.specMode = true ∧ s.Branch p ∧ p.inLSQ = false := by
  have hpend : s.Pending p := ⟨hp, hrec, hc⟩
  have hm : s.specMode = true := by
    by_contra hm
    exact (h.speculation.normal (by simpa using hm) p hp).2 hpend
  obtain ⟨b, hb⟩ := h.speculation.branch hm
  obtain rfl := hb.unique p hpend
  refine ⟨hm, hb, ?_⟩
  obtain ⟨_ | _, i⟩ := p
  · rfl
  · have hrec' : (s.station ⟨true, i⟩).recoverInst = false := h.window.access_recoverInst i hp
    rw [hrec] at hrec'
    exact absurd hrec' (by simp)

/-- The branch completes, and what has been dispatched after it is squashed. -/
theorem Inv.recovered (h : s.Inv names {}) (he : (s.nextEvent s.eventQueue).1 = some p)
    (hrec : (s.station p).recoverInst = true) :
    Meets E (fun s' => (s.completedBy p).Removed s' (fun q => s.Live q ∧
          (s.station q).specMode = true) ∧
        { s' with specMode := false }.Inv names { busy := some (p, 0) } ∧
        s'.ruu.size = s.ruu.size ∧ s'.lsq.size = s.lsq.size)
      (ruuRecover (s.completedBy p) p.idx) := by
  obtain ⟨hl, -, -, -, hc⟩ := h.scheduled.of_nextEvent he
  obtain ⟨-, hb, hlsq⟩ := h.branch_of_recoverInst hl hrec hc
  have hcomp := s.completes_completedBy p
  have hseq : ∀ q, ((s.completedBy p).station q).seq = (s.station q).seq := hcomp.agree.seq
  have hp : p = ⟨false, p.idx⟩ := by rw [← hlsq]
  have hw := window_completedBy h.window p
  refine (ruuRecover_meets E hw (b := p.idx) ?_ ?_).mono fun s' ⟨hw', hr, huse, hsizes⟩ => ?_
  · exact live_ruu.mp (hp ▸ hl)
  · rw [← hp]
    exact (hcomp.same.get Station.eaComp fun _ => rfl).trans hb.eaComp
  rw [← hp] at hr
  -- the entries that `ruu_recover` removes are those younger than the branch
  have hr' : (s.completedBy p).Removed s'
      (fun q => s.Live q ∧ (s.station p).seq < (s.station q).seq) :=
    hr.congr fun q => by rw [hseq, hseq]; rfl
  have hlater : ∀ {c}, s.Live c → ¬(s.Live c ∧ (s.station p).seq < (s.station c).seq) →
      (s.station c).seq ≤ (s.station p).seq := fun hc hnot => not_lt.mp fun hlt => hnot ⟨hc, hlt⟩
  -- and they are a final segment, so nothing between two operations that stay is lost
  have hconv : ∀ q q' c, (s.completedBy p).Live q → (s.completedBy p).Live q' →
      (s.completedBy p).Live c → ¬(s.Live q ∧ (s.station p).seq < (s.station q).seq) →
      ¬(s.Live c ∧ (s.station p).seq < (s.station c).seq) →
      ((s.completedBy p).station q).seq ≤ ((s.completedBy p).station q').seq →
      ((s.completedBy p).station q').seq < ((s.completedBy p).station c).seq →
      ¬(s.Live q' ∧ (s.station p).seq < (s.station q').seq) := by
    intro q q' c _ _ hc _ hKc _ hlt
    rw [hseq, hseq] at hlt
    exact fun hK => absurd (hlt.trans_le (hlater hc hKc)) hK.2.not_gt
  -- nor does an operation that stays wait for one of them
  have hdep : ∀ c k q i, (s.completedBy p).Waits c k q i →
      ¬(s.Live c ∧ (s.station p).seq < (s.station c).seq) →
      ¬(s.Live q ∧ (s.station p).seq < (s.station q).seq) := by
    intro c k q i hwait hKc hKq
    have hd := hcomp.deps h.deps
    have hlt := hd.older q i _ hwait ((s.completedBy p).valid_link c k)
    rw [hseq, hseq] at hlt
    have hlc : s.Live c := hd.live q i _ hwait ((s.completedBy p).valid_link c k)
    exact absurd (hlt.trans_le (hlater hlc hKc)) hKq.2.not_gt
  -- in speculative mode the younger operations are the speculative ones
  have hspec : ∀ q, s.Live q ∧ (s.station q).specMode = true ↔
      s.Live q ∧ (s.station p).seq < (s.station q).seq :=
    fun q => and_congr_right fun hq => hb.spec q hq
  have hdeps := (hcomp.deps h.deps).removed hr' hdep hconv
  have hcv := (hcomp.cv h.cv).squashed hr' (fun q hq => by
    rw [hcomp.agree.specMode, hb.spec q hq]
    exact and_iff_right hq) huse
  -- no other branch is outstanding
  have hnormal : ∀ q, s'.Live q → (s'.station q).specMode = false ∧ ¬s'.Pending q := by
    intro q hq
    obtain ⟨hlq, hK⟩ := (hr'.live q).mp hq
    rw [hr'.same q hK]
    refine ⟨?_, fun hpend => ?_⟩
    · rw [hcomp.agree.specMode]
      simpa using fun hs => hK ⟨hlq, (hb.spec q hlq).mp hs⟩
    have hqp : q ≠ p := by
      rintro rfl
      have hdone := hpend.completed
      rw [hr'.same _ hK, hcomp.self] at hdone
      exact absurd hdone (by simp)
    refine hqp (hb.unique q ⟨hlq, ?_, ?_⟩)
    · have hrec' := hpend.recoverInst
      rwa [hr'.same _ hK, hcomp.same.get Station.recoverInst fun _ => rfl] at hrec'
    · have hdone := hpend.completed
      rwa [hr'.same _ hK, hcomp.other q hqp] at hdone
  refine ⟨hr'.congr hspec, ⟨hw'.congr (fun _ => rfl) rfl rfl rfl, ?_, { hdeps with },
    { hcv with mode := fun _ => huse }, ⟨fun _ q hq => ?_, fun hm => absurd hm (by simp)⟩, ?_, ?_⟩,
    hsizes⟩
  · exact ((h.scheduled.completedBy he).removed hr').congr (fun _ => Iff.rfl) (fun _ => rfl)
      (fun _ => rfl) (fun _ => rfl) (fun _ => rfl) (fun _ => id) rfl rfl
  · exact ⟨(hnormal q hq).1, fun hpend => (hnormal q hq).2 { hpend with }⟩
  · exact fun q hq => ((awake_completedBy h.awake p).removed hr') q hq
  · exact ((memOrder_completedBy h.memOrder p).removed hr' hconv).congr rfl
      (fun _ => ⟨rfl, rfl, rfl, fun _ => id⟩) fun _ _ _ => id

end Core

/-- What is squashed was speculative, so what is in flight stays. -/
theorem inflight_recovered {s s' : Core U} {K : RsPtr → Prop} (hr : s.Removed s' K)
    (hw : s.Window) (hw' : s'.Window)
    (hK : ∀ q, s.Live q → (K q ↔ (s.station q).specMode = true)) : inflight s' = inflight s := by
  have hmem : ∀ i, i ∈ s'.ruu.slots ↔ i ∈ s.ruu.slots.filter fun i =>
      !(s.station ⟨false, i⟩).specMode := by
    intro i
    rw [List.mem_filter, Bool.not_eq_true', ← Bool.not_eq_true]
    exact (hr.live ⟨false, i⟩).trans (and_congr_right fun hi => not_congr (hK ⟨false, i⟩ hi))
  have hst : ∀ i ∈ s'.ruu.slots, s'.station ⟨false, i⟩ = s.station ⟨false, i⟩ :=
    fun i hi => hr.same _ ((hr.live ⟨false, i⟩).mp hi).2
  -- Both lists are in the order of the numbers.
  have hslots : s'.ruu.slots = s.ruu.slots.filter fun i => !(s.station ⟨false, i⟩).specMode := by
    have hperm := (List.perm_ext_iff_of_nodup hw'.ruu_ok.nodup_slots
      (hw.ruu_ok.nodup_slots.filter _)).mpr hmem
    refine hperm.eq_of_pairwise (fun a b _ _ hab hba => ?_) ?_ (hw.ordered.filter _)
    · have := (s.station ⟨false, a⟩).seq_le_lastSeq
      have := (s.station ⟨false, b⟩).seq_le_lastSeq
      omega
    · refine hw'.ordered.imp_of_mem fun {a b} ha hb hab => ?_
      rwa [hst a ha, hst b hb] at hab
  have hall : (s'.ruu.slots.filter fun i => !(s'.station ⟨false, i⟩).specMode) = s'.ruu.slots := by
    rw [List.filter_eq_self]
    intro i hi
    rw [hst i hi]
    exact (List.mem_filter.mp ((hmem i).mp hi)).2
  rw [inflight, inflight, hall, ← hslots]
  refine List.map_congr_left fun i hi => ?_
  rw [hst i hi]

/-! ### The stage -/

open Outorder.Core (Doing)

namespace Machine

variable {S : Setup σ τ W U} {m : Machine σ τ W U} {start : SeqState σ} {due : ℕ} {E : Halt → Prop}
  {p : RsPtr}

/-- The events left after the first one that is due. -/
abbrev laterEvents (s : Core U) : List RsLink := (s.nextEvent s.eventQueue).2

theorem timely_laterEvents (h : ∀ ℓ ∈ m.core.eventQueue, due ≤ ℓ.x) :
    ∀ ℓ ∈ laterEvents m.core, due ≤ ℓ.x :=
  fun ℓ hℓ => h ℓ ((Core.nextEvent_suffix _ _).subset hℓ)

/-- An operation that does not recover completes. -/
theorem Good.completedBy (h : m.Good S start {} due)
    (he : (m.core.nextEvent m.core.eventQueue).1 = some p)
    (hrec : (m.core.station p).recoverInst = false) :
    { m with core := m.core.completedBy p }.Good S start { busy := some (p, 0) } due :=
  h.core (h.back.inv.completedBy he hrec)
    (fun _ => (m.core.completes_completedBy p).same.get Station.static fun _ => rfl) rfl rfl rfl
    (timely_laterEvents h.back.timely)

/-- The recovery from a misprediction does not stop: everything after the branch is squashed, and
the fetch stage goes on at the right address. -/
theorem mispredict_meets (h : m.Good S start {} due)
    (he : (m.core.nextEvent m.core.eventQueue).1 = some p)
    (hrec : (m.core.station p).recoverInst = true) :
    Meets E (fun m' => m'.Good S start { busy := some (p, 0) } due ∧
        m'.core.simCycle = m.core.simCycle ∧ m'.core.eventQueue = laterEvents m.core ∧
        m'.core.station p = (m.core.completedBy p).station p)
      ({ m with core := m.core.completedBy p }.mispredict S p) := by
  have hinv := h.back.inv
  have hcomp := m.core.completes_completedBy p
  obtain ⟨hl, -, -, -, hc⟩ := hinv.scheduled.of_nextEvent he
  obtain ⟨hm, hb, hlsq⟩ := hinv.branch_of_recoverInst hl hrec hc
  have hin : ((m.core.completedBy p).station p).inLSQ = false := by
    rw [hcomp.same.get Station.inLSQ fun _ => rfl, hinv.window.inLSQ p hl, hlsq]
  rw [mispredict]
  refine Meets.guard (by simp [hin]) ?_
  refine (hinv.recovered he hrec).bind fun s ⟨hr, hinv', hruu, hlsq'⟩ => ?_
  have hmode : s.specMode = true := hr.specMode.trans hm
  -- the branch itself is not speculative and stays
  have hK : ¬(m.core.Live p ∧ (m.core.station p).specMode = true) := fun hK =>
    absurd ((hb.spec p hl).mp hK.2) (lt_irrefl _)
  simp only [tracerRecover, hmode, Bool.not_true, Bool.false_eq_true, if_false]
  refine ⟨⟨⟨hinv', hruu.trans h.back.ruu_size, hlsq'.trans h.back.lsq_size, fun i hi => ?_, ?_⟩,
    ⟨⟨S.cfg.ifqSize_ok.trans_eq h.front.ifq_size.symm, Nat.zero_le _, Nat.zero_mod _⟩,
      h.front.ifq_size, ?_, ?_⟩⟩, hr.simCycle, hr.eventQueue, hr.same p hK⟩
  · obtain ⟨hi, hKi⟩ := (hr.live ⟨true, i⟩).mp hi
    have hst : s.entry i = (m.core.completedBy p).entry i := hr.same _ hKi
    change S.target.decode (s.entry i).IR = some (s.entry i).op
    rw [hst, hcomp.same.get Station.IR fun _ => rfl, hcomp.same.get Station.op fun _ => rfl]
    exact h.back.decoded i hi
  · change ∀ ℓ ∈ s.eventQueue, due ≤ ℓ.x
    rw [hr.eventQueue]
    exact timely_laterEvents h.back.timely
  · simp [Ring.slots]
  · obtain ⟨pc, -, hprog⟩ := h.front.program
    refine ⟨m.recoverPC, by simp [Ring.slots, Path], fun hT => ⟨by simp [Ring.slots], ?_⟩⟩
    obtain ⟨k, r, hrun, hregs, htrace, hpc⟩ := (hprog hT).order
    rw [hm, if_pos rfl] at hpc
    refine ⟨k, r, hrun, hregs, ?_, hpc⟩
    · have hw : s.Window := hinv'.window.congr (fun _ => rfl) rfl rfl rfl
      have hs := inflight_recovered hr (Core.window_completedBy hinv.window p) hw fun q hq => by
        rw [hcomp.agree.specMode]
        exact and_iff_right hq
      have hs' : inflight (m.core.completedBy p) = inflight m.core :=
        inflight_congr (fun _ => hcomp.same.get Station.static fun _ => rfl) rfl
      rw [htrace, ← hs', ← hs]
      rfl

/-- The results are broadcast. -/
theorem broadcast_meets (h : m.Good S start { busy := some (p, 0) } due)
    (hc : (m.core.station p).completed = true) :
    Meets E (fun m' => m'.Good S start {} due ∧ m'.core.simCycle = m.core.simCycle ∧
        m'.core.eventQueue = m.core.eventQueue)
      (do return { m with core := ← (List.range maxOdeps).foldlM (Core.broadcast p) m.core }) := by
  refine (h.back.inv.broadcast hc).bind fun s ⟨hinv, hm⟩ => ?_
  exact ⟨h.core hinv (hm.get Station.static fun _ => rfl) hm.ruu hm.lsq hm.specMode
    (hm.eventQueue ▸ h.back.timely), hm.simCycle, hm.eventQueue⟩

/-- One event is treated. -/
theorem writebackOne_meets (hE : E (.assertion "bpred_update")) (h : m.Good S start {} due)
    (he : (m.core.nextEvent m.core.eventQueue).1 = some p) :
    Meets E (fun m' => m'.Good S start {} due ∧ m'.core.simCycle = m.core.simCycle ∧
        m'.core.eventQueue = laterEvents m.core)
      ({ m with core := { m.core with eventQueue := laterEvents m.core } }.writebackOne S p) := by
  have hcomp := m.core.completes_completedBy p
  obtain ⟨-, hr, hq, hi, hc⟩ := h.back.inv.scheduled.of_nextEvent he
  rw [writebackOne]
  refine Meets.guard (by simp [hr, hq, hi, hc]) ?_
  -- What is left after the recovery, if there is one.
  have hrest : ∀ m₁ : Machine σ τ W U, m₁.Good S start { busy := some (p, 0) } due →
      m₁.core.simCycle = m.core.simCycle → m₁.core.eventQueue = laterEvents m.core →
      (m₁.core.station p).completed = true →
      Meets E (fun m' => m'.Good S start {} due ∧ m'.core.simCycle = m.core.simCycle ∧
          m'.core.eventQueue = laterEvents m.core) (do
        let m ← if !(m.core.station p).inLSQ then
            m₁.updatePred S .WB (m.core.station p).op (m.core.station p).PC
              (m.core.station p).nextPC (m.core.station p).predPC (m.core.station p).IR
              (m.core.station p).update
          else .ok m₁
        let core ← (List.range maxOdeps).foldlM (Core.broadcast p) m.core
        return { m with core := core }) := by
    intro m₁ h₁ hcycle hev hdone
    refine Meets.ite (fun _ => ?_) fun _ => ?_
    · refine (updatePred_meets hE _ _ _ _ _ _ _).bind ?_
      rintro _ ⟨w, rfl⟩
      refine (broadcast_meets (h₁.env m₁.fuBusy w) hdone).mono fun m' ⟨h', hc', he'⟩ => ?_
      exact ⟨h', hc'.trans hcycle, he'.trans hev⟩
    · refine (broadcast_meets h₁ hdone).mono fun m' ⟨h', hc', he'⟩ => ?_
      exact ⟨h', hc'.trans hcycle, he'.trans hev⟩
  refine Meets.ite (fun hrec => ?_) fun hrec => ?_
  · refine (mispredict_meets h he hrec).bind fun m₁ ⟨h₁, hcycle, hev, hst⟩ => ?_
    exact hrest m₁ h₁ hcycle hev (by rw [hst, hcomp.self])
  · exact hrest _ (h.completedBy he (by simpa using hrec)) rfl rfl hcomp.self

/-- The loop of `ruu_writeback`: the fuel is enough for all events, and no event that is due is
left. -/
theorem writebackLoop_meets (hE : E (.assertion "bpred_update")) (n : ℕ)
    (h : m.Good S start {} due) (hn : m.core.eventQueue.length ≤ n) :
    Meets E (fun m' => m'.Good S start {} (m.core.simCycle + 1) ∧
      m'.core.simCycle = m.core.simCycle) (writebackLoop S n m) := by
  induction n generalizing m with
  | zero =>
    have hnil : m.core.eventQueue = [] := List.length_eq_zero_iff.mp (Nat.le_zero.mp hn)
    refine ⟨⟨{ h.back with timely := fun ℓ hℓ => ?_ }, h.front⟩, rfl⟩
    rw [hnil] at hℓ
    exact absurd hℓ (by simp)
  | succ n ih =>
    have hevents := h.back.inv.scheduled.events
    rw [writebackLoop]
    rcases he : (m.core.nextEvent m.core.eventQueue).1 with _ | p
    · have hnone : m.core.eventqNextEvent =
          (none, { m.core with eventQueue := laterEvents m.core }) := by
        rw [Core.eventqNextEvent, he]
      obtain ⟨-, hlater⟩ := Core.nextEvent_eq_none hevents h.back.inv.scheduled.sorted he
      rw [hnone]
      refine ⟨⟨{ h.back with inv := h.back.inv.of_nextEvent_none he, timely := ?_ },
        h.front.congr { Machine.SameFront.refl m with }⟩, rfl⟩
      exact fun ℓ hℓ => hlater ℓ hℓ
    · have hsome : m.core.eventqNextEvent =
          (some p, { m.core with eventQueue := laterEvents m.core }) := by
        rw [Core.eventqNextEvent, he]
      rw [hsome]
      refine (writebackOne_meets hE h he).bind fun m₁ ⟨h₁, hcycle, hev⟩ => ?_
      obtain ⟨_, -, -, -, -, -, hlt⟩ := Core.nextEvent_eq_some hevents he
      refine (ih h₁ (by rw [hev, laterEvents]; omega)).mono fun m' ⟨h', hc'⟩ => ?_
      rw [hcycle] at h' hc'
      exact ⟨h', hc'⟩

/-- `ruu_writeback` does not stop but for the predictor, and keeps the invariant. -/
theorem ruuWriteback_meets (hE : E (.assertion "bpred_update")) (h : m.Good S start {} due) :
    Meets E (fun m' => m'.Good S start {} (m.core.simCycle + 1) ∧
      m'.core.simCycle = m.core.simCycle) (m.ruuWriteback S) :=
  writebackLoop_meets hE _ h le_rfl

end Machine

end AdvancedArchitecture.Outorder
