import AdvancedArchitecture.Outorder.InOrder

/-!
# Issue

`ruu_issue` keeps the invariant and does not stop. An operation that is taken off the ready queue
is executed, with an event in the future, or goes back; a store in the LSQ completes at once.
-/

namespace AdvancedArchitecture.Outorder

variable {σ τ W U : Type}

namespace Core

variable {names : MdInst → Names} {rest : List RsLink} {s : Core U} {p : RsPtr} {ℓ : RsLink}

/-! ### The stations -/

/-- An operation is taken off the ready queue. -/
def dequeued (s : Core U) (p : RsPtr) : Core U := s.modify p fun st => { st with queued := false }

theorem same_dequeued (s : Core U) (p : RsPtr) : Same s (s.dequeued p) :=
  SameUpTo.modify fun _ => rfl

theorem station_dequeued_ne {q : RsPtr} (h : q ≠ p) : (s.dequeued p).station q = s.station q :=
  station_modify_ne h

theorem issued_dequeued (s : Core U) (p q : RsPtr) :
    ((s.dequeued p).station q).issued = (s.station q).issued :=
  get_modify Station.issued fun _ => rfl

theorem Inv.dequeued (h : s.Inv names { pend := ℓ :: rest }) (hv : s.Valid ℓ) :
    (s.dequeued ℓ.rs).Inv names { pend := rest, asleep := [ℓ.rs] } := by
  have hs := s.same_dequeued ℓ.rs
  have hq : ∀ q, ((s.dequeued ℓ.rs).station q).queued = true → (s.station q).queued = true := by
    intro q hq
    by_cases hqp : q = ℓ.rs
    · rw [hqp, Core.dequeued, station_modify_self] at hq
      exact absurd hq (by simp)
    · rwa [station_dequeued_ne hqp] at hq
  refine ⟨h.window.frame hs.frame, h.scheduled.dequeued hv, h.deps.congr hs, h.cv.congr hs.frame,
    h.speculation.congr hs.frame.specAgree, ?_, ?_⟩
  · refine (h.awake.push ℓ.rs).congr (fun _ => hs.live.mp)
      (fun _ => hs.get Station.selfQueued fun _ => rfl)
      (fun q _ hr _ => Or.inl (hs.operandsReady ▸ hr)) fun q hqp hflag => ?_
    rw [station_dequeued_ne (List.ne_of_not_mem_cons hqp)]
    exact hflag
  · refine h.memOrder.congr hs.lsq (fun j => hs.sameAccess _) fun i _ _ hflag => ?_
    rw [entry, issued_dequeued] at hflag
    exact hflag.imp_left (hq _)

/-- What `ruu_issue` knows of an operation that it has taken off the queue. -/
structure Taken (s : Core U) (p : RsPtr) : Prop where
  live : s.Live p
  ready : (s.station p).operandsReady = true
  queued : (s.station p).queued = false
  issued : (s.station p).issued = false
  completed : (s.station p).completed = false
  clear : p.inLSQ = true → (s.station p).op.isStore = false → s.Clear p.idx

theorem Inv.taken (h : s.Inv names { pend := ℓ :: rest }) (hv : s.Valid ℓ) :
    (s.dequeued ℓ.rs).Taken ℓ.rs := by
  have hs := s.same_dequeued ℓ.rs
  obtain ⟨hl, hq, hr, hi, hc⟩ := h.scheduled.of_valid hv
  refine ⟨hs.live.mpr hl, hs.operandsReady.trans hr, ?_, (issued_dequeued s _ _).trans hi,
    hs.completed.trans hc, fun hlsq hop => ?_⟩
  · rw [Core.dequeued, station_modify_self]
  · obtain ⟨⟨b, i⟩, tag, x⟩ := ℓ
    obtain rfl : b = true := hlsq
    rw [hs.sameAccess _ |>.op] at hop
    exact (h.memOrder i hl hop (Or.inl hq)).congr hs.lsq fun j => hs.sameAccess _

/-- The operation goes back to the ready queue. -/
theorem Inv.requeued (h : s.Inv names { pend := rest, asleep := [p] }) (ht : s.Taken p) :
    (s.enqueued p).Inv names { pend := rest } := by
  have he := h.enqueued ht.live ht.ready ht.queued ht.issued ht.completed ht.clear
  exact { he with awake := he.awake.pop fun _ => Or.inr (Or.inl (by simp [station_enqueued])) }

/-- The operation is issued, with an event at `w`. -/
theorem Inv.issuedAt (h : s.Inv names { pend := rest, asleep := [p] }) (ht : s.Taken p) (w : ℕ) :
    (s.issuedAt p w).Inv names { pend := rest } := by
  have hs := s.same_issuedAt p w
  have hne : ∀ q, q ≠ p → (s.issuedAt p w).station q = s.station q := fun q hq => by
    rw [station_issuedAt, station_modify_ne hq]
  have hself : ((s.issuedAt p w).station p).issued = true := by simp [station_issuedAt]
  refine ⟨h.window.frame hs.frame,
    h.scheduled.issuedAt ht.live ht.ready ht.queued ht.issued ht.completed w, h.deps.congr hs,
    h.cv.congr hs.frame, h.speculation.congr hs.frame.specAgree, ?_,
    h.memOrder.flagged hs hne ht.clear⟩
  refine Awake.pop (p := p) ?_ fun _ => Or.inr (Or.inr hself)
  refine h.awake.congr (fun _ => hs.live.mp) (fun _ => hs.get Station.selfQueued fun _ => rfl)
    (fun q _ hr _ => Or.inl (hs.operandsReady ▸ hr)) fun q hqp hflag => ?_
  rw [hne q (List.ne_of_not_mem_cons hqp)]
  exact hflag

/-- A store in the LSQ is issued and completes. -/
def storedBy (s : Core U) (p : RsPtr) : Core U :=
  s.modify p fun st => { st with issued := true, completed := true }

theorem completes_storedBy (s : Core U) (p : RsPtr) : s.Completes (s.storedBy p) p where
  same := ⟨fun _ => get_modify Station.unfinished fun _ => rfl,
    rfl, rfl, rfl, rfl, rfl, rfl, rfl, rfl⟩
  other q hq := by rw [storedBy, station_modify_ne hq]
  self := by simp [storedBy]

theorem Inv.storedBy {i : ℕ} (h : s.Inv names { pend := rest, asleep := [⟨true, i⟩] })
    (ht : s.Taken ⟨true, i⟩) (hop : (s.entry i).op.isStore = true) :
    (s.storedBy ⟨true, i⟩).Inv names { pend := rest } := by
  have hc := s.completes_storedBy ⟨true, i⟩
  have hne : ∀ q, q ≠ ⟨true, i⟩ → (s.storedBy ⟨true, i⟩).station q = s.station q :=
    fun q hq => station_modify_ne hq
  have hself : ((s.storedBy ⟨true, i⟩).station ⟨true, i⟩).issued = true := by simp [Core.storedBy]
  have hna := h.window.store_onames i ht.live hop
  have hna' : ∀ j < maxOdeps, ((s.storedBy ⟨true, i⟩).station ⟨true, i⟩).onames j = NA := by
    intro j hj
    rw [hc.agree.onames]
    exact hna j hj
  refine ⟨h.window.congr (fun _ => hc.same.get Station.static fun _ => rfl) rfl rfl rfl,
    h.scheduled.stored ht.ready ht.queued ht.issued,
    (hc.deps h.deps).change_busy fun q j n hw _ => change_busy_of_na hna' q j n hw,
    (hc.cv h.cv).change_busy (change_busy_of_na hna'),
    h.speculation.congr (hc.specAgree (h.window.access_recoverInst i ht.live)), ?_, ?_⟩
  · -- the store is not asleep: it has been issued
    refine Awake.pop (p := ⟨true, i⟩) ?_ fun _ => Or.inr (Or.inr hself)
    refine h.awake.congr (fun _ => id) (fun _ => hc.same.get Station.selfQueued fun _ => rfl)
      (fun q _ hr _ => Or.inl ?_) fun q hqp hflag => ?_
    · rwa [hc.same.get Station.operandsReady fun _ => rfl] at hr
    · rw [hne q (List.ne_of_not_mem_cons hqp)]
      exact hflag
  · refine h.memOrder.congr rfl (fun j => SameUpTo.sameAccess hc.same (fun _ => rfl) (fun _ => rfl)
      (fun _ => rfl) (fun _ => rfl) _) fun j _ hop' hflag => ?_
    have hji : (⟨true, j⟩ : RsPtr) ≠ ⟨true, i⟩ := by
      intro heq
      obtain rfl := (RsPtr.mk.inj heq).2
      rw [hop] at hop'
      exact absurd hop' (by simp)
    rwa [entry, hne _ hji] at hflag

end Core

/-! ### The stage -/

open Outorder.Core (Doing)

namespace Machine

variable {S : Setup σ τ W U} {m : Machine σ τ W U} {start : SeqState σ} {d d' : Doing}
  {due : ℕ} {rest : List RsLink} {p : RsPtr} {ℓ : RsLink} {E : Halt → Prop}

/-- Units, caches and predictors are not part of the invariant. -/
theorem Good.env (h : m.Good S start d due) (busy : ℕ → ℕ) (w : W) :
    { m with fuBusy := busy, world := w }.Good S start d due :=
  ⟨{ h.back with }, h.front.congr { SameFront.refl m with }⟩

/-- The stations change, but not what dispatch has given them. -/
theorem Good.core (h : m.Good S start d due) {s : Core U} (hinv : s.Inv S.target.names d')
    (hst : ∀ q, (s.station q).static = (m.core.station q).static) (hruu : s.ruu = m.core.ruu)
    (hlsq : s.lsq = m.core.lsq) (hmode : s.specMode = m.core.specMode)
    (hev : ∀ ℓ ∈ s.eventQueue, due ≤ ℓ.x) :
    { m with core := s }.Good S start d' due where
  back :=
    { inv := hinv
      ruu_size := (congrArg Ring.size hruu).trans h.back.ruu_size
      lsq_size := (congrArg Ring.size hlsq).trans h.back.lsq_size
      decoded := fun i hi => by
        have hIR : (s.entry i).static.IR = (m.core.entry i).static.IR := by rw [hst]
        have hop : (s.entry i).static.op = (m.core.entry i).static.op := by rw [hst]
        change S.target.decode (s.entry i).static.IR = some (s.entry i).static.op
        rw [hIR, hop]
        exact h.back.decoded i (hlsq ▸ hi)
      timely := hev }
  front := h.front.congr
    { SameFront.refl m with
      specMode := hmode
      program := congrArg (m.retired ++ ·) (inflight_congr hst hruu) }

theorem Good.same (h : m.Good S start d due) {s : Core U} (hinv : s.Inv S.target.names d')
    (hs : Core.Same m.core s) (hev : ∀ ℓ ∈ s.eventQueue, due ≤ ℓ.x) :
    { m with core := s }.Good S start d' due :=
  h.core hinv (fun _ => hs.get Station.static fun _ => rfl) hs.ruu hs.lsq hs.specMode hev

/-- An operation is issued with an event that is not before `due`. -/
theorem Good.issuedAt (h : m.Good S start { pend := rest, asleep := [p] } due)
    (ht : m.core.Taken p) {w : ℕ} (hw : due ≤ w) :
    { m with core := m.core.issuedAt p w }.Good S start { pend := rest } due := by
  refine h.same (h.back.inv.issuedAt ht w) (m.core.same_issuedAt p w) fun ℓ hℓ => ?_
  rcases List.mem_cons.mp ((Core.insertLink_perm _ _).mem_iff.mp hℓ) with rfl | hℓ
  · exact hw
  · exact h.back.timely ℓ hℓ

theorem dataLatency_pos (S : Setup σ τ W U) (m : Machine σ τ W U) (p : RsPtr) {fu : ResTemplate}
    (hfu : 0 < fu.oplat) : 0 < (m.dataLatency S p fu).1 := by
  rw [dataLatency]
  split
  · exact Nat.one_pos
  · split
    · rename_i f hf
      split
      · exact S.env.dl1_pos f hf _ _ _ _
      · exact hfu
    · exact hfu

/-- The latency of a load is at least a cycle, and only the caches change. -/
theorem loadLatency_eq (S : Setup σ τ W U) (m : Machine σ τ W U) (p : RsPtr) {fu : ResTemplate}
    (hfu : 0 < fu.oplat) :
    ∃ l w, m.loadLatency S p fu = (l, { m with world := w }) ∧ 0 < l := by
  have hpos := dataLatency_pos S m p hfu
  rw [loadLatency]
  split
  · split
    · exact ⟨_, _, rfl, lt_max_of_lt_right hpos⟩
    · exact ⟨_, _, rfl, hpos⟩
  · exact ⟨_, _, rfl, hpos⟩

/-- An operation is executed. -/
theorem execute_meets (h : m.Good S start { pend := rest, asleep := [p] } due)
    (ht : m.core.Taken p) (fu : Option ResTemplate)
    (hfu : ∀ t, fu = some t → 0 < t.oplat ∧ m.fuBusy t.master = 0)
    (hdue : due ≤ m.core.simCycle + 1) :
    Meets E (fun m' => m'.Good S start { pend := rest } due ∧
      m'.core.simCycle = m.core.simCycle) (m.execute S p fu) := by
  cases fu with
  | none =>
    rw [execute]
    have hev := Core.eventqQueueEvent_eq (p := p) (w := m.core.simCycle + 1) ht.completed
      (Nat.lt_succ_self _)
    simp only [Core.modify_simCycle, hev]
    exact ⟨h.issuedAt ht hdue, rfl⟩
  | some fu =>
    obtain ⟨hlat, hfree⟩ := hfu fu rfl
    -- The event is scheduled after a latency of at least a cycle.
    have hrest : ∀ r : ℕ × Machine σ τ W U, (∃ l busy w, 0 < l ∧ r = (l, { m with
          core := m.core.modify p fun st => { st with issued := true }
          fuBusy := busy
          world := w })) →
        Meets E
          (fun m' => m'.Good S start { pend := rest } due ∧ m'.core.simCycle = m.core.simCycle)
          (r.2.core.eventqQueueEvent p (r.2.core.simCycle + r.1) >>= fun core =>
            pure { r.2 with core := core }) := by
      rintro _ ⟨l, busy, w, hl, rfl⟩
      have hev := Core.eventqQueueEvent_eq (p := p) (w := m.core.simCycle + l) ht.completed
        (Nat.lt_add_of_pos_right hl)
      simp only [Core.modify_simCycle, hev]
      exact ⟨(h.issuedAt ht (by omega)).env busy w, rfl⟩
    rw [execute]
    refine Meets.guard (by simp [hfree]) (hrest _ ?_)
    split
    · obtain ⟨l, w, heq, hl⟩ := loadLatency_eq S { m with
        core := m.core.modify p fun st => { st with issued := true }
        fuBusy := Function.update m.fuBusy fu.master fu.issuelat } p hlat
      exact ⟨l, _, w, hl, heq⟩
    · exact ⟨fu.oplat, _, m.world, hlat, rfl⟩

/-- An operation that is not issued goes back to the queue. -/
theorem Good.requeued (h : m.Good S start { pend := rest, asleep := [p] } due)
    (ht : m.core.Taken p) :
    { m with core := m.core.enqueued p }.Good S start { pend := rest } due :=
  h.same (h.back.inv.requeued ht) (m.core.same_enqueued p) h.back.timely

theorem Good.dequeued (h : m.Good S start { pend := ℓ :: rest } due) (hv : m.core.Valid ℓ) :
    { m with core := m.core.dequeued ℓ.rs }.Good S start { pend := rest, asleep := [ℓ.rs] } due :=
  h.same (h.back.inv.dequeued hv) (m.core.same_dequeued ℓ.rs) h.back.timely

/-- A store in the LSQ completes. -/
theorem Good.storedBy {i : ℕ} (h : m.Good S start { pend := rest, asleep := [⟨true, i⟩] } due)
    (ht : m.core.Taken ⟨true, i⟩) (hop : (m.core.entry i).op.isStore = true) :
    { m with core := m.core.storedBy ⟨true, i⟩ }.Good S start { pend := rest } due :=
  h.core (h.back.inv.storedBy ht hop)
    (fun _ => (m.core.completes_storedBy ⟨true, i⟩).same.get Station.static fun _ => rfl)
    rfl rfl rfl h.back.timely

/-- One ready operation is treated. -/
theorem issueOne_meets (h : m.Good S start { pend := ℓ :: rest } due) (hv : m.core.Valid ℓ)
    (hdue : due ≤ m.core.simCycle + 1) :
    Meets E (fun r => r.2.Good S start { pend := rest } due ∧
      r.2.core.simCycle = m.core.simCycle) (m.issueOne S ℓ.rs) := by
  obtain ⟨hl, hq, hr, hi, hc⟩ := h.back.inv.scheduled.of_valid hv
  have hd := h.dequeued hv
  have ht := h.back.inv.taken hv
  rw [issueOne]
  refine Meets.guard (by simp [hq, hr, hi, hc]) (Meets.ite (fun hstore => ?_) fun _ => ?_)
  · obtain ⟨hlsq, hop⟩ := Bool.and_eq_true_iff.mp hstore
    obtain ⟨⟨b, i⟩, tag, x⟩ := ℓ
    obtain rfl : b = true := (h.back.inv.window.inLSQ _ hl).symm.trans hlsq
    have hna := h.back.inv.window.store_onames i hl hop
    have hrec := h.back.inv.window.access_recoverInst i hl
    refine Meets.guard (by simp [hna 0 (by decide), hna 1 (by decide)])
      (Meets.guard (by simp [hrec]) ⟨hd.storedBy ht ?_, rfl⟩)
    rw [← hop]
    exact congrArg Opcode.isStore ((m.core.same_dequeued _).sameAccess _).op
  · rcases hfu : (m.core.station ℓ.rs).op.fuclass with _ | c
    · exact (execute_meets hd ht none (by simp) hdue).bind fun m' hm' => hm'
    · refine (S.cfg.pool_ok.resGet E).bind fun fu hfree => ?_
      cases fu with
      | none =>
        change Meets E _ ((m.core.dequeued ℓ.rs).readyqEnqueue ℓ.rs >>= _)
        rw [Core.readyqEnqueue_eq ht.queued]
        exact ⟨hd.requeued ht, rfl⟩
      | some fu =>
        obtain ⟨hmem, hbusy⟩ := hfree fu rfl
        refine (execute_meets hd ht (some fu) (fun t heq => ?_) hdue).bind fun m' hm' => hm'
        obtain rfl := Option.some.inj heq
        exact ⟨S.cfg.pool_ok.oplat_pos c _ hmem, hbusy⟩

theorem Good.drop (h : m.Good S start { pend := ℓ :: rest } due) (hv : ¬m.core.Valid ℓ) :
    m.Good S start { pend := rest } due :=
  { h with
    back := { h.back with inv := { h.back.inv with scheduled := h.back.inv.scheduled.drop hv } } }

/-- The first loop of `ruu_issue`. -/
theorem issueLoop_meets (links : List RsLink) (n : ℕ) (h : m.Good S start { pend := links } due)
    (hdue : due ≤ m.core.simCycle + 1) :
    Meets E (fun r => r.2.Good S start { pend := r.1 } due ∧
      r.2.core.simCycle = m.core.simCycle) (issueLoop S links n m) := by
  induction links generalizing n m with
  | nil => exact ⟨h, rfl⟩
  | cons node rest ih =>
    cases n with
    | zero => exact ⟨h, rfl⟩
    | succ n =>
      rw [issueLoop]
      refine Meets.ite (fun hv => ?_) fun hv => ih (n + 1) (h.drop hv) hdue
      refine (issueOne_meets h hv hdue).bind fun r ⟨hr, hcycle⟩ => ?_
      refine (ih _ hr (by rw [hcycle]; exact hdue)).mono fun r' ⟨hr', hcycle'⟩ => ?_
      exact ⟨hr', hcycle'.trans hcycle⟩

/-- An operation that has not been visited goes back to the queue. -/
theorem requeue_meets (h : m.Good S start { pend := ℓ :: rest } due) :
    Meets E (fun s => { m with core := s }.Good S start { pend := rest } due ∧
      s.simCycle = m.core.simCycle) (requeue m.core ℓ) := by
  rw [requeue]
  refine Meets.ite (fun hv => ?_) fun hv => ⟨h.drop hv, rfl⟩
  have ht := h.back.inv.taken hv
  change Meets E _ ((m.core.dequeued ℓ.rs).readyqEnqueue ℓ.rs)
  rw [Core.readyqEnqueue_eq ht.queued]
  exact ⟨(h.dequeued hv).requeued ht, rfl⟩

/-- The links of the ready queue are taken off. -/
theorem Good.taken (h : m.Good S start {} due) :
    { m with core := { m.core with readyQueue := [] } }.Good S start
      { pend := m.core.readyQueue } due := by
  have hs : Core.Same m.core { m.core with readyQueue := [] } :=
    (Core.SameUpTo.refl m.core).queues [] m.core.eventQueue
  have hinv := h.back.inv
  have hready := hinv.scheduled.ready
  refine h.same ⟨hinv.window.frame hs.frame, ?_, hinv.deps.congr hs, hinv.cv.congr hs.frame,
    hinv.speculation.congr hs.frame.specAgree, hinv.awake, ?_⟩ hs h.back.timely
  · refine { hinv.scheduled with ready := ?_, events := ?_ }
    · rw [List.append_nil]
      exact hready.congr (fun _ => rfl) (fun _ => Iff.rfl) fun _ _ => Iff.rfl
    · exact hinv.scheduled.events.congr (fun _ => rfl) (fun _ => Iff.rfl) fun _ _ => Iff.rfl
  · exact hinv.memOrder.congr rfl (fun j => hs.sameAccess _) fun _ _ _ => id

/-- `ruu_issue` does not stop, and keeps the invariant. -/
theorem ruuIssue_meets (h : m.Good S start {} due) (hdue : due ≤ m.core.simCycle + 1) :
    Meets E (fun m' => m'.Good S start {} due ∧ m'.core.simCycle = m.core.simCycle)
      (m.ruuIssue S) := by
  rw [ruuIssue]
  refine (issueLoop_meets _ _ h.taken hdue).bind fun r ⟨hr, hcycle⟩ => ?_
  refine (Meets.foldlM (fun l s => { r.2 with core := s }.Good S start { pend := l } due ∧
    s.simCycle = r.2.core.simCycle) (fun ℓ l s hs => ?_) r.1 ⟨hr, rfl⟩).bind fun s hs => ?_
  · exact (requeue_meets hs.1).mono fun s' hs' => ⟨hs'.1, hs'.2.trans hs.2⟩
  · exact ⟨hs.1, hs.2.trans hcycle⟩

/-- `lsq_refresh` and `ruu_issue`. -/
theorem refreshIssue_meets (h : m.Good S start {} due) (hdue : due ≤ m.core.simCycle + 1)
    (hE : S.cfg.lsqSize ≤ Core.maxStdUnknowns ∨
      E (.fatal "STD unknown array overflow, increase MAX_STD_UNKNOWNS")) :
    Meets E (fun m' => m'.Good S start {} due ∧ m'.core.simCycle = m.core.simCycle)
      (m.refreshIssue S) := by
  have hnum : m.core.lsq.num ≤ S.cfg.lsqSize :=
    h.back.lsq_size ▸ h.back.inv.window.lsq_ok.num_le
  rw [refreshIssue]
  refine (h.back.inv.lsqRefresh E (hE.imp_left hnum.trans)).bind fun s ⟨hinv, hs, hev⟩ => ?_
  have hcycle : s.simCycle = m.core.simCycle := hs.simCycle
  refine (ruuIssue_meets (h.same hinv hs (hev ▸ h.back.timely))
    (by rw [hcycle]; exact hdue)).mono ?_
  exact fun m' hm' => ⟨hm'.1, hm'.2.trans hcycle⟩

end Machine

end AdvancedArchitecture.Outorder
