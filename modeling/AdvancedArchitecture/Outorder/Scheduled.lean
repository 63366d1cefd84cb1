import AdvancedArchitecture.Outorder.Links

/-!
# Ready operations and events

`Scheduled` is the invariant of the ready queue and the event queue. Each live station whose flag
`queued` is set is on the ready queue exactly once, and each one that has issued and not completed
has exactly one event, in spite of the squashed links among them; and an operation is only ready,
issued or completed after its operands are. `pend` are the links that `ruu_issue` has taken off
the ready queue and not visited yet.

Each lemma is about one thing the stages do to a station, and says that it does not stop.
-/

namespace AdvancedArchitecture.Outorder

variable {U : Type}

namespace Core

/-- The invariant of the ready queue and of the event queue. -/
structure Scheduled (s : Core U) (pend : List RsLink) : Prop where
  ready : s.Tracks (pend ++ s.readyQueue) fun st => st.queued = true
  events : s.Tracks s.eventQueue fun st => st.issued = true ∧ st.completed = false
  sorted : s.eventQueue.Pairwise fun a b => a.x ≤ b.x
  queued : ∀ p, s.Live p → (s.station p).queued = true →
    (s.station p).operandsReady = true ∧ (s.station p).issued = false ∧
      (s.station p).completed = false
  issued : ∀ p, s.Live p → (s.station p).issued = true → (s.station p).operandsReady = true
  completed : ∀ p, s.Live p → (s.station p).completed = true → (s.station p).issued = true

variable {s s' : Core U} {p : RsPtr} {ℓ : RsLink} {pend : List RsLink}

/-! ### The ready queue -/

/-- The state after `readyq_enqueue`. -/
def enqueued (s : Core U) (p : RsPtr) : Core U :=
  let s := s.modify p fun st => { st with queued := true }
  let st := s.station p
  let node := s.link p st.seqNum.toNat
  { s with
    readyQueue :=
      if st.inLSQ || (st.op.longLat || st.op.ctrl) then node :: s.readyQueue
      else insertLink node s.readyQueue }

theorem readyqEnqueue_eq (h : (s.station p).queued = false) :
    s.readyqEnqueue p = .ok (s.enqueued p) := by
  rw [readyqEnqueue, h]
  rfl

theorem insertLink_perm (ℓ : RsLink) (q : List RsLink) : (insertLink ℓ q).Perm (ℓ :: q) :=
  List.perm_orderedInsert _ _ _

theorem readyQueue_enqueued_perm (s : Core U) (p : RsPtr) :
    (s.enqueued p).readyQueue.Perm
      ((s.enqueued p).link p (s.station p).seqNum.toNat :: s.readyQueue) := by
  have hlink : (s.enqueued p).link p (s.station p).seqNum.toNat =
      (s.modify p fun st => { st with queued := true }).link p
        ((s.modify p fun st => { st with queued := true }).station p).seqNum.toNat := by
    rw [station_modify_self]
    rfl
  rw [hlink, enqueued]
  dsimp only
  split
  · exact List.Perm.refl _
  · exact insertLink_perm _ _

theorem station_enqueued (s : Core U) (p : RsPtr) :
    (s.enqueued p).station = (s.modify p fun st => { st with queued := true }).station := rfl

theorem station_enqueued_ne {q : RsPtr} (h : q ≠ p) : (s.enqueued p).station q = s.station q := by
  rw [station_enqueued]
  exact station_modify_ne h

theorem same_enqueued (s : Core U) (p : RsPtr) : Same s (s.enqueued p) :=
  (SameUpTo.modify fun _ => rfl :
    Same s (s.modify p fun st => { st with queued := true })).queues _ _

theorem issued_enqueued (q : RsPtr) :
    ((s.enqueued p).station q).issued = (s.station q).issued := by
  rw [station_enqueued]
  exact get_modify Station.issued fun _ => rfl

namespace Scheduled

/-- An operation with its operands ready is put on the ready queue. -/
theorem enqueued (h : s.Scheduled pend) (hp : s.Live p)
    (hready : (s.station p).operandsReady = true) (hq : (s.station p).queued = false)
    (hi : (s.station p).issued = false) (hc : (s.station p).completed = false) :
    (s.enqueued p).Scheduled pend := by
  have hs := s.same_enqueued p
  have hself : ((s.enqueued p).station p).queued = true := by simp [station_enqueued]
  refine ⟨?_, ?_, h.sorted, fun p' hp' hq' => ?_, fun p' hp' hi' => ?_, fun p' hp' hc' => ?_⟩
  · refine (h.ready.put hp (by simp [hq]) (fun _ => hs.tag) (fun _ => hs.live)
      (fun p' hne => ?_) hself (s.station p).seqNum.toNat).perm ?_
    · rw [station_enqueued_ne hne]
    · exact ((readyQueue_enqueued_perm s p).append_left pend).trans List.perm_middle
  · refine h.events.congr (fun _ => hs.tag) (fun _ => hs.live) fun p' _ => ?_
    rw [issued_enqueued, hs.completed]
  · rw [hs.operandsReady, issued_enqueued, hs.completed]
    by_cases hne : p' = p
    · exact hne ▸ ⟨hready, hi, hc⟩
    · rw [station_enqueued_ne hne] at hq'
      exact h.queued p' (hs.live.mp hp') hq'
  · rw [issued_enqueued] at hi'
    rw [hs.operandsReady]
    exact h.issued p' (hs.live.mp hp') hi'
  · rw [hs.completed] at hc'
    rw [issued_enqueued]
    exact h.completed p' (hs.live.mp hp') hc'

/-- What `ruu_issue` finds at a link that is still valid. -/
theorem of_valid (h : s.Scheduled (ℓ :: pend)) (hv : s.Valid ℓ) :
    s.Live ℓ.rs ∧ (s.station ℓ.rs).queued = true ∧ (s.station ℓ.rs).operandsReady = true ∧
      (s.station ℓ.rs).issued = false ∧ (s.station ℓ.rs).completed = false := by
  obtain ⟨hl, hq⟩ := h.ready.valid ℓ (by simp) hv
  exact ⟨hl, hq, h.queued _ hl hq⟩

/-- A squashed link is dropped. -/
theorem drop (h : s.Scheduled (ℓ :: pend)) (hv : ¬s.Valid ℓ) : s.Scheduled pend :=
  { h with ready := h.ready.drop hv }

/-- An operation is taken off the ready queue. -/
theorem dequeued (h : s.Scheduled (ℓ :: pend)) (hv : s.Valid ℓ) :
    (s.modify ℓ.rs fun st => { st with queued := false }).Scheduled pend := by
  have hs : Same s (s.modify ℓ.rs fun st => { st with queued := false }) :=
    SameUpTo.modify fun _ => rfl
  have hi : ∀ p, ((s.modify ℓ.rs fun st => { st with queued := false }).station p).issued =
      (s.station p).issued := fun p => get_modify Station.issued fun _ => rfl
  refine ⟨?_, ?_, h.sorted, fun p' hp' hq' => ?_, fun p' hp' hi' => ?_, fun p' hp' hc' => ?_⟩
  · refine h.ready.take hv (fun _ => hs.tag) (fun _ => hs.live) (fun p' hne => ?_) (by simp)
    rw [station_modify_ne hne]
  · refine h.events.congr (fun _ => hs.tag) (fun _ => hs.live) fun p' _ => ?_
    rw [hi, hs.completed]
  · rw [hs.operandsReady, hi, hs.completed]
    refine h.queued p' (hs.live.mp hp') ?_
    by_cases hne : p' = ℓ.rs
    · rw [hne, station_modify_self] at hq'
      exact absurd hq' (by simp)
    · rwa [station_modify_ne hne] at hq'
  · rw [hi] at hi'
    rw [hs.operandsReady]
    exact h.issued p' (hs.live.mp hp') hi'
  · rw [hs.completed] at hc'
    rw [hi]
    exact h.completed p' (hs.live.mp hp') hc'

/-- The invariant speaks of tags, of the three flags and of whether the operands are ready. -/
theorem congr (h : s.Scheduled pend) (hlive : ∀ p, s'.Live p ↔ s.Live p)
    (htag : ∀ p, (s'.station p).tag = (s.station p).tag)
    (hq : ∀ p, (s'.station p).queued = (s.station p).queued)
    (hi : ∀ p, (s'.station p).issued = (s.station p).issued)
    (hc : ∀ p, (s'.station p).completed = (s.station p).completed)
    (hmono : ∀ p, (s.station p).operandsReady = true → (s'.station p).operandsReady = true)
    (hready : s'.readyQueue = s.readyQueue) (hevent : s'.eventQueue = s.eventQueue) :
    s'.Scheduled pend where
  ready := hready ▸ h.ready.congr htag hlive fun p _ => by rw [hq]
  events := hevent ▸ h.events.congr htag hlive fun p _ => by rw [hi, hc]
  sorted := hevent ▸ h.sorted
  queued p hp hp' := by
    rw [hq] at hp'
    rw [hi, hc]
    obtain ⟨hr, hrest⟩ := h.queued p ((hlive p).mp hp) hp'
    exact ⟨hmono p hr, hrest⟩
  issued p hp hp' := hmono p (h.issued p ((hlive p).mp hp) (hi p ▸ hp'))
  completed p hp hp' := by
    rw [hi]
    exact h.completed p ((hlive p).mp hp) (hc p ▸ hp')

/-- Stations are removed. -/
theorem removed {K : RsPtr → Prop} (h : s.Scheduled pend) (hr : s.Removed s' K) :
    s'.Scheduled pend where
  ready := hr.readyQueue ▸ h.ready.removed hr
  events := hr.eventQueue ▸ h.events.removed hr
  sorted := hr.eventQueue ▸ h.sorted
  queued p hp := by
    obtain ⟨hl, hK⟩ := (hr.live p).mp hp
    rw [hr.same p hK]
    exact h.queued p hl
  issued p hp := by
    obtain ⟨hl, hK⟩ := (hr.live p).mp hp
    rw [hr.same p hK]
    exact h.issued p hl
  completed p hp := by
    obtain ⟨hl, hK⟩ := (hr.live p).mp hp
    rw [hr.same p hK]
    exact h.completed p hl

/-- A store in the LSQ completes when it issues. -/
theorem stored (h : s.Scheduled pend) (hready : (s.station p).operandsReady = true)
    (hq : (s.station p).queued = false) (hi : (s.station p).issued = false) :
    (s.modify p fun st => { st with issued := true, completed := true }).Scheduled pend := by
  have htag : ∀ p', ((s.modify p fun st => { st with issued := true, completed := true }).station
      p').tag = (s.station p').tag := fun _ => get_modify Station.tag fun _ => rfl
  have hqueued : ∀ p', ((s.modify p fun st => { st with issued := true, completed := true }).station
      p').queued = (s.station p').queued := fun _ => get_modify Station.queued fun _ => rfl
  refine ⟨?_, ?_, h.sorted, fun p' hp' hq' => ?_, fun p' hp' hi' => ?_, fun p' hp' hc' => ?_⟩
  · exact h.ready.congr htag (fun _ => Iff.rfl) fun p' _ => by rw [hqueued]
  · refine h.events.congr htag (fun _ => Iff.rfl) fun p' _ => ?_
    rw [station_modify]
    split
    · rename_i heq
      simp [heq, hi]
    · rfl
  · rw [hqueued] at hq'
    have hne : p' ≠ p := by
      rintro rfl
      rw [hq] at hq'
      exact absurd hq' (by simp)
    rw [station_modify_ne hne]
    exact h.queued p' hp' hq'
  · rw [station_modify] at hi' ⊢
    split at hi'
    · rw [if_pos ‹_›]
      exact hready
    · rw [if_neg ‹_›]
      exact h.issued p' hp' hi'
  · rw [station_modify] at hc' ⊢
    split at hc'
    · rw [if_pos ‹_›]
    · rw [if_neg ‹_›]
      exact h.completed p' hp' hc'

end Scheduled

/-! ### The event queue -/

/-- The state after an operation is issued with an event at `when_`. -/
def issuedAt (s : Core U) (p : RsPtr) (when_ : ℕ) : Core U :=
  let s := s.modify p fun st => { st with issued := true }
  { s with eventQueue := insertLink (s.link p when_) s.eventQueue }

theorem station_issuedAt (s : Core U) (p : RsPtr) (w : ℕ) :
    (s.issuedAt p w).station = (s.modify p fun st => { st with issued := true }).station := rfl

theorem same_issuedAt (s : Core U) (p : RsPtr) (w : ℕ) : Same s (s.issuedAt p w) :=
  (SameUpTo.modify fun _ => rfl :
    Same s (s.modify p fun st => { st with issued := true })).queues _ _

/-- `eventq_queue_event` does not stop for an operation that has not completed, and a later
time. -/
theorem eventqQueueEvent_eq {w : ℕ} (hc : (s.station p).completed = false)
    (hw : s.simCycle < w) :
    (s.modify p fun st => { st with issued := true }).eventqQueueEvent p w =
      .ok (s.issuedAt p w) := by
  have hc' : ((s.modify p fun st => { st with issued := true }).station p).completed = false := by
    rw [station_modify_self]
    exact hc
  rw [eventqQueueEvent, hc', modify_simCycle, if_neg Bool.false_ne_true, if_neg (by omega)]
  rfl

theorem insertLink_sorted {q : List RsLink} (h : q.Pairwise fun a b => a.x ≤ b.x) (ℓ : RsLink) :
    (insertLink ℓ q).Pairwise fun a b => a.x ≤ b.x := by
  have htotal : Std.Total fun a b : RsLink => a.x ≤ b.x := ⟨fun a b => Nat.le_total a.x b.x⟩
  have htrans : IsTrans RsLink fun a b => a.x ≤ b.x := ⟨fun _ _ _ => Nat.le_trans⟩
  exact h.orderedInsert ℓ q

/-- An operation is issued, and its event scheduled. -/
theorem Scheduled.issuedAt (h : s.Scheduled pend) (hp : s.Live p)
    (hready : (s.station p).operandsReady = true) (hq : (s.station p).queued = false)
    (hi : (s.station p).issued = false) (hc : (s.station p).completed = false) (w : ℕ) :
    (s.issuedAt p w).Scheduled pend := by
  have hs := s.same_issuedAt p w
  have hqueued : ∀ p', ((s.issuedAt p w).station p').queued = (s.station p').queued := by
    intro p'
    rw [station_issuedAt]
    exact get_modify Station.queued fun _ => rfl
  have hne : ∀ p', p' ≠ p → (s.issuedAt p w).station p' = s.station p' := by
    intro p' hne
    rw [station_issuedAt]
    exact station_modify_ne hne
  refine ⟨?_, ?_, insertLink_sorted h.sorted _, fun p' hp' hq' => ?_, fun p' hp' hi' => ?_,
    fun p' hp' hc' => ?_⟩
  · exact h.ready.congr (fun _ => hs.tag) (fun _ => hs.live) fun p' _ => by rw [hqueued]
  · refine (h.events.put hp (by simp [hi]) (fun _ => hs.tag) (fun _ => hs.live)
      (fun p' hp' => by rw [hne p' hp']) ?_ w).perm (insertLink_perm _ _)
    rw [hs.completed, station_issuedAt, station_modify_self]
    exact ⟨rfl, hc⟩
  · rw [hqueued] at hq'
    have hpne : p' ≠ p := by
      rintro rfl
      rw [hq] at hq'
      exact absurd hq' (by simp)
    rw [hne p' hpne]
    exact h.queued p' (hs.live.mp hp') hq'
  · rw [hs.operandsReady]
    by_cases hpne : p' = p
    · rw [hpne]
      exact hready
    · rw [hne p' hpne] at hi'
      exact h.issued p' (hs.live.mp hp') hi'
  · rw [hs.completed] at hc'
    have hpne : p' ≠ p := by
      rintro rfl
      rw [hc] at hc'
      exact absurd hc' (by simp)
    rw [hne p' hpne]
    exact h.completed p' (hs.live.mp hp') hc'

section nextEvent

variable {ev : RsLink} {q : List RsLink} {P : Station U → Prop}

theorem nextEvent_due (hdue : ev.x ≤ s.simCycle) (hv : s.Valid ev) :
    s.nextEvent (ev :: q) = (some ev.rs, q) := by
  rw [nextEvent, if_pos hdue, if_pos hv]

theorem nextEvent_squashed (hdue : ev.x ≤ s.simCycle) (hv : ¬s.Valid ev) :
    s.nextEvent (ev :: q) = s.nextEvent q := by
  rw [nextEvent, if_pos hdue, if_neg hv]

theorem nextEvent_future (hdue : ¬ev.x ≤ s.simCycle) :
    s.nextEvent (ev :: q) = (none, ev :: q) := by
  rw [nextEvent, if_neg hdue]

theorem nextEvent_suffix (s : Core U) (q : List RsLink) : (s.nextEvent q).2 <:+ q := by
  induction q with
  | nil => exact List.suffix_rfl
  | cons ev q ih =>
    rw [nextEvent]
    split_ifs
    · exact List.suffix_cons ev q
    · exact ih.trans (List.suffix_cons ev q)
    · exact List.suffix_rfl

/-- An event that is returned is a valid one that is due; the squashed ones before it are
dropped. -/
theorem nextEvent_eq_some (h : s.Tracks q P) (he : (s.nextEvent q).1 = some p) :
    ∃ ℓ, ℓ.rs = p ∧ s.Valid ℓ ∧ ℓ.x ≤ s.simCycle ∧ ℓ ∈ q ∧
      s.Tracks (ℓ :: (s.nextEvent q).2) P ∧ (s.nextEvent q).2.length < q.length := by
  induction q with
  | nil => exact absurd he (by simp [nextEvent])
  | cons ev q ih =>
    by_cases hdue : ev.x ≤ s.simCycle
    · by_cases hv : s.Valid ev
      · rw [nextEvent_due hdue hv] at he ⊢
        exact ⟨ev, Option.some.inj he, hv, hdue, List.mem_cons_self, h, Nat.lt_succ_self _⟩
      · rw [nextEvent_squashed hdue hv] at he ⊢
        obtain ⟨ℓ, hrs, hvalid, hx, hmem, ht, hlen⟩ := ih (h.drop hv) he
        exact ⟨ℓ, hrs, hvalid, hx, List.mem_cons_of_mem _ hmem, ht,
          hlen.trans (Nat.lt_succ_self _)⟩
    · rw [nextEvent_future hdue] at he
      exact absurd he (by simp)

/-- Where none is returned, the events left are in the future. -/
theorem nextEvent_eq_none (h : s.Tracks q P) (hsort : q.Pairwise fun a b => a.x ≤ b.x)
    (he : (s.nextEvent q).1 = none) :
    s.Tracks (s.nextEvent q).2 P ∧ ∀ ℓ ∈ (s.nextEvent q).2, s.simCycle < ℓ.x := by
  induction q with
  | nil => exact ⟨h, by simp [nextEvent]⟩
  | cons ev q ih =>
    by_cases hdue : ev.x ≤ s.simCycle
    · by_cases hv : s.Valid ev
      · rw [nextEvent_due hdue hv] at he
        exact absurd he (by simp)
      · rw [nextEvent_squashed hdue hv] at he ⊢
        exact ih (h.drop hv) (List.pairwise_cons.mp hsort).2 he
    · rw [nextEvent_future hdue]
      refine ⟨h, fun ℓ hℓ => ?_⟩
      rcases List.mem_cons.mp hℓ with rfl | hℓ
      · omega
      · have := (List.pairwise_cons.mp hsort).1 ℓ hℓ
        omega

end nextEvent

/-- The state after an event has been taken off the queue and its operation has completed. -/
def completedBy (s : Core U) (p : RsPtr) : Core U :=
  { s with eventQueue := (s.nextEvent s.eventQueue).2 }.modify p
    fun st => { st with completed := true }

/-- What `ruu_writeback` finds at an event: an operation that has issued and not completed. -/
theorem Scheduled.of_nextEvent (h : s.Scheduled pend)
    (he : (s.nextEvent s.eventQueue).1 = some p) :
    s.Live p ∧ (s.station p).operandsReady = true ∧ (s.station p).queued = false ∧
      (s.station p).issued = true ∧ (s.station p).completed = false := by
  obtain ⟨ℓ, rfl, hv, -, hmem, -⟩ := nextEvent_eq_some h.events he
  obtain ⟨hl, hi, hc⟩ := h.events.valid ℓ hmem hv
  have hq : (s.station ℓ.rs).queued = false := by
    by_contra hq
    have := (h.queued _ hl (by simpa using hq)).2.1
    rw [hi] at this
    exact absurd this (by simp)
  exact ⟨hl, h.issued _ hl hi, hq, hi, hc⟩

theorem Scheduled.completedBy (h : s.Scheduled pend)
    (he : (s.nextEvent s.eventQueue).1 = some p) : (s.completedBy p).Scheduled pend := by
  obtain ⟨hl, -, -, hi, -⟩ := h.of_nextEvent he
  obtain ⟨ℓ, rfl, hv, -, -, ht, -⟩ := nextEvent_eq_some h.events he
  have htag : ∀ p', ((s.completedBy ℓ.rs).station p').tag = (s.station p').tag :=
    fun _ => get_modify Station.tag fun _ => rfl
  have hqueued : ∀ p', ((s.completedBy ℓ.rs).station p').queued = (s.station p').queued :=
    fun _ => get_modify Station.queued fun _ => rfl
  have hissued : ∀ p', ((s.completedBy ℓ.rs).station p').issued = (s.station p').issued :=
    fun _ => get_modify Station.issued fun _ => rfl
  have hready : ∀ p', ((s.completedBy ℓ.rs).station p').operandsReady =
      (s.station p').operandsReady := fun _ => get_modify Station.operandsReady fun _ => rfl
  have hne : ∀ p', p' ≠ ℓ.rs → (s.completedBy ℓ.rs).station p' = s.station p' :=
    fun p' hne => station_modify_ne hne
  refine ⟨?_, ?_, h.sorted.sublist (nextEvent_suffix s _).sublist, fun p' hp' hq' => ?_,
    fun p' hp' hi' => ?_, fun p' hp' hc' => ?_⟩
  · exact h.ready.congr htag (fun _ => Iff.rfl) fun p' _ => by rw [hqueued]
  · refine ht.take hv htag (fun _ => Iff.rfl) (fun p' hp' => by rw [hne p' hp']) ?_
    simp [Core.completedBy]
  · rw [hqueued] at hq'
    have hpne : p' ≠ ℓ.rs := by
      rintro rfl
      rw [(h.queued _ hl hq').2.1] at hi
      exact absurd hi (by simp)
    rw [hne p' hpne]
    exact h.queued p' hp' hq'
  · rw [hissued] at hi'
    rw [hready]
    exact h.issued p' hp' hi'
  · rw [hissued]
    by_cases hpne : p' = ℓ.rs
    · rw [hpne]
      exact hi
    · rw [hne p' hpne] at hc'
      exact h.completed p' hp' hc'

/-- Where there is no event that is due, squashed events are dropped. -/
theorem Scheduled.of_nextEvent_none (h : s.Scheduled pend)
    (he : (s.nextEvent s.eventQueue).1 = none) :
    { s with eventQueue := (s.nextEvent s.eventQueue).2 }.Scheduled pend :=
  { h with
    events := (nextEvent_eq_none h.events h.sorted he).1.congr (fun _ => rfl) (fun _ => Iff.rfl)
      fun _ _ => Iff.rfl
    ready := h.ready.congr (fun _ => rfl) (fun _ => Iff.rfl) fun _ _ => Iff.rfl
    sorted := h.sorted.sublist (nextEvent_suffix s _).sublist }

end Core

end AdvancedArchitecture.Outorder
