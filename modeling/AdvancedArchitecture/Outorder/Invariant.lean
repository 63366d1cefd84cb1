import AdvancedArchitecture.Outorder.Memory

/-!
# The invariant of the stations

`Inv` collects the invariants of the stations and their queues. `lsq_refresh` keeps it: the loads
it queues are those that no store is in the way of.
-/

namespace AdvancedArchitecture.Outorder

open Bpred (MdAddr)

variable {U : Type}

namespace Core

/-- What a stage is in the middle of: the operation whose results are being broadcast, the links
that have been taken off the ready queue, and the operations that have still to be queued. -/
structure Doing where
  busy : Option (RsPtr × ℕ) := none
  pend : List RsLink := []
  asleep : List RsPtr := []

/-- An operation whose operands are ready has been queued, unless it is a load. -/
def Awake (asleep : List RsPtr) (s : Core U) : Prop :=
  ∀ p, s.Live p → p ∉ asleep → (s.station p).selfQueued = true →
    (s.station p).operandsReady = true → (s.station p).queued = true ∨ (s.station p).issued = true

/-- The invariant of the stations and their queues. -/
structure Inv (names : MdInst → Names) (d : Doing) (s : Core U) : Prop where
  window : s.Window
  scheduled : s.Scheduled d.pend
  deps : s.Deps names d.busy
  cv : s.Cv d.busy
  speculation : s.Speculation
  awake : s.Awake d.asleep
  memOrder : s.MemOrder

variable {names : MdInst → Names} {d : Doing} {s s' : Core U} {p : RsPtr} {i j k m n : ℕ}
  {asleep : List RsPtr}

theorem inv_init (names : MdInst → Names) (ruuSize lsqSize : ℕ) (hruu : 0 < ruuSize)
    (hlsq : 0 < lsqSize) : (init ruuSize lsqSize : Core U).Inv names {} := by
  have hnot : ∀ p, ¬(init ruuSize lsqSize : Core U).Live p := by
    rintro ⟨_ | _, i⟩ <;> simp [Live, init, Ring.slots]
  have hnot' : ∀ i, i ∉ (init ruuSize lsqSize : Core U).lsq.slots := fun i => hnot ⟨true, i⟩
  have hring : ∀ size, 0 < size → Ring.Ok { size := size, head := 0, tail := 0, num := 0 } :=
    fun size h => ⟨h, Nat.zero_le _, Nat.zero_mod _⟩
  have hlist : ∀ p i ℓ, ℓ ∉ ((init ruuSize lsqSize : Core U).station p).odepList i :=
    fun _ _ _ => List.not_mem_nil
  have hq : ∀ ℓ, ℓ ∉ [] ++ (init ruuSize lsqSize : Core U).readyQueue := by simp [init]
  have hev : ∀ ℓ, ℓ ∉ (init ruuSize lsqSize : Core U).eventQueue := by simp [init]
  exact
    { window :=
        { ruu_ok := hring _ hruu
          lsq_ok := hring _ hlsq
          ordered := by simp [init, Ring.slots]
          lastSeq_le := fun i hi => absurd hi (hnot ⟨false, i⟩)
          paired := by simp [init, Ring.slots]
          inLSQ := fun p hp => absurd hp (hnot p)
          access_eaComp := fun i hi => absurd hi (hnot' i)
          access_recoverInst := fun i hi => absurd hi (hnot' i)
          access_mem := fun i hi => absurd hi (hnot' i)
          store_onames := fun i hi => absurd hi (hnot' i) }
      scheduled :=
        { ready := ⟨List.nodup_nil, fun ℓ hℓ => absurd hℓ (hq ℓ), fun ℓ hℓ => absurd hℓ (hq ℓ),
            fun p hp => absurd hp (hnot p)⟩
          events := ⟨List.nodup_nil, fun ℓ hℓ => absurd hℓ (hev ℓ), fun ℓ hℓ => absurd hℓ (hev ℓ),
            fun p hp => absurd hp (hnot p)⟩
          sorted := List.Pairwise.nil
          queued := fun p hp => absurd hp (hnot p)
          issued := fun p hp => absurd hp (hnot p)
          completed := fun p hp => absurd hp (hnot p) }
      deps :=
        { list_open := fun p i ℓ hℓ => absurd hℓ (hlist p i ℓ)
          tag_le := fun p i ℓ hℓ => absurd hℓ (hlist p i ℓ)
          nodup := fun _ _ => List.nodup_nil
          live := fun p i ℓ hℓ => absurd hℓ (hlist p i ℓ)
          waiting := fun p i ℓ hℓ => absurd hℓ (hlist p i ℓ)
          older := fun p i ℓ hℓ => absurd hℓ (hlist p i ℓ)
          reads := fun p i ℓ hℓ => absurd hℓ (hlist p i ℓ)
          last := fun p i ℓ hℓ => absurd hℓ (hlist p i ℓ)
          unique := fun c k p i _ _ hw => absurd hw (hlist p i _)
          linked := fun c _ hc => absurd hc (hnot c)
          ready := fun c _ hc => absurd hc (hnot c) }
      cv :=
        { plain := fun n _ q _ hw => absurd hw.1 (hnot q)
          spec := fun n _ hu => absurd hu (by simp [init])
          spec_of := fun n _ _ hu => absurd hu (by simp [init])
          clean := fun n _ p _ hw => absurd hw.1 (hnot p)
          mode := fun _ _ => rfl }
      speculation := ⟨fun _ p hp => absurd hp (hnot p), fun hm => absurd hm (by simp [init])⟩
      awake := fun p hp => absurd hp (hnot p)
      memOrder := fun i hi => absurd hi (hnot' i) }

/-! ### Operations that wait to be queued -/

theorem Awake.congr (h : s.Awake asleep) (hlive : ∀ p, s'.Live p → s.Live p)
    (hself : ∀ p, (s'.station p).selfQueued = (s.station p).selfQueued)
    (hready : ∀ p, s.Live p → (s'.station p).operandsReady = true →
      (s.station p).selfQueued = true →
      (s.station p).operandsReady = true ∨ (s'.station p).queued = true)
    (hflag : ∀ p, p ∉ asleep → (s.station p).queued = true ∨ (s.station p).issued = true →
      (s'.station p).queued = true ∨ (s'.station p).issued = true) : s'.Awake asleep := by
  intro p hl hp hs hr
  rw [hself] at hs
  rcases hready p (hlive p hl) hr hs with hr | hq
  · exact hflag p hp (h p (hlive p hl) hp hs hr)
  · exact Or.inl hq

/-- An operation that is not to be queued, or whose operands are not ready. -/
theorem Awake.pop (h : s.Awake (p :: asleep))
    (hp : (s.station p).operandsReady = true → (s.station p).selfQueued = false ∨
      (s.station p).queued = true ∨ (s.station p).issued = true) : s.Awake asleep := by
  intro q hl hq hs hr
  by_cases hqp : q = p
  · subst hqp
    rcases hp hr with hs' | hflag
    · rw [hs] at hs'
      exact absurd hs' (by simp)
    · exact hflag
  · exact h q hl (by simp [hqp, hq]) hs hr

theorem Awake.push (h : s.Awake asleep) (p : RsPtr) : s.Awake (p :: asleep) :=
  fun q hl hq => h q hl fun hmem => hq (List.mem_cons_of_mem _ hmem)

theorem Moved.awake_of (h : s.Moved s') (ha : s.Awake asleep) : s'.Awake asleep :=
  ha.congr (fun _ hl => (live_congr h.ruu h.lsq).mp hl) (h.get Station.selfQueued fun _ => rfl)
    (fun p _ hr hs => h.awake p hr hs) fun p _ hf =>
      hf.imp (h.stays p) fun hi => (h.issued p).trans hi

theorem Awake.removed {K : RsPtr → Prop} (h : s.Awake asleep) (hr : s.Removed s' K) :
    s'.Awake asleep := by
  intro p hl hp
  obtain ⟨hl, hK⟩ := (hr.live p).mp hl
  rw [hr.same p hK]
  exact h p hl hp

theorem Awake.dispatched {nm : Names} (h : s.Awake asleep) (hd : s.Dispatched s' p nm) :
    s'.Awake (p :: asleep) := by
  intro q hl hq
  rw [List.mem_cons, not_or] at hq
  rw [hd.get Station.selfQueued (fun _ _ => rfl) hq.1,
    hd.get Station.operandsReady (fun _ _ => rfl) hq.1, hd.get Station.queued (fun _ _ => rfl) hq.1,
    hd.get Station.issued (fun _ _ => rfl) hq.1]
  exact h q (((hd.live q).mp hl).resolve_right hq.1) hq.2

/-- An operation is put on the ready queue. -/
theorem Inv.enqueued (h : s.Inv names d) (hp : s.Live p)
    (hready : (s.station p).operandsReady = true) (hq : (s.station p).queued = false)
    (hi : (s.station p).issued = false) (hc : (s.station p).completed = false)
    (hclear : p.inLSQ = true → (s.station p).op.isStore = false → s.Clear p.idx) :
    (s.enqueued p).Inv names d := by
  have hs := s.same_enqueued p
  refine ⟨h.window.frame hs.frame, h.scheduled.enqueued hp hready hq hi hc, h.deps.congr hs,
    h.cv.congr hs.frame, h.speculation.congr hs.frame.specAgree, ?_,
    h.memOrder.flagged hs (fun _ hq => station_enqueued_ne hq) hclear⟩
  refine h.awake.congr (fun _ => hs.live.mp) (fun _ => hs.get Station.selfQueued fun _ => rfl)
    (fun q _ hr _ => Or.inl (hs.operandsReady ▸ hr)) fun q _ hflag => ?_
  rw [issued_enqueued]
  by_cases hqp : q = p
  · subst hqp
    exact Or.inl (by simp [station_enqueued])
  · rw [station_enqueued_ne hqp]
    exact hflag

/-- The next cycle begins. -/
theorem Inv.tick (h : s.Inv names d) (n : ℕ) : { s with simCycle := n }.Inv names d where
  window := h.window.congr (fun _ => rfl) rfl rfl rfl
  scheduled := h.scheduled.congr (fun _ => Iff.rfl) (fun _ => rfl) (fun _ => rfl) (fun _ => rfl)
    (fun _ => rfl) (fun _ => id) rfl rfl
  deps := h.deps.of_agree ⟨fun _ => Iff.rfl, fun _ => rfl, fun _ => rfl, fun _ => rfl, fun _ => rfl⟩
    (fun _ => rfl) (fun _ => rfl) (fun _ => rfl) (fun _ => id) fun _ _ _ _ _ => id
  cv := h.cv.of_agree ⟨fun _ => Iff.rfl, fun _ => rfl, fun _ => rfl, fun _ => rfl, fun _ => rfl⟩
    rfl rfl rfl rfl (fun _ => id) fun _ _ _ _ => id
  speculation := h.speculation.congr (specAgree_of_fixed (fun _ => rfl) rfl rfl rfl)
  awake := h.awake
  memOrder := h.memOrder.congr rfl (fun _ => ⟨rfl, rfl, rfl, fun _ => id⟩) fun _ _ _ => id

/-! ### `lsq_refresh` -/

/-- What the loop of `lsq_refresh` knows after `m` entries: all store addresses, and where the
value of the last store at an address is unknown, the address. -/
structure Scanned (s : Core U) (m : ℕ) (stdUnknowns : List MdAddr) : Prop where
  length : stdUnknowns.length ≤ m
  addr : ∀ k < m, (s.entry (s.lsq.slot k)).op.isStore = true →
    (s.entry (s.lsq.slot k)).storeAddrReady = true
  value : ∀ k < m, (s.entry (s.lsq.slot k)).op.isStore = true →
    (s.entry (s.lsq.slot k)).operandsReady = false →
    (∀ k' < m, k < k' → (s.entry (s.lsq.slot k')).op.isStore = true →
      (s.entry (s.lsq.slot k')).addr ≠ (s.entry (s.lsq.slot k)).addr) →
    (s.entry (s.lsq.slot k)).addr ∈ stdUnknowns

/-- The order of numbers is that of positions. -/
theorem Window.slot_lt_iff (h : s.Window) (hj : j < s.lsq.num) (hk : k < s.lsq.num) :
    (s.entry (s.lsq.slot j)).seq < (s.entry (s.lsq.slot k)).seq ↔ j < k := by
  have hord := h.lsq_ordered
  refine ⟨fun hlt => ?_, fun hlt => Ring.rel_slot hord hlt hk⟩
  by_contra hle
  rcases Nat.lt_or_eq_of_le (not_lt.mp hle) with hkj | rfl
  · exact absurd (Ring.rel_slot hord hkj hj) hlt.not_gt
  · exact absurd hlt (lt_irrefl _)

/-- A load that is not at an address in the list is clear. -/
theorem Scanned.clear {stdUnknowns : List MdAddr} (h : s.Scanned m stdUnknowns) (hw : s.Window)
    (hm : m < s.lsq.num) (hnot : (s.entry (s.lsq.slot m)).addr ∉ stdUnknowns) :
    s.Clear (s.lsq.slot m) := by
  have hpos : ∀ {j}, s.StoreBefore (s.lsq.slot m) j → ∃ k < m, s.lsq.slot k = j := by
    rintro j ⟨hj, -, hlt⟩
    obtain ⟨k, hk, rfl⟩ := Ring.mem_slots.mp hj
    exact ⟨k, (hw.slot_lt_iff hk hm).mp hlt, rfl⟩
  refine ⟨fun j hj => ?_, fun j hj haddr hlast => ?_⟩
  · obtain ⟨k, hk, rfl⟩ := hpos hj
    exact h.addr k hk hj.isStore
  · obtain ⟨k, hk, rfl⟩ := hpos hj
    by_contra hready
    refine hnot (haddr ▸ h.value k hk hj.isStore (by simpa using hready) fun k' hk' hlt hs => ?_)
    rw [haddr]
    have hk'' := hk'.trans hm
    exact hlast (s.lsq.slot k')
      ⟨Ring.mem_slots.mpr ⟨k', hk'', rfl⟩, hs, (hw.slot_lt_iff hk'' hm).mpr hk'⟩
      ((hw.slot_lt_iff (hk.trans hm) hk'').mpr hlt)

theorem Scanned.step {std std' : List MdAddr} (h : s.Scanned m std)
    (haddr : (s.entry (s.lsq.slot m)).op.isStore = true →
      (s.entry (s.lsq.slot m)).storeAddrReady = true)
    (hlen : std'.length ≤ m + 1)
    (hold : ∀ a ∈ std, ((s.entry (s.lsq.slot m)).op.isStore = true →
      (s.entry (s.lsq.slot m)).addr ≠ a) → a ∈ std')
    (hnew : (s.entry (s.lsq.slot m)).op.isStore = true →
      (s.entry (s.lsq.slot m)).operandsReady = false → (s.entry (s.lsq.slot m)).addr ∈ std') :
    s.Scanned (m + 1) std' := by
  refine ⟨hlen, fun k hk hs => ?_, fun k hk hs hr hlast => ?_⟩
  · rcases Nat.lt_succ_iff_lt_or_eq.mp hk with hk | rfl
    · exact h.addr k hk hs
    · exact haddr hs
  · rcases Nat.lt_succ_iff_lt_or_eq.mp hk with hk | rfl
    · refine hold _ (h.value k hk hs hr fun k' hk' => hlast k' (hk'.trans (Nat.lt_succ_self m))) ?_
      exact hlast m (Nat.lt_succ_self m) hk
    · exact hnew hs hr

/-- One more entry is scanned. -/
theorem Scanned.succ (E : Halt → Prop) {stdUnknowns : List MdAddr} (h : s.Scanned m stdUnknowns)
    (haddr : (s.entry (s.lsq.slot m)).op.isStore = true →
      (s.entry (s.lsq.slot m)).storeAddrReady = true)
    (hE : m < maxStdUnknowns ∨
      E (.fatal "STD unknown array overflow, increase MAX_STD_UNKNOWNS")) :
    Meets E (fun std => s.Scanned (m + 1) std ∧
      ((s.entry (s.lsq.slot m)).op.isStore = false → std = stdUnknowns))
      (stdUnknownsAfter (s.entry (s.lsq.slot m)) stdUnknowns) := by
  have hlen := h.length
  rw [stdUnknownsAfter]
  refine Meets.ite (fun hs => ?_) fun hs => Meets.ite (fun hr => ?_) fun hr => ?_
  · have hs' : (s.entry (s.lsq.slot m)).op.isStore = false := by simpa using hs
    refine ⟨h.step haddr (by omega) (fun a ha _ => ha) fun hs => ?_, fun _ => rfl⟩
    rw [hs'] at hs
    exact absurd hs (by simp)
  · refine Meets.ite (fun hfull => hE.resolve_left (by omega)) fun _ => ?_
    refine ⟨h.step haddr (by simpa using hlen) (fun a ha _ => List.mem_append_left _ ha)
      fun _ _ => by simp, fun hs' => ?_⟩
    rw [hs'] at hs
    exact absurd rfl hs
  · refine ⟨h.step haddr (by simpa using hlen.trans (Nat.le_succ m)) (fun a ha hne => ?_)
      fun _ hr' => ?_, fun hs' => ?_⟩
    · refine List.mem_map.mpr ⟨a, ha, if_neg fun heq => hne (by simpa using hs) heq.symm⟩
    · rw [hr'] at hr
      exact absurd rfl hr
    · rw [hs'] at hs
      exact absurd rfl hs

theorem Scanned.congr {std : List MdAddr} (h : s.Scanned m std) (hs : Same s s') :
    s'.Scanned m std := by
  have hlsq : s'.lsq = s.lsq := hs.lsq
  have hop : ∀ i, (s'.entry i).op = (s.entry i).op := fun i => hs.get Station.op fun _ => rfl
  have haddr : ∀ i, (s'.entry i).addr = (s.entry i).addr := fun i =>
    hs.get Station.addr fun _ => rfl
  have hready : ∀ i, (s'.entry i).idepReady = (s.entry i).idepReady := fun i => hs.idepReady
  refine ⟨h.length, ?_, ?_⟩
  · simp only [hlsq, hop, Station.storeAddrReady, hready]
    exact h.addr
  · simp only [hlsq, hop, haddr, Station.operandsReady, hready]
    exact h.value

/-- The loop of `lsq_refresh` queues loads that are clear. -/
theorem lsqRefreshLoop_meets (E : Halt → Prop) {stdUnknowns : List MdAddr}
    (h : s.Inv names d) (hscan : s.Scanned m stdUnknowns) (hmn : m + n = s.lsq.num)
    (hE : s.lsq.num ≤ maxStdUnknowns ∨
      E (.fatal "STD unknown array overflow, increase MAX_STD_UNKNOWNS")) :
    Meets E (fun s' => s'.Inv names d ∧ Same s s' ∧ s'.eventQueue = s.eventQueue)
      (lsqRefreshLoop n (s.lsq.slot m) stdUnknowns s) := by
  induction n generalizing s m stdUnknowns with
  | zero => exact ⟨h, SameUpTo.refl s, rfl⟩
  | succ n ih =>
    have hm : m < s.lsq.num := by omega
    rw [lsqRefreshLoop]
    refine Meets.ite (fun _ => ⟨h, SameUpTo.refl s, rfl⟩) fun haddr => ?_
    have hstore : (s.entry (s.lsq.slot m)).op.isStore = true →
        (s.entry (s.lsq.slot m)).storeAddrReady = true := by
      intro hs
      simpa [hs] using haddr
    refine (hscan.succ E hstore (hE.imp_left hm.trans_le)).bind fun std ⟨hscan', hstd⟩ => ?_
    -- What is left of the loop, after the entry has been queued or not.
    have hrest : ∀ s', s'.Inv names d → Same s s' → s'.eventQueue = s.eventQueue →
        Meets E (fun s' => s'.Inv names d ∧ Same s s' ∧ s'.eventQueue = s.eventQueue)
          (lsqRefreshLoop n (s'.lsq.next (s.lsq.slot m)) std s') := by
      intro s' h' hs' hev
      have hlsq : s'.lsq = s.lsq := hs'.lsq
      rw [← hlsq, Ring.next_slot]
      refine (ih h' (hscan'.congr hs') (by rw [hlsq]; omega) (hlsq ▸ hE)).mono ?_
      exact fun s'' ⟨h₁, h₂, h₃⟩ => ⟨h₁, hs'.trans h₂, h₃.trans hev⟩
    refine Meets.ite (fun hgo => ?_) fun _ => hrest s h (SameUpTo.refl s) rfl
    simp only [Bool.and_eq_true, Bool.not_eq_true', List.contains_eq_mem, decide_eq_false_iff_not]
      at hgo
    obtain ⟨⟨⟨⟨⟨-, hq⟩, hi⟩, hc⟩, hr⟩, hnot⟩ := hgo
    rw [readyqEnqueue_eq hq]
    refine hrest _ (h.enqueued (live_lsq.mpr (Ring.mem_slots.mpr ⟨m, hm, rfl⟩)) hr hq hi hc
      fun _ hs => ?_) (s.same_enqueued _) rfl
    rw [hstd hs] at hnot
    exact hscan.clear h.window hm hnot

/-- `lsq_refresh` keeps the invariant. -/
theorem Inv.lsqRefresh (E : Halt → Prop) (h : s.Inv names d)
    (hE : s.lsq.num ≤ maxStdUnknowns ∨
      E (.fatal "STD unknown array overflow, increase MAX_STD_UNKNOWNS")) :
    Meets E (fun s' => s'.Inv names d ∧ Same s s' ∧ s'.eventQueue = s.eventQueue)
      s.lsqRefresh := by
  rw [Core.lsqRefresh, ← h.window.lsq_ok.slot_zero]
  refine lsqRefreshLoop_meets E h ⟨Nat.zero_le _, fun k hk => ?_, fun k hk => ?_⟩
    (Nat.zero_add _) hE
  all_goals exact absurd hk (Nat.not_lt_zero k)

end Core

end AdvancedArchitecture.Outorder
