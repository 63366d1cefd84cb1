import AdvancedArchitecture.Outorder.Writeback

/-!
# Dispatch of the program

`ruu_dispatch` executes the instruction at the head of the fetch queue and allocates it. Outside of
speculative mode this is a step of the sequential machine; where the prediction was wrong, the
simulator goes into speculative mode and remembers the right address.
-/

namespace AdvancedArchitecture.Outorder

open Bpred (MdAddr sizeofMdInst)

variable {σ τ W U : Type}

namespace Core

variable {names : MdInst → Names} {s s' : Core U} {p q b : RsPtr} {nm nm' : Names}
  {e e' : Operation U} {l l' : List RsPtr} {E : Halt → Prop}

/-! ### The stations -/

theorem Dispatched.seq_le (h : s.Dispatched s' p nm)
    (hseq : ∀ q, s.Live q → (s.station q).seq ≤ s.instSeq) (hq : s'.Live q) :
    (s'.station q).seq ≤ s'.instSeq := by
  rw [h.instSeq]
  rcases (h.live q).mp hq with hq | rfl
  · rw [h.seq_of_ne (h.ne_of_live hq)]
    exact (hseq q hq).trans (Nat.le_succ _)
  · rw [h.seq]

/-- The invariant, but for how the two queues fit together. -/
structure Wired (names : MdInst → Names) (l : List RsPtr) (s : Core U) : Prop where
  seq_le : ∀ q, s.Live q → (s.station q).seq ≤ s.instSeq
  scheduled : s.Scheduled []
  deps : s.Deps names none
  cv : s.Cv none
  speculation : s.Speculation
  awake : s.Awake l
  memOrder : s.MemOrder

theorem Inv.wired (h : s.Inv names { asleep := l }) : s.Wired names l :=
  ⟨fun _ => h.window.seq_le, h.scheduled, h.deps, h.cv, h.speculation, h.awake, h.memOrder⟩

theorem Wired.inv (h : s.Wired names l) (hw : s.Window) : s.Inv names { asleep := l } :=
  ⟨hw, h.scheduled, h.deps, h.cv, h.speculation, h.awake, h.memOrder⟩

theorem Wired.dispatched (h : s.Wired names l) (hd : s.Dispatched s' p nm)
    (hnm : (s'.station p).names names = nm) (hrec : (s'.station p).recoverInst = false) :
    s'.Wired names (p :: l) :=
  ⟨fun _ => hd.seq_le h.seq_le, h.scheduled.dispatched hd, h.deps.dispatched h.cv h.seq_le hd hnm,
    h.cv.dispatched h.seq_le hd, h.speculation.dispatched h.seq_le hd hrec, h.awake.dispatched hd,
    h.memOrder.dispatched h.seq_le hd⟩

/-- The names that a station of an entry is linked by. -/
def Operation.linkNames (e : Operation U) (inLSQ : Bool) (names : MdInst → Names) : Names :=
  if inLSQ then (names e.fetched.IR).access
  else if e.eaComp then (names e.fetched.IR).agen
  else names e.fetched.IR

/-- A station is allocated. -/
theorem Wired.place (h : s.Wired names l) (hf : s.Free p) (hnm : nm = e.linkNames p.inLSQ names) :
    (s.place p e nm).Wired names (p :: l) := by
  refine h.dispatched (dispatched_place e nm h.deps h.cv hf) ?_ ?_
  · rw [hnm]
    exact get_place_self (Station.names names) (fun _ _ _ => rfl) (fun _ _ _ => rfl)
      fun _ _ _ => rfl
  · exact get_place_self Station.recoverInst (fun _ _ _ => rfl) (fun _ _ _ => rfl) fun _ _ _ => rfl

theorem Inv.place (h : s.Inv names {}) (hroom : s.ruu.num < s.ruu.size) (hea : e.eaComp = false)
    (hnm : nm = e.linkNames false names) :
    (s.place s.nextRuu e nm).Inv names { asleep := [s.nextRuu] } :=
  ((Inv.wired h).place (h.window.free_ruu hroom) hnm).inv (h.window.place hroom hea)

theorem Inv.place_pair (h : s.Inv names {}) (hroom : s.ruu.num < s.ruu.size)
    (hroom' : s.lsq.num < s.lsq.size) (hea : e.eaComp = true) (hea' : e'.eaComp = false)
    (hmem : e'.op.mem = true) (hnm : nm = e.linkNames false names)
    (hnm' : nm' = e'.linkNames true names)
    (hstore : e'.op.isStore = true → ∀ i < maxOdeps, nm'.output i = NA) :
    ((s.place s.nextRuu e nm).place s.nextLsq e' nm').Inv names
      { asleep := [s.nextLsq, s.nextRuu] } := by
  have hfirst := (Inv.wired h).place (h.window.free_ruu hroom) hnm
  exact (hfirst.place (h.window.free_lsq hroom hroom') hnm').inv
    (h.window.place_pair hroom hroom' hea hea' hmem hstore)

/-- The allocation of two stations is two dispatches. -/
theorem Inv.dispatched_pair (h : s.Inv names {}) (hroom : s.ruu.num < s.ruu.size)
    (hroom' : s.lsq.num < s.lsq.size) (e e' : Operation U) (nm nm' : Names)
    (hnm : nm = e.linkNames false names) :
    s.Dispatched (s.place s.nextRuu e nm) s.nextRuu nm ∧
      (s.place s.nextRuu e nm).Dispatched ((s.place s.nextRuu e nm).place s.nextLsq e' nm')
        s.nextLsq nm' := by
  have hfirst := (Inv.wired h).place (h.window.free_ruu hroom) hnm
  exact ⟨dispatched_place e nm h.deps h.cv (h.window.free_ruu hroom),
    dispatched_place e' nm' hfirst.deps hfirst.cv (h.window.free_lsq hroom hroom')⟩

/-- Operations are not waited for any more that are not to be queued, or have been. -/
theorem Awake.mono (h : s.Awake l) (hq : ∀ q ∈ l, q ∉ l' → (s.station q).operandsReady = true →
    (s.station q).selfQueued = true →
      (s.station q).queued = true ∨ (s.station q).issued = true) : s.Awake l' := by
  intro q hl hnot hself hr
  by_cases hmem : q ∈ l
  · exact hq q hmem hnot hr hself
  · exact h q hl hmem hself hr

/-- What a new station looks like before it is queued. -/
structure New (s : Core U) (p : RsPtr) : Prop where
  live : s.Live p
  queued : (s.station p).queued = false
  issued : (s.station p).issued = false
  completed : (s.station p).completed = false

theorem Dispatched.new (h : s.Dispatched s' p nm) : s'.New p :=
  ⟨(h.live p).mpr (Or.inr rfl), h.queued, h.issued, h.completed⟩

/-- A new operation whose operands are ready is queued. -/
theorem Inv.wake_new (h : s.Inv names { asleep := l }) (hp : s.New p)
    (hready : (s.station p).operandsReady = true)
    (hself : p.inLSQ = true → (s.station p).op.isStore = true) (hl : ∀ q ∈ l, q ≠ p → q ∈ l') :
    Meets E (fun s' => s'.Inv names { asleep := l' } ∧ Same s s' ∧ s'.eventQueue = s.eventQueue ∧
        ∀ q, q ≠ p → s'.station q = s.station q) (s.readyqEnqueue p) := by
  rw [readyqEnqueue_eq hp.queued]
  have he := h.enqueued hp.live hready hp.queued hp.issued hp.completed fun hlsq hop => by
    rw [hself hlsq] at hop
    exact absurd hop (by simp)
  refine ⟨{ he with awake := he.awake.mono fun q hq hnot _ _ => ?_ }, s.same_enqueued p, rfl,
    fun q hq => station_enqueued_ne hq⟩
  obtain rfl : q = p := by
    by_contra hne
    exact hnot (hl q hq hne)
  exact Or.inl (by simp [station_enqueued])

/-- A new operation that is not to be queued is not waited for. -/
theorem Inv.sleep_new (h : s.Inv names { asleep := l })
    (hp : ¬((s.station p).selfQueued && (s.station p).operandsReady) = true)
    (hl : ∀ q ∈ l, q ≠ p → q ∈ l') : s.Inv names { asleep := l' } := by
  refine { h with awake := h.awake.mono fun q hq hnot hr hself => ?_ }
  obtain rfl : q = p := by
    by_contra hne
    exact hnot (hl q hq hne)
  exact absurd (by rw [hr, hself]; rfl) hp

theorem New.dispatched (h : s.New q) (hd : s.Dispatched s' p nm) : s'.New q := by
  have hne := hd.ne_of_live h.live
  refine ⟨(hd.live q).mpr (Or.inl h.live), ?_, ?_, ?_⟩
  · rw [hd.get Station.queued (fun _ _ => rfl) hne, h.queued]
  · rw [hd.get Station.issued (fun _ _ => rfl) hne, h.issued]
  · rw [hd.completed_of_ne hne, h.completed]

theorem New.same (h : s.New q) (hs : Same s s') (hst : s'.station q = s.station q) : s'.New q :=
  ⟨hs.live.mpr h.live, hst ▸ h.queued, hst ▸ h.issued, hst ▸ h.completed⟩

/-- An operation that can be found to be mispredicted: the last one, not yet completed. -/
structure Latest (s : Core U) (p : RsPtr) : Prop where
  live : s.Live p
  eaComp : (s.station p).eaComp = false
  completed : (s.station p).completed = false
  last : ∀ q, s.Live q → (s.station q).seq ≤ (s.station p).seq

theorem Latest.same (h : s.Latest p) (hs : Same s s') : s'.Latest p := by
  refine ⟨hs.live.mpr h.live, (hs.get Station.eaComp fun _ => rfl).trans h.eaComp,
    hs.completed.trans h.completed, fun q hq => ?_⟩
  rw [hs.frame.seq, hs.frame.seq]
  exact h.last q (hs.live.mp hq)

/-- Speculative mode is entered at the operation that has been dispatched last. -/
theorem Inv.mispredicted {j : ℕ} (h : s.Inv names {}) (hm : s.specMode = false)
    (hl : s.Latest ⟨false, j⟩) : (s.mispredicted ⟨false, j⟩).Inv names {} := by
  have hget : ∀ {β : Type _} (g : Station U → β),
      (∀ st : Station U, g { st with recoverInst := true } = g st) → ∀ q,
      g ((s.mispredicted ⟨false, j⟩).station q) = g (s.station q) := fun g hg q => get_modify g hg
  have hag : s.Agree (s.mispredicted ⟨false, j⟩) :=
    ⟨fun _ => Iff.rfl, hget Station.tag fun _ => rfl, hget Station.seq fun _ => rfl,
      hget Station.onames fun _ => rfl, hget Station.specMode fun _ => rfl⟩
  have hcompleted := hget Station.completed fun _ => rfl
  have hready := hget Station.idepReady fun _ => rfl
  refine
    { window := h.window.of_static (hget (fun st => { st.static with recoverInst := false })
        fun _ => rfl) (fun i hi => ?_) rfl rfl rfl
      scheduled := h.scheduled.congr (fun _ => Iff.rfl) (hget Station.tag fun _ => rfl)
        (hget Station.queued fun _ => rfl) (hget Station.issued fun _ => rfl) hcompleted
        (fun q hq => (hget Station.operandsReady (fun _ => rfl) q).trans hq) rfl rfl
      deps := h.deps.of_agree hag (hget Station.odepList fun _ => rfl) hready
        (hget (Station.names names) fun _ => rfl) (fun q hq => (hcompleted q).trans hq)
        fun q i n _ _ ho => ho.imp_left (hcompleted q).trans
      cv := ?_
      speculation := h.speculation.mispredicted hm hl.live hl.eaComp hl.completed hl.last
      awake := h.awake.congr (fun _ => id) (hget Station.selfQueued fun _ => rfl)
        (fun q _ hr _ => Or.inl ((hget Station.operandsReady (fun _ => rfl) q).symm.trans hr))
        fun q _ hq => hq.imp (hget Station.queued (fun _ => rfl) q).trans
          (hget Station.issued (fun _ => rfl) q).trans
      memOrder := h.memOrder.congr rfl (fun i => ⟨hget Station.op (fun _ => rfl) _,
        hget Station.seq (fun _ => rfl) _, hget Station.addr (fun _ => rfl) _,
        fun k hk => (congrFun (hready _) k).trans hk⟩) fun i _ _ hq =>
          hq.imp (hget Station.queued (fun _ => rfl) ⟨true, i⟩).symm.trans
            (hget Station.issued (fun _ => rfl) ⟨true, i⟩).symm.trans }
  · rw [station_mispredicted, station_modify_ne (RsPtr.ruu_ne_lsq j i).symm]
    exact h.window.access_recoverInst i hi
  · -- outside of speculative mode the vector has no speculative copy to speak of
    have hcv : (s.modify ⟨false, j⟩ fun st => { st with recoverInst := true }).Cv none :=
      h.cv.of_agree { hag with } rfl rfl rfl rfl (fun q hq => (hcompleted q).trans hq)
        fun q i n _ ho => ho.imp_left (hcompleted q).trans
    exact { hcv with mode := fun hm' => absurd hm' (by simp [Core.mispredicted]) }

end Core

/-- New instructions come last. -/
theorem inflight_append {s s' : Core U} {new : List ℕ} (hruu : s'.ruu.slots = s.ruu.slots ++ new)
    (hold : ∀ i ∈ s.ruu.slots, (s'.station ⟨false, i⟩).fixed = (s.station ⟨false, i⟩).fixed) :
    inflight s' = inflight s ++ (new.filter fun i => !(s'.station ⟨false, i⟩).specMode).map
      fun i => ((s'.station ⟨false, i⟩).PC, (s'.station ⟨false, i⟩).IR) := by
  rw [inflight, hruu, List.filter_append, List.map_append, inflight, List.filter_congr fun i hi =>
    Station.get_of_strip (hold i hi) (fun st => !st.specMode) fun _ => rfl]
  congr 1
  exact List.map_congr_left fun i hi => Station.get_of_strip (hold i (List.mem_of_mem_filter hi))
    (fun st => (st.PC, st.IR)) fun _ => rfl

/-- One new instruction, which counts outside of speculative mode only. -/
theorem inflight_concat {s s' : Core U} {j : ℕ} {PC : MdAddr} {IR : MdInst}
    (hruu : s'.ruu.slots = s.ruu.slots ++ [j])
    (hold : ∀ i ∈ s.ruu.slots, (s'.station ⟨false, i⟩).fixed = (s.station ⟨false, i⟩).fixed)
    (hspec : (s'.station ⟨false, j⟩).specMode = s.specMode)
    (hPC : (s'.station ⟨false, j⟩).PC = PC) (hIR : (s'.station ⟨false, j⟩).IR = IR) :
    inflight s' = inflight s ++ if s.specMode then [] else [(PC, IR)] := by
  rw [inflight_append hruu hold, List.filter_singleton, hspec]
  cases s.specMode
  · rw [← hPC, ← hIR]
    rfl
  · rfl

theorem inflight_mispredicted (s : Core U) (b : RsPtr) :
    inflight (s.mispredicted b) = inflight s := by
  have hget : ∀ {β : Type} (g : Station U → β),
      (∀ st : Station U, g { st with recoverInst := true } = g st) → ∀ q,
      g ((s.mispredicted b).station q) = g (s.station q) := fun g hg q => Core.get_modify g hg
  simp only [inflight, hget Station.specMode fun _ => rfl, hget Station.PC fun _ => rfl,
    hget Station.IR fun _ => rfl]
  rfl

open Outorder.Core

namespace Machine

variable {S : Setup σ τ W U} {m m' : Machine σ τ W U} {start : SeqState σ} {due : ℕ}
  {E : Halt → Prop} {r : FetchRec U} {op : Opcode}

/-! ### The allocation -/

/-- What is true of the stations after the instructions `new` have been allocated, which count
outside of speculative mode only. -/
structure Allocated (S : Setup σ τ W U) (l : List RsPtr) (s s' : Core U)
    (new : List (MdAddr × MdInst)) : Prop where
  inv : s'.Inv S.target.names { asleep := l }
  ruu_size : s'.ruu.size = s.ruu.size
  lsq_size : s'.lsq.size = s.lsq.size
  decoded : ∀ i ∈ s'.lsq.slots, S.target.decode (s'.entry i).IR = some (s'.entry i).op
  eventQueue : s'.eventQueue = s.eventQueue
  specMode : s'.specMode = s.specMode
  simCycle : s'.simCycle = s.simCycle
  program : inflight s' = inflight s ++ if s.specMode then [] else new

section Allocated

variable {s s' s'' : Core U} {l l' : List RsPtr} {new : List (MdAddr × MdInst)} {e e' : Operation U}
  {nm nm' : Names}

/-- New operations are queued. -/
theorem Allocated.same (h : Allocated S l s s' new)
    (hinv : s''.Inv S.target.names { asleep := l' }) (hs : Same s' s'')
    (hev : s''.eventQueue = s'.eventQueue) : Allocated S l' s s'' new := by
  have hruu : s''.ruu = s'.ruu := hs.ruu
  have hlsq : s''.lsq = s'.lsq := hs.lsq
  refine ⟨hinv, hruu ▸ h.ruu_size, hlsq ▸ h.lsq_size, fun i hi => ?_, hev.trans h.eventQueue,
    hs.specMode.trans h.specMode, hs.simCycle.trans h.simCycle, ?_⟩
  · rw [hs.get Station.IR fun _ => rfl, hs.get Station.op fun _ => rfl]
    exact h.decoded i (hlsq ▸ hi)
  · rw [inflight_congr (fun _ => hs.get Station.static fun _ => rfl) hruu]
    exact h.program

/-- An operation that is not a load or store is allocated. -/
theorem Back.place (h : m.Back S {} due) (hroom : m.core.ruu.num < m.core.ruu.size)
    (hea : e.eaComp = false) (hnm : nm = e.linkNames false S.target.names) :
    Allocated S [m.core.nextRuu] m.core (m.core.place m.core.nextRuu e nm)
      [(e.fetched.regsPC, e.fetched.IR)] := by
  have hd := dispatched_place e nm h.inv.deps h.inv.cv
    (h.inv.window.free_ruu hroom)
  have hruu : (m.core.place m.core.nextRuu e nm).ruu = m.core.ruu.push := place_ruu
  have hlsq : (m.core.place m.core.nextRuu e nm).lsq = m.core.lsq := place_lsq
  refine ⟨Inv.place h.inv hroom hea hnm, by rw [hruu]; rfl, by rw [hlsq],
    fun i hi => ?_, hd.eventQueue, hd.specMode, hd.simCycle, ?_⟩
  · have hst : ((m.core.place m.core.nextRuu e nm).entry i).fixed = (m.core.entry i).fixed :=
      fixed_place_of_ne (RsPtr.ruu_ne_lsq _ _).symm
    rw [Station.get_of_strip hst Station.IR fun _ => rfl,
      Station.get_of_strip hst Station.op fun _ => rfl]
    exact h.decoded i (hlsq ▸ hi)
  · refine inflight_concat (hruu ▸ h.inv.window.ruu_ok.slots_push) (fun i hi => ?_) hd.spec ?_ ?_
    · exact fixed_place_of_ne (hd.ne_of_live hi)
    · exact get_place_self Station.PC (fun _ _ _ => rfl) (fun _ _ _ => rfl) fun _ _ _ => rfl
    · exact get_place_self Station.IR (fun _ _ _ => rfl) (fun _ _ _ => rfl) fun _ _ _ => rfl

/-- A load or store is allocated, as two operations. -/
theorem Back.place_pair (e e' : Operation U) (h : m.Back S {} due)
    (hroom : m.core.ruu.num < m.core.ruu.size) (hroom' : m.core.lsq.num < m.core.lsq.size)
    (hea : e.eaComp = true) (hea' : e'.eaComp = false)
    (hdec : S.target.decode e'.fetched.IR = some e'.op) (hmem : e'.op.mem = true)
    (hnm : nm = e.linkNames false S.target.names) (hnm' : nm' = e'.linkNames true S.target.names) :
    Allocated S [m.core.nextLsq, m.core.nextRuu] m.core
      ((m.core.place m.core.nextRuu e nm).place m.core.nextLsq e' nm')
      [(e.fetched.regsPC, e.fetched.IR)] := by
  have hw := h.inv.window
  obtain ⟨hd, hd'⟩ := Inv.dispatched_pair h.inv hroom hroom' e e' nm nm' hnm
  have hruu : ((m.core.place m.core.nextRuu e nm).place m.core.nextLsq e' nm').ruu =
      m.core.ruu.push := by
    rw [place_ruu]
    exact place_ruu
  have hlsq : ((m.core.place m.core.nextRuu e nm).place m.core.nextLsq e' nm').lsq =
      m.core.lsq.push := by
    rw [place_lsq, place_lsq]
    rfl
  have hold : ∀ q, m.core.Live q →
      (((m.core.place m.core.nextRuu e nm).place m.core.nextLsq e' nm').station q).fixed =
        (m.core.station q).fixed := by
    intro q hq
    have hq' : (m.core.place m.core.nextRuu e nm).Live q := (hd.live q).mpr (Or.inl hq)
    rw [fixed_place_of_ne (hd'.ne_of_live hq'), fixed_place_of_ne (hd.ne_of_live hq)]
  refine ⟨Inv.place_pair h.inv hroom hroom' hea hea' hmem hnm hnm' fun hs i _ => ?_,
    by rw [hruu]; rfl, by rw [hlsq]; rfl, fun i hi => ?_, hd'.eventQueue.trans hd.eventQueue,
    hd'.specMode.trans hd.specMode, hd'.simCycle.trans hd.simCycle, ?_⟩
  · -- a store writes no register, so it has no output list
    obtain ⟨h₁, h₂⟩ := S.target.store_out _ _ hdec hs
    rw [hnm']
    cases i with
    | zero => exact h₁
    | succ i => exact h₂
  · rw [hlsq, hw.lsq_ok.slots_push, List.mem_append, List.mem_singleton] at hi
    rcases hi with hi | rfl
    · rw [Station.get_of_strip (hold ⟨true, i⟩ hi) Station.IR fun _ => rfl,
        Station.get_of_strip (hold ⟨true, i⟩ hi) Station.op fun _ => rfl]
      exact h.decoded i hi
    · rw [get_place_self Station.IR (fun _ _ _ => rfl) (fun _ _ _ => rfl) fun _ _ _ => rfl,
        get_place_self Station.op (fun _ _ _ => rfl) (fun _ _ _ => rfl) fun _ _ _ => rfl]
      exact hdec
  · refine inflight_concat (hruu ▸ hw.ruu_ok.slots_push) (fun i hi => hold ⟨false, i⟩ hi) ?_ ?_ ?_
    · exact get_place_pair Station.specMode (fun _ _ _ => rfl) (fun _ _ => rfl) fun _ _ _ => rfl
    · exact get_place_pair Station.PC (fun _ _ _ => rfl) (fun _ _ => rfl) fun _ _ _ => rfl
    · exact get_place_pair Station.IR (fun _ _ _ => rfl) (fun _ _ => rfl) fun _ _ _ => rfl

end Allocated

/-- The allocation of an operation that is not a load or store does not stop. -/
theorem allocate_meets (h : m.Back S {} due) (hroom : m.core.ruu.num < m.core.ruu.size)
    (npc predPC : MdAddr) :
    Meets E (fun m' => ∃ s l, m' = { m with core := s, lastOp := l } ∧
        Allocated S [] m.core s [(r.regsPC, r.IR)] ∧ s.Latest m.core.nextRuu)
      (m.allocate r op (S.target.names r.IR) npc predPC) := by
  let e : Operation U := ⟨r, op, npc, predPC, 0, false, r.update⟩
  have hp := h.place (e := e) hroom rfl rfl
  have hd := dispatched_place e (S.target.names r.IR) h.inv.deps h.inv.cv
    (h.inv.window.free_ruu hroom)
  have hlatest : (m.core.place m.core.nextRuu e (S.target.names r.IR)).Latest m.core.nextRuu := by
    refine ⟨(hd.live _).mpr (Or.inr rfl), ?_, hd.completed, fun q hq => ?_⟩
    · exact get_place_self Station.eaComp (fun _ _ _ => rfl) (fun _ _ _ => rfl) fun _ _ _ => rfl
    · rw [hd.seq, ← hd.instSeq]
      exact hp.inv.window.seq_le hq
  have hl : ∀ q ∈ [m.core.nextRuu], q ≠ m.core.nextRuu → q ∈ ([] : List RsPtr) :=
    fun q hq hne => absurd (List.mem_singleton.mp hq) hne
  rw [allocate]
  refine Meets.ite (fun hr => ?_) fun hr => ?_
  · refine (hp.inv.wake_new hd.new hr (fun hlsq => absurd hlsq (by simp)) hl).bind ?_
    exact fun s ⟨hinv, hs, hev, _⟩ => ⟨s, _, rfl, hp.same hinv hs hev, hlatest.same hs⟩
  · have hinv := hp.inv.sleep_new (p := m.core.nextRuu) (fun hr' => hr ?_) hl
    · exact ⟨_, _, rfl, hp.same hinv (SameUpTo.refl _) rfl, hlatest⟩
    · exact (Bool.and_eq_true_iff.mp hr').2

theorem installMem_eq (s : Core U) (r : FetchRec U) (op : Opcode) (nm : Names)
    (npc predPC addr : MdAddr) :
    installMem s r op nm npc predPC addr =
      (s.place s.nextRuu ⟨r, mdAgenOp, npc, predPC, 0, true, r.update⟩ nm.agen).place s.nextLsq
        ⟨r, op, npc, predPC, addr, false, none⟩ nm.access := by
  rw [← place_place_eq, linkStation_rest (linkStation _ _ _), linkStation_rest (filled _ _ _),
    installMem, linkStation_rest (linkStation _ _ _), linkStation_rest (fill _ _ _ _ _ _ _ _ _)]
  rfl

/-- The allocation of a load or store does not stop. -/
theorem allocateMem_meets (h : m.Back S {} due) (hroom : m.core.ruu.num < m.core.ruu.size)
    (hroom' : m.core.lsq.num < m.core.lsq.size) (hdec : S.target.decode r.IR = some op)
    (hmem : op.mem = true) (npc predPC addr : MdAddr) :
    Meets E (fun m' => ∃ s l, m' = { m with core := s, lastOp := l } ∧
        Allocated S [] m.core s [(r.regsPC, r.IR)])
      (m.allocateMem r op (S.target.names r.IR) npc predPC addr) := by
  obtain ⟨hd, hd'⟩ := Inv.dispatched_pair h.inv hroom hroom'
    ⟨r, mdAgenOp, npc, predPC, 0, true, r.update⟩ ⟨r, op, npc, predPC, addr, false, none⟩
    (S.target.names r.IR).agen (S.target.names r.IR).access rfl
  have hp := Back.place_pair ⟨r, mdAgenOp, npc, predPC, 0, true, r.update⟩
    ⟨r, op, npc, predPC, addr, false, none⟩ h hroom hroom' rfl rfl hdec hmem rfl rfl
  have hop : ∀ e nm nm', (((m.core.place m.core.nextRuu e nm).place m.core.nextLsq
      ⟨r, op, npc, predPC, addr, false, none⟩ nm').station m.core.nextLsq).op = op := fun _ _ _ =>
    get_place_self Station.op (fun _ _ _ => rfl) (fun _ _ _ => rfl) fun _ _ _ => rfl
  have heq := installMem_eq m.core r op (S.target.names r.IR) npc predPC addr
  -- What is left when the address computation has been queued, if it is ready.
  have hrest : ∀ s, Allocated S [m.core.nextLsq] m.core s [(r.regsPC, r.IR)] →
      s.New m.core.nextLsq → (s.station m.core.nextLsq).op = op →
      Meets E (fun m' => ∃ s l, m' = { m with core := s, lastOp := l } ∧
        Allocated S [] m.core s [(r.regsPC, r.IR)])
        (if op.isStore && (s.station m.core.nextLsq).operandsReady then do
          let s' ← s.readyqEnqueue m.core.nextLsq
          return { m with core := s', lastOp := some (s.link m.core.nextLsq 0) }
        else return { m with core := s, lastOp := some (s.link m.core.nextLsq 0) }) := by
    intro s ha hnew hop
    have hl : ∀ q ∈ [m.core.nextLsq], q ≠ m.core.nextLsq → q ∈ ([] : List RsPtr) :=
      fun q hq hne => absurd (List.mem_singleton.mp hq) hne
    have hself : (s.station m.core.nextLsq).selfQueued = op.isStore := by
      rw [Station.selfQueued, ha.inv.window.inLSQ _ hnew.live, hop]
      rfl
    refine Meets.ite (fun hr => ?_) fun hr => ?_
    · obtain ⟨hs, hr⟩ := Bool.and_eq_true_iff.mp hr
      refine (ha.inv.wake_new hnew hr (fun _ => hop ▸ hs) hl).bind ?_
      rintro s' ⟨hinv, hs', hev, -⟩
      exact ⟨s', _, rfl, ha.same hinv hs' hev⟩
    · exact ⟨s, _, rfl, ha.same (ha.inv.sleep_new (by rwa [hself]) hl) (SameUpTo.refl s) rfl⟩
  have hl : ∀ q ∈ [m.core.nextLsq, m.core.nextRuu], q ≠ m.core.nextRuu → q ∈ [m.core.nextLsq] := by
    simp
  rw [allocateMem, heq]
  refine Meets.ite (fun hr => ?_) fun hr => ?_
  · refine (hp.inv.wake_new (hd.new.dispatched hd') hr (fun hlsq => absurd hlsq (by simp))
      hl).bind ?_
    rintro s ⟨hinv, hs, hev, hst⟩
    refine hrest s (hp.same hinv hs hev) ?_ ?_
    · exact hd'.new.same hs (hst _ (RsPtr.ruu_ne_lsq _ _).symm)
    · rw [hst _ (RsPtr.ruu_ne_lsq _ _).symm]
      exact hop _ _ _
  · have hinv := hp.inv.sleep_new (p := m.core.nextRuu)
      (fun hr' => hr (Bool.and_eq_true_iff.mp hr').2) hl
    exact hrest _ (hp.same hinv (SameUpTo.refl _) rfl) hd'.new (hop _ _ _)

/-- What an instruction adds to the trace. A `MD_NOP_OP` is left out. -/
def traceOf (op : Option Opcode) (r : FetchRec U) : List (MdAddr × MdInst) :=
  if op.isSome then [(r.regsPC, r.IR)] else []

/-- The allocation does not stop; what is not a load or store can be found to be mispredicted. -/
theorem allocateOp_meets (h : m.Back S {} due) (hroom : m.core.ruu.num < m.core.ruu.size)
    (hroom' : m.core.lsq.num < m.core.lsq.size) (npc predPC addr : MdAddr) :
    Meets E (fun m' => ∃ s l, m' = { m with core := s, lastOp := l } ∧
        Allocated S [] m.core s (traceOf (S.target.decode r.IR) r) ∧
        ∀ o, S.target.decode r.IR = some o → o.mem = false → s.Latest m.core.nextRuu)
      (m.allocateOp S r (S.target.decode r.IR) npc predPC addr) := by
  rcases hop : S.target.decode r.IR with _ | op
  · rw [allocateOp]
    refine ⟨m.core, m.lastOp, rfl, ⟨h.inv, rfl, rfl, h.decoded, rfl, rfl, rfl, ?_⟩, by simp⟩
    simp [traceOf]
  · rw [allocateOp]
    refine Meets.ite (fun hmem => ?_) fun hmem => ?_
    · refine (allocateMem_meets h hroom hroom' hop hmem npc predPC addr).mono ?_
      rintro m' ⟨s, l, heq, ha⟩
      refine ⟨s, l, heq, ha, fun o ho hmem' => ?_⟩
      obtain rfl := Option.some.inj ho
      exact absurd (hmem.symm.trans hmem') (by simp)
    · refine (allocate_meets h hroom npc predPC).mono ?_
      rintro m' ⟨s, l, heq, ha, hlast⟩
      exact ⟨s, l, heq, ha, fun _ _ _ => hlast⟩

/-! ### The execution -/

/-- What the execution of an instruction leaves. Outside of speculative mode it is a step of the
sequential machine. -/
structure Executed (S : Setup σ τ W U) (start : SeqState σ) (m m' : Machine σ τ W U)
    (r : FetchRec U) (op : Option Opcode) (npc : MdAddr) : Prop where
  same : ∃ regs spec, m' = { m with regs := regs, spec := spec }
  order : S.target.FixedText start → m.core.specMode = false →
    ∃ k t, seqRun S.target start k = some t ∧ t.regs = m'.regs ∧ t.pc = npc ∧
      t.trace = m.retired ++ inflight m.core ++ traceOf op r
  spec : m.core.specMode = true → m'.regs = m.regs
  npc : m.core.specMode = false → (∀ o, op = some o → o.mem = true) → npc = r.regsPC + sizeofMdInst

/-- The record at the head of the fetch queue is the next instruction of the program. -/
theorem Front.head (h : m.Front S start) (hT : S.target.FixedText start) (hn : 0 < m.ifq.num)
    (hm : m.core.specMode = false) :
    ∃ k t, seqRun S.target start k = some t ∧ t.regs = m.regs ∧
      t.pc = (m.fetchData m.ifq.head).regsPC ∧
      S.target.instAt t.regs t.pc = (m.fetchData m.ifq.head).IR ∧
      t.trace = m.retired ++ inflight m.core := by
  obtain ⟨pc, hpath, hprog⟩ := h.program
  obtain ⟨k, t, hrun, hregs, htrace, hpc⟩ := (hprog hT).order
  rw [h.ifq_ok.slots_pop hn] at hpath
  rw [hm, if_neg (by simp), ← hpath.1] at hpc
  refine ⟨k, t, hrun, hregs, hpc, ?_, htrace⟩
  rw [hregs, hpc, (hprog hT).fetched _ (h.ifq_ok.head_mem hn)]

theorem executeOp_meets (hE : E (.fatal "non-speculative fault detected"))
    (h : m.Front S start) (hn : 0 < m.ifq.num) (hr : r = m.fetchData m.ifq.head) :
    Meets E (fun x => Executed S start m x.2 r (S.target.decode r.IR) x.1.1)
      (m.executeOp S r (S.target.decode r.IR)) := by
  rcases hop : S.target.decode r.IR with _ | op
  · rw [executeOp]
    refine ⟨⟨m.regs, m.spec, rfl⟩, fun hT hm => ?_, fun _ => rfl, fun _ _ => rfl⟩
    obtain ⟨k, t, hrun, hregs, hpc, hinst, htrace⟩ := h.head hT hn hm
    rw [← hr] at hpc hinst
    refine ⟨k + 1, { t with pc := t.pc + sizeofMdInst }, ?_, hregs, congrArg (· + _) hpc, ?_⟩
    · rw [seqRun, hrun, Option.bind_some, seqStep, hinst, hop]
    · simp [traceOf, htrace]
  · rw [executeOp, executeInst]
    refine Meets.ite (fun hm => ?_) fun hm => ?_
    · exact ⟨⟨m.regs, _, rfl⟩, fun _ hm' => absurd (hm.symm.trans hm') (by simp),
        fun _ => rfl, fun hm' => absurd (hm.symm.trans hm') (by simp)⟩
    · rcases he : S.target.exec m.regs r.regsPC r.IR with _ | e
      · exact hE
      · refine ⟨⟨e.state, m.spec, rfl⟩, fun hT hm => ?_, fun hm' => absurd hm' hm,
          fun _ hmem => S.target.mem_npc _ _ _ _ _ hop (hmem op rfl) he⟩
        obtain ⟨k, t, hrun, hregs, hpc, hinst, htrace⟩ := h.head hT hn hm
        rw [← hr] at hpc hinst
        refine ⟨k + 1, { regs := e.state, pc := e.npc, trace := t.trace ++ [(t.pc, r.IR)] }, ?_,
          rfl, rfl, ?_⟩
        · rw [seqRun, hrun, Option.bind_some, seqStep, hinst, hop, hregs, hpc, he]
          rfl
        · rw [htrace, hpc]
          rfl

/-! ### The fetch queue -/

/-- The record at the head is consumed; the next one to be dispatched is that of `pc`. -/
structure Consumed (S : Setup σ τ W U) (m m' : Machine σ τ W U) (pc : MdAddr) : Prop where
  ok : m'.ifq.pop.Ok
  size : m'.ifq.pop.size = S.cfg.ifqSize
  sub : ∀ i ∈ m'.ifq.pop.slots, i ∈ m.ifq.slots
  path : Path m.fetchData pc m'.ifq.pop.slots m'.fetchPredPC
  data : m'.fetchData = m.fetchData
  core : m'.core = m.core
  retired : m'.retired = m.retired
  recoverPC : m'.recoverPC = m.recoverPC

/-- With a redirection the queue is empty, and goes on at the right address. -/
theorem Front.consumed (h : m.Front S start) (hn : 0 < m.ifq.num) (regs : σ) (spec : τ) (b : Bool)
    (npc : MdAddr) :
    let m₁ := { m with regs := regs, spec := spec }
    let m₂ := if b then m₁.redirect S npc else m₁
    m₂.regs = regs ∧ ∃ pc, Consumed S m m₂ pc ∧
      (b = true ∨ (m.fetchData m.ifq.head).predPC = npc → pc = npc) := by
  cases b
  · obtain ⟨pc, hpath, -⟩ := h.program
    rw [h.ifq_ok.slots_pop hn] at hpath
    exact ⟨rfl, (m.fetchData m.ifq.head).predPC, ⟨h.ifq_ok.pop hn, h.ifq_size,
      fun i hi => ((h.ifq_ok.mem_slots_pop hn).mp hi).1, hpath.2, rfl, rfl, rfl, rfl⟩, by simp⟩
  · have hpos := S.cfg.ifqSize_ok
    have hhead : (m.redirect S npc).ifq.pop.head = 0 := by
      change (S.cfg.ifqSize - 1 + 1) % m.ifq.size = 0
      rw [h.ifq_size, Nat.sub_add_cancel hpos, Nat.mod_self]
    have hnil : (m.redirect S npc).ifq.pop.slots = [] := Ring.slots_eq_nil rfl
    refine ⟨rfl, npc, ⟨⟨?_, Nat.zero_le _, ?_⟩, h.ifq_size, fun i hi => ?_, ?_, rfl, rfl, rfl, rfl⟩,
      fun _ => rfl⟩
    · exact hhead.trans_lt (hpos.trans_eq h.ifq_size.symm)
    · exact (congrArg (fun n => (n + 0) % m.ifq.size) hhead).trans (Nat.zero_mod _)
    · exact absurd (hnil ▸ hi) (by simp)
    · exact hnil.symm ▸ (rfl : Path m.fetchData npc [] npc)

/-! ### The stage -/

/-- The front end has taken a step. -/
theorem Front.advance {m₁ m₂ : Machine σ τ W U} {op : Option Opcode} {npc pc : MdAddr}
    (h : m.Front S start) (he : Executed S start m m₁ r op npc) (hc : Consumed S m m₂ pc)
    (hregs : m'.regs = m₁.regs) (hifq : m'.ifq = m₂.ifq.pop) (hdata : m'.fetchData = m₂.fetchData)
    (hpred : m'.fetchPredPC = m₂.fetchPredPC)
    (hprog : m'.retired ++ inflight m'.core =
      m.retired ++ inflight m.core ++ if m.core.specMode then [] else traceOf op r)
    (hmode : m.core.specMode = true → m'.core.specMode = true ∧ m'.recoverPC = m.recoverPC)
    (hpc : m.core.specMode = false → (if m'.core.specMode then m'.recoverPC else pc) = npc) :
    m'.Front S start := by
  have hsub : ∀ i ∈ m'.ifq.slots, i ∈ m.ifq.slots := fun i hi => hc.sub i (hifq ▸ hi)
  refine ⟨hifq ▸ hc.ok, hifq ▸ hc.size, fun i hi => ?_, pc, ?_, fun hT => ?_⟩
  · rw [hdata, hc.data]
    exact h.straight i (hsub i hi)
  · rw [hdata, hc.data, hifq, hpred]
    exact hc.path
  obtain ⟨_, -, hold⟩ := h.program
  obtain ⟨k, t, hrun, htregs, htrace, htpc⟩ := (hold hT).order
  have horder : ∃ k' t', seqRun S.target start k' = some t' ∧ t'.regs = m'.regs ∧
      t'.trace = m'.retired ++ inflight m'.core ∧
      t'.pc = if m'.core.specMode then m'.recoverPC else pc := by
    rw [hprog]
    cases hm : m.core.specMode
    · obtain ⟨k', t', hrun', htregs', htpc', htrace'⟩ := he.order hT hm
      exact ⟨k', t', hrun', htregs'.trans hregs.symm, by simpa using htrace',
        htpc'.trans (hpc hm).symm⟩
    · obtain ⟨hm', hrec⟩ := hmode hm
      rw [hm, if_pos rfl] at htpc
      refine ⟨k, t, hrun, ?_, by simpa using htrace, ?_⟩
      · rw [htregs, hregs, he.spec hm]
      · rw [hm', if_pos rfl, hrec, htpc]
  refine ⟨fun i hi => ?_, horder⟩
  -- Both architected states are states of the program, which have the same text.
  obtain ⟨k', t', hrun', htregs', -⟩ := horder
  rw [hdata, hc.data, (hold hT).fetched i (hsub i hi), ← htregs, ← htregs']
  exact hT.instAt hrun hrun' _

theorem Back.congr {d : Doing} (h : m.Back S d due) (hcore : m'.core = m.core) : m'.Back S d due :=
  ⟨hcore ▸ h.inv, hcore ▸ h.ruu_size, hcore ▸ h.lsq_size, hcore ▸ h.decoded, hcore ▸ h.timely⟩

theorem Back.allocated {new : List (MdAddr × MdInst)} (h : m.Back S {} due)
    (m' : Machine σ τ W U) (ha : Allocated S [] m.core m'.core new) : m'.Back S {} due :=
  ⟨ha.inv, ha.ruu_size.trans h.ruu_size, ha.lsq_size.trans h.lsq_size, ha.decoded,
    ha.eventQueue ▸ h.timely⟩

theorem Back.mispredicted {j : ℕ} (h : m.Back S {} due) (hm : m.core.specMode = false)
    (hl : m.core.Latest ⟨false, j⟩) (hcore : m'.core = m.core.mispredicted ⟨false, j⟩) :
    m'.Back S {} due := by
  have hst : ∀ i, m'.core.entry i = m.core.entry i := fun i => by
    rw [hcore, entry, station_mispredicted, station_modify_ne (RsPtr.ruu_ne_lsq j i).symm]
  refine ⟨hcore ▸ Inv.mispredicted h.inv hm hl, hcore ▸ h.ruu_size, hcore ▸ h.lsq_size,
    fun i hi => ?_, hcore ▸ h.timely⟩
  rw [hst]
  rw [hcore] at hi
  exact h.decoded i hi

/-- Either the prediction was right, or fetch has been redirected, or speculative mode is
entered. -/
theorem resolve_meets (hE : E (.assertion "bpred_update")) {rs : Option RsPtr} {flags : Opcode}
    {npc predPC : MdAddr} {redirected : Bool}
    (hrs : predPC ≠ npc → redirected = false → rs ≠ none) :
    Meets E (fun m' => (∃ w, m' = { m with world := w }) ∧ (predPC = npc ∨ redirected = true) ∨
        ∃ b w, rs = some b ∧ predPC ≠ npc ∧ redirected = false ∧
          m' = { m with world := w, core := m.core.mispredicted b, recoverPC := npc })
      (m.resolve S rs r flags npc predPC redirected) := by
  rw [resolve]
  refine (updatePred_meets hE _ _ _ _ _ _ _).bind ?_
  rintro _ ⟨w, rfl⟩
  refine Meets.ite (fun hmiss => ?_) fun hmiss => ?_
  · simp only [ne_eq, Bool.and_eq_true, decide_eq_true_eq, Bool.not_eq_true'] at hmiss
    cases rs with
    | none => exact absurd rfl (hrs hmiss.1 hmiss.2)
    | some b => exact Or.inr ⟨b, w, rfl, hmiss.1, hmiss.2, rfl⟩
  · refine Or.inl ⟨⟨w, rfl⟩, ?_⟩
    by_contra hnot
    rw [not_or] at hnot
    exact hmiss (by simp [hnot.1, hnot.2])

theorem not_specMode_of_num_eq_zero (h : m.Back S {} due) (hn : m.core.ruu.num = 0) :
    m.core.specMode = false := by
  by_contra hm
  obtain ⟨⟨_ | _, i⟩, hb⟩ := h.inv.speculation.branch (by simpa using hm)
  · exact absurd (Ring.num_pos_of_mem (live_ruu.mp hb.pending.live)) (by omega)
  · obtain ⟨j, hj, -⟩ := h.inv.window.exists_agen (live_lsq.mp hb.pending.live)
    exact absurd (Ring.num_pos_of_mem hj) (by omega)

/-- One instruction is dispatched. -/
theorem dispatchOne_meets (hbp : E (.assertion "bpred_update"))
    (hfault : E (.fatal "non-speculative fault detected")) (h : m.Good S start {} due)
    (hcan : m.canDispatch S = true) :
    Meets E (fun x => ∀ c m', x = some (c, m') → m'.Good S start {} due ∧
        m'.core.simCycle = m.core.simCycle) (m.dispatchOne S) := by
  simp only [canDispatch, Bool.and_eq_true, decide_eq_true_eq] at hcan
  obtain ⟨⟨⟨hroom, hroom'⟩, hnum⟩, -⟩ := hcan
  rw [← h.back.ruu_size] at hroom
  rw [← h.back.lsq_size] at hroom'
  have hn : 0 < m.ifq.num := Nat.pos_of_ne_zero hnum
  rw [dispatchOne]
  refine Meets.ite (fun _ c m' hm' => absurd hm' (by simp)) fun htrap =>
    Meets.guard (fun htrap' => ?_) ?_
  · obtain ⟨ht, hm⟩ := Bool.and_eq_true_iff.mp htrap'
    rw [ht, Bool.true_and, decide_eq_true_eq, not_not] at htrap
    rw [not_specMode_of_num_eq_zero h.back htrap] at hm
    exact absurd hm (by simp)
  refine (executeOp_meets hfault h.front hn rfl).bind fun x he => ?_
  obtain ⟨⟨npc, targetPC, addr⟩, m₁⟩ := x
  obtain ⟨regs, spec, rfl⟩ := he.same
  dsimp only
  have hpredPC := h.front.straight _ (h.front.ifq_ok.head_mem hn)
  generalize redirects S _ _ _ _ _ = b
  obtain ⟨hregs, pc, hc, hpc⟩ := h.front.consumed hn regs spec b npc
  generalize hr : m.fetchData m.ifq.head = r at he hpc hpredPC ⊢
  generalize (if b then _ else _ : Machine σ τ W U) = m₂ at hregs hc ⊢
  -- The prediction as it is compared with the right address.
  obtain ⟨predPC, hpred, heq⟩ : ∃ predPC, (b = false → predPC = r.predPC) ∧
      (if (b && S.cfg.predPerfect) = true then npc else r.predPC) = predPC :=
    ⟨_, fun hb => by simp [hb], rfl⟩
  rw [heq]
  have hstraight : m.core.specMode = false → (∀ o, S.target.decode r.IR = some o → o.mem = true) →
      r.predPC = npc := by
    intro hm hmem
    refine (hpredPC ?_).trans (he.npc hm hmem).symm
    rcases hop : S.target.decode r.IR with _ | o
    · rfl
    · exact S.target.mem_ctrl _ _ hop (hmem o hop)
  refine (allocateOp_meets (h.back.congr hc.core) (hc.core ▸ hroom) (hc.core ▸ hroom') npc predPC
    addr).bind ?_
  rintro _ ⟨s, l, rfl, ha, hlatest⟩
  rw [hc.core] at ha hlatest
  have hprog : m₂.retired ++ inflight s =
      m.retired ++ inflight m.core ++
        if m.core.specMode then [] else traceOf (S.target.decode r.IR) r := by
    rw [hc.retired, ha.program, List.append_assoc]
  refine Meets.ite (fun hm c m' hm' => ?_) fun hm => ?_
  · obtain ⟨-, rfl⟩ := Prod.mk.inj (Option.some.inj hm')
    refine ⟨⟨h.back.allocated _ ha, h.front.advance he hc hregs rfl rfl rfl hprog (fun _ => ?_)
      fun hm' => absurd (hm.symm.trans hm') (by simp)⟩, ha.simCycle⟩
    exact ⟨ha.specMode.trans hm, hc.recoverPC⟩
  · have hm : m.core.specMode = false := by simpa using hm
    have hs : s.specMode = false := ha.specMode.trans hm
    refine (resolve_meets hbp fun hne hb hnone => ?_).bind fun m₄ hm₄ => ?_
    · refine hne ((hpred hb).trans (hstraight hm fun o ho => ?_))
      rw [ho] at hnone
      exact absurd hnone (by simp)
    rcases hm₄ with ⟨⟨w, rfl⟩, hright⟩ | ⟨p, w, hp, hne, hb, rfl⟩
    · intro c m' hm'
      obtain ⟨-, rfl⟩ := Prod.mk.inj (Option.some.inj hm')
      refine ⟨⟨h.back.allocated _ ha, h.front.advance he hc hregs rfl rfl rfl hprog
        (fun hm' => absurd (hm.symm.trans hm') (by simp)) fun _ => ?_⟩, ha.simCycle⟩
      rw [hs, if_neg (by simp)]
      cases b
      · exact hpc (Or.inr ((hpred rfl).symm.trans (hright.resolve_right (by simp))))
      · exact hpc (Or.inl rfl)
    · obtain ⟨o, ho, rfl⟩ := Option.map_eq_some_iff.mp hp
      have hmem : o.mem = false := by
        by_contra hmem
        refine hne ((hpred hb).trans (hstraight hm fun o' ho' => ?_))
        obtain rfl := Option.some.inj (ho.symm.trans ho')
        simpa using hmem
      intro c m' hm'
      obtain ⟨-, rfl⟩ := Prod.mk.inj (Option.some.inj hm')
      refine ⟨⟨?_, h.front.advance he hc hregs rfl rfl rfl ?_
        (fun hm' => absurd (hm.symm.trans hm') (by simp)) fun _ => if_pos rfl⟩, ha.simCycle⟩
      · exact (h.back.allocated { m with core := s } ha).mispredicted hs (hlatest o ho hmem)
          rfl
      · rw [← hprog]
        exact congrArg (m₂.retired ++ ·) (inflight_mispredicted s _)

/-- The loop of `ruu_dispatch`. -/
theorem dispatchLoop_meets (hbp : E (.assertion "bpred_update"))
    (hfault : E (.fatal "non-speculative fault detected")) (fuel n : ℕ)
    (h : m.Good S start {} due) :
    Meets E (fun m' => m'.Good S start {} due ∧ m'.core.simCycle = m.core.simCycle)
      (dispatchLoop S fuel n m) := by
  induction fuel generalizing n m with
  | zero => exact ⟨h, rfl⟩
  | succ fuel ih =>
    rw [dispatchLoop]
    refine Meets.ite (fun _ => ⟨h, rfl⟩) fun hgo => ?_
    simp only [Bool.or_eq_true, not_or, Bool.not_eq_true', Bool.not_eq_false] at hgo
    refine (dispatchOne_meets hbp hfault h hgo.1.2).bind fun x hx => ?_
    cases x with
    | none => exact ⟨h, rfl⟩
    | some x =>
      obtain ⟨hgood, hcycle⟩ := hx x.1 x.2 rfl
      exact (ih _ hgood).mono fun m' hm' => ⟨hm'.1, hm'.2.trans hcycle⟩

/-- `ruu_dispatch` stops for a fault of the program or an assertion of the predictor only, and
keeps the invariant. -/
theorem ruuDispatch_meets (hbp : E (.assertion "bpred_update"))
    (hfault : E (.fatal "non-speculative fault detected")) (h : m.Good S start {} due) :
    Meets E (fun m' => m'.Good S start {} due ∧ m'.core.simCycle = m.core.simCycle)
      (m.ruuDispatch S) := dispatchLoop_meets hbp hfault _ _ h

end Machine

end AdvancedArchitecture.Outorder
