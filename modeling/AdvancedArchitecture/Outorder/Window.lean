import AdvancedArchitecture.Outorder.Core

/-!
# The instruction window

The stations between the heads and the tails of RUU and LSQ are *live*. `Window` says how the two
queues fit together: sequence numbers increase along the RUU, and the LSQ has, in the same order,
one entry for each address computation of the RUU, numbered next to it.

Most functions change little of a state. `SameUpTo strip` relates two states that differ at most in
the queues of ready operations and of events, and in what `strip` takes from a station: for `Same`
the flags `queued` and `issued`, for `Frame` the output lists and the operand flags as well.
-/

namespace AdvancedArchitecture.Outorder

variable {U : Type}

namespace Station

/-- A station less the flags that change while it waits for issue. -/
def plain (st : Station U) : Station U := { st with queued := false, issued := false }

/-- A station less what changes after it has been dispatched, but for its completion. -/
def fixed (st : Station U) : Station U :=
  { st with queued := false, issued := false, odepList := fun _ => [], idepReady := fun _ => false }

/-- A station less all that changes after it has been dispatched. -/
def static (st : Station U) : Station U := { st.fixed with completed := false }

/-- The sequence number of the last operation an RUU entry stands for. -/
def lastSeq (st : Station U) : ℕ := if st.eaComp then st.seq + 1 else st.seq

/-- As long as they have not rolled over, the code's numbers are ordered as they are. -/
theorem seqNum_lt {st st' : Station U} (h : st.seq < st'.seq) (h' : st'.seq < 2 ^ 32) :
    st.seqNum < st'.seqNum := by
  rw [seqNum, seqNum, BitVec.lt_def, BitVec.toNat_ofNat, BitVec.toNat_ofNat,
    Nat.mod_eq_of_lt (h.trans h'), Nat.mod_eq_of_lt h']
  exact h

theorem seq_le_lastSeq (st : Station U) : st.seq ≤ st.lastSeq := by
  rw [lastSeq]
  split <;> omega

/-- Stations that agree up to `strip` agree in all that `strip` leaves. -/
theorem get_of_strip {β : Type*} {strip : Station U → Station U} {st st' : Station U}
    (h : strip st' = strip st) (g : Station U → β) (hg : ∀ st, g (strip st) = g st) :
    g st' = g st := by rw [← hg, h, hg]

end Station

theorem RsPtr.ruu_ne_lsq (i j : ℕ) : (⟨false, i⟩ : RsPtr) ≠ ⟨true, j⟩ := by simp

namespace Core

/-! ### Assignments to one station -/

section modify

variable {s : Core U} {p q : RsPtr} {f : Station U → Station U}

@[simp] theorem modify_ruu : (s.modify p f).ruu = s.ruu := rfl
@[simp] theorem modify_lsq : (s.modify p f).lsq = s.lsq := rfl
@[simp] theorem modify_eventQueue : (s.modify p f).eventQueue = s.eventQueue := rfl
@[simp] theorem modify_readyQueue : (s.modify p f).readyQueue = s.readyQueue := rfl
@[simp] theorem modify_createVector : (s.modify p f).createVector = s.createVector := rfl
@[simp] theorem modify_useSpecCv : (s.modify p f).useSpecCv = s.useSpecCv := rfl
@[simp] theorem modify_specMode : (s.modify p f).specMode = s.specMode := rfl
@[simp] theorem modify_instSeq : (s.modify p f).instSeq = s.instSeq := rfl
@[simp] theorem modify_simCycle : (s.modify p f).simCycle = s.simCycle := rfl

@[simp]
theorem modify_specCreateVector : (s.modify p f).specCreateVector = s.specCreateVector := rfl

theorem station_modify :
    (s.modify p f).station q = if q = p then f (s.station p) else s.station q :=
  Function.update_apply ..

@[simp]
theorem station_modify_self : (s.modify p f).station p = f (s.station p) :=
  Function.update_self ..

theorem station_modify_ne (h : q ≠ p) : (s.modify p f).station q = s.station q :=
  Function.update_of_ne h ..

/-- What an assignment does not touch is the same at every station. -/
theorem get_modify {β : Type*} (g : Station U → β) (h : ∀ st, g (f st) = g st) :
    g ((s.modify p f).station q) = g (s.station q) := by
  rw [station_modify]
  split
  · rename_i heq
    rw [heq, h]
  · rfl

end modify

/-! ### Live stations -/

/-- The station is in its queue. -/
def Live (s : Core U) (p : RsPtr) : Prop := p.idx ∈ (if p.inLSQ then s.lsq else s.ruu).slots

instance (s : Core U) (p : RsPtr) : Decidable (s.Live p) := inferInstanceAs (Decidable (_ ∈ _))

variable {s s' s'' : Core U} {p q : RsPtr}

@[simp]
theorem live_ruu {i : ℕ} : s.Live ⟨false, i⟩ ↔ i ∈ s.ruu.slots := Iff.rfl

@[simp]
theorem live_lsq {i : ℕ} : s.Live ⟨true, i⟩ ↔ i ∈ s.lsq.slots := Iff.rfl

theorem live_congr (hruu : s'.ruu = s.ruu) (hlsq : s'.lsq = s.lsq) : s'.Live p ↔ s.Live p := by
  simp only [Live, hruu, hlsq]

/-! ### States that differ little -/

/-- The states differ at most in their queues, and in what `strip` takes from a station. -/
structure SameUpTo (strip : Station U → Station U) (s s' : Core U) : Prop where
  station : ∀ p, strip (s'.station p) = strip (s.station p)
  ruu : s'.ruu = s.ruu
  lsq : s'.lsq = s.lsq
  createVector : s'.createVector = s.createVector
  specCreateVector : s'.specCreateVector = s.specCreateVector
  useSpecCv : s'.useSpecCv = s.useSpecCv
  specMode : s'.specMode = s.specMode
  instSeq : s'.instSeq = s.instSeq
  simCycle : s'.simCycle = s.simCycle

/-- The states differ at most in what changes while operations wait for issue. -/
abbrev Same : Core U → Core U → Prop := SameUpTo Station.plain

/-- The states differ at most in what changes between dispatch and completion. -/
abbrev Frame : Core U → Core U → Prop := SameUpTo Station.fixed

namespace SameUpTo

variable {strip : Station U → Station U}

theorem refl (s : Core U) : SameUpTo strip s s :=
  ⟨fun _ => rfl, rfl, rfl, rfl, rfl, rfl, rfl, rfl, rfl⟩

theorem symm (h : SameUpTo strip s s') : SameUpTo strip s' s :=
  ⟨fun p => (h.station p).symm, h.ruu.symm, h.lsq.symm, h.createVector.symm,
    h.specCreateVector.symm, h.useSpecCv.symm, h.specMode.symm, h.instSeq.symm, h.simCycle.symm⟩

theorem trans (h : SameUpTo strip s s') (h' : SameUpTo strip s' s'') : SameUpTo strip s s'' where
  station p := (h'.station p).trans (h.station p)
  ruu := h'.ruu.trans h.ruu
  lsq := h'.lsq.trans h.lsq
  createVector := h'.createVector.trans h.createVector
  specCreateVector := h'.specCreateVector.trans h.specCreateVector
  useSpecCv := h'.useSpecCv.trans h.useSpecCv
  specMode := h'.specMode.trans h.specMode
  instSeq := h'.instSeq.trans h.instSeq
  simCycle := h'.simCycle.trans h.simCycle

theorem modify {f : Station U → Station U} (h : ∀ st, strip (f st) = strip st) :
    SameUpTo strip s (s.modify p f) :=
  ⟨fun _ => get_modify strip h, rfl, rfl, rfl, rfl, rfl, rfl, rfl, rfl⟩

/-- The queues may differ. -/
theorem queues (h : SameUpTo strip s s') (ready events : List RsLink) :
    SameUpTo strip s { s' with readyQueue := ready, eventQueue := events } := { h with }

theorem get {β : Type*} (h : SameUpTo strip s s') (g : Station U → β)
    (hg : ∀ st, g (strip st) = g st) : g (s'.station p) = g (s.station p) :=
  Station.get_of_strip (h.station p) g hg

theorem live (h : SameUpTo strip s s') : s'.Live p ↔ s.Live p := live_congr h.ruu h.lsq

end SameUpTo

namespace Frame

theorem tag (h : Frame s s') : (s'.station p).tag = (s.station p).tag := h.get _ fun _ => rfl

theorem seq (h : Frame s s') : (s'.station p).seq = (s.station p).seq := h.get _ fun _ => rfl

theorem completed (h : Frame s s') : (s'.station p).completed = (s.station p).completed :=
  h.get _ fun _ => rfl

theorem specMode_eq (h : Frame s s') : (s'.station p).specMode = (s.station p).specMode :=
  h.get _ fun _ => rfl

theorem onames (h : Frame s s') : (s'.station p).onames = (s.station p).onames :=
  h.get _ fun _ => rfl

end Frame

namespace Same

theorem frame (h : Same s s') : Frame s s' :=
  { h with station := fun _ => h.get Station.fixed fun _ => rfl }

theorem tag (h : Same s s') : (s'.station p).tag = (s.station p).tag := h.frame.tag

theorem completed (h : Same s s') : (s'.station p).completed = (s.station p).completed :=
  h.frame.completed

theorem odepList (h : Same s s') : (s'.station p).odepList = (s.station p).odepList :=
  h.get _ fun _ => rfl

theorem idepReady (h : Same s s') : (s'.station p).idepReady = (s.station p).idepReady :=
  h.get _ fun _ => rfl

theorem operandsReady (h : Same s s') :
    (s'.station p).operandsReady = (s.station p).operandsReady := h.get _ fun _ => rfl

end Same

/-! ### The two queues -/

/-- How RUU and LSQ fit together. -/
structure Window (s : Core U) : Prop where
  ruu_ok : s.ruu.Ok
  lsq_ok : s.lsq.Ok
  ordered : s.ruu.slots.Pairwise fun i j =>
    (s.station ⟨false, i⟩).lastSeq < (s.station ⟨false, j⟩).seq
  lastSeq_le : ∀ i ∈ s.ruu.slots, (s.station ⟨false, i⟩).lastSeq ≤ s.instSeq
  paired : (s.lsq.slots.map fun i => (s.station ⟨true, i⟩).seq) =
    (s.ruu.slots.filter fun i => (s.station ⟨false, i⟩).eaComp).map
      fun i => (s.station ⟨false, i⟩).seq + 1
  inLSQ : ∀ p, s.Live p → (s.station p).inLSQ = p.inLSQ
  access_eaComp : ∀ i ∈ s.lsq.slots, (s.station ⟨true, i⟩).eaComp = false
  access_recoverInst : ∀ i ∈ s.lsq.slots, (s.station ⟨true, i⟩).recoverInst = false
  access_mem : ∀ i ∈ s.lsq.slots, (s.station ⟨true, i⟩).op.mem = true
  store_onames : ∀ i ∈ s.lsq.slots, (s.station ⟨true, i⟩).op.isStore = true →
    ∀ j < maxOdeps, (s.station ⟨true, i⟩).onames j = NA

/-- Two elements of an ordered list are in one order or the other. -/
theorem rel_or_rel {α : Type*} {R : α → α → Prop} {l : List α} {a b : α} (h : l.Pairwise R)
    (ha : a ∈ l) (hb : b ∈ l) (hne : a ≠ b) : R a b ∨ R b a :=
  have : Std.Symm fun x y => R x y ∨ R y x := ⟨fun _ _ => Or.symm⟩
  (h.imp (S := fun x y => R x y ∨ R y x) fun hab => Or.inl hab).forall ha hb hne

namespace Window

/-- The invariant reads the static parts of the stations and the two queues. -/
theorem of_static (h : s.Window)
    (hst : ∀ p, { (s'.station p).static with recoverInst := false } =
      { (s.station p).static with recoverInst := false })
    (hrec : ∀ i ∈ s.lsq.slots, (s'.station ⟨true, i⟩).recoverInst = false)
    (hruu : s'.ruu = s.ruu) (hlsq : s'.lsq = s.lsq) (hseq : s'.instSeq = s.instSeq) :
    s'.Window := by
  have hget : ∀ {β : Type} (g : Station U → β),
      (∀ st : Station U, g { st.static with recoverInst := false } = g st) →
      ∀ p, g (s'.station p) = g (s.station p) := by
    intro β g hg p
    rw [← hg, hst, hg]
  have hnum := hget Station.seq fun _ => rfl
  have hlast := hget Station.lastSeq fun _ => rfl
  have hea := hget Station.eaComp fun _ => rfl
  have hop := hget Station.op fun _ => rfl
  refine ⟨hruu ▸ h.ruu_ok, hlsq ▸ h.lsq_ok, ?_, ?_, ?_, fun p hp => ?_, ?_, hlsq ▸ hrec, ?_, ?_⟩
  · simp only [hruu, hlast, hnum]
    exact h.ordered
  · simp only [hruu, hlast, hseq]
    exact h.lastSeq_le
  · simp only [hruu, hlsq, hnum, hea]
    exact h.paired
  · rw [hget Station.inLSQ fun _ => rfl]
    exact h.inLSQ p ((live_congr hruu hlsq).mp hp)
  · simp only [hlsq, hea]
    exact h.access_eaComp
  · simp only [hlsq, hop]
    exact h.access_mem
  · simp only [hlsq, hop, hget Station.onames fun _ => rfl]
    exact h.store_onames

theorem congr (h : s.Window) (hst : ∀ p, (s'.station p).static = (s.station p).static)
    (hruu : s'.ruu = s.ruu) (hlsq : s'.lsq = s.lsq) (hseq : s'.instSeq = s.instSeq) :
    s'.Window := by
  refine h.of_static (fun p => by rw [hst]) (fun i hi => ?_) hruu hlsq hseq
  have hrec := congrArg Station.recoverInst (hst ⟨true, i⟩)
  exact hrec.trans (h.access_recoverInst i hi)

theorem frame (h : s.Window) (hs : Frame s s') : s'.Window :=
  h.congr (fun _ => hs.get Station.static fun _ => rfl) hs.ruu hs.lsq hs.instSeq

variable {i j : ℕ}

/-- Two entries of the RUU are in the order of their numbers. -/
theorem ruu_trichotomy (h : s.Window) (hi : i ∈ s.ruu.slots) (hj : j ∈ s.ruu.slots) (hne : i ≠ j) :
    (s.station ⟨false, i⟩).lastSeq < (s.station ⟨false, j⟩).seq ∨
      (s.station ⟨false, j⟩).lastSeq < (s.station ⟨false, i⟩).seq :=
  rel_or_rel h.ordered hi hj hne

/-- The address computation of an entry of the LSQ. -/
theorem exists_agen (h : s.Window) (hi : i ∈ s.lsq.slots) :
    ∃ j ∈ s.ruu.slots, (s.station ⟨false, j⟩).eaComp = true ∧
      (s.station ⟨true, i⟩).seq = (s.station ⟨false, j⟩).seq + 1 := by
  have hmem := List.mem_map_of_mem (f := fun i => (s.station ⟨true, i⟩).seq) hi
  rw [h.paired] at hmem
  obtain ⟨j, hj, heq⟩ := List.mem_map.mp hmem
  exact ⟨j, (List.mem_filter.mp hj).1, by simpa using (List.mem_filter.mp hj).2, heq.symm⟩

/-- The memory access of an address computation. -/
theorem exists_access (h : s.Window) (hj : j ∈ s.ruu.slots)
    (hea : (s.station ⟨false, j⟩).eaComp = true) :
    ∃ i ∈ s.lsq.slots, (s.station ⟨true, i⟩).seq = (s.station ⟨false, j⟩).seq + 1 := by
  have hfilter : j ∈ s.ruu.slots.filter fun i => (s.station ⟨false, i⟩).eaComp :=
    List.mem_filter.mpr ⟨hj, hea⟩
  have hmem := List.mem_map_of_mem (f := fun j => (s.station ⟨false, j⟩).seq + 1) hfilter
  rw [← h.paired] at hmem
  exact List.mem_map.mp hmem

/-- Numbers increase along the LSQ. -/
theorem lsq_ordered (h : s.Window) :
    s.lsq.slots.Pairwise fun i j => (s.station ⟨true, i⟩).seq < (s.station ⟨true, j⟩).seq := by
  have hmap : (s.lsq.slots.map fun i => (s.station ⟨true, i⟩).seq).Pairwise (· < ·) := by
    rw [h.paired, List.pairwise_map]
    refine (h.ordered.filter _).imp fun {a b} hab => ?_
    have := (s.station ⟨false, a⟩).seq_le_lastSeq
    omega
  exact List.pairwise_map.mp hmap

/-- A live number is one that has been given out. -/
theorem seq_le (h : s.Window) (hp : s.Live p) : (s.station p).seq ≤ s.instSeq := by
  obtain ⟨_ | _, i⟩ := p
  · exact (Station.seq_le_lastSeq _).trans (h.lastSeq_le i hp)
  · obtain ⟨j, hj, hea, hseq⟩ := h.exists_agen hp
    have hlast : (s.station ⟨false, j⟩).lastSeq = (s.station ⟨false, j⟩).seq + 1 := if_pos hea
    rw [hseq, ← hlast]
    exact h.lastSeq_le j hj

/-- An address computation and a memory access never have the same number. -/
theorem seq_ne (h : s.Window) (hj : j ∈ s.ruu.slots) (hi : i ∈ s.lsq.slots) :
    (s.station ⟨false, j⟩).seq ≠ (s.station ⟨true, i⟩).seq := by
  obtain ⟨k, hk, hea, hseq⟩ := h.exists_agen hi
  have hlast : (s.station ⟨false, k⟩).lastSeq = (s.station ⟨false, k⟩).seq + 1 := if_pos hea
  have hle := (s.station ⟨false, j⟩).seq_le_lastSeq
  by_cases hjk : j = k
  · rw [hseq, hjk]
    omega
  · have := h.ruu_trichotomy hj hk hjk
    omega

/-- Live stations are told apart by their numbers. -/
theorem eq_of_seq_eq (h : s.Window) (hp : s.Live p) (hq : s.Live q)
    (heq : (s.station p).seq = (s.station q).seq) : p = q := by
  obtain ⟨_ | _, i⟩ := p <;> obtain ⟨_ | _, j⟩ := q
  · by_contra hne
    have hij : i ≠ j := fun hij => hne (by rw [hij])
    have hi := (s.station ⟨false, i⟩).seq_le_lastSeq
    have hj := (s.station ⟨false, j⟩).seq_le_lastSeq
    rcases h.ruu_trichotomy (live_ruu.mp hp) (live_ruu.mp hq) hij with hlt | hlt <;> omega
  · exact absurd heq (h.seq_ne hp hq)
  · exact absurd heq.symm (h.seq_ne hq hp)
  · by_contra hne
    have hij : i ≠ j := fun hij => hne (by rw [hij])
    rcases rel_or_rel h.lsq_ordered (live_lsq.mp hp) (live_lsq.mp hq) hij with hlt | hlt <;> omega

/-- There are not more loads and stores than instructions. -/
theorem lsq_num_le (h : s.Window) : s.lsq.num ≤ s.ruu.num := by
  have hlen := congrArg List.length h.paired
  simp only [List.length_map, Ring.length_slots] at hlen
  rw [hlen, ← Ring.length_slots (r := s.ruu)]
  exact List.length_filter_le _ _

end Window

end Core

end AdvancedArchitecture.Outorder
