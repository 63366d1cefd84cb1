import AdvancedArchitecture.Outorder.Speculation

/-!
# Loads and stores

A load is queued by `lsq_refresh` when its operands are ready and no store before it can be in its
way. `Clear` is the condition: the addresses of all stores before the load are known, and the last
of them at the address of the load has its value. The refresh finds this with one list of the
addresses whose value is unknown; `Scanned` is the invariant of its loop. `MemOrder` says that the
condition holds of all loads that are queued or have issued, and all stages keep it.
-/

namespace AdvancedArchitecture.Outorder

open Bpred (MdAddr)

variable {U : Type}

namespace Core

/-- An entry of the LSQ. -/
abbrev entry (s : Core U) (i : ℕ) : Station U := s.station ⟨true, i⟩

/-- A store of the LSQ before the entry `i`. -/
structure StoreBefore (s : Core U) (i j : ℕ) : Prop where
  mem : j ∈ s.lsq.slots
  isStore : (s.entry j).op.isStore = true
  lt : (s.entry j).seq < (s.entry i).seq

/-- No store before the entry `i` is in the way of a load there. -/
structure Clear (s : Core U) (i : ℕ) : Prop where
  addr : ∀ j, s.StoreBefore i j → (s.entry j).storeAddrReady = true
  value : ∀ j, s.StoreBefore i j → (s.entry j).addr = (s.entry i).addr →
    (∀ k, s.StoreBefore i k → (s.entry j).seq < (s.entry k).seq →
      (s.entry k).addr ≠ (s.entry i).addr) → (s.entry j).operandsReady = true

/-- The invariant of the loads. -/
def MemOrder (s : Core U) : Prop :=
  ∀ i ∈ s.lsq.slots, (s.entry i).op.isStore = false →
    (s.entry i).queued = true ∨ (s.entry i).issued = true → s.Clear i

variable {s s' : Core U} {i j k : ℕ} {p : RsPtr} {nm : Names}

/-- What stays the same about an entry, whose operands can only become ready. -/
structure SameAccess (st st' : Station U) : Prop where
  op : st'.op = st.op
  seq : st'.seq = st.seq
  addr : st'.addr = st.addr
  idepReady : ∀ k, st.idepReady k = true → st'.idepReady k = true

/-- The condition is kept when the entries before `i` are the same but for some that have left, and
none has left between two that stay. -/
theorem Clear.mono (h : s.Clear i) (hi : SameAccess (s.entry i) (s'.entry i))
    (hsub : ∀ j ∈ s'.lsq.slots, (s'.entry j).seq < (s'.entry i).seq →
      j ∈ s.lsq.slots ∧ SameAccess (s.entry j) (s'.entry j))
    (hmid : ∀ j k, j ∈ s'.lsq.slots → k ∈ s.lsq.slots → (s.entry j).seq < (s.entry k).seq →
      (s.entry k).seq < (s.entry i).seq → k ∈ s'.lsq.slots ∧ SameAccess (s.entry k) (s'.entry k)) :
    s'.Clear i := by
  have hold : ∀ {j}, s'.StoreBefore i j →
      s.StoreBefore i j ∧ SameAccess (s.entry j) (s'.entry j) := by
    rintro j ⟨hj, hs, hlt⟩
    obtain ⟨hj', hsame⟩ := hsub j hj hlt
    rw [hsame.op] at hs
    rw [hsame.seq, hi.seq] at hlt
    exact ⟨⟨hj', hs, hlt⟩, hsame⟩
  refine ⟨fun j hj => ?_, fun j hj haddr hlast => ?_⟩
  · obtain ⟨hj, hsame⟩ := hold hj
    exact hsame.idepReady 1 (h.addr j hj)
  · obtain ⟨hj', hsame⟩ := hold hj
    rw [hsame.addr, hi.addr] at haddr
    refine operandsReady_of_imp hsame.idepReady (h.value j hj' haddr fun k hk hlt heq => ?_)
    obtain ⟨hk', hsame'⟩ := hmid j k hj.mem hk.mem hlt hk.lt
    refine hlast k ⟨hk', ?_, ?_⟩ ?_ ?_
    · rw [hsame'.op, hk.isStore]
    · rw [hsame'.seq, hi.seq]
      exact hk.lt
    · rw [hsame'.seq, hsame.seq]
      exact hlt
    · rw [hsame'.addr, hi.addr]
      exact heq

/-- The entries are the same. -/
theorem Clear.congr (h : s.Clear i) (hlsq : s'.lsq = s.lsq)
    (hst : ∀ j, SameAccess (s.entry j) (s'.entry j)) : s'.Clear i :=
  h.mono (hst i) (fun j hj _ => ⟨hlsq ▸ hj, hst j⟩) fun _ k _ hk _ _ => ⟨hlsq ▸ hk, hst k⟩

/-- No load is queued or issues. -/
theorem MemOrder.congr (h : s.MemOrder) (hlsq : s'.lsq = s.lsq)
    (hst : ∀ j, SameAccess (s.entry j) (s'.entry j))
    (hload : ∀ i ∈ s.lsq.slots, (s.entry i).op.isStore = false →
      (s'.entry i).queued = true ∨ (s'.entry i).issued = true →
      (s.entry i).queued = true ∨ (s.entry i).issued = true) : s'.MemOrder := by
  intro i hi hop hq
  rw [hlsq] at hi
  rw [(hst i).op] at hop
  exact (h i hi hop (hload i hi hop hq)).congr hlsq hst

theorem SameUpTo.sameAccess {strip : Station U → Station U} (h : SameUpTo strip s s')
    (hop : ∀ st, (strip st).op = st.op) (hseq : ∀ st, (strip st).seq = st.seq)
    (haddr : ∀ st, (strip st).addr = st.addr)
    (hready : ∀ st, (strip st).idepReady = st.idepReady) (p : RsPtr) :
    SameAccess (s.station p) (s'.station p) :=
  ⟨h.get Station.op hop, h.get Station.seq hseq, h.get Station.addr haddr,
    fun k hk => by rw [h.get Station.idepReady hready, hk]⟩

theorem Same.sameAccess (h : Same s s') (p : RsPtr) :
    SameAccess (s.station p) (s'.station p) :=
  SameUpTo.sameAccess h (fun _ => rfl) (fun _ => rfl) (fun _ => rfl) (fun _ => rfl) p

theorem Moved.memOrder (h : s.Moved s') (hm : s.MemOrder)
    (hinLSQ : ∀ i ∈ s.lsq.slots, (s.entry i).inLSQ = true) : s'.MemOrder := by
  refine hm.congr h.lsq (fun j => ⟨h.get Station.op (fun _ => rfl) _, h.get Station.seq
    (fun _ => rfl) _, h.get Station.addr (fun _ => rfl) _, h.idepReady _⟩) fun i hi hop hq => ?_
  rcases hq with hq | hq
  · refine (h.queued _ hq).imp_right fun hself => ?_
    rw [Station.selfQueued, hinLSQ i hi, hop] at hself
    exact absurd hself (by simp)
  · rw [h.issued] at hq
    exact Or.inr hq

/-- Stations are removed, but none between two that stay. -/
theorem MemOrder.removed {K : RsPtr → Prop} (h : s.MemOrder) (hr : s.Removed s' K)
    (hconv : ∀ q q' c, s.Live q → s.Live q' → s.Live c → ¬K q → ¬K c →
      (s.station q).seq ≤ (s.station q').seq → (s.station q').seq < (s.station c).seq → ¬K q') :
    s'.MemOrder := by
  have hlive : ∀ {i}, i ∈ s'.lsq.slots → i ∈ s.lsq.slots ∧ ¬K ⟨true, i⟩ :=
    fun {i} hi => (hr.live ⟨true, i⟩).mp hi
  have hsame : ∀ {i}, i ∈ s'.lsq.slots → SameAccess (s.entry i) (s'.entry i) := by
    intro i hi
    have hst := hr.same _ (hlive hi).2
    exact ⟨by rw [entry, hst], by rw [entry, hst], by rw [entry, hst],
      fun k hk => by rw [entry, hst, hk]⟩
  intro i hi hop hq
  obtain ⟨hi', hKi⟩ := hlive hi
  rw [entry, hr.same _ hKi] at hop hq
  refine (h i hi' hop hq).mono (hsame hi) (fun j hj _ => ⟨(hlive hj).1, hsame hj⟩)
    fun j k hj hk hlt hlt' => ?_
  have hk' : k ∈ s'.lsq.slots := (hr.live ⟨true, k⟩).mpr ⟨hk,
    hconv ⟨true, j⟩ ⟨true, k⟩ ⟨true, i⟩ (hlive hj).1 hk hi' (hlive hj).2 hKi hlt.le hlt'⟩
  exact ⟨hk', hsame hk'⟩

/-- A new operation is behind all loads. -/
theorem MemOrder.dispatched (h : s.MemOrder)
    (hseq : ∀ q, s.Live q → (s.station q).seq ≤ s.instSeq) (hd : s.Dispatched s' p nm) :
    s'.MemOrder := by
  have hlive : ∀ {i}, i ∈ s'.lsq.slots ↔ i ∈ s.lsq.slots ∨ ⟨true, i⟩ = p :=
    fun {i} => hd.live ⟨true, i⟩
  have hsame : ∀ {i}, i ∈ s.lsq.slots → SameAccess (s.entry i) (s'.entry i) := by
    intro i hi
    have hne := hd.ne_of_live (q := ⟨true, i⟩) hi
    exact ⟨hd.get Station.op (fun _ _ => rfl) hne, hd.seq_of_ne hne,
      hd.get Station.addr (fun _ _ => rfl) hne,
      fun k hk => by rw [entry, hd.get Station.idepReady (fun _ _ => rfl) hne, hk]⟩
  intro i hi hop hq
  rcases hlive.mp hi with hi' | rfl
  · have hne := hd.ne_of_live (q := ⟨true, i⟩) hi'
    rw [(hsame hi').op] at hop
    rw [entry, hd.get Station.queued (fun _ _ => rfl) hne,
      hd.get Station.issued (fun _ _ => rfl) hne] at hq
    refine (h i hi' hop hq).mono (hsame hi') (fun j hj hlt => ?_)
      fun j k _ hk _ _ => ⟨hlive.mpr (Or.inl hk), hsame hk⟩
    rcases hlive.mp hj with hj' | rfl
    · exact ⟨hj', hsame hj'⟩
    · have hle : (s.entry i).seq ≤ s.instSeq := hseq ⟨true, i⟩ hi'
      rw [entry, hd.seq, (hsame hi').seq] at hlt
      omega
  · rw [entry, hd.queued, hd.issued] at hq
    exact absurd hq (by simp)

/-- A load in the way of which nothing is can be queued, and can issue. -/
theorem MemOrder.flagged (h : s.MemOrder) (hs : Same s s')
    (hne : ∀ q, q ≠ p → s'.station q = s.station q)
    (hclear : p.inLSQ = true → (s.station p).op.isStore = false → s.Clear p.idx) :
    s'.MemOrder := by
  intro i hi hop hq
  have hlsq : s'.lsq = s.lsq := hs.lsq
  rw [hs.sameAccess ⟨true, i⟩ |>.op] at hop
  refine Clear.congr ?_ hlsq fun j => hs.sameAccess ⟨true, j⟩
  by_cases hip : (⟨true, i⟩ : RsPtr) = p
  · subst hip
    exact hclear rfl hop
  · rw [entry, hne _ hip] at hq
    exact h i (hlsq ▸ hi) hop hq

end Core

end AdvancedArchitecture.Outorder
