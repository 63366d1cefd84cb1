import AdvancedArchitecture.Outorder.Dispatch
import AdvancedArchitecture.Outorder.Recovery
import AdvancedArchitecture.Outorder.Wakeup

/-!
# Speculation

Outside of speculative mode no operation is speculative and no misprediction is outstanding. In
speculative mode there is exactly one branch that will recover, it is not speculative itself, and
the speculative operations are those after it. So when it completes and recovers, what is squashed
is what has been dispatched down the wrong path.
-/

namespace AdvancedArchitecture.Outorder

variable {U : Type}

namespace Core

/-- The operation will recover from a misprediction when it completes. -/
structure Pending (s : Core U) (p : RsPtr) : Prop where
  live : s.Live p
  recoverInst : (s.station p).recoverInst = true
  completed : (s.station p).completed = false

/-- The branch `b` has been mispredicted, and all later operations are speculative. -/
structure Branch (s : Core U) (b : RsPtr) : Prop where
  pending : s.Pending b
  eaComp : (s.station b).eaComp = false
  unique : ∀ p, s.Pending p → p = b
  spec : ∀ p, s.Live p →
    ((s.station p).specMode = true ↔ (s.station b).seq < (s.station p).seq)

/-- The invariant of the speculative mode. -/
structure Speculation (s : Core U) : Prop where
  normal : s.specMode = false → ∀ p, s.Live p → (s.station p).specMode = false ∧ ¬s.Pending p
  branch : s.specMode = true → ∃ b, s.Branch b

variable {s s' : Core U} {p b : RsPtr} {nm : Names}

/-- What the invariant of the speculative mode reads. -/
structure SpecAgree (s s' : Core U) : Prop where
  live : ∀ p, s'.Live p ↔ s.Live p
  seq : ∀ p, (s'.station p).seq = (s.station p).seq
  specMode_eq : ∀ p, (s'.station p).specMode = (s.station p).specMode
  eaComp : ∀ p, (s'.station p).eaComp = (s.station p).eaComp
  pending : ∀ p, s'.Pending p ↔ s.Pending p
  specMode : s'.specMode = s.specMode

theorem Speculation.congr (h : s.Speculation) (ha : s.SpecAgree s') : s'.Speculation where
  normal hm p hp := by
    rw [ha.specMode_eq, ha.pending]
    exact h.normal (ha.specMode ▸ hm) p ((ha.live p).mp hp)
  branch hm := by
    obtain ⟨b, hb⟩ := h.branch (ha.specMode ▸ hm)
    refine ⟨b, (ha.pending b).mpr hb.pending, (ha.eaComp b).trans hb.eaComp,
      fun p hp => hb.unique p ((ha.pending p).mp hp), fun p hp => ?_⟩
    rw [ha.specMode_eq, ha.seq, ha.seq]
    exact hb.spec p ((ha.live p).mp hp)

theorem pending_congr (hlive : s'.Live p ↔ s.Live p)
    (hrec : (s'.station p).recoverInst = (s.station p).recoverInst)
    (hc : (s.station p).recoverInst = true →
      ((s'.station p).completed = false ↔ (s.station p).completed = false)) :
    s'.Pending p ↔ s.Pending p := by
  constructor
  · rintro ⟨hl, hr, hd⟩
    rw [hrec] at hr
    exact ⟨hlive.mp hl, hr, (hc hr).mp hd⟩
  · rintro ⟨hl, hr, hd⟩
    exact ⟨hlive.mpr hl, hrec.trans hr, (hc hr).mpr hd⟩

/-- The fixed parts of the stations are the same. -/
theorem specAgree_of_fixed (hst : ∀ p, (s'.station p).fixed = (s.station p).fixed)
    (hruu : s'.ruu = s.ruu) (hlsq : s'.lsq = s.lsq) (hmode : s'.specMode = s.specMode) :
    s.SpecAgree s' := by
  have hget : ∀ {β : Type} (g : Station U → β), (∀ st, g st.fixed = g st) →
      ∀ p, g (s'.station p) = g (s.station p) := by
    intro β g hg p
    rw [← hg, hst, hg]
  refine ⟨fun _ => live_congr hruu hlsq, hget Station.seq fun _ => rfl,
    hget Station.specMode fun _ => rfl, hget Station.eaComp fun _ => rfl, fun p => ?_, hmode⟩
  refine pending_congr (live_congr hruu hlsq) (hget Station.recoverInst (fun _ => rfl) p)
    fun _ => ?_
  rw [hget Station.completed (fun _ => rfl) p]

theorem Frame.specAgree (h : Frame s s') : s.SpecAgree s' :=
  specAgree_of_fixed h.station h.ruu h.lsq h.specMode

theorem Moved.specAgree (h : s.Moved s') : s.SpecAgree s' :=
  specAgree_of_fixed h.station h.ruu h.lsq h.specMode

/-- An operation that does not recover completes. -/
theorem Completes.specAgree (h : s.Completes s' p) (hp : (s.station p).recoverInst = false) :
    s.SpecAgree s' := by
  refine ⟨fun _ => h.same.live, fun _ => h.same.get Station.seq fun _ => rfl,
    fun _ => h.same.get Station.specMode fun _ => rfl,
    fun _ => h.same.get Station.eaComp fun _ => rfl, fun q => ?_, h.same.specMode⟩
  refine pending_congr h.same.live (h.same.get Station.recoverInst fun _ => rfl) fun hr => ?_
  have hqp : q ≠ p := by
    rintro rfl
    rw [hp] at hr
    exact absurd hr (by simp)
  rw [h.other q hqp]

/-- Completed operations are removed. -/
theorem Speculation.retired {K : RsPtr → Prop} (h : s.Speculation) (hr : s.Removed s' K)
    (hK : ∀ p, K p → (s.station p).completed = true) : s'.Speculation := by
  have hpend : ∀ p, s'.Pending p ↔ s.Pending p := by
    intro p
    constructor
    · rintro ⟨hl, hp, hc⟩
      obtain ⟨hl, hKp⟩ := (hr.live p).mp hl
      rw [hr.same p hKp] at hp hc
      exact ⟨hl, hp, hc⟩
    · rintro ⟨hl, hp, hc⟩
      have hKp : ¬K p := fun hKp => by
        rw [hK p hKp] at hc
        exact absurd hc (by simp)
      have hsame := hr.same p hKp
      exact ⟨(hr.live p).mpr ⟨hl, hKp⟩, hsame ▸ hp, hsame ▸ hc⟩
  refine ⟨fun hm p hp => ?_, fun hm => ?_⟩
  · obtain ⟨hl, hKp⟩ := (hr.live p).mp hp
    rw [hpend, hr.same p hKp]
    exact h.normal (hr.specMode ▸ hm) p hl
  · obtain ⟨b, hb⟩ := h.branch (hr.specMode ▸ hm)
    have hbK := ((hr.live b).mp ((hpend b).mpr hb.pending).live).2
    refine ⟨b, (hpend b).mpr hb.pending, hr.same b hbK ▸ hb.eaComp,
      fun p hp => hb.unique p ((hpend p).mp hp), fun p hp => ?_⟩
    obtain ⟨hl, hKp⟩ := (hr.live p).mp hp
    rw [hr.same p hKp, hr.same b hbK]
    exact hb.spec p hl

/-- The branch completes, what is later is removed, and speculative mode is left. -/
theorem Branch.recovered {K : RsPtr → Prop} (hb : s.Branch b) (hr : s.Removed s' K)
    (hK : ∀ p, K p ↔ s.Live p ∧ (s.station b).seq < (s.station p).seq) (hp : s'.Live p) :
    (s'.station p).specMode = false := by
  obtain ⟨hl, hKp⟩ := (hr.live p).mp hp
  rw [hr.same p hKp]
  by_contra hspec
  exact hKp ((hK p).mpr ⟨hl, (hb.spec p hl).mp (by simpa using hspec)⟩)

/-- A new operation is speculative in speculative mode. -/
theorem Speculation.dispatched (h : s.Speculation)
    (hseq : ∀ q, s.Live q → (s.station q).seq ≤ s.instSeq) (hd : s.Dispatched s' p nm)
    (hrec : (s'.station p).recoverInst = false) : s'.Speculation := by
  have hget : ∀ {β : Type} (g : Station U → β), (∀ st l, g { st with odepList := l } = g st) →
      ∀ q, s.Live q → g (s'.station q) = g (s.station q) :=
    fun g hg q hq => hd.get g hg (hd.ne_of_live hq)
  have hpend : ∀ q, s'.Pending q ↔ s.Pending q := by
    intro q
    by_cases hqp : q = p
    · subst hqp
      constructor
      · rintro ⟨-, hr, -⟩
        rw [hrec] at hr
        exact absurd hr (by simp)
      · rintro ⟨hl, -⟩
        exact absurd hl hd.fresh
    · refine pending_congr (by rw [hd.live, or_iff_left hqp]) ?_ fun _ => ?_
      · exact hd.get Station.recoverInst (fun _ _ => rfl) hqp
      · rw [hd.completed_of_ne hqp]
  refine ⟨fun hm q hq => ?_, fun hm => ?_⟩
  · rw [hd.specMode] at hm
    rw [hpend]
    rcases (hd.live q).mp hq with hl | rfl
    · rw [hget Station.specMode (fun _ _ => rfl) q hl]
      exact h.normal hm q hl
    · exact ⟨hd.spec.trans hm, fun hp => hd.fresh hp.live⟩
  · rw [hd.specMode] at hm
    obtain ⟨b, hb⟩ := h.branch hm
    have hbl := hb.pending.live
    refine ⟨b, (hpend b).mpr hb.pending,
      (hget Station.eaComp (fun _ _ => rfl) b hbl).trans hb.eaComp,
      fun q hq => hb.unique q ((hpend q).mp hq), fun q hq => ?_⟩
    rw [hget Station.seq (fun _ _ => rfl) b hbl]
    rcases (hd.live q).mp hq with hl | rfl
    · rw [hget Station.specMode (fun _ _ => rfl) q hl, hget Station.seq (fun _ _ => rfl) q hl]
      exact hb.spec q hl
    · have hle := hseq b hbl
      rw [hd.spec, hd.seq, hm]
      simp only [true_iff]
      omega

/-- The state after a misprediction has been found: the branch `b` will recover. -/
def mispredicted (s : Core U) (b : RsPtr) : Core U :=
  { s.modify b fun st => { st with recoverInst := true } with specMode := true }

theorem station_mispredicted (s : Core U) (b q : RsPtr) :
    (s.mispredicted b).station q =
      (s.modify b fun st => { st with recoverInst := true }).station q := rfl

/-- A misprediction is found at the operation that has been dispatched last. -/
theorem Speculation.mispredicted (h : s.Speculation) (hm : s.specMode = false) (hb : s.Live b)
    (hea : (s.station b).eaComp = false) (hc : (s.station b).completed = false)
    (hlast : ∀ p, s.Live p → (s.station p).seq ≤ (s.station b).seq) :
    (s.mispredicted b).Speculation := by
  have hget : ∀ {β : Type} (g : Station U → β),
      (∀ st : Station U, g { st with recoverInst := true } = g st) → ∀ q,
      g ((s.mispredicted b).station q) = g (s.station q) := fun g hg q => get_modify g hg
  refine ⟨fun hm' => absurd hm' (by simp [Core.mispredicted]), fun _ =>
    ⟨b, ⟨hb, ?_, ?_⟩, ?_, ?_, ?_⟩⟩
  · rw [station_mispredicted, station_modify_self]
  · rw [hget Station.completed fun _ => rfl, hc]
  · rw [hget Station.eaComp fun _ => rfl, hea]
  · rintro p ⟨hl, hr, hd⟩
    by_contra hpb
    rw [station_mispredicted, station_modify_ne hpb] at hr hd
    exact (h.normal hm p hl).2 ⟨hl, hr, hd⟩
  · intro p hp
    rw [hget Station.specMode fun _ => rfl, hget Station.seq fun _ => rfl,
      hget Station.seq fun _ => rfl, (h.normal hm p hp).1]
    have := hlast p hp
    simp only [Bool.false_eq_true, false_iff, not_lt]
    exact this

end Core

end AdvancedArchitecture.Outorder
