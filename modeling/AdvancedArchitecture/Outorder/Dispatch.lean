import AdvancedArchitecture.Outorder.Linking
import AdvancedArchitecture.Outorder.Scheduled

/-!
# Dispatch

The allocation of a station in `ruu_dispatch`: its fields are filled in, its operands are linked
to the last operations that write them, and its outputs are entered in the create vector.
`Dispatched` says what this changes, and each invariant is kept by it. A load or store is allocated
as two stations, which is the same as one after the other (`allocateMem_core`).
-/

namespace AdvancedArchitecture.Outorder

open Bpred (MdAddr)

variable {U : Type}

namespace Core

/-- The station `p` enters its queue, with the register names `nm`. -/
structure Dispatched (s s' : Core U) (p : RsPtr) (nm : Names) : Prop where
  fresh : ¬s.Live p
  live : ∀ q, s'.Live q ↔ s.Live q ∨ q = p
  tag : ∀ q, (s'.station q).tag = (s.station q).tag
  other : ∀ q, q ≠ p → s'.station q = { s.station q with odepList := (s'.station q).odepList }
  seq : (s'.station p).seq = s.instSeq + 1
  spec : (s'.station p).specMode = s.specMode
  queued : (s'.station p).queued = false
  issued : (s'.station p).issued = false
  completed : (s'.station p).completed = false
  onames : ∀ i < maxOdeps, (s'.station p).onames i = nm.output i
  idepReady : ∀ k < maxIdeps, (s'.station p).idepReady k = (s.source (nm.input k)).isNone
  odepList : ∀ q i, (s'.station q).odepList i = s.newLinks p nm q i ++ (s.station q).odepList i
  createVector : ∀ n, s'.createVector n =
    if s.specMode then s.createVector n else installs p nm n (s.createVector n)
  specCreateVector : ∀ n, s'.specCreateVector n =
    if s.specMode then installs p nm n (s.specCreateVector n) else s.specCreateVector n
  useSpecCv : ∀ n, s'.useSpecCv n = true ↔
    s.useSpecCv n = true ∨ s.specMode = true ∧ n ≠ NA ∧ ∃ i < maxOdeps, nm.output i = n
  specMode : s'.specMode = s.specMode
  instSeq : s'.instSeq = s.instSeq + 1
  simCycle : s'.simCycle = s.simCycle
  readyQueue : s'.readyQueue = s.readyQueue
  eventQueue : s'.eventQueue = s.eventQueue

variable {names : MdInst → Names} {s s' : Core U} {p q : RsPtr} {nm : Names} {i k n : ℕ}
  {ℓ : RsLink}

/-- The source of an operand is the last operation that writes it. -/
theorem Cv.source_eq_some (h : s.Cv none) {l : CvLink} (hl : s.source n = some l) :
    s.Newest none (fun _ => True) n (some l) := by
  rw [source] at hl
  split_ifs at hl with hn
  exact hl ▸ h.read hn

theorem Cv.source_eq_none (h : s.Cv none) (hn : n ≠ NA) (hl : s.source n = none) :
    s.Newest none (fun _ => True) n none := by
  rw [source, if_neg hn] at hl
  exact hl ▸ h.read hn

namespace Dispatched

theorem ne_of_live (h : s.Dispatched s' p nm) (hq : s.Live q) : q ≠ p := by
  rintro rfl
  exact h.fresh hq

/-- Of an operation that was there before, only the output lists change. -/
theorem get {β : Type*} (h : s.Dispatched s' p nm) (g : Station U → β)
    (hg : ∀ st l, g { st with odepList := l } = g st) (hq : q ≠ p) :
    g (s'.station q) = g (s.station q) := by
  rw [h.other q hq, hg]

theorem seq_of_ne (h : s.Dispatched s' p nm) (hq : q ≠ p) :
    (s'.station q).seq = (s.station q).seq := h.get Station.seq (fun _ _ => rfl) hq

theorem completed_of_ne (h : s.Dispatched s' p nm) (hq : q ≠ p) :
    (s'.station q).completed = (s.station q).completed :=
  h.get Station.completed (fun _ _ => rfl) hq

theorem onames_of_ne (h : s.Dispatched s' p nm) (hq : q ≠ p) :
    (s'.station q).onames = (s.station q).onames := h.get Station.onames (fun _ _ => rfl) hq

theorem names_of_ne (h : s.Dispatched s' p nm) (hq : q ≠ p) :
    (s'.station q).names names = (s.station q).names names :=
  h.get (Station.names names) (fun _ _ => rfl) hq

theorem valid (h : s.Dispatched s' p nm) : s'.Valid ℓ ↔ s.Valid ℓ := valid_congr (h.tag _)

theorem link (h : s.Dispatched s' p nm) : s'.link q k = s.link q k := link_congr (h.tag q) k

theorem writes_of_ne (h : s.Dispatched s' p nm) (hq : q ≠ p) :
    s'.Writes q i n ↔ s.Writes q i n := by
  rw [Writes, Writes, h.live, h.onames_of_ne hq, or_iff_left hq]

theorem writes_self (h : s.Dispatched s' p nm) :
    s'.Writes p i n ↔ i < maxOdeps ∧ nm.output i = n ∧ n ≠ NA := by
  rw [Writes, h.live]
  constructor
  · rintro ⟨-, hi, hn, hne⟩
    exact ⟨hi, h.onames i hi ▸ hn, hne⟩
  · rintro ⟨hi, hn, hne⟩
    exact ⟨Or.inr rfl, hi, (h.onames i hi).trans hn, hne⟩

/-- The new operation has the largest number. -/
theorem ne_of_seq_le (h : s.Dispatched s' p nm) (hq : (s'.station q).seq ≤ s.instSeq) : q ≠ p := by
  rintro rfl
  rw [h.seq] at hq
  omega

/-- A link in a list of the new state is one of the new operation, or an old one. -/
theorem mem_odepList (h : s.Dispatched s' p nm) :
    ℓ ∈ (s'.station q).odepList i ↔
      (∃ k < maxIdeps, s.source (nm.input k) = some ⟨q, i⟩ ∧ s.link p k = ℓ) ∨
        ℓ ∈ (s.station q).odepList i := by
  rw [h.odepList, List.mem_append, mem_newLinks]

end Dispatched

/-- An operand of the new operation is linked to its source. -/
theorem Dispatched.waits_self (h : s.Dispatched s' p nm) (hd : s.Deps names none) :
    s'.Waits p k q i ↔ k < maxIdeps ∧ s.source (nm.input k) = some ⟨q, i⟩ := by
  rw [Waits, h.link, h.mem_odepList]
  constructor
  · rintro (⟨k', hk', hsrc, heq⟩ | hold)
    · obtain rfl : k' = k := (RsLink.mk.inj heq).2.2
      exact ⟨hk', hsrc⟩
    · exact absurd (hd.live q i _ hold (s.valid_link p k)) h.fresh
  · rintro ⟨hk, hsrc⟩
    exact Or.inl ⟨k, hk, hsrc, rfl⟩

theorem Dispatched.waits_of_ne {c : RsPtr} (h : s.Dispatched s' p nm) (hc : c ≠ p) :
    s'.Waits c k q i ↔ s.Waits c k q i := by
  rw [Waits, Waits, h.link, h.mem_odepList, or_iff_right]
  rintro ⟨k', -, -, heq⟩
  exact hc (RsLink.mk.inj heq).1.symm

/-- The output lists are right after a dispatch. -/
theorem Deps.dispatched (hd : s.Deps names none) (hcv : s.Cv none)
    (hseq : ∀ q, s.Live q → (s.station q).seq ≤ s.instSeq) (h : s.Dispatched s' p nm)
    (hnm : (s'.station p).names names = nm) : s'.Deps names none := by
  -- A source is an older operation.
  have hsrc : ∀ {k q i}, s.source (nm.input k) = some ⟨q, i⟩ →
      q ≠ p ∧ s.Writes q i (nm.input k) ∧ (s.station q).completed = false ∧
        ∀ q' j, s.Writes q' j (nm.input k) → (s.station q').seq ≤ (s.station q).seq := by
    intro k q i hk
    obtain ⟨hw, -, ho, hle⟩ := hcv.source_eq_some hk
    refine ⟨h.ne_of_live hw.1, hw, ho.resolve_right ?_, fun q' j hw' => hle q' j hw' trivial⟩
    rintro ⟨_, -, hbusy⟩
    exact absurd hbusy (by simp)
  have hold : ∀ {q i ℓ}, ℓ ∈ (s.station q).odepList i → q ≠ p :=
    fun hℓ => h.ne_of_live (hd.list_open _ _ _ hℓ).1.1
  have hcon : ∀ {q i ℓ}, ℓ ∈ (s.station q).odepList i → s'.Valid ℓ →
      s.Valid ℓ ∧ ℓ.rs ≠ p ∧ (s.station ℓ.rs).seq ≤ s.instSeq := by
    intro q i ℓ hℓ hv
    have hv' := h.valid.mp hv
    have hl := hd.live q i ℓ hℓ hv'
    exact ⟨hv', h.ne_of_live hl, hseq _ hl⟩
  refine ⟨fun q i ℓ hℓ => ?_, fun q i ℓ hℓ => ?_, fun q i => ?_, fun q i ℓ hℓ hv => ?_,
    fun q i ℓ hℓ hv => ?_, fun q i ℓ hℓ hv => ?_, fun q i ℓ hℓ hv => ?_, fun q i ℓ hℓ hv => ?_,
    fun c k q i q' j hw hw' => ?_, fun c k hl hk hr => ?_, fun c k hl hk hr => ?_⟩
  · rcases h.mem_odepList.mp hℓ with ⟨k, -, hk, -⟩ | hℓ
    · obtain ⟨hne, hw, hopen, -⟩ := hsrc hk
      rw [h.writes_of_ne hne, Open, h.completed_of_ne hne, h.onames_of_ne hne, hw.2.2.1]
      exact ⟨hw, Or.inl hopen⟩
    · have hne := hold hℓ
      rw [h.writes_of_ne hne, Open, h.completed_of_ne hne, h.onames_of_ne hne]
      exact hd.list_open q i ℓ hℓ
  · rw [h.tag]
    rcases h.mem_odepList.mp hℓ with ⟨k, -, -, rfl⟩ | hℓ
    · exact le_rfl
    · exact hd.tag_le q i ℓ hℓ
  · rw [h.odepList]
    refine (nodup_newLinks nm).append (hd.nodup q i) fun ℓ hnew hℓ => ?_
    obtain ⟨k, -, -, rfl⟩ := mem_newLinks.mp hnew
    exact h.fresh (hd.live q i _ hℓ (s.valid_link p k))
  · rw [h.live]
    rcases h.mem_odepList.mp hℓ with ⟨k, -, -, rfl⟩ | hℓ
    · exact Or.inr rfl
    · exact Or.inl (hd.live q i ℓ hℓ (h.valid.mp hv))
  · rcases h.mem_odepList.mp hℓ with ⟨k, hlt, hk, rfl⟩ | hℓ
    · exact ⟨hlt, by rw [show (s.link p k).x = k from rfl, show (s.link p k).rs = p from rfl,
        h.idepReady k hlt, hk]; rfl⟩
    · obtain ⟨hv', hne, -⟩ := hcon hℓ hv
      rw [h.get Station.idepReady (fun _ _ => rfl) hne]
      exact hd.waiting q i ℓ hℓ hv'
  · rcases h.mem_odepList.mp hℓ with ⟨k, -, hk, rfl⟩ | hℓ
    · obtain ⟨hne, hw, -⟩ := hsrc hk
      rw [h.seq_of_ne hne, show (s.link p k).rs = p from rfl, h.seq]
      exact Nat.lt_succ_of_le (hseq q hw.1)
    · obtain ⟨hv', hne, -⟩ := hcon hℓ hv
      rw [h.seq_of_ne (hold hℓ), h.seq_of_ne hne]
      exact hd.older q i ℓ hℓ hv'
  · rcases h.mem_odepList.mp hℓ with ⟨k, -, hk, rfl⟩ | hℓ
    · obtain ⟨hne, hw, -⟩ := hsrc hk
      rw [h.onames_of_ne hne, hw.2.2.1, show (s.link p k).rs = p from rfl, hnm]
      rfl
    · obtain ⟨hv', hne, -⟩ := hcon hℓ hv
      rw [h.onames_of_ne (hold hℓ), h.names_of_ne hne]
      exact hd.reads q i ℓ hℓ hv'
  · intro q' j hw hlt
    rcases h.mem_odepList.mp hℓ with ⟨k, -, hk, rfl⟩ | hℓ
    · obtain ⟨hne, hwq, -, hle⟩ := hsrc hk
      rw [show (s.link p k).rs = p from rfl, h.seq] at hlt
      have hne' := h.ne_of_seq_le (Nat.le_of_lt_succ hlt)
      rw [h.onames_of_ne hne, hwq.2.2.1, h.writes_of_ne hne'] at hw
      rw [h.seq_of_ne hne, h.seq_of_ne hne']
      exact hle q' j hw
    · obtain ⟨hv', hne, hbound⟩ := hcon hℓ hv
      rw [h.seq_of_ne hne] at hlt
      have hne' := h.ne_of_seq_le (hlt.le.trans hbound)
      rw [h.onames_of_ne (hold hℓ), h.writes_of_ne hne'] at hw
      rw [h.seq_of_ne hne'] at hlt ⊢
      rw [h.seq_of_ne (hold hℓ)]
      exact hd.last q i ℓ hℓ hv' q' j hw hlt
  · by_cases hc : c = p
    · subst hc
      rw [h.waits_self hd] at hw hw'
      obtain ⟨hq, hi⟩ := CvLink.mk.inj (Option.some.inj (hw.2.symm.trans hw'.2))
      exact ⟨hq, hi⟩
    · rw [h.waits_of_ne hc] at hw hw'
      exact hd.unique c k q i q' j hw hw'
  · by_cases hc : c = p
    · subst hc
      rw [h.idepReady k hk] at hr
      rcases hsrck : s.source (nm.input k) with _ | l
      · rw [hsrck] at hr
        exact absurd hr (by simp)
      · exact ⟨l.rs, l.odepNum, (h.waits_self hd).mpr ⟨hk, hsrck⟩⟩
    · rw [h.get Station.idepReady (fun _ _ => rfl) hc] at hr
      obtain ⟨q, i, hw⟩ := hd.linked c k (((h.live c).mp hl).resolve_right hc) hk hr
      exact ⟨q, i, (h.waits_of_ne hc).mpr hw⟩
  · intro q j hw hlt
    by_cases hc : c = p
    · subst hc
      rw [h.idepReady k hk, Option.isNone_iff_eq_none] at hr
      rw [hnm] at hw ⊢
      rw [h.seq] at hlt ⊢
      have hne := h.ne_of_seq_le (Nat.le_of_lt_succ hlt)
      rw [h.writes_of_ne hne] at hw
      obtain ⟨q', j', hw', -, hle, hdone⟩ := hcv.source_eq_none hw.2.2.2 hr q j hw trivial
      have hne' := h.ne_of_live hw'.1
      refine ⟨q', j', (h.writes_of_ne hne').mpr hw', ?_⟩
      rw [h.seq_of_ne hne, h.seq_of_ne hne', h.completed_of_ne hne']
      exact ⟨hle, Nat.lt_succ_of_le (hseq q' hw'.1), hdone⟩
    · have hlive := ((h.live c).mp hl).resolve_right hc
      rw [h.get Station.idepReady (fun _ _ => rfl) hc] at hr
      rw [h.names_of_ne hc] at hw ⊢
      rw [h.seq_of_ne hc] at hlt ⊢
      have hne := h.ne_of_seq_le (hlt.le.trans (hseq c hlive))
      rw [h.writes_of_ne hne] at hw
      rw [h.seq_of_ne hne] at hlt
      obtain ⟨q', j', hw', hle, hlt', hdone⟩ := hd.ready c k hlive hk hr q j hw hlt
      have hne' := h.ne_of_live hw'.1
      refine ⟨q', j', (h.writes_of_ne hne').mpr hw', ?_⟩
      rw [h.seq_of_ne hne, h.seq_of_ne hne', h.completed_of_ne hne']
      exact ⟨hle, hlt', hdone⟩

/-! ### The create vector -/

/-- Either the register is an output of the operation, or its entry stays. -/
theorem installs_cases (p : RsPtr) (nm : Names) (old : Option CvLink) (hn : n ≠ NA) :
    (∃ i < maxOdeps, nm.output i = n ∧ installs p nm n old = some ⟨p, i⟩) ∨
      (∀ i < maxOdeps, nm.output i ≠ n) ∧ installs p nm n old = old := by
  rw [installs, install, install]
  by_cases h₂ : n = nm.out2
  · exact Or.inl ⟨1, by decide, h₂.symm, if_pos ⟨h₂ ▸ hn, h₂⟩⟩
  · rw [if_neg fun h => h₂ h.2]
    by_cases h₁ : n = nm.out1
    · exact Or.inl ⟨0, by decide, h₁.symm, if_pos ⟨h₁ ▸ hn, h₁⟩⟩
    · rw [if_neg fun h => h₁ h.2]
      refine Or.inr ⟨fun i _ hi => ?_, rfl⟩
      cases i with
      | zero => exact h₁ hi.symm
      | succ i => exact h₂ hi.symm

namespace Dispatched

/-- An entry stays right if the new operation is not one of its writers. -/
theorem newest (h : s.Dispatched s' p nm) {P : Station U → Prop} {l : Option CvLink}
    (hP : ∀ q, q ≠ p → (P (s'.station q) ↔ P (s.station q)))
    (hp : ∀ i, s'.Writes p i n → ¬P (s'.station p)) (hl : s.Newest none P n l) :
    s'.Newest none P n l := by
  have hold : ∀ {q i}, s'.Writes q i n → P (s'.station q) → q ≠ p := by
    rintro q i hw hPq rfl
    exact hp i hw hPq
  cases l with
  | none =>
    intro q j hw hPq
    have hne := hold hw hPq
    obtain ⟨q', j', hw', hPq', hle, hdone⟩ :=
      hl q j ((h.writes_of_ne hne).mp hw) ((hP q hne).mp hPq)
    have hne' := h.ne_of_live hw'.1
    refine ⟨q', j', (h.writes_of_ne hne').mpr hw', (hP q' hne').mpr hPq', ?_⟩
    rw [h.seq_of_ne hne, h.seq_of_ne hne', h.completed_of_ne hne']
    exact ⟨hle, hdone⟩
  | some l =>
    obtain ⟨hw, hPl, ho, hle⟩ := hl
    have hne := h.ne_of_live hw.1
    refine ⟨(h.writes_of_ne hne).mpr hw, (hP _ hne).mpr hPl, ?_, fun q j hw' hPq => ?_⟩
    · rw [Open, h.completed_of_ne hne]
      exact ho
    · have hne' := hold hw' hPq
      rw [h.seq_of_ne hne, h.seq_of_ne hne']
      exact hle q j ((h.writes_of_ne hne').mp hw') ((hP q hne').mp hPq)

/-- An entry for the new operation is right. -/
theorem newest_self (h : s.Dispatched s' p nm)
    (hseq : ∀ q, s.Live q → (s.station q).seq ≤ s.instSeq) {P : Station U → Prop}
    (hi : i < maxOdeps) (hin : nm.output i = n) (hn : n ≠ NA) (hP : P (s'.station p)) :
    s'.Newest none P n (some ⟨p, i⟩) := by
  refine ⟨h.writes_self.mpr ⟨hi, hin, hn⟩, hP, Or.inl h.completed, fun q j hw _ => ?_⟩
  rcases (h.live q).mp hw.1 with hq | rfl
  · have hle := hseq q hq
    rw [h.seq_of_ne (h.ne_of_live hq), show (CvLink.mk p i).rs = p from rfl, h.seq]
    omega
  · exact le_rfl

end Dispatched

/-- The create vectors are right after a dispatch. -/
theorem Cv.dispatched (hcv : s.Cv none)
    (hseq : ∀ q, s.Live q → (s.station q).seq ≤ s.instSeq) (h : s.Dispatched s' p nm) :
    s'.Cv none := by
  have hspec : ∀ q, q ≠ p → (s'.station q).specMode = (s.station q).specMode :=
    fun q hq => h.get Station.specMode (fun _ _ => rfl) hq
  have hnot : ∀ {n}, (∀ i < maxOdeps, nm.output i ≠ n) → ∀ i, ¬s'.Writes p i n :=
    fun hout i hw => hout i (h.writes_self.mp hw).1 (h.writes_self.mp hw).2.1
  refine ⟨fun n hn => ?_, fun n hn hu => ?_, fun n l hn hu hl => ?_, fun n hu q i hw => ?_,
    fun hm n => ?_⟩
  · have hplain := hcv.plain n hn
    rw [h.createVector]
    split_ifs with hmode
    · refine h.newest (fun q hq => by rw [hspec q hq]) (fun _ _ => ?_) hplain
      rw [h.spec, hmode]
      simp
    · rcases installs_cases p nm (s.createVector n) hn with ⟨i, hi, hin, heq⟩ | ⟨hno, heq⟩
      · rw [heq]
        exact h.newest_self hseq hi hin hn (by rw [h.spec]; simpa using hmode)
      · rw [heq]
        exact h.newest (fun q hq => by rw [hspec q hq]) (fun i hw => absurd hw (hnot hno i)) hplain
  · -- the speculative copy is in use, or comes into use with this operation
    have hmode : s.specMode = true := by
      by_contra hmode
      rcases (h.useSpecCv n).mp hu with hu | ⟨hmode', -⟩
      · rw [hcv.mode (by simpa using hmode) n] at hu
        exact absurd hu (by simp)
      · exact hmode hmode'
    rw [h.specCreateVector, if_pos hmode]
    rcases installs_cases p nm (s.specCreateVector n) hn with ⟨i, hi, hin, heq⟩ | ⟨hno, heq⟩
    · rw [heq]
      exact h.newest_self hseq hi hin hn trivial
    · rw [heq]
      refine h.newest (fun _ _ => Iff.rfl) (fun i hw => absurd hw (hnot hno i)) (hcv.spec n hn ?_)
      exact ((h.useSpecCv n).mp hu).resolve_right fun ⟨_, _, i, hi, hin⟩ => hno i hi hin
  · rw [h.specCreateVector] at hl
    -- what the speculative copy had before
    have hold : s.useSpecCv n = true → s.specCreateVector n = some l →
        (s'.station l.rs).specMode = true := by
      intro hu hl
      have hw := (hl ▸ hcv.spec n hn hu : s.Newest none _ n (some l)).1
      rw [hspec _ (h.ne_of_live hw.1)]
      exact hcv.spec_of n l hn hu hl
    split_ifs at hl with hmode
    · rcases installs_cases p nm (s.specCreateVector n) hn with ⟨i, -, -, heq⟩ | ⟨hno, heq⟩
      · rw [heq] at hl
        obtain rfl := Option.some.inj hl
        rw [h.spec, hmode]
      · refine hold (((h.useSpecCv n).mp hu).resolve_right ?_) (heq ▸ hl)
        exact fun ⟨_, _, i, hi, hin⟩ => hno i hi hin
    · exact hold (((h.useSpecCv n).mp hu).resolve_right fun hu => hmode hu.1) hl
  · have hu' : s.useSpecCv n = false := by
      by_contra hne
      rw [(h.useSpecCv n).mpr (Or.inl (by simpa using hne))] at hu
      exact absurd hu (by simp)
    -- a register whose speculative copy is not in use is not written by the new operation
    by_cases hq : q = p
    · subst hq
      rw [h.spec]
      by_contra hmode
      obtain ⟨hi, hin, hn⟩ := h.writes_self.mp hw
      rw [(h.useSpecCv n).mpr (Or.inr ⟨by simpa using hmode, hn, i, hi, hin⟩)] at hu
      exact absurd hu (by simp)
    · rw [hspec q hq]
      exact hcv.clean n hu' q i ((h.writes_of_ne hq).mp hw)
  · by_contra hne
    rw [h.specMode] at hm
    rcases (h.useSpecCv n).mp (by simpa using hne) with hu | ⟨hmode, -⟩
    · rw [hcv.mode hm n] at hu
      exact absurd hu (by simp)
    · rw [hm] at hmode
      exact absurd hmode (by simp)

/-- A new operation is on neither queue. -/
theorem Scheduled.dispatched {pend : List RsLink} (hs : s.Scheduled pend)
    (h : s.Dispatched s' p nm) : s'.Scheduled pend := by
  have hold : ∀ {q}, s'.Live q → q ≠ p → s.Live q := fun hl hq =>
    ((h.live _).mp hl).resolve_right hq
  have hready : ∀ {q}, q ≠ p → (s'.station q).operandsReady = (s.station q).operandsReady :=
    fun hq => h.get Station.operandsReady (fun _ _ => rfl) hq
  have hqueued : ∀ {q}, q ≠ p → (s'.station q).queued = (s.station q).queued :=
    fun hq => h.get Station.queued (fun _ _ => rfl) hq
  have hissued : ∀ {q}, q ≠ p → (s'.station q).issued = (s.station q).issued :=
    fun hq => h.get Station.issued (fun _ _ => rfl) hq
  refine ⟨?_, ?_, h.eventQueue ▸ hs.sorted, fun q hl hq => ?_, fun q hl hi => ?_,
    fun q hl hc => ?_⟩
  · rw [h.readyQueue]
    refine hs.ready.added h.fresh h.tag h.live (fun q hq => ?_) (by simp [h.queued])
    rw [hqueued (h.ne_of_live hq)]
  · rw [h.eventQueue]
    refine hs.events.added h.fresh h.tag h.live (fun q hq => ?_) (by simp [h.issued])
    rw [hissued (h.ne_of_live hq), h.completed_of_ne (h.ne_of_live hq)]
  · have hne : q ≠ p := by
      rintro rfl
      exact absurd hq (by simp [h.queued])
    rw [hqueued hne] at hq
    rw [hready hne, hissued hne, h.completed_of_ne hne]
    exact hs.queued q (hold hl hne) hq
  · have hne : q ≠ p := by
      rintro rfl
      exact absurd hi (by simp [h.issued])
    rw [hissued hne] at hi
    rw [hready hne]
    exact hs.issued q (hold hl hne) hi
  · have hne : q ≠ p := by
      rintro rfl
      exact absurd hc (by simp [h.completed])
    rw [h.completed_of_ne hne] at hc
    rw [hissued hne]
    exact hs.completed q (hold hl hne) hc

/-! ### The allocation of a station -/

open Machine (fill linkStation)

/-- The values that `ruu_dispatch` fills in for an operation. -/
structure Operation (U : Type) where
  fetched : FetchRec U
  op : Opcode
  npc : MdAddr
  predPC : MdAddr
  addr : MdAddr
  eaComp : Bool
  update : Option U

/-- The fields that are filled in. -/
def Operation.write (e : Operation U) (inLSQ specMode : Bool) (seq : ℕ) (st : Station U) :
    Station U :=
  { st with
    IR := e.fetched.IR, op := e.op, PC := e.fetched.regsPC, nextPC := e.npc, predPC := e.predPC
    inLSQ := inLSQ, eaComp := e.eaComp, recoverInst := false, update := e.update
    specMode := specMode, addr := e.addr, seq := seq
    queued := false, issued := false, completed := false }

/-- `fill`, with the values of `e`. -/
def filled (s : Core U) (p : RsPtr) (e : Operation U) : Core U :=
  fill s p e.fetched e.op e.npc e.predPC e.addr e.eaComp e.update

/-- The tail of the queue of `p` moves on. -/
def pushed (s : Core U) (p : RsPtr) : Core U :=
  if p.inLSQ then { s with lsq := s.lsq.push } else { s with ruu := s.ruu.push }

/-- The allocation of the station `p`, from its fields to the tail of its queue. -/
def place (s : Core U) (p : RsPtr) (e : Operation U) (nm : Names) : Core U :=
  (linkStation (s.filled p e) p nm).pushed p

/-- The next station of a queue, which has room for it. -/
structure Free (s : Core U) (p : RsPtr) : Prop where
  ruu_ok : s.ruu.Ok
  lsq_ok : s.lsq.Ok
  idx : p.idx = if p.inLSQ then s.lsq.tail else s.ruu.tail
  room : if p.inLSQ then s.lsq.num < s.lsq.size else s.ruu.num < s.ruu.size

namespace Free

theorem fresh (h : s.Free p) : ¬s.Live p := by
  obtain ⟨_ | _, i⟩ := p
  · obtain rfl : i = s.ruu.tail := h.idx
    exact h.ruu_ok.tail_notMem h.room
  · obtain rfl : i = s.lsq.tail := h.idx
    exact h.lsq_ok.tail_notMem h.room

theorem live_pushed (h : s.Free p) (hruu : s'.ruu = s.ruu) (hlsq : s'.lsq = s.lsq) (q : RsPtr) :
    (s'.pushed p).Live q ↔ s.Live q ∨ q = p := by
  obtain ⟨_ | _, i⟩ := p <;> obtain ⟨_ | _, j⟩ := q
  · obtain rfl : i = s.ruu.tail := h.idx
    simp [pushed, Live, hruu, h.ruu_ok.slots_push]
  · simp [pushed, Live, hlsq]
  · simp [pushed, Live, hruu]
  · obtain rfl : i = s.lsq.tail := h.idx
    simp [pushed, Live, hlsq, h.lsq_ok.slots_push]

end Free

section place

variable {e : Operation U}

theorem station_pushed : (s.pushed p).station = s.station := by
  rw [pushed]
  split <;> rfl

theorem station_filled (q : RsPtr) :
    (s.filled p e).station q =
      (s.modify p (e.write p.inLSQ s.specMode (s.instSeq + 1))).station q := rfl

theorem station_filled_ne (hq : q ≠ p) : (s.filled p e).station q = s.station q := by
  rw [station_filled, station_modify_ne hq]

theorem station_filled_self :
    (s.filled p e).station p = e.write p.inLSQ s.specMode (s.instSeq + 1) (s.station p) := by
  rw [station_filled, station_modify_self]

theorem tag_filled (q : RsPtr) : ((s.filled p e).station q).tag = (s.station q).tag := by
  rw [station_filled]
  exact get_modify Station.tag fun _ => rfl

theorem newLinks_filled (i : ℕ) : (s.filled p e).newLinks p nm q i = s.newLinks p nm q i := by
  have hlink : (s.filled p e).link p = s.link p := funext fun k => link_congr (tag_filled p) k
  rw [newLinks, newLinks, hlink]
  rfl

theorem odepList_filled (q : RsPtr) :
    ((s.filled p e).station q).odepList = (s.station q).odepList := by
  rw [station_filled]
  exact get_modify Station.odepList fun _ => rfl

/-- What the linking of a station does not change is as it has been filled in. -/
theorem get_place {β : Type*} (g : Station U → β)
    (hi : ∀ (st : Station U) k b, g (st.setIdepReady k b) = g st)
    (ho : ∀ (st : Station U) i l, g (st.setOdepList i l) = g st)
    (hn : ∀ (st : Station U) i n, g (st.setOname i n) = g st) (q : RsPtr) :
    g ((s.place p e nm).station q) = g ((s.filled p e).station q) := by
  rw [place, station_pushed, get_linkStation g hi ho hn]

theorem get_place_self {β : Type*} (g : Station U → β)
    (hi : ∀ (st : Station U) k b, g (st.setIdepReady k b) = g st)
    (ho : ∀ (st : Station U) i l, g (st.setOdepList i l) = g st)
    (hn : ∀ (st : Station U) i n, g (st.setOname i n) = g st) :
    g ((s.place p e nm).station p) =
      g (e.write p.inLSQ s.specMode (s.instSeq + 1) (s.station p)) := by
  rw [get_place g hi ho hn, station_filled_self]

/-- A station with other links and names. -/
def Station.setLinks (l : ℕ → List RsLink) (r : ℕ → Bool) (o : ℕ → ℕ) (st : Station U) :
    Station U :=
  { st with odepList := l, idepReady := r, onames := o }

theorem place_other (hq : q ≠ p) :
    (s.place p e nm).station q =
      { s.station q with odepList := ((s.place p e nm).station q).odepList } := by
  have hready : ((s.place p e nm).station q).idepReady = (s.station q).idepReady := by
    rw [place, station_pushed, idepReady_linkStation]
    funext k
    rw [idepReady_inputsLinked_ne hq, station_filled_ne hq]
  have honames : ((s.place p e nm).station q).onames = (s.station q).onames := by
    rw [place, station_pushed, onames_linkStation_ne hq, station_filled_ne hq]
  have hrest : ∀ l r o, Station.setLinks l r o ((s.place p e nm).station q) =
      Station.setLinks l r o ((s.filled p e).station q) := fun l r o =>
    get_place (Station.setLinks l r o) (fun _ _ _ => rfl) (fun _ _ _ => rfl) (fun _ _ _ => rfl) q
  rw [station_filled_ne hq] at hrest
  refine Eq.trans ?_ (hrest ((s.place p e nm).station q).odepList (s.station q).idepReady
    (s.station q).onames)
  rw [Station.setLinks, ← hready, ← honames]

/-- An output has one of the two names. -/
theorem eq_output_iff : (n = nm.out1 ∨ n = nm.out2) ↔ ∃ i < maxOdeps, nm.output i = n := by
  constructor
  · rintro (rfl | rfl)
    · exact ⟨0, by decide, rfl⟩
    · exact ⟨1, by decide, rfl⟩
  · rintro ⟨_ | i, -, rfl⟩
    · exact Or.inl rfl
    · exact Or.inr rfl

/-- The allocation of a station is a dispatch. -/
theorem dispatched_place (e : Operation U) (nm : Names) (hd : s.Deps names none) (hcv : s.Cv none)
    (hf : s.Free p) : s.Dispatched (s.place p e nm) p nm := by
  have hrest := linkStation_rest (s.filled p e) p nm
  have hpushed : ∀ t : Core U, t.pushed p =
      { t with ruu := (t.pushed p).ruu, lsq := (t.pushed p).lsq } := by
    intro t
    rw [pushed]
    split <;> rfl
  refine ⟨hf.fresh, fun q => hf.live_pushed (by rw [hrest]; rfl) (by rw [hrest]; rfl) q,
    fun q => ?_, fun q hq => place_other hq, get_place_self Station.seq (fun _ _ _ => rfl)
    (fun _ _ _ => rfl) fun _ _ _ => rfl,
    get_place_self Station.specMode (fun _ _ _ => rfl) (fun _ _ _ => rfl) fun _ _ _ => rfl,
    get_place_self Station.queued (fun _ _ _ => rfl) (fun _ _ _ => rfl) fun _ _ _ => rfl,
    get_place_self Station.issued (fun _ _ _ => rfl) (fun _ _ _ => rfl) fun _ _ _ => rfl,
    get_place_self Station.completed (fun _ _ _ => rfl) (fun _ _ _ => rfl) fun _ _ _ => rfl,
    fun i hi => ?_, fun k hk => ?_, fun q i => ?_, fun n => ?_, fun n => ?_, fun n => ?_,
    ?_, ?_, ?_, ?_, ?_⟩
  · rw [get_place Station.tag (fun _ _ _ => rfl) (fun _ _ _ => rfl) fun _ _ _ => rfl, tag_filled]
  · rw [place, station_pushed, onames_linkStation hi]
  · rw [place, station_pushed, idepReady_linkStation, idepReady_inputsLinked hk]
    rfl
  · by_cases hq : q = p
    · subst hq
      have hold : (s.station q).odepList i = [] := by
        by_contra hne
        obtain ⟨ℓ, hℓ⟩ := List.exists_mem_of_ne_nil _ hne
        exact hf.fresh (hd.list_open q i ℓ hℓ).1.1
      have hnew : s.newLinks q nm q i = [] := by
        by_contra hne
        obtain ⟨ℓ, hℓ⟩ := List.exists_mem_of_ne_nil _ hne
        obtain ⟨k, -, hk, -⟩ := mem_newLinks.mp hℓ
        exact hf.fresh (hcv.source_eq_some hk).1.1
      rw [place, station_pushed, hnew, hold, odepList_linkStation_self]
      · rfl
      · rw [newLinks_filled, hnew]
      · rw [odepList_filled, hold]
    · rw [place, station_pushed, odepList_linkStation_ne hq, newLinks_filled, odepList_filled]
  · rw [place, hpushed, hrest]
    rfl
  · rw [place, hpushed, hrest]
    rfl
  · rw [place, hpushed, hrest, ← eq_output_iff]
    change (s.useSpecCv n ||
      (s.specMode && decide (n ≠ NA ∧ (n = nm.out1 ∨ n = nm.out2)))) = true ↔ _
    rw [Bool.or_eq_true, Bool.and_eq_true, decide_eq_true_eq]
  all_goals
    rw [place, hpushed, hrest]
    rfl

theorem place_ruu : (s.place p e nm).ruu = if p.inLSQ then s.ruu else s.ruu.push := by
  rw [place, linkStation_rest, pushed]
  split <;> rfl

theorem place_lsq : (s.place p e nm).lsq = if p.inLSQ then s.lsq.push else s.lsq := by
  rw [place, linkStation_rest, pushed]
  split <;> rfl

theorem place_instSeq : (s.place p e nm).instSeq = s.instSeq + 1 := by
  rw [place, linkStation_rest, pushed]
  split <;> rfl

theorem fixed_place_of_ne (hq : q ≠ p) :
    ((s.place p e nm).station q).fixed = (s.station q).fixed := by
  rw [place_other hq]
  rfl

theorem onames_place (hi : i < maxOdeps) :
    ((s.place p e nm).station p).onames i = nm.output i := by
  rw [place, station_pushed, onames_linkStation hi]

end place

/-! ### The window -/

/-- An RUU entry is appended, and for an address computation its memory access. -/
theorem Window.append (h : s.Window) {j : ℕ} {l : List ℕ} (hruu_ok : s'.ruu.Ok)
    (hlsq_ok : s'.lsq.Ok) (hruu : s'.ruu.slots = s.ruu.slots ++ [j])
    (hlsq : s'.lsq.slots = s.lsq.slots ++ l)
    (hold : ∀ q, s.Live q → (s'.station q).fixed = (s.station q).fixed)
    (hseq : (s'.station ⟨false, j⟩).seq = s.instSeq + 1)
    (hlast : (s'.station ⟨false, j⟩).lastSeq ≤ s'.instSeq) (hinst : s.instSeq ≤ s'.instSeq)
    (hinLSQ : (s'.station ⟨false, j⟩).inLSQ = false)
    (hnew : (l.map fun i => (s'.station ⟨true, i⟩).seq) =
      if (s'.station ⟨false, j⟩).eaComp then [(s'.station ⟨false, j⟩).seq + 1] else [])
    (haccess : ∀ i ∈ l, (s'.station ⟨true, i⟩).inLSQ = true ∧
      (s'.station ⟨true, i⟩).eaComp = false ∧ (s'.station ⟨true, i⟩).recoverInst = false ∧
      (s'.station ⟨true, i⟩).op.mem = true ∧ ((s'.station ⟨true, i⟩).op.isStore = true →
        ∀ k < maxOdeps, (s'.station ⟨true, i⟩).onames k = NA)) : s'.Window := by
  -- the stations that were live keep what the window looks at
  have hget : ∀ {β : Type} (g : Station U → β), (∀ st, g st.fixed = g st) →
      ∀ q, s.Live q → g (s'.station q) = g (s.station q) := by
    intro β g hg q hq
    rw [← hg, hold q hq, hg]
  have hseq_old := hget Station.seq fun _ => rfl
  have hlast_old := hget Station.lastSeq fun _ => rfl
  have hea := hget Station.eaComp fun _ => rfl
  have hop := hget Station.op fun _ => rfl
  have hlsq_mem : ∀ {P : ℕ → Prop}, (∀ i ∈ s.lsq.slots, P i) → (∀ i ∈ l, P i) →
      ∀ i ∈ s'.lsq.slots, P i := by
    intro P hs hl i hi
    rw [hlsq, List.mem_append] at hi
    exact hi.elim (hs i) (hl i)
  refine ⟨hruu_ok, hlsq_ok, ?_, ?_, ?_, ?_, ?_, ?_, ?_, ?_⟩
  · rw [hruu, List.pairwise_append]
    refine ⟨h.ordered.imp_of_mem fun {a b} ha hb hab => ?_, List.pairwise_singleton _ _,
      fun a ha b hb => ?_⟩
    · rwa [hlast_old _ (live_ruu.mpr ha), hseq_old _ (live_ruu.mpr hb)]
    · obtain rfl := List.mem_singleton.mp hb
      rw [hlast_old _ (live_ruu.mpr ha), hseq]
      exact Nat.lt_succ_of_le (h.lastSeq_le a ha)
  · intro i hi
    rw [hruu, List.mem_append, List.mem_singleton] at hi
    rcases hi with hi | rfl
    · rw [hlast_old _ (live_ruu.mpr hi)]
      exact (h.lastSeq_le i hi).trans hinst
    · exact hlast
  · -- the pairing: both sides get the numbers of the new operation appended
    have hmap : (s.lsq.slots.map fun i => (s'.station ⟨true, i⟩).seq) =
        s.lsq.slots.map fun i => (s.station ⟨true, i⟩).seq :=
      List.map_congr_left fun i hi => hseq_old _ (live_lsq.mpr hi)
    have hfilter : (s.ruu.slots.filter fun i => (s'.station ⟨false, i⟩).eaComp) =
        s.ruu.slots.filter fun i => (s.station ⟨false, i⟩).eaComp :=
      List.filter_congr fun i hi => hea _ (live_ruu.mpr hi)
    have hmap' : ((s.ruu.slots.filter fun i => (s.station ⟨false, i⟩).eaComp).map
          fun i => (s'.station ⟨false, i⟩).seq + 1) =
        (s.ruu.slots.filter fun i => (s.station ⟨false, i⟩).eaComp).map
          fun i => (s.station ⟨false, i⟩).seq + 1 :=
      List.map_congr_left fun i hi =>
        congrArg (· + 1) (hseq_old _ (live_ruu.mpr (List.mem_of_mem_filter hi)))
    rw [hruu, hlsq, List.map_append, List.filter_append, List.map_append, hmap, hfilter, hmap',
      h.paired, hnew, List.filter_singleton]
    split <;> rename_i hj <;> simp [hj]
  · rintro ⟨_ | _, i⟩ hp
    · rw [live_ruu, hruu, List.mem_append, List.mem_singleton] at hp
      rcases hp with hi | rfl
      · rw [hget Station.inLSQ (fun _ => rfl) _ (live_ruu.mpr hi)]
        exact h.inLSQ _ (live_ruu.mpr hi)
      · exact hinLSQ
    · refine hlsq_mem (P := fun i => (s'.station ⟨true, i⟩).inLSQ = true) (fun i hi => ?_)
        (fun i hi => (haccess i hi).1) i hp
      rw [hget Station.inLSQ (fun _ => rfl) _ (live_lsq.mpr hi)]
      exact h.inLSQ _ (live_lsq.mpr hi)
  · refine hlsq_mem (fun i hi => ?_) fun i hi => (haccess i hi).2.1
    rw [hea _ (live_lsq.mpr hi)]
    exact h.access_eaComp i hi
  · refine hlsq_mem (fun i hi => ?_) fun i hi => (haccess i hi).2.2.1
    rw [hget Station.recoverInst (fun _ => rfl) _ (live_lsq.mpr hi)]
    exact h.access_recoverInst i hi
  · refine hlsq_mem (fun i hi => ?_) fun i hi => (haccess i hi).2.2.2.1
    rw [hop _ (live_lsq.mpr hi)]
    exact h.access_mem i hi
  · refine hlsq_mem (fun i hi => ?_) fun i hi => (haccess i hi).2.2.2.2
    rw [hop _ (live_lsq.mpr hi), hget Station.onames (fun _ => rfl) _ (live_lsq.mpr hi)]
    exact h.store_onames i hi

variable {e e' : Operation U} {nm' : Names}

/-- The next station of the RUU. -/
abbrev nextRuu (s : Core U) : RsPtr := ⟨false, s.ruu.tail⟩

/-- The next station of the LSQ. -/
abbrev nextLsq (s : Core U) : RsPtr := ⟨true, s.lsq.tail⟩

theorem Window.free_ruu (h : s.Window) (hroom : s.ruu.num < s.ruu.size) : s.Free s.nextRuu :=
  ⟨h.ruu_ok, h.lsq_ok, rfl, hroom⟩

/-- The LSQ entry comes after the address computation. -/
theorem Window.free_lsq (h : s.Window) (hroom : s.ruu.num < s.ruu.size)
    (hroom' : s.lsq.num < s.lsq.size) : (s.place s.nextRuu e nm).Free s.nextLsq := by
  have hruu : (s.place s.nextRuu e nm).ruu = s.ruu.push := place_ruu
  have hlsq : (s.place s.nextRuu e nm).lsq = s.lsq := place_lsq
  refine ⟨hruu ▸ h.ruu_ok.push hroom, hlsq ▸ h.lsq_ok, ?_, ?_⟩
  · rw [hlsq]
    rfl
  · rw [hlsq]
    exact hroom'

/-- An operation that is not a load or store is allocated. -/
theorem Window.place (h : s.Window) (hroom : s.ruu.num < s.ruu.size) (hea : e.eaComp = false) :
    (s.place s.nextRuu e nm).Window := by
  have hseq : ((s.place s.nextRuu e nm).station s.nextRuu).seq = s.instSeq + 1 :=
    get_place_self Station.seq (fun _ _ _ => rfl) (fun _ _ _ => rfl) fun _ _ _ => rfl
  have heac : ((s.place s.nextRuu e nm).station s.nextRuu).eaComp = false :=
    (get_place_self Station.eaComp (fun _ _ _ => rfl) (fun _ _ _ => rfl) fun _ _ _ => rfl).trans hea
  have hruu : (s.place s.nextRuu e nm).ruu = s.ruu.push := place_ruu
  have hlsq : (s.place s.nextRuu e nm).lsq = s.lsq := place_lsq
  refine h.append (j := s.ruu.tail) (l := []) (hruu ▸ h.ruu_ok.push hroom) (hlsq ▸ h.lsq_ok)
    (hruu ▸ h.ruu_ok.slots_push) (by rw [hlsq, List.append_nil]) (fun q hq => ?_) hseq ?_ ?_ ?_ ?_
    (by simp)
  · refine fixed_place_of_ne ?_
    rintro rfl
    exact (h.free_ruu hroom).fresh hq
  · rw [place_instSeq, ← hseq, Station.lastSeq, heac]
    exact le_rfl
  · rw [place_instSeq]
    exact Nat.le_succ _
  · exact get_place_self Station.inLSQ (fun _ _ _ => rfl) (fun _ _ _ => rfl) fun _ _ _ => rfl
  · rw [heac]
    rfl

/-- The first of two stations, but for its flags, lists and output names. -/
theorem get_place_pair {β : Type*} (g : Station U → β)
    (hi : ∀ (st : Station U) k b, g (st.setIdepReady k b) = g st)
    (ho : ∀ (st : Station U) l, g { st with odepList := l } = g st)
    (hn : ∀ (st : Station U) i n, g (st.setOname i n) = g st) :
    g (((s.place s.nextRuu e nm).place s.nextLsq e' nm').station s.nextRuu) =
      g (e.write false s.specMode (s.instSeq + 1) (s.station s.nextRuu)) := by
  rw [place_other (RsPtr.ruu_ne_lsq _ _), ho]
  exact get_place_self g hi (fun st _ _ => ho st _) hn

/-- A load or store is allocated, as its address computation and its memory access. -/
theorem Window.place_pair (h : s.Window) (hroom : s.ruu.num < s.ruu.size)
    (hroom' : s.lsq.num < s.lsq.size) (hea : e.eaComp = true) (hea' : e'.eaComp = false)
    (hmem : e'.op.mem = true)
    (hstore : e'.op.isStore = true → ∀ i < maxOdeps, nm'.output i = NA) :
    ((s.place s.nextRuu e nm).place s.nextLsq e' nm').Window := by
  have hseq : (((s.place s.nextRuu e nm).place s.nextLsq e' nm').station s.nextRuu).seq =
      s.instSeq + 1 :=
    get_place_pair Station.seq (fun _ _ _ => rfl) (fun _ _ => rfl) fun _ _ _ => rfl
  have heac : (((s.place s.nextRuu e nm).place s.nextLsq e' nm').station s.nextRuu).eaComp = true :=
    (get_place_pair Station.eaComp (fun _ _ _ => rfl) (fun _ _ => rfl) fun _ _ _ => rfl).trans hea
  have hinst : ((s.place s.nextRuu e nm).place s.nextLsq e' nm').instSeq = s.instSeq + 2 := by
    rw [place_instSeq, place_instSeq]
  have hruu : ((s.place s.nextRuu e nm).place s.nextLsq e' nm').ruu = s.ruu.push := by
    rw [place_ruu]
    exact place_ruu
  have hlsq : ((s.place s.nextRuu e nm).place s.nextLsq e' nm').lsq = s.lsq.push := by
    rw [place_lsq, place_lsq]
    rfl
  have haccess : ∀ {β : Type} (g : Station U → β),
      (∀ (st : Station U) k b, g (st.setIdepReady k b) = g st) →
      (∀ (st : Station U) i l, g (st.setOdepList i l) = g st) →
      (∀ (st : Station U) i n, g (st.setOname i n) = g st) →
      g (((s.place s.nextRuu e nm).place s.nextLsq e' nm').station s.nextLsq) = g (e'.write true
        (s.place s.nextRuu e nm).specMode (s.instSeq + 2)
        ((s.place s.nextRuu e nm).station s.nextLsq)) := by
    intro β g hi ho hn
    rw [get_place_self g hi ho hn, place_instSeq]
  refine h.append (j := s.ruu.tail) (l := [s.lsq.tail]) (hruu ▸ h.ruu_ok.push hroom)
    (hlsq ▸ h.lsq_ok.push hroom') (hruu ▸ h.ruu_ok.slots_push) (hlsq ▸ h.lsq_ok.slots_push)
    (fun q hq => ?_) hseq ?_ ?_ ?_ ?_ fun i hi => ?_
  · have hq₁ : q ≠ s.nextRuu := by
      rintro rfl
      exact (h.free_ruu hroom).fresh hq
    have hq₂ : q ≠ s.nextLsq := by
      rintro rfl
      exact h.lsq_ok.tail_notMem hroom' hq
    rw [fixed_place_of_ne hq₂, fixed_place_of_ne hq₁]
  · rw [hinst, Station.lastSeq, hseq, heac]
    exact le_rfl
  · rw [hinst]
    omega
  · exact get_place_pair Station.inLSQ (fun _ _ _ => rfl) (fun _ _ => rfl) fun _ _ _ => rfl
  · rw [heac, hseq, if_pos rfl, List.map_singleton]
    exact congrArg (fun n => [n])
      (haccess Station.seq (fun _ _ _ => rfl) (fun _ _ _ => rfl) fun _ _ _ => rfl)
  · obtain rfl := List.mem_singleton.mp hi
    have hop := haccess Station.op (fun _ _ _ => rfl) (fun _ _ _ => rfl) fun _ _ _ => rfl
    refine ⟨haccess Station.inLSQ (fun _ _ _ => rfl) (fun _ _ _ => rfl) fun _ _ _ => rfl,
      (haccess Station.eaComp (fun _ _ _ => rfl) (fun _ _ _ => rfl) fun _ _ _ => rfl).trans hea',
      haccess Station.recoverInst (fun _ _ _ => rfl) (fun _ _ _ => rfl) fun _ _ _ => rfl, ?_, ?_⟩
    · rw [hop]
      exact hmem
    · rw [hop]
      exact fun hs k hk => (onames_place hk).trans (hstore hs k hk)

/-! ### Two stations at once -/

/-- An assignment that does not read or change what the linking of stations is about. -/
structure Inert (f : Station U → Station U) : Prop where
  idepReady : ∀ (st : Station U) k b, f (st.setIdepReady k b) = (f st).setIdepReady k b
  odep : ∀ (st : Station U) i l, f (st.setOdepList i l) = (f st).setOdepList i l
  oname : ∀ (st : Station U) i n, f (st.setOname i n) = (f st).setOname i n
  tag : ∀ st, (f st).tag = st.tag
  odepList : ∀ st, (f st).odepList = st.odepList

/-- Such an assignment, together with what dispatch changes besides. -/
def touched (q : RsPtr) (f : Station U → Station U) (m : ℕ) (r : Ring) (s : Core U) : Core U :=
  { s.modify q f with instSeq := m, ruu := r }

section touched

variable {f : Station U → Station U} {m : ℕ} {r : Ring}

theorem modify_touched {g : Station U → Station U} (h : ∀ st, g (f st) = f (g st)) :
    (touched q f m r s).modify p g = touched q f m r (s.modify p g) := by
  have hst : Function.update (Function.update s.station q (f (s.station q))) p
        (g (Function.update s.station q (f (s.station q)) p)) =
      Function.update (Function.update s.station p (g (s.station p))) q
        (f (Function.update s.station p (g (s.station p)) q)) := by
    funext x
    by_cases hpq : p = q
    · subst hpq
      simp [h]
    · simp only [Function.update_apply]
      grind
  rw [touched, touched, Core.modify, Core.modify, Core.modify, Core.modify]
  simp only [hst]

theorem ruuLinkIdep_touched (hf : Inert f) :
    (touched q f m r s).ruuLinkIdep p k n = touched q f m r (s.ruuLinkIdep p k n) := by
  have htag : ((touched q f m r s).station p).tag = (s.station p).tag :=
    get_modify Station.tag hf.tag
  rcases h : s.source n with _ | head
  · rw [ruuLinkIdep_of_none h, ruuLinkIdep_of_none (s := touched q f m r s) h]
    exact modify_touched fun st => (hf.idepReady st k true).symm
  · rw [ruuLinkIdep_of_some h, ruuLinkIdep_of_some (s := touched q f m r s) h, link_congr htag,
      modify_touched fun st => (hf.idepReady st k false).symm, modify_touched fun st => ?_]
    rw [hf.odep, hf.odepList]

theorem ruuInstallOdep_touched (hf : Inert f) :
    (touched q f m r s).ruuInstallOdep p i n = touched q f m r (s.ruuInstallOdep p i n) := by
  by_cases hn : n = NA
  · subst hn
    rw [ruuInstallOdep_na, ruuInstallOdep_na, modify_touched fun st => (hf.oname st i NA).symm]
  · rw [ruuInstallOdep_of_ne hn, ruuInstallOdep_of_ne hn,
      modify_touched fun st => by rw [hf.odep, hf.oname], setCreateVector_eq, setCreateVector_eq]
    rfl

theorem linkStation_touched (hf : Inert f) :
    linkStation (touched q f m r s) p nm = touched q f m r (linkStation s p nm) := by
  simp only [linkStation, ruuLinkIdep_touched hf, ruuInstallOdep_touched hf]

end touched

theorem inert_write (e : Operation U) (b b' : Bool) (m : ℕ) : Inert (e.write b b' m) :=
  ⟨fun _ _ _ => rfl, fun _ _ _ => rfl, fun _ _ _ => rfl, fun _ => rfl, fun _ => rfl⟩

/-- Both stations of a load or store can be filled in before the first is linked. -/
theorem place_place_eq (s : Core U) (e e' : Operation U) (nm nm' : Names) :
    { linkStation (linkStation ((s.filled s.nextRuu e).filled s.nextLsq e') s.nextRuu nm)
        s.nextLsq nm' with ruu := s.ruu.push, lsq := s.lsq.push } =
      (s.place s.nextRuu e nm).place s.nextLsq e' nm' := by
  have hf := inert_write e' true s.specMode (s.instSeq + 2)
  have hA := linkStation_rest (s.filled s.nextRuu e) s.nextRuu nm
  -- The first station has been linked when the second is filled in, or after it.
  have hfirst : linkStation ((s.filled s.nextRuu e).filled s.nextLsq e') s.nextRuu nm =
      touched s.nextLsq (e'.write true s.specMode (s.instSeq + 2)) (s.instSeq + 2) s.ruu
        (linkStation (s.filled s.nextRuu e) s.nextRuu nm) := linkStation_touched hf
  have hsecond : (s.place s.nextRuu e nm).filled s.nextLsq e' =
      touched s.nextLsq (e'.write true s.specMode (s.instSeq + 2)) (s.instSeq + 2) s.ruu.push
        (linkStation (s.filled s.nextRuu e) s.nextRuu nm) := by
    rw [place, hA]
    rfl
  rw [hfirst, linkStation_touched hf, place, hsecond, linkStation_touched hf,
    linkStation_rest (linkStation _ _ _), hA]
  rfl

end Core

end AdvancedArchitecture.Outorder
