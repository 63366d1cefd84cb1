import AdvancedArchitecture.Outorder.Window

/-!
# Queues of tagged links

The queue of ready operations and the queue of events refer to stations by links that carry the
tag the station had. A squash does not search the queues: it increments the tag, and a link with
an old tag is dropped when it is met. `Tracks` says that in spite of this a queue refers to
exactly the live stations with some property, and to each of them once; `Scheduled` is this for
both queues, with the flags of a station that the properties are about.
-/

namespace AdvancedArchitecture.Outorder

variable {U : Type}

/-- What a link refers to. -/
def RsLink.key (ℓ : RsLink) : RsPtr × ℕ := (ℓ.rs, ℓ.tag)

namespace Core

variable {s s' : Core U} {p : RsPtr} {ℓ : RsLink} {q q' : List RsLink} {P : Station U → Prop}

/-- A link made now is valid. -/
theorem valid_link (s : Core U) (p : RsPtr) (x : ℕ) : s.Valid (s.link p x) := rfl

theorem valid_congr (h : (s'.station ℓ.rs).tag = (s.station ℓ.rs).tag) :
    s'.Valid ℓ ↔ s.Valid ℓ := by
  rw [Valid, Valid, h]

/-- The valid links of the queue are one for each live station with `P`. -/
structure Tracks (s : Core U) (q : List RsLink) (P : Station U → Prop) : Prop where
  nodup : (q.map RsLink.key).Nodup
  tag_le : ∀ ℓ ∈ q, ℓ.tag ≤ (s.station ℓ.rs).tag
  valid : ∀ ℓ ∈ q, s.Valid ℓ → s.Live ℓ.rs ∧ P (s.station ℓ.rs)
  mem : ∀ p, s.Live p → P (s.station p) → ∃ ℓ ∈ q, ℓ.rs = p ∧ s.Valid ℓ

/-- The stations of `K` are removed: they are not live any more, and no link to them is valid. -/
structure Removed (s s' : Core U) (K : RsPtr → Prop) : Prop where
  live : ∀ p, s'.Live p ↔ s.Live p ∧ ¬K p
  live_of : ∀ p, K p → s.Live p
  same : ∀ p, ¬K p → s'.station p = s.station p
  tag : ∀ p, K p → (s'.station p).tag = (s.station p).tag + 1
  odepList : ∀ p, K p → ∀ i, (s'.station p).odepList i = []
  eventQueue : s'.eventQueue = s.eventQueue
  readyQueue : s'.readyQueue = s.readyQueue
  createVector : s'.createVector = s.createVector
  specMode : s'.specMode = s.specMode
  instSeq : s'.instSeq = s.instSeq
  simCycle : s'.simCycle = s.simCycle

theorem Removed.tag_le {K : RsPtr → Prop} (h : s.Removed s' K) (p : RsPtr) :
    (s.station p).tag ≤ (s'.station p).tag := by
  by_cases hp : K p
  · have := h.tag p hp
    omega
  · rw [h.same p hp]

/-- A link that is valid after a removal is one to a station that has stayed. -/
theorem Removed.not_of_valid {K : RsPtr → Prop} (h : s.Removed s' K)
    (hle : ℓ.tag ≤ (s.station ℓ.rs).tag) (hv : s'.Valid ℓ) : ¬K ℓ.rs := by
  intro hK
  have htag := h.tag _ hK
  rw [Valid] at hv
  omega

namespace Tracks

theorem perm (h : s.Tracks q P) (hq : q'.Perm q) : s.Tracks q' P where
  nodup := (hq.map RsLink.key).nodup_iff.mpr h.nodup
  tag_le ℓ hℓ := h.tag_le ℓ (hq.mem_iff.mp hℓ)
  valid ℓ hℓ := h.valid ℓ (hq.mem_iff.mp hℓ)
  mem p hp hP := by
    obtain ⟨ℓ, hℓ, hrs⟩ := h.mem p hp hP
    exact ⟨ℓ, hq.mem_iff.mpr hℓ, hrs⟩

/-- Nothing changes that the queue is about. -/
theorem congr (h : s.Tracks q P) (htag : ∀ p, (s'.station p).tag = (s.station p).tag)
    (hlive : ∀ p, s'.Live p ↔ s.Live p)
    (hP : ∀ p, s.Live p → (P (s'.station p) ↔ P (s.station p))) : s'.Tracks q P where
  nodup := h.nodup
  tag_le ℓ hℓ := (h.tag_le ℓ hℓ).trans_eq (htag _).symm
  valid ℓ hℓ hv := by
    obtain ⟨hl, hp⟩ := h.valid ℓ hℓ ((valid_congr (htag _)).mp hv)
    exact ⟨(hlive _).mpr hl, (hP _ hl).mpr hp⟩
  mem p hp hPp := by
    have hl := (hlive p).mp hp
    obtain ⟨ℓ, hℓ, hrs, hv⟩ := h.mem p hl ((hP p hl).mp hPp)
    exact ⟨ℓ, hℓ, hrs, (valid_congr (htag _)).mpr hv⟩

/-- A squashed link is dropped. -/
theorem drop (h : s.Tracks (ℓ :: q) P) (hv : ¬s.Valid ℓ) : s.Tracks q P where
  nodup := (List.nodup_cons.mp h.nodup).2
  tag_le ℓ' hℓ' := h.tag_le ℓ' (List.mem_cons_of_mem _ hℓ')
  valid ℓ' hℓ' := h.valid ℓ' (List.mem_cons_of_mem _ hℓ')
  mem p hp hP := by
    obtain ⟨ℓ', hℓ', hrs, hv'⟩ := h.mem p hp hP
    rcases List.mem_cons.mp hℓ' with rfl | hℓ'
    · exact absurd hv' hv
    · exact ⟨ℓ', hℓ', hrs, hv'⟩

/-- A valid link is taken off the queue, and its station loses the property. -/
theorem take (h : s.Tracks (ℓ :: q) P) (hv : s.Valid ℓ)
    (htag : ∀ p, (s'.station p).tag = (s.station p).tag) (hlive : ∀ p, s'.Live p ↔ s.Live p)
    (hP : ∀ p, p ≠ ℓ.rs → (P (s'.station p) ↔ P (s.station p))) (hnot : ¬P (s'.station ℓ.rs)) :
    s'.Tracks q P where
  nodup := (List.nodup_cons.mp h.nodup).2
  tag_le ℓ' hℓ' := (h.tag_le ℓ' (List.mem_cons_of_mem _ hℓ')).trans_eq (htag _).symm
  valid ℓ' hℓ' hv' := by
    have hv'' := (valid_congr (htag _)).mp hv'
    have hne : ℓ'.rs ≠ ℓ.rs := by
      intro heq
      refine (List.nodup_cons.mp h.nodup).1 (List.mem_map.mpr ⟨ℓ', hℓ', ?_⟩)
      rw [Valid] at hv hv''
      exact Prod.ext heq (by rw [RsLink.key, RsLink.key, hv'', hv, heq])
    obtain ⟨hl, hp⟩ := h.valid ℓ' (List.mem_cons_of_mem _ hℓ') hv''
    exact ⟨(hlive _).mpr hl, (hP _ hne).mpr hp⟩
  mem p hp hPp := by
    have hne : p ≠ ℓ.rs := by
      rintro rfl
      exact hnot hPp
    obtain ⟨ℓ', hℓ', rfl, hv'⟩ := h.mem p ((hlive p).mp hp) ((hP p hne).mp hPp)
    rcases List.mem_cons.mp hℓ' with rfl | hℓ'
    · exact absurd rfl hne
    · exact ⟨ℓ', hℓ', rfl, (valid_congr (htag _)).mpr hv'⟩

/-- A station gets the property, and a link to it is put on the queue. -/
theorem put (h : s.Tracks q P) (hp : s.Live p) (hnot : ¬P (s.station p))
    (htag : ∀ p, (s'.station p).tag = (s.station p).tag) (hlive : ∀ p, s'.Live p ↔ s.Live p)
    (hP : ∀ p', p' ≠ p → (P (s'.station p') ↔ P (s.station p'))) (hPp : P (s'.station p))
    (x : ℕ) : s'.Tracks (s'.link p x :: q) P where
  nodup := by
    rw [List.map_cons, List.nodup_cons]
    refine ⟨fun hmem => ?_, h.nodup⟩
    obtain ⟨ℓ, hℓ, hkey⟩ := List.mem_map.mp hmem
    obtain ⟨rfl, htag'⟩ := Prod.mk.inj hkey
    exact hnot (h.valid ℓ hℓ (htag'.trans (htag _))).2
  tag_le ℓ hℓ := by
    rcases List.mem_cons.mp hℓ with rfl | hℓ
    · exact le_rfl
    · exact (h.tag_le ℓ hℓ).trans_eq (htag _).symm
  valid ℓ hℓ hv := by
    rcases List.mem_cons.mp hℓ with rfl | hℓ
    · exact ⟨(hlive p).mpr hp, hPp⟩
    · obtain ⟨hl, hPℓ⟩ := h.valid ℓ hℓ ((valid_congr (htag _)).mp hv)
      have hne : ℓ.rs ≠ p := by
        rintro rfl
        exact hnot hPℓ
      exact ⟨(hlive _).mpr hl, (hP _ hne).mpr hPℓ⟩
  mem p' hp' hP' := by
    by_cases hne : p' = p
    · exact ⟨_, List.mem_cons_self, hne.symm, s'.valid_link p x⟩
    · obtain ⟨ℓ, hℓ, hrs, hv⟩ := h.mem p' ((hlive _).mp hp') ((hP _ hne).mp hP')
      exact ⟨ℓ, List.mem_cons_of_mem _ hℓ, hrs, (valid_congr (htag _)).mpr hv⟩

/-- A live station with `P` has exactly one valid link in the queue, the others have none. -/
theorem count [DecidablePred P] (h : s.Tracks q P) (p : RsPtr) :
    q.countP (fun ℓ => ℓ.rs = p ∧ s.Valid ℓ) = if s.Live p ∧ P (s.station p) then 1 else 0 := by
  have hkey : ∀ ℓ, ℓ.rs = p ∧ s.Valid ℓ ↔ ℓ.key = (p, (s.station p).tag) := by
    intro ℓ
    rw [RsLink.key, Prod.mk.injEq]
    refine and_congr_right ?_
    rintro rfl
    rfl
  have hcount : q.countP (fun ℓ => ℓ.rs = p ∧ s.Valid ℓ) =
      (q.map RsLink.key).count (p, (s.station p).tag) := by
    rw [List.count, List.countP_map]
    exact List.countP_congr fun ℓ _ => by simp [hkey]
  rw [hcount, h.nodup.count]
  refine if_congr ?_ rfl rfl
  rw [List.mem_map]
  constructor
  · rintro ⟨ℓ, hℓ, hk⟩
    obtain ⟨rfl, hv⟩ := (hkey ℓ).mpr hk
    exact h.valid ℓ hℓ hv
  · rintro ⟨hl, hP⟩
    obtain ⟨ℓ, hℓ, hrs, hv⟩ := h.mem p hl hP
    exact ⟨ℓ, hℓ, (hkey ℓ).mp ⟨hrs, hv⟩⟩

/-- Stations are removed without a look at the queue. -/
theorem removed {K : RsPtr → Prop} (h : s.Tracks q P) (hr : s.Removed s' K) :
    s'.Tracks q P where
  nodup := h.nodup
  tag_le ℓ hℓ := (h.tag_le ℓ hℓ).trans (hr.tag_le _)
  valid ℓ hℓ hv := by
    have hK := hr.not_of_valid (h.tag_le ℓ hℓ) hv
    have hsame := hr.same _ hK
    obtain ⟨hl, hP⟩ := h.valid ℓ hℓ ((valid_congr (by rw [hsame])).mp hv)
    exact ⟨(hr.live _).mpr ⟨hl, hK⟩, hsame.symm ▸ hP⟩
  mem p hp hP := by
    obtain ⟨hl, hK⟩ := (hr.live p).mp hp
    have hsame := hr.same p hK
    obtain ⟨ℓ, hℓ, rfl, hv⟩ := h.mem p hl (hsame ▸ hP)
    exact ⟨ℓ, hℓ, rfl, (valid_congr (by rw [hsame])).mpr hv⟩

/-- A station without the property becomes live. -/
theorem added (h : s.Tracks q P) (hp : ¬s.Live p)
    (htag : ∀ p, (s'.station p).tag = (s.station p).tag)
    (hlive : ∀ p', s'.Live p' ↔ s.Live p' ∨ p' = p)
    (hP : ∀ p', s.Live p' → (P (s'.station p') ↔ P (s.station p'))) (hnot : ¬P (s'.station p)) :
    s'.Tracks q P where
  nodup := h.nodup
  tag_le ℓ hℓ := (h.tag_le ℓ hℓ).trans_eq (htag _).symm
  valid ℓ hℓ hv := by
    obtain ⟨hl, hPℓ⟩ := h.valid ℓ hℓ ((valid_congr (htag _)).mp hv)
    exact ⟨(hlive _).mpr (Or.inl hl), (hP _ hl).mpr hPℓ⟩
  mem p' hp' hP' := by
    rcases (hlive p').mp hp' with hl | rfl
    · obtain ⟨ℓ, hℓ, hrs, hv⟩ := h.mem p' hl ((hP p' hl).mp hP')
      exact ⟨ℓ, hℓ, hrs, (valid_congr (htag _)).mpr hv⟩
    · exact absurd hP' hnot

end Tracks

end Core

end AdvancedArchitecture.Outorder
