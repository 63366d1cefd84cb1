import Mathlib.Tactic.IntervalCases
import AdvancedArchitecture.Outorder.Dependence
import AdvancedArchitecture.Outorder.Scheduled

/-!
# Completion and broadcast

What `ruu_writeback` does for an operation that completes: the create vector entries that still
name it are cleared, and the operations on its output lists are woken, each when its last operand
becomes ready. The lemmas go through the steps of the broadcast, with the operation as the busy one
of `Deps` and `Cv`; `broadcast_all` says that all of it keeps the invariants, and does not stop.
-/

namespace AdvancedArchitecture.Outorder

variable {U : Type}

/-- A station less the flags that say how far it has got. -/
def Station.unfinished (st : Station U) : Station U :=
  { st with queued := false, issued := false, completed := false }

/-- The operation is queued as soon as its operands are ready. A load is not: it is queued by
`lsq_refresh`. -/
def Station.selfQueued (st : Station U) : Bool := !st.inLSQ || st.op.isStore

namespace Core

variable {names : MdInst → Names} {busy : Option (RsPtr × ℕ)} {s s' : Core U} {p c : RsPtr}
  {ℓ : RsLink} {i n : ℕ} {pend : List RsLink}

/-! ### Completion -/

/-- The operation `p` completes. -/
structure Completes (s s' : Core U) (p : RsPtr) : Prop where
  same : SameUpTo Station.unfinished s s'
  other : ∀ q, q ≠ p → (s'.station q).completed = (s.station q).completed
  self : (s'.station p).completed = true

namespace Completes

theorem agree (h : s.Completes s' p) : s.Agree s' :=
  ⟨fun _ => h.same.live, fun _ => h.same.get Station.tag fun _ => rfl,
    fun _ => h.same.get Station.seq fun _ => rfl, fun _ => h.same.get Station.onames fun _ => rfl,
    fun _ => h.same.get Station.specMode fun _ => rfl⟩

theorem mono (h : s.Completes s' p) (q : RsPtr) (hq : (s.station q).completed = true) :
    (s'.station q).completed = true := by
  by_cases hqp : q = p
  · exact hqp ▸ h.self
  · rw [h.other q hqp]
    exact hq

theorem open_zero (h : s.Completes s' p) (q : RsPtr) (i n : ℕ) (_ : s.Writes q i n)
    (ho : s.Open none q i) : s'.Open (some (p, 0)) q i := by
  by_cases hqp : q = p
  · exact Or.inr ⟨0, Nat.zero_le i, by rw [hqp]⟩
  · rcases ho with hc | ⟨j, -, hbusy⟩
    · exact Or.inl (by rw [h.other q hqp, hc])
    · exact absurd hbusy (by simp)

theorem deps (h : s.Completes s' p) (hd : s.Deps names none) : s'.Deps names (some (p, 0)) :=
  hd.of_agree h.agree (fun _ => h.same.get Station.odepList fun _ => rfl)
    (fun _ => h.same.get Station.idepReady fun _ => rfl)
    (fun q => h.same.get (p := q) (Station.names names) fun _ => rfl) h.mono
    fun q i n hw _ => h.open_zero q i n hw

theorem cv (h : s.Completes s' p) (hcv : s.Cv none) : s'.Cv (some (p, 0)) :=
  hcv.of_agree h.agree h.same.createVector h.same.specCreateVector h.same.useSpecCv h.same.specMode
    h.mono h.open_zero

end Completes

theorem completes_completedBy (s : Core U) (p : RsPtr) : s.Completes (s.completedBy p) p where
  same := ⟨fun _ => get_modify Station.unfinished fun _ => rfl,
    rfl, rfl, rfl, rfl, rfl, rfl, rfl, rfl⟩
  other q hq := by rw [completedBy, station_modify_ne hq]
  self := by simp [completedBy]

/-! ### From one output to the next -/

/-- An output without a register needs no broadcast. -/
theorem open_succ_of_na (hna : (s.station p).onames i = NA) (q : RsPtr) (j n : ℕ)
    (hw : s.Writes q j n) (ho : s.Open (some (p, i)) q j) : s.Open (some (p, i + 1)) q j := by
  refine ho.imp_right fun ⟨j', hle, hbusy⟩ => ?_
  obtain ⟨rfl, rfl⟩ := Prod.mk.inj (Option.some.inj hbusy)
  have hne : i ≠ j := by
    rintro rfl
    exact hw.2.2.2 (hw.2.2.1.symm.trans hna)
  exact ⟨i + 1, by omega, rfl⟩

/-- After the last output nothing is open any more. -/
theorem open_none (q : RsPtr) (j n : ℕ) (hw : s.Writes q j n)
    (ho : s.Open (some (p, maxOdeps)) q j) : s.Open none q j := by
  rcases ho with hc | ⟨j', hle, hbusy⟩
  · exact Or.inl hc
  · obtain ⟨-, rfl⟩ := Prod.mk.inj (Option.some.inj hbusy)
    exact absurd hw.2.1 (by omega)

theorem Deps.change_busy {busy' : Option (RsPtr × ℕ)} (h : s.Deps names busy)
    (ho : ∀ q j n, s.Writes q j n → (s.station q).odepList j ≠ [] → s.Open busy q j →
      s.Open busy' q j) : s.Deps names busy' :=
  h.of_agree (Agree.refl s) (fun _ => rfl) (fun _ => rfl) (fun _ => rfl)
    (fun _ => id) ho

theorem Cv.change_busy {busy' : Option (RsPtr × ℕ)} (h : s.Cv busy)
    (ho : ∀ q j n, s.Writes q j n → s.Open busy q j → s.Open busy' q j) : s.Cv busy' :=
  h.of_agree (Agree.refl s) rfl rfl rfl rfl (fun _ => id) ho

/-! ### The create vector -/

/-- An entry for another output stays right. -/
theorem Newest.succ {P : Station U → Prop} {l : Option CvLink}
    (h : s.Newest (some (p, i)) P n l) (hne : l ≠ some ⟨p, i⟩) :
    s.Newest (some (p, i + 1)) P n l := by
  cases l with
  | none => exact h
  | some l =>
    obtain ⟨hw, hP, ho, hle⟩ := h
    refine ⟨hw, hP, ho.imp_right fun ⟨j, hj, hbusy⟩ => ?_, hle⟩
    obtain ⟨hp, rfl⟩ := Prod.mk.inj (Option.some.inj hbusy)
    have hodep : i ≠ l.odepNum := fun heq => hne (by rw [hp, heq])
    exact ⟨i + 1, by omega, by rw [hp]⟩

/-- The entry for an output of a completed operation can be cleared. -/
theorem Newest.clear {P : Station U → Prop} {busy' : Option (RsPtr × ℕ)}
    (h : s.Newest busy P n (some ⟨p, i⟩)) (hc : (s.station p).completed = true) :
    s.Newest busy' P n none := by
  obtain ⟨hw, hP, -, hle⟩ := h
  exact fun q j hq hPq => ⟨p, i, hw, hP, hle q j hq hPq, hc⟩

/-- Clearing an entry if it is `l`. -/
def clearCv (cv : ℕ → Option CvLink) (name : ℕ) (l : CvLink) (n : ℕ) : Option CvLink :=
  if n = name ∧ cv n = some l then none else cv n

theorem clearCv_eq (cv : ℕ → Option CvLink) (name : ℕ) (l : CvLink) :
    (if cv name = some l then Function.update cv name none else cv) = clearCv cv name l := by
  funext n
  rw [clearCv]
  by_cases hn : n = name
  · subst hn
    by_cases hl : cv n = some l <;> simp [hl]
  · rw [if_neg fun h : n = name ∧ cv n = some l => hn h.1]
    split_ifs
    · exact Function.update_of_ne hn ..
    · rfl

/-- `releaseCv` clears the entry in one of the create vectors. -/
theorem releaseCv_eq (s : Core U) (p : RsPtr) (i : ℕ) :
    s.releaseCv p i =
      if (s.station p).specMode then
        { s with specCreateVector := clearCv s.specCreateVector ((s.station p).onames i) ⟨p, i⟩ }
      else { s with createVector := clearCv s.createVector ((s.station p).onames i) ⟨p, i⟩ } := by
  rw [releaseCv]
  simp only [← clearCv_eq]
  split_ifs <;> rfl

theorem Deps.releaseCv (h : s.Deps names busy) : (s.releaseCv p i).Deps names busy := by
  rw [releaseCv_eq]
  split
  all_goals
    exact h.of_agree ⟨fun _ => Iff.rfl, fun _ => rfl, fun _ => rfl, fun _ => rfl, fun _ => rfl⟩
      (fun _ => rfl) (fun _ => rfl) (fun _ => rfl) (fun _ => id) fun _ _ _ _ _ => id

/-- The entry of the output `i` of a completed operation is cleared. -/
theorem Newest.clearCv {P : Station U → Prop} {cv : ℕ → Option CvLink}
    (h : s.Newest (some (p, i)) P n (cv n)) (hc : (s.station p).completed = true) :
    s.Newest (some (p, i + 1)) P n (clearCv cv ((s.station p).onames i) ⟨p, i⟩ n) := by
  rw [Core.clearCv]
  split_ifs with hcv
  · rw [hcv.2] at h
    exact h.clear hc
  · refine h.succ fun heq => hcv ⟨?_, heq⟩
    rw [heq] at h
    exact h.1.2.2.1.symm

/-- No entry names the output `i` of `p` after `releaseCv`. -/
theorem Cv.releaseCv (h : s.Cv (some (p, i))) (hc : (s.station p).completed = true) :
    (s.releaseCv p i).Cv (some (p, i + 1)) := by
  rw [releaseCv_eq]
  split
  · rename_i hspec
    refine ⟨fun n hn => ?_, fun n hn hu => (h.spec n hn hu).clearCv hc, fun n l hn hu hl => ?_,
      h.clean, h.mode⟩
    · refine (h.plain n hn).succ fun heq => ?_
      have hplain := h.plain n hn
      rw [show s.createVector n = some ⟨p, i⟩ from heq] at hplain
      rw [show (s.station p).specMode = false from hplain.2.1] at hspec
      exact absurd hspec (by simp)
    · refine h.spec_of n l hn hu ?_
      change Core.clearCv s.specCreateVector _ _ n = some l at hl
      rw [Core.clearCv] at hl
      split_ifs at hl
      exact hl
  · rename_i hspec
    refine ⟨fun n hn => (h.plain n hn).clearCv hc, fun n hn hu => ?_, h.spec_of, h.clean, h.mode⟩
    exact (h.spec n hn hu).succ fun heq => hspec (h.spec_of n ⟨p, i⟩ hn hu heq)

/-! ### One link of an output list -/

variable {rest : List RsLink}

/-- The first link of a list of a completed operation is freed, and if it is valid its operand
becomes ready. -/
theorem Deps.popped (h : s.Deps names busy) (ha : s.Agree s')
    (hnames : ∀ q, (s'.station q).names names = (s.station q).names names)
    (hdone : ∀ q, (s'.station q).completed = (s.station q).completed)
    (hlist : (s.station p).odepList i = ℓ :: rest) (hself : (s'.station p).odepList i = rest)
    (hother : ∀ q j, (q, j) ≠ (p, i) → (s'.station q).odepList j = (s.station q).odepList j)
    (hready : ∀ c k, (s'.station c).idepReady k = true ↔
      (s.station c).idepReady k = true ∨ (s.Valid ℓ ∧ c = ℓ.rs ∧ k = ℓ.x))
    (hc : (s.station p).completed = true) : s'.Deps names busy := by
  have hnodup := List.nodup_cons.mp (hlist ▸ h.nodup p i)
  have hin : ℓ ∈ (s.station p).odepList i := hlist ▸ List.mem_cons_self
  have hmem : ∀ {q j ℓ'}, ℓ' ∈ (s'.station q).odepList j → ℓ' ∈ (s.station q).odepList j := by
    intro q j ℓ' hℓ'
    by_cases hqj : (q, j) = (p, i)
    · obtain ⟨rfl, rfl⟩ := Prod.mk.inj hqj
      rw [hself] at hℓ'
      exact hlist ▸ List.mem_cons_of_mem _ hℓ'
    · exact hother q j hqj ▸ hℓ'
  -- The operand that has become ready is on no list any more.
  have hgone : ∀ {q j ℓ'}, ℓ' ∈ (s'.station q).odepList j → s.Valid ℓ' →
      ¬(s.Valid ℓ ∧ ℓ'.rs = ℓ.rs ∧ ℓ'.x = ℓ.x) := by
    rintro q j ℓ' hℓ' hv' ⟨hv, hrs, hx⟩
    have heq : ℓ' = ℓ := by rw [eq_link_of_valid hv', eq_link_of_valid hv, hrs, hx]
    subst heq
    obtain ⟨rfl, rfl⟩ := h.unique _ _ _ _ _ _ (waits_of_mem (hmem hℓ') hv') (waits_of_mem hin hv')
    rw [hself] at hℓ'
    exact hnodup.1 hℓ'
  have hwait : ∀ {c k}, (s'.station c).idepReady k = false →
      (s.station c).idepReady k = false ∧ ¬(s.Valid ℓ ∧ c = ℓ.rs ∧ k = ℓ.x) := by
    intro c k hck
    rw [← Bool.not_eq_true, hready, not_or] at hck
    exact ⟨by simpa using hck.1, hck.2⟩
  refine ⟨fun q j ℓ' hℓ' => ?_, fun q j ℓ' hℓ' => ?_, fun q j => ?_,
    fun q j ℓ' hℓ' hv => ?_, fun q j ℓ' hℓ' hv => ?_, fun q j ℓ' hℓ' hv => ?_,
    fun q j ℓ' hℓ' hv => ?_, fun q j ℓ' hℓ' hv => ?_, fun c k q j q' j' hq hq' => ?_,
    fun c k hl hk hr => ?_, fun c k hl hk hr => ?_⟩
  · rw [ha.writes, ha.onames, Open, hdone]
    exact h.list_open q j ℓ' (hmem hℓ')
  · rw [ha.tag]
    exact h.tag_le q j ℓ' (hmem hℓ')
  · by_cases hqj : (q, j) = (p, i)
    · obtain ⟨rfl, rfl⟩ := Prod.mk.inj hqj
      exact hself ▸ hnodup.2
    · exact hother q j hqj ▸ h.nodup q j
  · exact (ha.live _).mpr (h.live q j ℓ' (hmem hℓ') (ha.valid.mp hv))
  · have hv' := ha.valid.mp hv
    obtain ⟨hx, hw⟩ := h.waiting q j ℓ' (hmem hℓ') hv'
    refine ⟨hx, ?_⟩
    rw [← Bool.not_eq_true, hready, not_or]
    exact ⟨by simp [hw], hgone hℓ' hv'⟩
  · rw [ha.seq, ha.seq]
    exact h.older q j ℓ' (hmem hℓ') (ha.valid.mp hv)
  · rw [hnames, ha.onames]
    exact h.reads q j ℓ' (hmem hℓ') (ha.valid.mp hv)
  · rw [ha.lastBefore, ha.seq, ha.onames]
    exact h.last q j ℓ' (hmem hℓ') (ha.valid.mp hv)
  · rw [Waits, ha.link] at hq hq'
    exact h.unique c k q j q' j' (hmem hq) (hmem hq')
  · obtain ⟨hw, hne⟩ := hwait hr
    obtain ⟨q, j, hq⟩ := h.linked c k ((ha.live c).mp hl) hk hw
    refine ⟨q, j, ?_⟩
    rw [Waits, ha.link]
    by_cases hqj : (q, j) = (p, i)
    · obtain ⟨rfl, rfl⟩ := Prod.mk.inj hqj
      rw [Waits, hlist, List.mem_cons] at hq
      rw [hself]
      refine hq.resolve_left ?_
      rintro rfl
      exact hne ⟨s.valid_link c k, rfl, rfl⟩
    · rw [hother q j hqj]
      exact hq
  · rw [hnames, ha.seq]
    have hmono : ∀ q, (s.station q).completed = true → (s'.station q).completed = true :=
      fun q hq => by rw [hdone, hq]
    rcases (hready c k).mp hr with hr | ⟨hv, rfl, rfl⟩
    · exact ha.settled hmono (h.ready c k ((ha.live c).mp hl) hk hr)
    · refine ha.settled hmono fun q j hq hlt => ?_
      rw [h.reads p i ℓ hin hv] at hq ⊢
      exact ⟨p, i, (h.list_open p i ℓ hin).1, h.last p i ℓ hin hv q j hq hlt,
        h.older p i ℓ hin hv, hc⟩

/-- What `wakeLink` changes: the operand of a valid link becomes ready, and its operation may be
queued, unless it is a load. -/
structure Woke (s s' : Core U) (ℓ : RsLink) : Prop where
  frame : Frame s s'
  odepList : ∀ q, (s'.station q).odepList = (s.station q).odepList
  idepReady : ∀ c k, (s'.station c).idepReady k = true ↔
    (s.station c).idepReady k = true ∨ (s.Valid ℓ ∧ c = ℓ.rs ∧ k = ℓ.x)
  issued : ∀ q, (s'.station q).issued = (s.station q).issued
  queued : ∀ q, (s'.station q).queued = true →
    (s.station q).queued = true ∨ (s.station q).selfQueued = true
  stays : ∀ q, (s.station q).queued = true → (s'.station q).queued = true
  awake : ∀ q, (s'.station q).operandsReady = true → (s.station q).selfQueued = true →
    (s.station q).operandsReady = true ∨ (s'.station q).queued = true
  eventQueue : s'.eventQueue = s.eventQueue

theorem operandsReady_of_imp {st st' : Station U}
    (h : ∀ k, st.idepReady k = true → st'.idepReady k = true)
    (hr : st.operandsReady = true) : st'.operandsReady = true := by
  simp only [Station.operandsReady, Bool.and_eq_true] at hr ⊢
  exact ⟨⟨h 0 hr.1.1, h 1 hr.1.2⟩, h 2 hr.2⟩

theorem operandsReady_eq_false {st : Station U} {k : ℕ} (hk : k < maxIdeps)
    (h : st.idepReady k = false) : st.operandsReady = false := by
  rw [maxIdeps] at hk
  interval_cases k <;> simp [Station.operandsReady, h]

/-- The state in which the operand of a link is ready. -/
def readied (s : Core U) (ℓ : RsLink) : Core U :=
  s.modify ℓ.rs (Station.setIdepReady ℓ.x true)

theorem idepReady_readied (s : Core U) (ℓ : RsLink) (c : RsPtr) (k : ℕ) :
    ((s.readied ℓ).station c).idepReady k = true ↔
      (s.station c).idepReady k = true ∨ (c = ℓ.rs ∧ k = ℓ.x) := by
  rw [readied, station_modify]
  split
  · rename_i heq
    subst heq
    by_cases hk : k = ℓ.x <;> simp [Station.setIdepReady, hk]
  · rename_i hne
    simp [hne]

theorem scheduled_readied (h : s.Scheduled pend) (ℓ : RsLink) : (s.readied ℓ).Scheduled pend := by
  refine h.congr (fun _ => Iff.rfl) (fun _ => get_modify Station.tag fun _ => rfl)
    (fun _ => get_modify Station.queued fun _ => rfl)
    (fun _ => get_modify Station.issued fun _ => rfl)
    (fun _ => get_modify Station.completed fun _ => rfl) (fun p => ?_) rfl rfl
  exact operandsReady_of_imp fun k hk => (idepReady_readied s ℓ p k).mpr (Or.inl hk)

theorem queued_readied (s : Core U) (ℓ : RsLink) (q : RsPtr) :
    ((s.readied ℓ).station q).queued = (s.station q).queued :=
  get_modify Station.queued fun _ => rfl

/-- The link of an operation that need not be queued now. -/
theorem woke_readied (hv : s.Valid ℓ)
    (hself : ((s.readied ℓ).station ℓ.rs).operandsReady = true →
      (s.station ℓ.rs).selfQueued = false) : s.Woke (s.readied ℓ) ℓ where
  frame := SameUpTo.modify fun _ => rfl
  odepList _ := get_modify Station.odepList fun _ => rfl
  idepReady c k := by rw [idepReady_readied]; simp [hv]
  issued _ := get_modify Station.issued fun _ => rfl
  queued q hq := Or.inl (queued_readied s ℓ q ▸ hq)
  stays q hq := by rw [queued_readied, hq]
  awake q hq hs := by
    by_cases hqℓ : q = ℓ.rs
    · subst hqℓ
      rw [hself hq] at hs
      exact absurd hs (by simp)
    · rw [readied, station_modify_ne hqℓ] at hq
      exact Or.inl hq
  eventQueue := rfl

/-- The link of an operation that is queued. -/
theorem woke_enqueued (hv : s.Valid ℓ) (hself : (s.station ℓ.rs).selfQueued = true) :
    s.Woke ((s.readied ℓ).enqueued ℓ.rs) ℓ := by
  have hs := (s.readied ℓ).same_enqueued ℓ.rs
  have hframe : Frame s (s.readied ℓ) := SameUpTo.modify fun _ => rfl
  have hother : ∀ q, q ≠ ℓ.rs → ((s.readied ℓ).enqueued ℓ.rs).station q = s.station q := by
    intro q hq
    rw [station_enqueued_ne hq, readied, station_modify_ne hq]
  have hqueued : (((s.readied ℓ).enqueued ℓ.rs).station ℓ.rs).queued = true := by
    simp [station_enqueued]
  refine ⟨hframe.trans hs.frame, fun q => ?_, fun c k => ?_, fun q => ?_, fun q hq => ?_,
    fun q hq => ?_, fun q hq _ => ?_, rfl⟩
  · rw [hs.odepList]
    exact get_modify Station.odepList fun _ => rfl
  · rw [hs.idepReady, idepReady_readied]
    simp [hv]
  · rw [issued_enqueued]
    exact get_modify Station.issued fun _ => rfl
  · by_cases hqℓ : q = ℓ.rs
    · exact Or.inr (hqℓ ▸ hself)
    · rw [hother q hqℓ] at hq
      exact Or.inl hq
  · by_cases hqℓ : q = ℓ.rs
    · rw [hqℓ, hqueued]
    · rw [hother q hqℓ, hq]
  · by_cases hqℓ : q = ℓ.rs
    · rw [hqℓ]
      exact Or.inr hqueued
    · rw [hother q hqℓ] at hq
      exact Or.inl hq

/-- The treatment of one link does not stop. -/
theorem wakeLink_meets (E : Halt → Prop) (h : s.Scheduled pend)
    (hw : s.Valid ℓ → s.Live ℓ.rs ∧ ℓ.x < maxIdeps ∧ (s.station ℓ.rs).idepReady ℓ.x = false) :
    Meets E (fun s' => s.Woke s' ℓ ∧ s'.Scheduled pend) (s.wakeLink ℓ) := by
  rw [wakeLink]
  refine Meets.ite (fun hv => ?_) fun hv => ?_
  · obtain ⟨hl, hx, hi⟩ := hw hv
    have hnot := operandsReady_eq_false hx hi
    -- an operation that waits for an operand is on no queue
    have hwait : (s.station ℓ.rs).queued = false ∧ (s.station ℓ.rs).issued = false ∧
        (s.station ℓ.rs).completed = false := by
      have hissued : (s.station ℓ.rs).issued = false := by
        by_contra hne
        rw [h.issued _ hl (by simpa using hne)] at hnot
        exact absurd hnot (by simp)
      refine ⟨?_, hissued, ?_⟩
      · by_contra hne
        rw [(h.queued _ hl (by simpa using hne)).1] at hnot
        exact absurd hnot (by simp)
      · by_contra hne
        rw [h.completed _ hl (by simpa using hne)] at hissued
        exact absurd hissued (by simp)
    have hself : ((s.readied ℓ).station ℓ.rs).selfQueued = (s.station ℓ.rs).selfQueued :=
      get_modify Station.selfQueued fun _ => rfl
    have hq := queued_readied s ℓ ℓ.rs
    refine Meets.guard (by simp [hi]) ?_
    change Meets E _ (if (((s.readied ℓ).station ℓ.rs).operandsReady &&
      ((s.readied ℓ).station ℓ.rs).selfQueued) = true
        then (s.readied ℓ).readyqEnqueue ℓ.rs else .ok (s.readied ℓ))
    rw [hself]
    refine Meets.ite (fun hgo => ?_) fun hgo => ?_
    · rw [Bool.and_eq_true] at hgo
      rw [readyqEnqueue_eq (hq.trans hwait.1)]
      refine ⟨woke_enqueued hv hgo.2, (scheduled_readied h ℓ).enqueued hl hgo.1
        (hq.trans hwait.1) ?_ ?_⟩
      · exact Eq.trans (get_modify Station.issued fun _ => rfl) hwait.2.1
      · exact Eq.trans (get_modify Station.completed fun _ => rfl) hwait.2.2
    · exact ⟨woke_readied hv fun hr => by simpa [hr] using hgo, scheduled_readied h ℓ⟩
  · exact ⟨⟨SameUpTo.refl s, fun _ => rfl, by simp [hv], fun _ => rfl, fun _ => Or.inl,
      fun _ => id, fun _ hr _ => Or.inl hr, rfl⟩, h⟩

/-! ### The broadcast -/

/-- What a broadcast leaves as it is, and what it can only add: operands become ready, and
operations other than loads are queued. -/
structure Moved (s s' : Core U) : Prop where
  station : ∀ q, (s'.station q).fixed = (s.station q).fixed
  ruu : s'.ruu = s.ruu
  lsq : s'.lsq = s.lsq
  useSpecCv : s'.useSpecCv = s.useSpecCv
  specMode : s'.specMode = s.specMode
  instSeq : s'.instSeq = s.instSeq
  simCycle : s'.simCycle = s.simCycle
  eventQueue : s'.eventQueue = s.eventQueue
  issued : ∀ q, (s'.station q).issued = (s.station q).issued
  queued : ∀ q, (s'.station q).queued = true →
    (s.station q).queued = true ∨ (s.station q).selfQueued = true
  stays : ∀ q, (s.station q).queued = true → (s'.station q).queued = true
  awake : ∀ q, (s'.station q).operandsReady = true → (s.station q).selfQueued = true →
    (s.station q).operandsReady = true ∨ (s'.station q).queued = true
  idepReady : ∀ c k, (s.station c).idepReady k = true → (s'.station c).idepReady k = true

namespace Moved

theorem refl (s : Core U) : s.Moved s :=
  ⟨fun _ => rfl, rfl, rfl, rfl, rfl, rfl, rfl, rfl, fun _ => rfl, fun _ => Or.inl, fun _ => id,
    fun _ hr _ => Or.inl hr, fun _ _ => id⟩

theorem get {β : Type*} (h : s.Moved s') (g : Station U → β) (hg : ∀ st, g st.fixed = g st)
    (q : RsPtr) : g (s'.station q) = g (s.station q) := by
  rw [← hg, h.station, hg]

theorem trans {s'' : Core U} (h : s.Moved s') (h' : s'.Moved s'') : s.Moved s'' where
  station q := (h'.station q).trans (h.station q)
  ruu := h'.ruu.trans h.ruu
  lsq := h'.lsq.trans h.lsq
  useSpecCv := h'.useSpecCv.trans h.useSpecCv
  specMode := h'.specMode.trans h.specMode
  instSeq := h'.instSeq.trans h.instSeq
  simCycle := h'.simCycle.trans h.simCycle
  eventQueue := h'.eventQueue.trans h.eventQueue
  issued q := (h'.issued q).trans (h.issued q)
  queued q hq := by
    rcases h'.queued q hq with hq' | hload
    · exact h.queued q hq'
    · rw [h.get Station.selfQueued fun _ => rfl] at hload
      exact Or.inr hload
  stays q hq := h'.stays q (h.stays q hq)
  awake q hr hself := by
    rcases h'.awake q hr ((h.get Station.selfQueued (fun _ => rfl) q).trans hself) with hr' | hq
    · exact (h.awake q hr' hself).imp_right (h'.stays q)
    · exact Or.inr hq
  idepReady c k hk := h'.idepReady c k (h.idepReady c k hk)

theorem window (h : s.Moved s') (hw : s.Window) : s'.Window :=
  hw.congr (h.get Station.static fun _ => rfl) h.ruu h.lsq h.instSeq

end Moved

theorem Woke.moved (h : s.Woke s' ℓ) : s.Moved s' :=
  { h.frame with
    eventQueue := h.eventQueue
    issued := h.issued
    queued := h.queued
    stays := h.stays
    awake := h.awake
    idepReady := fun c k hk => (h.idepReady c k).mpr (Or.inl hk) }

/-- The rest of an output list, after a link has been freed. -/
def setOdepList (s : Core U) (p : RsPtr) (i : ℕ) (rest : List RsLink) : Core U :=
  s.modify p (Station.setOdepList i rest)

theorem idepReady_setOdepList (s : Core U) (p q : RsPtr) (i : ℕ) (rest : List RsLink) :
    ((s.setOdepList p i rest).station q).idepReady = (s.station q).idepReady :=
  get_modify Station.idepReady fun _ => rfl

theorem moved_setOdepList (s : Core U) (p : RsPtr) (i : ℕ) (rest : List RsLink) :
    s.Moved (s.setOdepList p i rest) := by
  have hq : ∀ q, ((s.setOdepList p i rest).station q).queued = (s.station q).queued :=
    fun _ => get_modify Station.queued fun _ => rfl
  have hr : ∀ q, ((s.setOdepList p i rest).station q).operandsReady =
      (s.station q).operandsReady := fun _ => get_modify Station.operandsReady fun _ => rfl
  exact ⟨fun _ => get_modify Station.fixed fun _ => rfl, rfl, rfl, rfl, rfl, rfl, rfl, rfl,
    fun _ => get_modify Station.issued fun _ => rfl, fun q h => Or.inl (hq q ▸ h),
    fun q h => by rw [hq, h], fun q h _ => Or.inl (hr q ▸ h),
    fun c k h => by rw [idepReady_setOdepList, h]⟩

theorem odepList_setOdepList (s : Core U) (p q : RsPtr) (i j : ℕ) (rest : List RsLink) :
    ((s.setOdepList p i rest).station q).odepList j =
      if q = p ∧ j = i then rest else (s.station q).odepList j := by
  rw [setOdepList, station_modify]
  by_cases hq : q = p
  · subst hq
    by_cases hj : j = i <;> simp [Station.setOdepList, hj]
  · simp [hq]

theorem frame_setOdepList (s : Core U) (p : RsPtr) (i : ℕ) (rest : List RsLink) :
    Frame s (s.setOdepList p i rest) := SameUpTo.modify fun _ => rfl

theorem scheduled_setOdepList (h : s.Scheduled pend) (p : RsPtr) (i : ℕ) (rest : List RsLink) :
    (s.setOdepList p i rest).Scheduled pend :=
  h.congr (fun _ => Iff.rfl) (fun _ => get_modify Station.tag fun _ => rfl)
    (fun _ => get_modify Station.queued fun _ => rfl)
    (fun _ => get_modify Station.issued fun _ => rfl)
    (fun _ => get_modify Station.completed fun _ => rfl)
    (fun q hq => by
      have heq : ((s.setOdepList p i rest).station q).operandsReady =
          (s.station q).operandsReady := get_modify Station.operandsReady fun _ => rfl
      rw [heq, hq]) rfl rfl

/-- The walk of an output list wakes the operations on it, and does not stop. -/
theorem wakeChain_meets (E : Halt → Prop) {busy' : Option (RsPtr × ℕ)} (links : List RsLink)
    (s : Core U) (hd : s.Deps names busy) (hcv : s.Cv busy') (hs : s.Scheduled pend)
    (hc : (s.station p).completed = true) (hlist : (s.station p).odepList i = links) :
    Meets E (fun s' => s'.Deps names busy ∧ s'.Cv busy' ∧ s'.Scheduled pend ∧
      (s'.station p).odepList i = [] ∧ s.Moved s') (wakeChain p i links s) := by
  induction links generalizing s with
  | nil => exact ⟨hd, hcv, hs, hlist, Moved.refl s⟩
  | cons ℓ rest ih =>
    have hin : ℓ ∈ (s.station p).odepList i := hlist ▸ List.mem_cons_self
    refine (wakeLink_meets E hs fun hv =>
      ⟨hd.live p i ℓ hin hv, hd.waiting p i ℓ hin hv⟩).bind fun s₁ ⟨hwoke, hs₁⟩ => ?_
    have hframe : Frame s (s₁.setOdepList p i rest) :=
      hwoke.frame.trans (frame_setOdepList s₁ p i rest)
    have hd' : (s₁.setOdepList p i rest).Deps names busy := by
      refine hd.popped hframe.agree
        (fun q => hframe.get (p := q) (Station.names names) fun _ => rfl)
        (fun _ => hframe.completed) hlist ?_ (fun q j hne => ?_) (fun c k => ?_) hc
      · rw [odepList_setOdepList, if_pos ⟨rfl, rfl⟩]
      · rw [odepList_setOdepList, if_neg fun h => hne (by rw [h.1, h.2]), hwoke.odepList]
      · rw [idepReady_setOdepList, hwoke.idepReady]
    refine (ih (s₁.setOdepList p i rest) hd' (hcv.congr hframe)
      (scheduled_setOdepList hs₁ p i rest) (hframe.completed.trans hc)
      (by rw [odepList_setOdepList, if_pos ⟨rfl, rfl⟩])).mono ?_
    exact fun s' ⟨h₁, h₂, h₃, h₄, h₅⟩ =>
      ⟨h₁, h₂, h₃, h₄, hwoke.moved.trans ((moved_setOdepList s₁ p i rest).trans h₅)⟩

theorem moved_releaseCv (s : Core U) (p : RsPtr) (i : ℕ) : s.Moved (s.releaseCv p i) := by
  rw [releaseCv_eq]
  split
  all_goals
    exact ⟨fun _ => rfl, rfl, rfl, rfl, rfl, rfl, rfl, rfl, fun _ => rfl, fun _ => Or.inl,
      fun _ => id, fun _ hr _ => Or.inl hr, fun _ _ => id⟩

theorem scheduled_releaseCv (h : s.Scheduled pend) (p : RsPtr) (i : ℕ) :
    (s.releaseCv p i).Scheduled pend := by
  rw [releaseCv_eq]
  split
  all_goals
    exact h.congr (fun _ => Iff.rfl) (fun _ => rfl) (fun _ => rfl) (fun _ => rfl) (fun _ => rfl)
      (fun _ => id) rfl rfl

theorem station_releaseCv (s : Core U) (p : RsPtr) (i : ℕ) :
    (s.releaseCv p i).station = s.station := by
  rw [releaseCv_eq]
  split <;> rfl

/-- The broadcast of one output does not stop, and it is done with that output. -/
theorem broadcast_meets (E : Halt → Prop) (hd : s.Deps names (some (p, i)))
    (hcv : s.Cv (some (p, i))) (hs : s.Scheduled pend) (hc : (s.station p).completed = true) :
    Meets E (fun s' => s'.Deps names (some (p, i + 1)) ∧ s'.Cv (some (p, i + 1)) ∧
      s'.Scheduled pend ∧ s.Moved s') (broadcast p s i) := by
  rw [broadcast]
  refine Meets.ite (fun _ => ?_) fun hna => ?_
  · have hst := station_releaseCv s p i
    refine (wakeChain_meets E ((s.station p).odepList i) (s.releaseCv p i) hd.releaseCv
      (hcv.releaseCv hc) (scheduled_releaseCv hs p i) (by rw [hst, hc]) (by rw [hst])).mono ?_
    rintro s' ⟨hd', hcv', hs', hnil, hmoved⟩
    refine ⟨hd'.change_busy fun q j n _ hne ho =>
        ho.imp_right fun ⟨j', hle, hbusy⟩ => ?_, hcv', hs',
      (moved_releaseCv s p i).trans hmoved⟩
    obtain ⟨rfl, rfl⟩ := Prod.mk.inj (Option.some.inj hbusy)
    have hij : i ≠ j := by
      rintro rfl
      exact hne hnil
    exact ⟨i + 1, by omega, rfl⟩
  · rw [not_not] at hna
    exact ⟨hd.change_busy fun q j n hw _ => open_succ_of_na hna q j n hw,
      hcv.change_busy (open_succ_of_na hna), hs, Moved.refl s⟩

/-- The broadcast of all outputs of an operation that has just completed. -/
theorem broadcast_all (E : Halt → Prop) (hd : s.Deps names (some (p, 0)))
    (hcv : s.Cv (some (p, 0))) (hs : s.Scheduled pend) (hc : (s.station p).completed = true) :
    Meets E (fun s' => s'.Deps names none ∧ s'.Cv none ∧ s'.Scheduled pend ∧ s.Moved s')
      ((List.range maxOdeps).foldlM (broadcast p) s) := by
  have hrange : List.range maxOdeps = [0, 1] := rfl
  rw [hrange, List.foldlM_cons]
  refine (broadcast_meets E hd hcv hs hc).bind fun s₁ ⟨hd₁, hcv₁, hs₁, hm₁⟩ => ?_
  rw [List.foldlM_cons]
  have hc₁ : (s₁.station p).completed = true := by
    rw [hm₁.get Station.completed fun _ => rfl, hc]
  refine (broadcast_meets E hd₁ hcv₁ hs₁ hc₁).bind fun s₂ ⟨hd₂, hcv₂, hs₂, hm₂⟩ => ?_
  exact ⟨hd₂.change_busy fun q j n hw _ => open_none q j n hw, hcv₂.change_busy open_none, hs₂,
    hm₁.trans hm₂⟩

/-- An operation without outputs has nothing to broadcast. -/
theorem change_busy_of_na (hna : ∀ j < maxOdeps, (s.station p).onames j = NA) (q : RsPtr)
    (j n : ℕ) (hw : s.Writes q j n) (ho : s.Open (some (p, 0)) q j) : s.Open none q j := by
  refine ho.imp_right fun ⟨j', _, hbusy⟩ => ?_
  obtain ⟨rfl, -⟩ := Prod.mk.inj (Option.some.inj hbusy)
  exact absurd (hw.2.2.1.symm.trans (hna j hw.2.1)) hw.2.2.2

end Core

end AdvancedArchitecture.Outorder
