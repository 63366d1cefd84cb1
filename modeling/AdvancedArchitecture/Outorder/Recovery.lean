import AdvancedArchitecture.Outorder.Dependence
import AdvancedArchitecture.Outorder.Scheduled

/-!
# Recovery from a mispredicted branch

`ruu_recover` goes from the tail of the RUU towards the branch and squashes what it passes, with
the LSQ in step. It writes the two tails only at the end. `dropLast` is one turn of the loop on a
state whose tails are written at once, and `recoverLoop_eq` connects the two. All operations after
the branch are removed, none of its own panics is reached, and the window is kept.
-/

namespace AdvancedArchitecture.Outorder

variable {U : Type}

namespace Core

variable {s s' s'' : Core U} {p q : RsPtr} {K K' : RsPtr → Prop}

/-- One removal after another. -/
theorem Removed.trans (h : s.Removed s' K) (h' : s'.Removed s'' K') :
    s.Removed s'' fun p => K p ∨ K' p := by
  have hdisj : ∀ {p}, K p → ¬K' p := fun hp hp' => ((h.live _).mp (h'.live_of _ hp')).2 hp
  refine ⟨fun p => ?_, fun p hp => ?_, fun p hp => ?_, fun p hp => ?_, fun p hp i => ?_,
    h'.eventQueue.trans h.eventQueue, h'.readyQueue.trans h.readyQueue,
    h'.createVector.trans h.createVector, h'.specMode.trans h.specMode,
    h'.instSeq.trans h.instSeq, h'.simCycle.trans h.simCycle⟩
  · rw [h'.live, h.live, not_or, and_assoc]
  · exact hp.elim (h.live_of p) fun hp => ((h.live p).mp (h'.live_of p hp)).1
  · rw [not_or] at hp
    rw [h'.same p hp.2, h.same p hp.1]
  · rcases hp with hp | hp
    · rw [h'.same p (hdisj hp), h.tag p hp]
    · rw [h'.tag p hp, h.same p fun hK => hdisj hK hp]
  · rcases hp with hp | hp
    · rw [h'.same p (hdisj hp), h.odepList p hp]
    · exact h'.odepList p hp i

/-! ### The last operation -/

/-- The last entry of the RUU. -/
abbrev lastRuu (s : Core U) : RsPtr := ⟨false, s.ruu.prev s.ruu.tail⟩

/-- The last entry of the LSQ. -/
abbrev lastLsq (s : Core U) : RsPtr := ⟨true, s.lsq.prev s.lsq.tail⟩

/-- The last instruction is squashed: its entry in the RUU, and in the LSQ if it has one. -/
def dropLast (s : Core U) : Core U :=
  let s :=
    if (s.station s.lastRuu).eaComp then { s.squash s.lastLsq with lsq := s.lsq.retract } else s
  { s.squash s.lastRuu with ruu := s.ruu.retract }

/-- The stations that `dropLast` removes. -/
def Last (s : Core U) (p : RsPtr) : Prop :=
  p = s.lastRuu ∨ (s.station s.lastRuu).eaComp = true ∧ p = s.lastLsq

theorem Window.lsq_pos (h : s.Window) (hn : 0 < s.ruu.num)
    (hea : (s.station s.lastRuu).eaComp = true) : 0 < s.lsq.num := by
  obtain ⟨i, hi, -⟩ := h.exists_access (h.ruu_ok.prev_tail_mem hn) hea
  exact Ring.num_pos_of_mem hi

theorem dropLast_of_eaComp (hea : (s.station s.lastRuu).eaComp = true) :
    s.dropLast = { (s.squash s.lastLsq).squash s.lastRuu with
      ruu := s.ruu.retract, lsq := s.lsq.retract } := by
  rw [dropLast, if_pos hea]
  rfl

theorem dropLast_of_not (hea : (s.station s.lastRuu).eaComp = false) :
    s.dropLast = { s.squash s.lastRuu with ruu := s.ruu.retract } := by
  rw [dropLast, if_neg (by simp [hea])]

theorem Removed.congr (h : s.Removed s' K) (hK : ∀ p, K' p ↔ K p) : s.Removed s' K' := by
  have heq : K' = K := funext fun p => propext (hK p)
  rwa [heq]

/-- One station leaves its queue, its tag is incremented, and no operation waits for it. -/
theorem removed_of_modify {r l : Ring} {f : Station U → Station U} (hp : s.Live p)
    (htag : (f (s.station p)).tag = (s.station p).tag + 1)
    (hlist : ∀ i, (f (s.station p)).odepList i = [])
    (hlive : ∀ q, { s with ruu := r, lsq := l }.Live q ↔ s.Live q ∧ q ≠ p) :
    s.Removed { s.modify p f with ruu := r, lsq := l } (· = p) := by
  have hself : ({ s.modify p f with ruu := r, lsq := l } : Core U).station p = f (s.station p) :=
    Function.update_self ..
  refine ⟨hlive, fun q hq => hq ▸ hp, fun q hq => station_modify_ne hq, fun q hq => ?_,
    fun q hq i => ?_, rfl, rfl, rfl, rfl, rfl, rfl⟩
  · rw [hq, hself, htag]
  · rw [hq, hself, hlist]

theorem removed_lastRuu (h : s.ruu.Ok) (hn : 0 < s.ruu.num) :
    s.Removed { s.squash s.lastRuu with ruu := s.ruu.retract } (· = s.lastRuu) := by
  refine removed_of_modify (l := s.lsq) (h.prev_tail_mem hn) rfl (fun _ => rfl) fun q => ?_
  obtain ⟨_ | _, i⟩ := q <;> simp [Live, h.mem_slots_retract hn]

theorem removed_lastLsq (h : s.lsq.Ok) (hn : 0 < s.lsq.num) :
    s.Removed { s.squash s.lastLsq with lsq := s.lsq.retract } (· = s.lastLsq) := by
  refine removed_of_modify (r := s.ruu) (h.prev_tail_mem hn) rfl (fun _ => rfl) fun q => ?_
  obtain ⟨_ | _, i⟩ := q <;> simp [Live, h.mem_slots_retract hn]

/-- The last instruction is removed. -/
theorem Window.removed_dropLast (h : s.Window) (hn : 0 < s.ruu.num) :
    s.Removed s.dropLast s.Last := by
  rw [dropLast]
  split
  · rename_i hea
    have hlsq := removed_lastLsq h.lsq_ok (h.lsq_pos hn hea)
    refine (hlsq.trans (removed_lastRuu h.ruu_ok hn)).congr fun p => ?_
    rw [Last, hea, eq_self, true_and]
    exact or_comm
  · rename_i hea
    exact (removed_lastRuu h.ruu_ok hn).congr fun p => by simp [Last, hea]

/-- The window is kept when RUU and LSQ lose matching entries. -/
theorem Window.removed (h : s.Window) (hr : s.Removed s' K) (hruu_ok : s'.ruu.Ok)
    (hlsq_ok : s'.lsq.Ok) (hruu : s'.ruu.slots.Sublist s.ruu.slots)
    (hpaired : (s'.lsq.slots.map fun i => (s.station ⟨true, i⟩).seq) =
      (s'.ruu.slots.filter fun i => (s.station ⟨false, i⟩).eaComp).map
        fun i => (s.station ⟨false, i⟩).seq + 1) : s'.Window := by
  have hst : ∀ q, s'.Live q → s'.station q = s.station q :=
    fun q hq => hr.same q ((hr.live q).mp hq).2
  have hlive : ∀ {i}, i ∈ s'.lsq.slots → i ∈ s.lsq.slots :=
    fun {i} hi => ((hr.live ⟨true, i⟩).mp hi).1
  refine ⟨hruu_ok, hlsq_ok, ?_, fun i hi => ?_, ?_, fun p hp => ?_, fun i hi => ?_, fun i hi => ?_,
    fun i hi => ?_, fun i hi => ?_⟩
  · refine (h.ordered.sublist hruu).imp_of_mem fun {a b} ha hb hab => ?_
    rwa [hst ⟨false, a⟩ ha, hst ⟨false, b⟩ hb]
  · rw [hst ⟨false, i⟩ hi, hr.instSeq]
    exact h.lastSeq_le i (hruu.subset hi)
  · rw [List.map_congr_left fun i hi => congrArg Station.seq (hst ⟨true, i⟩ hi), hpaired,
      List.filter_congr fun i hi => congrArg Station.eaComp (hst ⟨false, i⟩ hi)]
    refine List.map_congr_left fun i hi => ?_
    rw [hst ⟨false, i⟩ (List.mem_of_mem_filter hi)]
  · rw [hst p hp]
    exact h.inLSQ p ((hr.live p).mp hp).1
  · rw [hst ⟨true, i⟩ hi]
    exact h.access_eaComp i (hlive hi)
  · rw [hst ⟨true, i⟩ hi]
    exact h.access_recoverInst i (hlive hi)
  · rw [hst ⟨true, i⟩ hi]
    exact h.access_mem i (hlive hi)
  · rw [hst ⟨true, i⟩ hi]
    exact h.store_onames i (hlive hi)

theorem Window.dropLast (h : s.Window) (hn : 0 < s.ruu.num) : s.dropLast.Window := by
  have hr := h.removed_dropLast hn
  have hslots := h.ruu_ok.slots_retract hn
  have hpaired := h.paired
  rw [hslots, List.filter_append, List.map_append, List.filter_singleton] at hpaired
  cases hea : (s.station s.lastRuu).eaComp
  · rw [hea] at hpaired
    have hruu : s.dropLast.ruu = s.ruu.retract := by rw [dropLast_of_not hea]
    have hlsq : s.dropLast.lsq = s.lsq := by rw [dropLast_of_not hea]; rfl
    refine h.removed hr (hruu ▸ h.ruu_ok.retract hn) (hlsq ▸ h.lsq_ok) ?_ ?_
    · rw [hruu, hslots]
      exact List.sublist_append_left _ _
    · rw [hruu, hlsq, hpaired]
      simp
  · rw [hea] at hpaired
    have hlpos := h.lsq_pos hn hea
    have hruu : s.dropLast.ruu = s.ruu.retract := by rw [dropLast_of_eaComp hea]
    have hlsq : s.dropLast.lsq = s.lsq.retract := by rw [dropLast_of_eaComp hea]
    refine h.removed hr (hruu ▸ h.ruu_ok.retract hn) (hlsq ▸ h.lsq_ok.retract hlpos) ?_ ?_
    · rw [hruu, hslots]
      exact List.sublist_append_left _ _
    · rw [hruu, hlsq]
      rw [h.lsq_ok.slots_retract hlpos, List.map_append] at hpaired
      exact (List.append_inj' hpaired rfl).1

/-! ### The loop -/

/-- The state with the tails that the loop has got to. -/
def RecoverVars.view (v : RecoverVars) (s : Core U) : Core U :=
  { s with
    ruu := { s.ruu with tail := v.ruuPrevTail }
    lsq := { s.lsq with tail := v.lsqPrevTail } }

/-- The two indices are those before the tails. -/
structure RecoverVars.Follows (v : RecoverVars) (s : Core U) : Prop where
  ruuIndex : v.ruuIndex = s.ruu.prev v.ruuPrevTail
  lsqIndex : v.lsqIndex = s.lsq.prev v.lsqPrevTail

variable {b n : ℕ} {v : RecoverVars}

/-- The last entry of the RUU is later than any other. -/
theorem Window.lt_last (h : s.Window) (hn : 0 < s.ruu.num) {i : ℕ} (hi : i ∈ s.ruu.slots)
    (hne : i ≠ s.ruu.prev s.ruu.tail) :
    (s.station ⟨false, i⟩).lastSeq < (s.station s.lastRuu).seq := by
  have hord := h.ordered
  rw [h.ruu_ok.slots_retract hn, List.pairwise_append] at hord
  exact hord.2.2 i ((h.ruu_ok.mem_slots_retract hn).mpr ⟨hi, hne⟩) _ (List.mem_singleton_self _)

/-- What the recovery from the branch `b` leaves of a state. -/
structure Recovered (s s' : Core U) (b : ℕ) (K : RsPtr → Prop) : Prop where
  window : s'.Window
  removed : s.Removed s' K
  later : ∀ p, K p → (s.station ⟨false, b⟩).seq < (s.station p).seq
  last : s'.ruu.prev s'.ruu.tail = b
  mem : b ∈ s'.ruu.slots
  ruu_size : s'.ruu.size = s.ruu.size
  lsq_size : s'.lsq.size = s.lsq.size

/-- The head of the RUU is earlier than any other entry. -/
theorem Window.head_lt (h : s.Window) (hn : 0 < s.ruu.num) {i : ℕ} (hi : i ∈ s.ruu.slots)
    (hne : i ≠ s.ruu.head) :
    (s.station ⟨false, s.ruu.head⟩).lastSeq < (s.station ⟨false, i⟩).seq := by
  have hord := h.ordered
  rw [h.ruu_ok.slots_pop hn] at hord
  exact (List.pairwise_cons.mp hord).1 i ((h.ruu_ok.mem_slots_pop hn).mpr ⟨hi, hne⟩)

/-- The last entry of the LSQ is the memory access of the last address computation. -/
theorem Window.seq_lastLsq (h : s.Window) (hn : 0 < s.ruu.num)
    (hea : (s.station s.lastRuu).eaComp = true) :
    (s.station s.lastLsq).seq = (s.station s.lastRuu).seq + 1 := by
  have hpaired := h.paired
  rw [h.ruu_ok.slots_retract hn, h.lsq_ok.slots_retract (h.lsq_pos hn hea), List.map_append,
    List.filter_append, List.map_append, List.filter_singleton, hea] at hpaired
  exact (List.cons.inj (List.append_inj' hpaired rfl).2).1

theorem Window.later_of_last (h : s.Window) (hn : 0 < s.ruu.num) (hb : b ∈ s.ruu.slots)
    (hne : b ≠ s.ruu.prev s.ruu.tail) (hp : s.Last p) :
    (s.station ⟨false, b⟩).seq < (s.station p).seq := by
  have hlt := ((s.station ⟨false, b⟩).seq_le_lastSeq).trans_lt (h.lt_last hn hb hne)
  rcases hp with rfl | ⟨hea, rfl⟩
  · exact hlt
  · rw [h.seq_lastLsq hn hea]
    omega

theorem Recovered.refl (h : s.Window) (hb : b ∈ s.ruu.slots) (hlast : s.ruu.prev s.ruu.tail = b) :
    s.Recovered s b fun _ => False where
  window := h
  removed := ⟨fun p => by simp, fun _ => False.elim, fun _ _ => rfl, fun _ => False.elim,
    fun _ => False.elim, rfl, rfl, rfl, rfl, rfl, rfl⟩
  later _ := False.elim
  last := hlast
  mem := hb
  ruu_size := rfl
  lsq_size := rfl

/-- One more instruction is squashed before. -/
theorem Recovered.cons (h : s.Window) (hn : 0 < s.ruu.num) (hb : b ∈ s.ruu.slots)
    (hne : b ≠ s.ruu.prev s.ruu.tail) (hr : s.dropLast.Recovered s' b K) :
    s.Recovered s' b fun p => s.Last p ∨ K p where
  window := hr.window
  removed := (h.removed_dropLast hn).trans hr.removed
  later p hp := by
    have hd := h.removed_dropLast hn
    rcases hp with hp | hp
    · exact h.later_of_last hn hb hne hp
    · have hlt := hr.later p hp
      have hb' := (hd.live ⟨false, b⟩).mp ((hr.removed.live ⟨false, b⟩).mp hr.mem).1
      rwa [hd.same _ hb'.2, hd.same p ((hd.live p).mp (hr.removed.live_of p hp)).2] at hlt
  last := hr.last
  mem := hr.mem
  ruu_size := by
    rw [hr.ruu_size, Core.dropLast]
    split <;> rfl
  lsq_size := by
    rw [hr.lsq_size, Core.dropLast]
    split <;> rfl

/-- The variables after one turn of the loop. -/
def RecoverVars.turn (v : RecoverVars) (s : Core U) : RecoverVars :=
  let ea := (s.station ⟨false, v.ruuIndex⟩).eaComp
  { ruuPrevTail := v.ruuIndex
    ruuIndex := s.ruu.prev v.ruuIndex
    lsqPrevTail := if ea then v.lsqIndex else v.lsqPrevTail
    lsqIndex := if ea then s.lsq.prev v.lsqIndex else v.lsqIndex }

/-- The stations after one turn of the loop. -/
def RecoverVars.turned (v : RecoverVars) (s : Core U) : Core U :=
  let ea := (s.station ⟨false, v.ruuIndex⟩).eaComp
  { (if ea then s.squash ⟨true, v.lsqIndex⟩ else s).squash ⟨false, v.ruuIndex⟩ with
    ruu := { s.ruu with num := s.ruu.num - 1 }
    lsq := { s.lsq with num := if ea then s.lsq.num - 1 else s.lsq.num } }

theorem RecoverVars.Follows.turn (hv : v.Follows s) : (v.turn s).Follows (v.turned s) := by
  refine ⟨rfl, ?_⟩
  change (if _ then _ else _) = s.lsq.prev (if _ then _ else _)
  split
  · rfl
  · exact hv.lsqIndex

/-- One turn squashes the last instruction. -/
theorem RecoverVars.Follows.view_turn (hv : v.Follows s) :
    (v.turn s).view (v.turned s) = (v.view s).dropLast := by
  have hruu : (v.view s).lastRuu = ⟨false, v.ruuIndex⟩ := by rw [hv.ruuIndex]; rfl
  have hlsq : (v.view s).lastLsq = ⟨true, v.lsqIndex⟩ := by rw [hv.lsqIndex]; rfl
  cases hea : (s.station ⟨false, v.ruuIndex⟩).eaComp
  · rw [dropLast_of_not (by rw [hruu]; exact hea), hruu, RecoverVars.turn, RecoverVars.turned, hea,
      hv.ruuIndex]
    rfl
  · rw [dropLast_of_eaComp (by rw [hruu]; exact hea), hruu, hlsq, RecoverVars.turn,
      RecoverVars.turned, hea, hv.ruuIndex, hv.lsqIndex]
    rfl

theorem recoverLoop_succ (hne : v.ruuIndex ≠ b) (hnum : s.ruu.num ≠ 0)
    (hhead : v.ruuIndex ≠ s.ruu.head)
    (hlsq : (s.station ⟨false, v.ruuIndex⟩).eaComp = true → s.lsq.num ≠ 0) :
    recoverLoop b (n + 1) v s = recoverLoop b n (v.turn s) (v.turned s) := by
  rw [recoverLoop, if_neg hne, if_neg hnum, if_neg hhead, RecoverVars.turn, RecoverVars.turned]
  cases hea : (s.station ⟨false, v.ruuIndex⟩).eaComp
  · rfl
  · rw [if_pos rfl, if_neg (hlsq hea)]
    rfl

/-- The loop does not stop, and ends with the branch as the last entry of the RUU. -/
theorem recoverLoop_meets (E : Halt → Prop) (hv : v.Follows s) (h : (v.view s).Window)
    (hb : b ∈ (v.view s).ruu.slots) (hn : (v.view s).ruu.num ≤ n) :
    Meets E (fun r => ∃ K, (v.view s).Recovered (r.1.view r.2) b K) (recoverLoop b n v s) := by
  have hpos := Ring.num_pos_of_mem hb
  have hlast : (v.view s).ruu.prev (v.view s).ruu.tail = v.ruuIndex := hv.ruuIndex.symm
  induction n generalizing v s with
  | zero => omega
  | succ n ih =>
    by_cases hvb : v.ruuIndex = b
    · rw [recoverLoop, if_pos hvb]
      exact ⟨_, Recovered.refl h hb (hlast.trans hvb)⟩
    · have hne : b ≠ (v.view s).ruu.prev (v.view s).ruu.tail := hlast.symm ▸ Ne.symm hvb
      -- the branch is between the head and the last entry, so the loop has not come to the head
      have hhead : v.ruuIndex ≠ s.ruu.head := by
        intro heq
        have hlt := ((s.station ⟨false, b⟩).seq_le_lastSeq).trans_lt (h.lt_last hpos hb hne)
        have hlt' := h.head_lt hpos hb fun hbh => hvb (heq.trans hbh.symm)
        have hle := ((v.view s).station ⟨false, (v.view s).ruu.head⟩).seq_le_lastSeq
        have hsame : (v.view s).ruu.prev (v.view s).ruu.tail = (v.view s).ruu.head :=
          hlast.trans heq
        rw [lastRuu, hsame] at hlt
        exact absurd (hlt.trans_le hle) hlt'.le.not_gt
      have hlsq : (s.station ⟨false, v.ruuIndex⟩).eaComp = true → s.lsq.num ≠ 0 := fun hea =>
        (h.lsq_pos hpos (by rw [lastRuu, hlast]; exact hea)).ne'
      have hdrop := h.removed_dropLast hpos
      -- it stays in the RUU when the last entry is dropped
      have hb' : b ∈ (v.view s).dropLast.ruu.slots :=
        (hdrop.live ⟨false, b⟩).mpr ⟨hb, fun hK => by
          have := h.later_of_last hpos hb hne hK
          omega⟩
      have hnum : (v.view s).dropLast.ruu.num = (v.view s).ruu.num - 1 := by
        rw [dropLast]
        split <;> rfl
      rw [recoverLoop_succ (s := s) hvb hpos.ne' hhead hlsq]
      have hview := hv.view_turn
      refine (ih hv.turn (hview ▸ h.dropLast hpos) (hview ▸ hb') (by rw [hview, hnum]; omega)
        (hview ▸ Ring.num_pos_of_mem hb') hv.turn.ruuIndex.symm).mono ?_
      rintro r ⟨K, hr⟩
      rw [hview] at hr
      exact ⟨_, hr.cons h hpos hb hne⟩

/-- All that is later than the branch is removed. -/
theorem ruuRecover_meets (E : Halt → Prop) (h : s.Window) (hb : b ∈ s.ruu.slots)
    (hea : (s.station ⟨false, b⟩).eaComp = false) :
    Meets E (fun s' => s'.Window ∧
      s.Removed s' (fun p => s.Live p ∧ (s.station ⟨false, b⟩).seq < (s.station p).seq) ∧
      (∀ n, s'.useSpecCv n = false) ∧ s'.ruu.size = s.ruu.size ∧ s'.lsq.size = s.lsq.size)
      (ruuRecover s b) := by
  have hloop := recoverLoop_meets E (b := b) (n := s.ruu.num) (s := s)
    (v := ⟨s.ruu.prev s.ruu.tail, s.ruu.tail, s.lsq.prev s.lsq.tail, s.lsq.tail⟩) ⟨rfl, rfl⟩ h hb
    le_rfl
  refine hloop.bind fun r ⟨K, hr⟩ => ⟨hr.window.congr (fun _ => rfl) rfl rfl rfl, ?_,
    fun _ => rfl, hr.ruu_size, hr.lsq_size⟩
  -- what the loop has removed are the operations after the branch
  have hK : ∀ p, (s.Live p ∧ (s.station ⟨false, b⟩).seq < (s.station p).seq) ↔ K p := by
    refine fun p => ⟨fun ⟨hl, hlt⟩ => ?_, fun hp => ⟨hr.removed.live_of p hp, hr.later p hp⟩⟩
    by_contra hKp
    have hpos := Ring.num_pos_of_mem hr.mem
    have hst : ∀ q, (r.1.view r.2).Live q → (r.1.view r.2).station q = s.station q :=
      fun q hq => hr.removed.same q ((hr.removed.live q).mp hq).2
    have hle : ∀ i ∈ (r.1.view r.2).ruu.slots, i ≠ b →
        (s.station ⟨false, i⟩).lastSeq < (s.station ⟨false, b⟩).seq := by
      intro i hi hne
      have hlt := hr.window.lt_last hpos hi (hr.last.symm ▸ hne)
      rwa [lastRuu, hr.last, hst ⟨false, i⟩ hi, hst ⟨false, b⟩ hr.mem] at hlt
    have hlive := (hr.removed.live p).mpr ⟨hl, hKp⟩
    obtain ⟨_ | _, i⟩ := p
    · by_cases hib : i = b
      · subst hib
        omega
      · have := hle i hlive hib
        have := (s.station ⟨false, i⟩).seq_le_lastSeq
        omega
    · obtain ⟨j, hj, hjea, hseq⟩ := hr.window.exists_agen hlive
      rw [hst ⟨false, j⟩ hj] at hjea hseq
      rw [hst ⟨true, i⟩ hlive] at hseq
      have hjb : j ≠ b := by
        rintro rfl
        rw [hea] at hjea
        exact absurd hjea (by simp)
      have hlast : (s.station ⟨false, j⟩).lastSeq = (s.station ⟨false, j⟩).seq + 1 := if_pos hjea
      have := hle j hj hjb
      omega
  have hremoved := hr.removed.congr hK
  exact { hremoved with live := hremoved.live }

end Core

end AdvancedArchitecture.Outorder
