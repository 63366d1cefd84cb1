import AdvancedArchitecture.Outorder.Links

/-!
# Register dependences

An operation that waits for an operand is on the output list of the operation that computes it.
`Deps` is the invariant of these lists. A link in a list that is still valid belongs to an operand
that is not ready, and the list is that of the last operation before it, in program order, that
writes the register; no operand is on two lists, and none waits without being on one. An operand
that is ready has no writer before it that has not completed, but for those whose result a later
one hides. `Cv` is the invariant of the create vector: it names the last writer of a register, as
long as that has not completed.

In `ruu_writeback` the results of an operation are broadcast one after the other, when it has
already completed: `busy` is this operation and the output it has got to.
-/

namespace AdvancedArchitecture.Outorder

variable {U : Type}

/-- The names an operation is dispatched with; `names` are those of an instruction. -/
def Station.names (names : MdInst → Names) (st : Station U) : Names :=
  if st.inLSQ then (names st.IR).access
  else if st.eaComp then (names st.IR).agen
  else names st.IR

namespace Core

/-- The live station `p` writes the register `n` with its output `i`. -/
def Writes (s : Core U) (p : RsPtr) (i n : ℕ) : Prop :=
  s.Live p ∧ i < maxOdeps ∧ (s.station p).onames i = n ∧ n ≠ NA

/-- The operand `k` of `c` is on the list of the output `i` of `p`. -/
def Waits (s : Core U) (c : RsPtr) (k : ℕ) (p : RsPtr) (i : ℕ) : Prop :=
  s.link c k ∈ (s.station p).odepList i

/-- The output `i` of `p` has not been broadcast. -/
def Open (s : Core U) (busy : Option (RsPtr × ℕ)) (p : RsPtr) (i : ℕ) : Prop :=
  (s.station p).completed = false ∨ ∃ j ≤ i, busy = some (p, j)

/-- The station `p` is the last before the number `t` to write the register `n`. -/
def LastBefore (s : Core U) (p : RsPtr) (n t : ℕ) : Prop :=
  ∀ q j, s.Writes q j n → (s.station q).seq < t → (s.station q).seq ≤ (s.station p).seq

/-- The last writer of `n` before the number `t` has completed, if there is one. -/
def Settled (s : Core U) (n t : ℕ) : Prop :=
  ∀ q j, s.Writes q j n → (s.station q).seq < t →
    ∃ q' j', s.Writes q' j' n ∧ (s.station q).seq ≤ (s.station q').seq ∧
      (s.station q').seq < t ∧ (s.station q').completed = true

/-- The invariant of the output lists. -/
structure Deps (names : MdInst → Names) (busy : Option (RsPtr × ℕ)) (s : Core U) : Prop where
  list_open : ∀ p i ℓ, ℓ ∈ (s.station p).odepList i →
    s.Writes p i ((s.station p).onames i) ∧ s.Open busy p i
  tag_le : ∀ p i ℓ, ℓ ∈ (s.station p).odepList i → ℓ.tag ≤ (s.station ℓ.rs).tag
  nodup : ∀ p i, ((s.station p).odepList i).Nodup
  live : ∀ p i ℓ, ℓ ∈ (s.station p).odepList i → s.Valid ℓ → s.Live ℓ.rs
  waiting : ∀ p i ℓ, ℓ ∈ (s.station p).odepList i → s.Valid ℓ →
    ℓ.x < maxIdeps ∧ (s.station ℓ.rs).idepReady ℓ.x = false
  older : ∀ p i ℓ, ℓ ∈ (s.station p).odepList i → s.Valid ℓ →
    (s.station p).seq < (s.station ℓ.rs).seq
  reads : ∀ p i ℓ, ℓ ∈ (s.station p).odepList i → s.Valid ℓ →
    ((s.station ℓ.rs).names names).input ℓ.x = (s.station p).onames i
  last : ∀ p i ℓ, ℓ ∈ (s.station p).odepList i → s.Valid ℓ →
    s.LastBefore p ((s.station p).onames i) (s.station ℓ.rs).seq
  unique : ∀ c k p i q j, s.Waits c k p i → s.Waits c k q j → p = q ∧ i = j
  linked : ∀ c k, s.Live c → k < maxIdeps → (s.station c).idepReady k = false →
    ∃ p i, s.Waits c k p i
  ready : ∀ c k, s.Live c → k < maxIdeps → (s.station c).idepReady k = true →
    s.Settled (((s.station c).names names).input k) (s.station c).seq

/-- The create vector entry `l` of the register `n` is right, as far as the writers with `P` are
concerned. -/
def Newest (s : Core U) (busy : Option (RsPtr × ℕ)) (P : Station U → Prop) (n : ℕ) :
    Option CvLink → Prop
  | some l => s.Writes l.rs l.odepNum n ∧ P (s.station l.rs) ∧ s.Open busy l.rs l.odepNum ∧
      ∀ q j, s.Writes q j n → P (s.station q) → (s.station q).seq ≤ (s.station l.rs).seq
  | none => ∀ q j, s.Writes q j n → P (s.station q) →
      ∃ q' j', s.Writes q' j' n ∧ P (s.station q') ∧ (s.station q).seq ≤ (s.station q').seq ∧
        (s.station q').completed = true

/-- The invariant of the create vector and its speculative copy. -/
structure Cv (busy : Option (RsPtr × ℕ)) (s : Core U) : Prop where
  plain : ∀ n, n ≠ NA → s.Newest busy (fun st => st.specMode = false) n (s.createVector n)
  spec : ∀ n, n ≠ NA → s.useSpecCv n = true →
    s.Newest busy (fun _ => True) n (s.specCreateVector n)
  spec_of : ∀ n l, n ≠ NA → s.useSpecCv n = true → s.specCreateVector n = some l →
    (s.station l.rs).specMode = true
  clean : ∀ n, s.useSpecCv n = false → ∀ p i, s.Writes p i n → (s.station p).specMode = false
  mode : s.specMode = false → ∀ n, s.useSpecCv n = false

variable {names : MdInst → Names} {busy : Option (RsPtr × ℕ)} {s s' : Core U} {p c : RsPtr}
  {ℓ : RsLink} {i k n t : ℕ}

theorem link_congr (h : (s'.station p).tag = (s.station p).tag) (k : ℕ) :
    s'.link p k = s.link p k := by
  rw [link, link, h]

/-- A valid link is one that would be made now. -/
theorem eq_link_of_valid (h : s.Valid ℓ) : ℓ = s.link ℓ.rs ℓ.x := by
  obtain ⟨rs, tag, x⟩ := ℓ
  exact congrArg (fun t => RsLink.mk rs t x) h

theorem waits_of_mem (h : ℓ ∈ (s.station p).odepList i) (hv : s.Valid ℓ) :
    s.Waits ℓ.rs ℓ.x p i := by
  rw [Waits, ← eq_link_of_valid hv]
  exact h

namespace Cv

/-- `CREATE_VECTOR` names the last writer of all. -/
theorem read (h : s.Cv busy) (hn : n ≠ NA) :
    s.Newest busy (fun _ => True) n (s.readCreateVector n) := by
  rw [readCreateVector]
  split
  · exact h.spec n hn ‹_›
  · have hclean := h.clean n (by simpa using ‹¬s.useSpecCv n = true›)
    have hplain := h.plain n hn
    rcases hcv : s.createVector n with _ | l
    · rw [hcv] at hplain
      intro q j hq _
      obtain ⟨q', j', hq', -, hle, hc⟩ := hplain q j hq (hclean q j hq)
      exact ⟨q', j', hq', trivial, hle, hc⟩
    · rw [hcv] at hplain
      obtain ⟨hw, -, ho, hle⟩ := hplain
      exact ⟨hw, trivial, ho, fun q j hq _ => hle q j hq (hclean q j hq)⟩

end Cv

/-! ### States that agree -/

/-- What the invariants of dependences read: everything but the flags `queued` and `issued` and
the queues. -/
structure Agree (s s' : Core U) : Prop where
  live : ∀ p, s'.Live p ↔ s.Live p
  tag : ∀ p, (s'.station p).tag = (s.station p).tag
  seq : ∀ p, (s'.station p).seq = (s.station p).seq
  onames : ∀ p, (s'.station p).onames = (s.station p).onames
  specMode : ∀ p, (s'.station p).specMode = (s.station p).specMode

namespace Agree

theorem refl (s : Core U) : s.Agree s :=
  ⟨fun _ => Iff.rfl, fun _ => rfl, fun _ => rfl, fun _ => rfl, fun _ => rfl⟩

theorem writes (h : s.Agree s') {i n : ℕ} : s'.Writes p i n ↔ s.Writes p i n := by
  rw [Writes, Writes, h.live, h.onames]

theorem valid (h : s.Agree s') : s'.Valid ℓ ↔ s.Valid ℓ := valid_congr (h.tag _)

theorem link (h : s.Agree s') (k : ℕ) : s'.link p k = s.link p k := link_congr (h.tag p) k

theorem lastBefore (h : s.Agree s') : s'.LastBefore p n t ↔ s.LastBefore p n t := by
  simp only [LastBefore, h.writes, h.seq]

/-- More operations have completed. -/
theorem settled (h : s.Agree s')
    (hc : ∀ p, (s.station p).completed = true → (s'.station p).completed = true)
    (hs : s.Settled n t) : s'.Settled n t := by
  intro q j hq hlt
  obtain ⟨q', j', hq', hle, hlt', hc'⟩ := hs q j (h.writes.mp hq) (h.seq q ▸ hlt)
  refine ⟨q', j', h.writes.mpr hq', ?_, ?_, hc q' hc'⟩
  · rw [h.seq, h.seq]
    exact hle
  · rw [h.seq]
    exact hlt'

theorem newest (h : s.Agree s') {busy' : Option (RsPtr × ℕ)} {P : Station U → Prop}
    {l : Option CvLink}
    (hP : ∀ p, P (s'.station p) ↔ P (s.station p))
    (hc : ∀ p, (s.station p).completed = true → (s'.station p).completed = true)
    (ho : ∀ p i n, s.Writes p i n → s.Open busy p i → s'.Open busy' p i)
    (hn : s.Newest busy P n l) : s'.Newest busy' P n l := by
  cases l with
  | none =>
    intro q j hq hPq
    obtain ⟨q', j', hq', hPq', hle, hc'⟩ := hn q j (h.writes.mp hq) ((hP q).mp hPq)
    refine ⟨q', j', h.writes.mpr hq', (hP q').mpr hPq', ?_, hc q' hc'⟩
    rw [h.seq, h.seq]
    exact hle
  | some v =>
    obtain ⟨hw, hPv, hopen, hle⟩ := hn
    refine ⟨h.writes.mpr hw, (hP _).mpr hPv, ho _ _ _ hw hopen, fun q j hq hPq => ?_⟩
    rw [h.seq, h.seq]
    exact hle q j (h.writes.mp hq) ((hP q).mp hPq)

end Agree

theorem Frame.agree (h : Frame s s') : s.Agree s' :=
  ⟨fun _ => h.live, fun _ => h.tag, fun _ => h.seq, fun _ => h.onames, fun _ => h.specMode_eq⟩

/-- The output lists are the same, more operations have completed, and outputs that have not been
broadcast in one state have not in the other. -/
theorem Deps.of_agree {busy' : Option (RsPtr × ℕ)} (h : s.Deps names busy) (ha : s.Agree s')
    (hlist : ∀ p, (s'.station p).odepList = (s.station p).odepList)
    (hready : ∀ p, (s'.station p).idepReady = (s.station p).idepReady)
    (hnames : ∀ p, (s'.station p).names names = (s.station p).names names)
    (hc : ∀ p, (s.station p).completed = true → (s'.station p).completed = true)
    (ho : ∀ p i n, s.Writes p i n → (s.station p).odepList i ≠ [] → s.Open busy p i →
      s'.Open busy' p i) :
    s'.Deps names busy' := by
  refine ⟨fun p i ℓ hℓ => ?_, fun p i ℓ hℓ => ?_, fun p i => hlist p ▸ h.nodup p i,
    fun p i ℓ hℓ hv => ?_, fun p i ℓ hℓ hv => ?_, fun p i ℓ hℓ hv => ?_, fun p i ℓ hℓ hv => ?_,
    fun p i ℓ hℓ hv => ?_, fun c k p i q j hp hq => ?_, fun c k hl hk hr => ?_,
    fun c k hl hk hr => ?_⟩
  · rw [ha.writes, ha.onames]
    obtain ⟨hw, hopen⟩ := h.list_open p i ℓ (hlist p ▸ hℓ)
    exact ⟨hw, ho p i _ hw (List.ne_nil_of_mem (hlist p ▸ hℓ)) hopen⟩
  · rw [ha.tag]
    exact h.tag_le p i ℓ (hlist p ▸ hℓ)
  · exact (ha.live _).mpr (h.live p i ℓ (hlist p ▸ hℓ) (ha.valid.mp hv))
  · rw [hready]
    exact h.waiting p i ℓ (hlist p ▸ hℓ) (ha.valid.mp hv)
  · rw [ha.seq, ha.seq]
    exact h.older p i ℓ (hlist p ▸ hℓ) (ha.valid.mp hv)
  · rw [hnames, ha.onames]
    exact h.reads p i ℓ (hlist p ▸ hℓ) (ha.valid.mp hv)
  · rw [ha.lastBefore, ha.seq, ha.onames]
    exact h.last p i ℓ (hlist p ▸ hℓ) (ha.valid.mp hv)
  · rw [Waits, ha.link, hlist] at hp hq
    exact h.unique c k p i q j hp hq
  · rw [hready] at hr
    obtain ⟨p, i, hw⟩ := h.linked c k ((ha.live c).mp hl) hk hr
    refine ⟨p, i, ?_⟩
    rw [Waits, ha.link, hlist]
    exact hw
  · rw [hready] at hr
    rw [hnames, ha.seq]
    exact ha.settled hc (h.ready c k ((ha.live c).mp hl) hk hr)

theorem Deps.congr (h : s.Deps names busy) (hs : Same s s') : s'.Deps names busy :=
  h.of_agree hs.frame.agree (fun _ => hs.odepList) (fun _ => hs.idepReady)
    (fun p => hs.get (p := p) (Station.names names) fun _ => rfl)
    (fun _ => hs.completed.symm ▸ id) fun p i _ _ _ ho => by rwa [Open, hs.completed]

/-- The create vectors are the same, more operations have completed, and outputs that have not
been broadcast in one state have not in the other. -/
theorem Cv.of_agree {busy' : Option (RsPtr × ℕ)} (h : s.Cv busy) (ha : s.Agree s')
    (hcv : s'.createVector = s.createVector) (hspec : s'.specCreateVector = s.specCreateVector)
    (huse : s'.useSpecCv = s.useSpecCv) (hmode : s'.specMode = s.specMode)
    (hc : ∀ p, (s.station p).completed = true → (s'.station p).completed = true)
    (ho : ∀ p i n, s.Writes p i n → s.Open busy p i → s'.Open busy' p i) : s'.Cv busy' := by
  have hnew : ∀ {P : Station U → Prop} {l n}, (∀ p, P (s'.station p) ↔ P (s.station p)) →
      s.Newest busy P n l → s'.Newest busy' P n l := fun hP hn => ha.newest hP hc ho hn
  refine ⟨fun n hn => ?_, fun n hn hu => ?_, fun n l hn hu hl => ?_, fun n hu p i hw => ?_,
    fun hm n => ?_⟩
  · rw [hcv]
    exact hnew (fun p => by rw [ha.specMode]) (h.plain n hn)
  · rw [hspec]
    exact hnew (fun _ => Iff.rfl) (h.spec n hn (huse ▸ hu))
  · rw [ha.specMode]
    exact h.spec_of n l hn (huse ▸ hu) (hspec ▸ hl)
  · rw [ha.specMode]
    exact h.clean n (huse ▸ hu) p i (ha.writes.mp hw)
  · rw [huse]
    exact h.mode (hmode ▸ hm) n

theorem Cv.congr (h : s.Cv busy) (hs : Frame s s') : s'.Cv busy :=
  h.of_agree hs.agree hs.createVector hs.specCreateVector hs.useSpecCv hs.specMode
    (fun _ => hs.completed.symm ▸ id) fun p i _ _ ho => by rwa [Open, hs.completed]

/-! ### Removals -/

variable {K : RsPtr → Prop}

theorem Removed.writes (h : s.Removed s' K) : s'.Writes p i n ↔ s.Writes p i n ∧ ¬K p := by
  rw [Writes, Writes, h.live]
  constructor
  · rintro ⟨⟨hl, hK⟩, hrest⟩
    rw [h.same p hK] at hrest
    exact ⟨⟨hl, hrest⟩, hK⟩
  · rintro ⟨⟨hl, hrest⟩, hK⟩
    rw [h.same p hK]
    exact ⟨⟨hl, hK⟩, hrest⟩

/-- An operation that is in a list has not been removed. -/
theorem Removed.not_of_mem (h : s.Removed s' K) (hℓ : ℓ ∈ (s'.station p).odepList i) : ¬K p := by
  intro hK
  rw [h.odepList p hK i] at hℓ
  exact absurd hℓ (by simp)

/-- Stations are removed, but none that a station that stays waits for, and none between two that
stay. -/
theorem Deps.removed (h : s.Deps names busy) (hr : s.Removed s' K)
    (hdep : ∀ c k p i, s.Waits c k p i → ¬K c → ¬K p)
    (hconv : ∀ q q' c, s.Live q → s.Live q' → s.Live c → ¬K q → ¬K c →
      (s.station q).seq ≤ (s.station q').seq → (s.station q').seq < (s.station c).seq → ¬K q') :
    s'.Deps names busy := by
  have hmem : ∀ {p i ℓ}, ℓ ∈ (s'.station p).odepList i →
      ¬K p ∧ s'.station p = s.station p ∧ ℓ ∈ (s.station p).odepList i := by
    intro p i ℓ hℓ
    have hK := hr.not_of_mem hℓ
    exact ⟨hK, hr.same p hK, hr.same p hK ▸ hℓ⟩
  have hvalid : ∀ {p i ℓ}, ℓ ∈ (s.station p).odepList i → s'.Valid ℓ →
      ¬K ℓ.rs ∧ s'.station ℓ.rs = s.station ℓ.rs ∧ s.Valid ℓ := by
    intro p i ℓ hℓ hv
    have hK := hr.not_of_valid (h.tag_le p i ℓ hℓ) hv
    exact ⟨hK, hr.same _ hK, (valid_congr (by rw [hr.same _ hK])).mp hv⟩
  -- a link that is valid afterwards was valid, and both its ends stay
  have hwaits : ∀ {c k p i}, s'.Waits c k p i → s.Waits c k p i := by
    intro c k p i hw
    obtain ⟨-, -, hℓ⟩ := hmem hw
    have hc : s'.station c = s.station c := (hvalid hℓ (s'.valid_link c k)).2.1
    have hlink : s'.link c k = s.link c k := link_congr (by rw [hc]) k
    rw [hlink] at hℓ
    exact hℓ
  refine ⟨fun p i ℓ hℓ => ?_, fun p i ℓ hℓ => ?_, fun p i => ?_,
    fun p i ℓ hℓ hv => ?_, fun p i ℓ hℓ hv => ?_, fun p i ℓ hℓ hv => ?_, fun p i ℓ hℓ hv => ?_,
    fun p i ℓ hℓ hv => ?_, fun c k p i q j hp hq => h.unique c k p i q j (hwaits hp) (hwaits hq),
    fun c k hl hk hready => ?_, fun c k hl hk hready => ?_⟩
  · obtain ⟨hK, hp, hℓ⟩ := hmem hℓ
    rw [hr.writes, Open, hp]
    exact ⟨⟨(h.list_open p i ℓ hℓ).1, hK⟩, (h.list_open p i ℓ hℓ).2⟩
  · exact (h.tag_le p i ℓ (hmem hℓ).2.2).trans (hr.tag_le _)
  · by_cases hK : K p
    · rw [hr.odepList p hK]
      exact List.nodup_nil
    · rw [hr.same p hK]
      exact h.nodup p i
  · obtain ⟨-, -, hℓ⟩ := hmem hℓ
    obtain ⟨hK, -, hv⟩ := hvalid hℓ hv
    exact (hr.live _).mpr ⟨h.live p i ℓ hℓ hv, hK⟩
  · obtain ⟨-, -, hℓ⟩ := hmem hℓ
    obtain ⟨-, hc, hv⟩ := hvalid hℓ hv
    rw [hc]
    exact h.waiting p i ℓ hℓ hv
  · obtain ⟨-, hp, hℓ⟩ := hmem hℓ
    obtain ⟨-, hc, hv⟩ := hvalid hℓ hv
    rw [hc, hp]
    exact h.older p i ℓ hℓ hv
  · obtain ⟨-, hp, hℓ⟩ := hmem hℓ
    obtain ⟨-, hc, hv⟩ := hvalid hℓ hv
    rw [hc, hp]
    exact h.reads p i ℓ hℓ hv
  · obtain ⟨-, hp, hℓ⟩ := hmem hℓ
    obtain ⟨-, hc, hv⟩ := hvalid hℓ hv
    rw [LastBefore, hc, hp]
    intro q j hq hlt
    obtain ⟨hq, hKq⟩ := hr.writes.mp hq
    rw [hr.same q hKq] at hlt ⊢
    exact h.last p i ℓ hℓ hv q j hq hlt
  · obtain ⟨hl, hKc⟩ := (hr.live c).mp hl
    have hc := hr.same c hKc
    -- an operand that is not ready keeps its writer, which `hdep` says is not removed
    obtain ⟨p, i, hw⟩ := h.linked c k hl hk (hc ▸ hready)
    refine ⟨p, i, ?_⟩
    have hlink : s'.link c k = s.link c k := link_congr (by rw [hc]) k
    rw [Waits, hlink, hr.same p (hdep c k p i hw hKc)]
    exact hw
  · obtain ⟨hl, hKc⟩ := (hr.live c).mp hl
    have hc := hr.same c hKc
    rw [hc] at hready ⊢
    intro q j hq hlt
    obtain ⟨hq, hKq⟩ := hr.writes.mp hq
    rw [hr.same q hKq] at hlt ⊢
    -- the completed writer behind a ready operand is not removed either
    obtain ⟨q', j', hq', hle, hlt', hdone⟩ := h.ready c k hl hk hready q j hq hlt
    have hKq' := hconv q q' c hq.1 hq'.1 hl hKq hKc hle hlt'
    refine ⟨q', j', hr.writes.mpr ⟨hq', hKq'⟩, ?_⟩
    rw [hr.same q' hKq']
    exact ⟨hle, hlt', hdone⟩

/-- The speculative stations are removed, and with them the speculative copies. -/
theorem Cv.squashed (h : s.Cv busy) (hr : s.Removed s' K)
    (hK : ∀ p, s.Live p → (K p ↔ (s.station p).specMode = true))
    (huse : ∀ n, s'.useSpecCv n = false) : s'.Cv busy := by
  have hnot : ∀ {p i n}, s.Writes p i n → (s.station p).specMode = false → ¬K p := by
    intro p i n hw hspec hKp
    rw [(hK p hw.1).mp hKp] at hspec
    exact absurd hspec (by simp)
  refine ⟨fun n hn => ?_, fun n _ hu => ?_, fun n _ _ hu => ?_, fun n _ p i hw => ?_,
    fun _ => huse⟩
  · have hplain := h.plain n hn
    rw [hr.createVector]
    rcases hcv : s.createVector n with _ | l <;> rw [hcv] at hplain
    · intro q j hq hspec
      obtain ⟨hq, hKq⟩ := hr.writes.mp hq
      rw [hr.same q hKq] at hspec ⊢
      obtain ⟨q', j', hq', hspec', hle, hdone⟩ := hplain q j hq hspec
      have hKq' := hnot hq' hspec'
      refine ⟨q', j', hr.writes.mpr ⟨hq', hKq'⟩, ?_⟩
      rw [hr.same q' hKq']
      exact ⟨hspec', hle, hdone⟩
    · obtain ⟨hw, hspec, ho, hle⟩ := hplain
      have hKl := hnot hw hspec
      refine ⟨hr.writes.mpr ⟨hw, hKl⟩, ?_⟩
      rw [Open, hr.same _ hKl]
      refine ⟨hspec, ho, fun q j hq hspec' => ?_⟩
      obtain ⟨hq, hKq⟩ := hr.writes.mp hq
      rw [hr.same q hKq] at hspec' ⊢
      exact hle q j hq hspec'
  · exact absurd hu (by simp [huse n])
  · exact absurd hu (by simp [huse n])
  · obtain ⟨hw, hKp⟩ := hr.writes.mp hw
    rw [hr.same p hKp]
    by_contra hspec
    exact hKp ((hK p hw.1).mpr (by simpa using hspec))

/-- Completed stations are removed that are older than all others. -/
theorem Cv.retired (h : s.Cv none) (hr : s.Removed s' K)
    (hK : ∀ p q, K p → s.Live q → ¬K q → (s.station p).seq < (s.station q).seq)
    (hdone : ∀ p, K p → (s.station p).completed = true)
    (hspec : s'.specCreateVector = s.specCreateVector) (huse : s'.useSpecCv = s.useSpecCv) :
    s'.Cv none := by
  have hnew : ∀ {P : Station U → Prop} {n l}, s.Newest none P n l → s'.Newest none P n l := by
    intro P n l hn
    cases l with
    | none =>
      intro q j hq hP
      obtain ⟨hq, hKq⟩ := hr.writes.mp hq
      rw [hr.same q hKq] at hP ⊢
      obtain ⟨q', j', hq', hP', hle, hc⟩ := hn q j hq hP
      -- removed stations are older than the ones that stay
      have hKq' : ¬K q' := fun hKq' => by
        have := hK q' q hKq' hq.1 hKq
        omega
      refine ⟨q', j', hr.writes.mpr ⟨hq', hKq'⟩, ?_⟩
      rw [hr.same q' hKq']
      exact ⟨hP', hle, hc⟩
    | some l =>
      obtain ⟨hw, hP, ho, hle⟩ := hn
      -- the newest writer is still open, so it has not completed and is not removed
      have hKl : ¬K l.rs := fun hKl => by
        rcases ho with hc | ⟨j, -, hbusy⟩
        · rw [hdone _ hKl] at hc
          exact absurd hc (by simp)
        · exact absurd hbusy (by simp)
      refine ⟨hr.writes.mpr ⟨hw, hKl⟩, ?_⟩
      rw [Open, hr.same _ hKl]
      refine ⟨hP, ho, fun q j hq hP' => ?_⟩
      obtain ⟨hq, hKq⟩ := hr.writes.mp hq
      rw [hr.same q hKq] at hP' ⊢
      exact hle q j hq hP'
  refine ⟨fun n hn => ?_, fun n hn hu => ?_, fun n l hn hu hl => ?_, fun n hu p i hw => ?_,
    fun hm n => ?_⟩
  · rw [hr.createVector]
    exact hnew (h.plain n hn)
  · rw [hspec]
    exact hnew (h.spec n hn (huse ▸ hu))
  · rw [huse] at hu
    rw [hspec] at hl
    have hnewest := h.spec n hn hu
    rw [hl] at hnewest
    obtain ⟨-, hKl⟩ := hr.writes.mp (hnew hnewest).1
    rw [hr.same _ hKl]
    exact h.spec_of n l hn hu hl
  · obtain ⟨hw, hKp⟩ := hr.writes.mp hw
    rw [hr.same p hKp]
    exact h.clean n (huse ▸ hu) p i hw
  · rw [huse]
    exact h.mode (hr.specMode ▸ hm) n

end Core

end AdvancedArchitecture.Outorder
