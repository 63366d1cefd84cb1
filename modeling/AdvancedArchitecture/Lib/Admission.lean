import Mathlib

/-!
# Admission in order

Jobs `0, 1, …` enter a system in this order; each belongs to a class, and a class has `n`
places. A `Timetable` says when jobs enter and leave, `⊤` for not (yet). It is `InOrder` up to
cycle `T` if each job enters in the first cycle after its predecessor that finds a place of
its class free (`Timetable.Admits`). Then jobs enter in increasing cycles (`InOrder.enter_lt`),
a class never holds more than `n` jobs (`InOrder.card_inside_le`), and a job that waits for a
place takes the first one that is left (`InOrder.enter_eq_leave`).

A system that records the cycles as they pass keeps this up: `InOrder.step` is about one more
cycle, in which the next job enters if it finds a place.
-/

namespace AdvancedArchitecture

universe u

/-- Whether a cycle has come is decided by the number of it. -/
instance decidableLeCoe : ∀ (x : WithTop ℤ) (c : ℤ), Decidable (x ≤ c)
  | none, c => isFalse (not_le_of_gt (WithTop.coe_lt_top c))
  | some d, c => decidable_of_iff (d ≤ c) WithTop.coe_le_coe.symm

theorem le_coe_sub_one {x : WithTop ℤ} {c : ℤ} : x ≤ ((c - 1 : ℤ) : WithTop ℤ) ↔ x < c := by
  induction x using WithTop.recTopCoe with
  | top => simp
  | coe d =>
    rw [WithTop.coe_le_coe, WithTop.coe_lt_coe]
    omega

instance decidableLtCoe (x : WithTop ℤ) (c : ℤ) : Decidable (x < c) :=
  decidable_of_iff (x ≤ ((c - 1 : ℤ) : WithTop ℤ)) le_coe_sub_one

/-- When jobs enter and leave, `⊤` for not (yet). -/
structure Timetable (κ : Type u) where
  cls : ℕ → κ
  enter : ℕ → WithTop ℤ
  leave : ℕ → WithTop ℤ

namespace Timetable

variable {κ : Type u} {t t' : Timetable κ} {n N i j k : ℕ} {T c : ℤ} {x : κ}

/-- Job `i` is inside in cycle `c`: it has entered and not left. -/
def Inside (t : Timetable κ) (i : ℕ) (c : ℤ) : Prop := t.enter i ≤ c ∧ ¬t.leave i ≤ c

instance (t : Timetable κ) (i : ℕ) (c : ℤ) : Decidable (t.Inside i c) :=
  inferInstanceAs (Decidable (_ ∧ ¬_))

/-- The cycle in which the predecessor of a job enters; cycles count from 1. -/
def previous (t : Timetable κ) : ℕ → WithTop ℤ
  | 0 => (0 : ℤ)
  | k + 1 => t.enter k

variable [DecidableEq κ]

/-- The jobs before job `k` of class `x` inside in cycle `c`. -/
def inside (t : Timetable κ) (k : ℕ) (x : κ) (c : ℤ) : Finset ℕ :=
  (Finset.range k).filter fun i => t.cls i = x ∧ t.Inside i c

/-- Cycle `c` admits job `k`: its predecessor entered before, and of the `n` places of its
class fewer than `n` are taken by earlier jobs. -/
def Admits (t : Timetable κ) (n k : ℕ) (c : ℤ) : Prop :=
  t.previous k < c ∧ (t.inside k (t.cls k) c).card < n

instance (t : Timetable κ) (n k : ℕ) (c : ℤ) : Decidable (t.Admits n k c) :=
  inferInstanceAs (Decidable (_ ∧ _))

/-- The cycles up to `T` that admit job `k`. -/
def admitting (t : Timetable κ) (n : ℕ) (T : ℤ) (k : ℕ) : Set ℤ :=
  {c | c ≤ T ∧ t.Admits n k c}

/-- **Admission in order**, as far as the first `N` jobs and cycle `T`: each job enters in the
first cycle that admits it. -/
def InOrder (t : Timetable κ) (n N : ℕ) (T : ℤ) : Prop :=
  ∀ k, k < N → ∀ c : ℤ, t.enter k = c ↔ IsLeast (t.admitting n T k) c

theorem mem_inside : i ∈ t.inside k x c ↔ i < k ∧ t.cls i = x ∧ t.Inside i c := by
  rw [inside, Finset.mem_filter, Finset.mem_range]

/-! ### What follows from admission in order -/

namespace InOrder

theorem admits (h : t.InOrder n N T) (hk : k < N) (hc : t.enter k = c) :
    c ≤ T ∧ t.Admits n k c :=
  ((h k hk c).mp hc).1

/-- A job enters as soon as it may. -/
theorem enter_le (h : t.InOrder n N T) (hk : k < N) (hc : c ≤ T) (ha : t.Admits n k c) :
    t.enter k ≤ c := by
  -- the cycles that admit it are bounded below by the entry of its predecessor
  obtain ⟨p, hp⟩ := WithTop.ne_top_iff_exists.mp (ne_top_of_lt ha.1)
  obtain ⟨d, hd, hleast⟩ := Int.exists_least_of_bdd (P := fun d => d ∈ t.admitting n T k)
    ⟨p, fun d hd => (WithTop.coe_lt_coe.mp (hp ▸ hd.2.1)).le⟩ ⟨c, hc, ha⟩
  rw [(h k hk d).mpr ⟨hd, hleast⟩]
  exact WithTop.coe_le_coe.mpr (hleast c ⟨hc, ha⟩)

/-- **Jobs enter in increasing cycles.** -/
theorem enter_lt (h : t.InOrder n N T) (hij : i < j) (hj : j < N) (hne : t.enter j ≠ ⊤) :
    t.enter i < t.enter j := by
  obtain ⟨k, rfl⟩ := Nat.exists_eq_add_of_lt hij
  clear hij
  induction k with
  | zero =>
    obtain ⟨c, hc⟩ := WithTop.ne_top_iff_exists.mp hne
    rw [← hc]
    exact (h.admits hj hc.symm).2.1
  | succ k ih =>
    obtain ⟨c, hc⟩ := WithTop.ne_top_iff_exists.mp hne
    have hlt : t.enter (i + k + 1) < t.enter (i + k + 1 + 1) := by
      rw [← Nat.add_assoc] at hc
      rw [← hc]
      exact (h.admits hj hc.symm).2.1
    exact (ih (by omega) (ne_top_of_lt hlt)).trans hlt

/-- The jobs inside a class when job `k` has entered were inside when it entered. -/
theorem inside_subset (h : t.InOrder n N T) (hk : k < N) {d : ℤ} (hd : t.enter k = d)
    (hdc : d ≤ c) : t.inside k x c ⊆ t.inside k x d := by
  intro i hi
  obtain ⟨hik, hx, hin⟩ := mem_inside.mp hi
  have hlt : t.enter i < t.enter k := h.enter_lt hik hk (by rw [hd]; exact WithTop.coe_ne_top)
  refine mem_inside.mpr ⟨hik, hx, hd ▸ hlt.le, fun hle => hin.2 (hle.trans ?_)⟩
  exact WithTop.coe_le_coe.mpr hdc

/-- **A class never holds more than `n` jobs.** -/
theorem card_inside_le (h : t.InOrder n N T) (x : κ) (c : ℤ) :
    (t.inside N x c).card ≤ n := by
  rcases (t.inside N x c).eq_empty_or_nonempty with hempty | hne
  · rw [hempty]
    exact Nat.zero_le n
  -- the last one to enter found fewer than `n` others, and none has entered since
  obtain ⟨hk, hx, hin⟩ := mem_inside.mp ((t.inside N x c).max'_mem hne)
  set k := (t.inside N x c).max' hne with hmax
  obtain ⟨d, hd⟩ := WithTop.ne_top_iff_exists.mp (ne_top_of_le_ne_top WithTop.coe_ne_top hin.1)
  have hdc : d ≤ c := WithTop.coe_le_coe.mp (hd ▸ hin.1)
  have hsub : t.inside N x c ⊆ insert k (t.inside k x c) := by
    intro i hi
    obtain ⟨-, hxi, hini⟩ := mem_inside.mp hi
    rcases ((t.inside N x c).le_max' i hi).lt_or_eq with hlt | heq
    · exact Finset.mem_insert_of_mem (mem_inside.mpr ⟨hlt, hxi, hini⟩)
    · exact heq ▸ Finset.mem_insert_self _ _
  have hcard : (t.inside k x c).card < n := by
    refine (Finset.card_le_card (h.inside_subset hk hd.symm hdc)).trans_lt ?_
    have hadm := (h.admits hk hd.symm).2.2
    rwa [hx] at hadm
  exact (Finset.card_le_card hsub).trans ((Finset.card_insert_le _ _).trans hcard)

/-- The earlier jobs have entered when the predecessor has. -/
theorem enter_le_previous (h : t.InOrder n N T) (hk : k < N) (hik : i < k)
    (hne : t.previous k ≠ ⊤) : t.enter i ≤ t.previous k := by
  obtain ⟨j, rfl⟩ : ∃ j, k = j + 1 := ⟨k - 1, by omega⟩
  rcases Nat.lt_succ_iff_lt_or_eq.mp hik with hlt | rfl
  · exact (h.enter_lt hlt (by omega) hne).le
  · exact le_refl _

/-- **A place is taken in the cycle it is left**: if job `k` waits, its predecessor having
entered before cycle `c`, and an earlier job of its class leaves in cycle `c`, it enters. -/
theorem enter_eq_leave (h : t.InOrder n N T) (hk : k < N) (hc : c ≤ T)
    (hprev : t.previous k < c) (hnot : ¬t.enter k < c) (hik : i < k)
    (hcls : t.cls i = t.cls k) (hleave : t.leave i = c) : t.enter k = c := by
  have hbefore : ∀ j, j < k → t.enter j ≤ ((c - 1 : ℤ) : WithTop ℤ) := fun j hj =>
    le_coe_sub_one.mpr ((h.enter_le_previous hk hj (ne_top_of_lt hprev)).trans_lt hprev)
  have hlt : ((c - 1 : ℤ) : WithTop ℤ) < c := WithTop.coe_lt_coe.mpr (by omega)
  have hi : i ∈ t.inside k (t.cls k) (c - 1) :=
    mem_inside.mpr ⟨hik, hcls, hbefore i hik, hleave ▸ not_le_of_gt hlt⟩
  have hsub : t.inside k (t.cls k) c ⊆ (t.inside k (t.cls k) (c - 1)).erase i := by
    intro j hj
    obtain ⟨hjk, hx, -, hstay⟩ := mem_inside.mp hj
    refine Finset.mem_erase.mpr ⟨?_, mem_inside.mpr ⟨hjk, hx, hbefore j hjk, ?_⟩⟩
    · rintro rfl
      exact hstay hleave.le
    · exact fun hle => hstay (hle.trans hlt.le)
  have hcard : (t.inside k (t.cls k) c).card < n := by
    have hle : (t.inside k (t.cls k) (c - 1)).card ≤ n := by
      refine (Finset.card_le_card fun j hj => ?_).trans (h.card_inside_le (t.cls k) (c - 1))
      obtain ⟨hjk, hj⟩ := mem_inside.mp hj
      exact mem_inside.mpr ⟨hjk.trans hk, hj⟩
    have herase := Finset.card_erase_lt_of_mem hi
    exact ((Finset.card_le_card hsub).trans_lt herase).trans_le hle
  exact le_antisymm (h.enter_le hk hc ⟨hprev, hcard⟩) (not_lt.mp hnot)

/-- When all jobs have entered, the later cycles do not matter. -/
theorem mono {T' : ℤ} (h : t.InOrder n N T) (hT : T ≤ T') (hall : ∀ k, k < N → t.enter k ≠ ⊤) :
    t.InOrder n N T' := by
  intro k hk c
  obtain ⟨d, hd⟩ := WithTop.ne_top_iff_exists.mp (hall k hk)
  obtain ⟨hmem, hleast⟩ := (h k hk d).mp hd.symm
  have hd' : IsLeast (t.admitting n T' k) d := by
    refine ⟨⟨hmem.1.trans hT, hmem.2⟩, fun c hc => ?_⟩
    by_cases hcT : c ≤ T
    · exact hleast ⟨hcT, hc.2⟩
    · exact hmem.1.trans (not_le.mp hcT).le
  rw [← hd, WithTop.coe_inj]
  refine ⟨?_, fun hc => hd'.unique hc⟩
  rintro rfl
  exact hd'

end InOrder

/-! ### One more cycle -/

/-- A record gains at most the entry `T + 1`. -/
def Gains (T : ℤ) (x x' : WithTop ℤ) : Prop := x' = x ∨ (x = ⊤ ∧ x' = ((T + 1 : ℤ) : WithTop ℤ))

theorem Gains.le_iff {x x' : WithTop ℤ} (h : Gains T x x') (hc : c ≤ T) : x' ≤ c ↔ x ≤ c := by
  rcases h with rfl | ⟨rfl, rfl⟩
  · exact Iff.rfl
  · refine iff_of_false (not_le_of_gt (WithTop.coe_lt_coe.mpr (by omega))) ?_
    exact not_le_of_gt (WithTop.coe_lt_top c)

theorem Gains.lt_iff {x x' : WithTop ℤ} (h : Gains T x x') (hc : c ≤ T) : x' < c ↔ x < c := by
  rw [← le_coe_sub_one, ← le_coe_sub_one, h.le_iff (by omega)]

/-- In cycle `T + 1` the timetable `t` becomes `t'`. -/
structure Extends (T : ℤ) (t t' : Timetable κ) : Prop where
  cls : t'.cls = t.cls
  enter : ∀ i, Gains T (t.enter i) (t'.enter i)
  leave : ∀ i, Gains T (t.leave i) (t'.leave i)

namespace Extends

omit [DecidableEq κ] in
theorem previous_lt_iff (h : Extends T t t') (hc : c ≤ T) (k : ℕ) :
    t'.previous k < c ↔ t.previous k < c := by
  cases k with
  | zero => exact Iff.rfl
  | succ k => exact (h.enter k).lt_iff hc

/-- The past does not change. -/
theorem admits_iff (h : Extends T t t') (hc : c ≤ T) (k : ℕ) :
    t'.Admits n k c ↔ t.Admits n k c := by
  have hinside : t'.inside k (t'.cls k) c = t.inside k (t.cls k) c := by
    refine Finset.filter_congr fun i _ => ?_
    rw [h.cls, Inside, Inside, (h.enter i).le_iff hc, (h.leave i).le_iff hc]
  rw [Admits, Admits, hinside, h.previous_lt_iff hc]

theorem mem_admitting_of_le (h : Extends T t t') (hc : c ≤ T) :
    c ∈ t'.admitting n (T + 1) k ↔ c ∈ t.admitting n T k := by
  exact and_congr (iff_of_true (by omega) hc) (h.admits_iff hc k)

end Extends

/-- The first cycle of a set, when it is known. -/
theorem eq_iff_isLeast {y : WithTop ℤ} {d : ℤ} {S : Set ℤ} (hy : y = d) (hd : IsLeast S d)
    (c : ℤ) : y = c ↔ IsLeast S c := by
  rw [hy, WithTop.coe_inj]
  refine ⟨?_, fun hc => hd.unique hc⟩
  rintro rfl
  exact hd

/-- A set without a first cycle. -/
theorem eq_iff_isLeast_of_empty {y : WithTop ℤ} {S : Set ℤ} (hy : y = ⊤) (hS : ∀ d, d ∉ S)
    (c : ℤ) : y = c ↔ IsLeast S c := by
  rw [hy]
  exact iff_of_false WithTop.top_ne_coe fun hc => hS c hc.1

section step

variable {p : ℕ}

/-- A job that has entered did so before the new cycle. -/
theorem InOrder.step_earlier (h : t.InOrder n N T) (hext : Extends T t t') (hk : k < N)
    (hent : t'.enter k = t.enter k) (hne : t.enter k ≠ ⊤) (c : ℤ) :
    t'.enter k = c ↔ IsLeast (t'.admitting n (T + 1) k) c := by
  obtain ⟨d, hd⟩ := WithTop.ne_top_iff_exists.mp hne
  obtain ⟨hmem, hleast⟩ := (h k hk d).mp hd.symm
  refine eq_iff_isLeast (hent.trans hd.symm)
    ⟨(hext.mem_admitting_of_le hmem.1).mpr hmem, fun c hc => ?_⟩ c
  by_cases hcT : c ≤ T
  · exact hleast ((hext.mem_admitting_of_le hcT).mp hc)
  · exact hmem.1.trans (not_le.mp hcT).le

/-- No earlier cycle has admitted the next job. -/
theorem InOrder.not_mem_admitting (h : t.InOrder n N T) (hext : Extends T t t') (hk : k < N)
    (htop : t.enter k = ⊤) (hc : c ≤ T) : c ∉ t'.admitting n (T + 1) k := by
  intro hmem
  have hle := h.enter_le hk hc ((hext.mem_admitting_of_le hc).mp hmem).2
  rw [htop] at hle
  exact not_le_of_gt (WithTop.coe_lt_top c) hle

/-- The next job enters in the new cycle if it finds a place. -/
theorem InOrder.step_next (h : t.InOrder n N T) (hext : Extends T t t') (hk : k < N)
    (htop : t.enter k = ⊤) (hprev : t'.previous k < ((T + 1 : ℤ) : WithTop ℤ))
    (hent : t'.enter k = if (t'.inside k (t'.cls k) (T + 1)).card < n
      then ((T + 1 : ℤ) : WithTop ℤ) else t.enter k) (c : ℤ) :
    t'.enter k = c ↔ IsLeast (t'.admitting n (T + 1) k) c := by
  by_cases hfree : (t'.inside k (t'.cls k) (T + 1)).card < n
  · have hleast : IsLeast (t'.admitting n (T + 1) k) (T + 1) := by
      refine ⟨⟨le_refl _, hprev, hfree⟩, fun c hc => ?_⟩
      by_contra hlt
      exact h.not_mem_admitting hext hk htop (by omega) hc
    exact eq_iff_isLeast (by rw [hent, if_pos hfree]) hleast c
  · refine eq_iff_isLeast_of_empty (by rw [hent, if_neg hfree, htop]) (fun c hc => ?_) c
    rcases Int.lt_or_le T c with hlt | hle
    · have heq : c = T + 1 := le_antisymm hc.1 hlt
      exact hfree (heq ▸ hc.2.2)
    · exact h.not_mem_admitting hext hk htop hle hc

/-- **One more cycle.** After cycle `T` the first `p` jobs have entered; in cycle `T + 1` the
next one enters if it finds a place. -/
theorem InOrder.step (h : t.InOrder n N T) (hT : 0 ≤ T)
    (hp : ∀ i, t.enter i ≠ ⊤ ↔ i < p) (hpN : p ≤ N) (hext : Extends T t t')
    (henter : ∀ i, t'.enter i =
      if i = p ∧ p < N ∧ (t'.inside p (t'.cls p) (T + 1)).card < n then ((T + 1 : ℤ) : WithTop ℤ)
      else t.enter i) :
    t'.InOrder n N (T + 1) := by
  have hold : ∀ i, i ≠ p → t'.enter i = t.enter i := by
    intro i hi
    rw [henter, if_neg fun hh => hi hh.1]
  have htop : ∀ i, p ≤ i → t.enter i = ⊤ := by
    intro i hi
    by_contra hne
    exact absurd ((hp i).mp hne) (by omega)
  intro k hk
  rcases lt_trichotomy k p with hkp | rfl | hkp
  · exact h.step_earlier hext hk (hold k hkp.ne) ((hp k).mpr hkp)
  · refine h.step_next hext hk (htop k le_rfl) ?_ ?_
    · -- its predecessor entered in an earlier cycle
      cases k with
      | zero => exact WithTop.coe_lt_coe.mpr (by omega)
      | succ j =>
        obtain ⟨d, hd⟩ := WithTop.ne_top_iff_exists.mp ((hp j).mpr (Nat.lt_succ_self j))
        have hdT := (h.admits (by omega) hd.symm).1
        change t'.enter j < _
        rw [hold j (by omega), ← hd]
        exact WithTop.coe_lt_coe.mpr (by omega)
    · rw [henter]
      simp only [true_and, hk]
  · -- a later job: its predecessor has not entered before the new cycle
    obtain ⟨j, rfl⟩ : ∃ j, k = j + 1 := ⟨k - 1, by omega⟩
    refine eq_iff_isLeast_of_empty ((hold _ hkp.ne').trans (htop _ hkp.le)) fun c hc => ?_
    have hlt : t'.enter j < c := hc.2.1
    rw [henter, htop j (by omega)] at hlt
    split_ifs at hlt with hj
    · exact absurd hc.1 (not_le.mpr (WithTop.coe_lt_coe.mp hlt))
    · exact absurd hlt not_top_lt

end step

/-- Before the first cycle. -/
theorem inOrder_zero (h : ∀ i, t.enter i = ⊤) : t.InOrder n N 0 := by
  intro k _
  refine eq_iff_isLeast_of_empty (h k) fun c hc => ?_
  have hlt := hc.2.1
  cases k with
  | zero => exact absurd hc.1 (not_le.mpr (WithTop.coe_lt_coe.mp hlt))
  | succ j =>
    rw [previous, h j] at hlt
    exact absurd hlt not_top_lt

end Timetable

end AdvancedArchitecture
