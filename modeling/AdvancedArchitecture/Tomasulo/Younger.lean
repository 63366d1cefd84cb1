import AdvancedArchitecture.Tomasulo.Observe

/-!
# Younger instructions

The instructions that follow a trace `P` should not change what happens to those of `P`
(`SameTiming`). They can: a write-back is broadcast by register number and wakes up an older
instruction that waits for another writer, and a waiting flag that a younger instruction sets
or clears is the one an older `SW` tests. These are the only two ways. `YoungerGuard` says
that in a cycle no younger write-back wakes up an instruction of `P`, and that the flags the
waiting stores of `P` test are what the instructions of `P` alone leave; as long as it holds
the run of `P` and the run of `P` followed by other instructions agree on `P`
(`sameTiming_append`).

The two runs are compared on the instruction-level machine, where an instruction has the same
number in both (`Pipe.Agrees`). Up to the cycle in which the first younger instruction is issued
everything agrees; from then on the stages and records of `P` do, and of the flags only those that
a waiting `SW` of `P` tests. No younger instruction takes a station that one of `P` could use, since
it is issued after all of them, and `check_reg` looks at older instructions only.
-/

namespace AdvancedArchitecture.Tomasulo

/-! ### Traces one after the other -/

namespace Trace

/-- `P` followed by `Q`. -/
def append (P Q : Trace) (h : P.length + Q.length ≤ maxInstNum) : Trace where
  insts := P.insts ++ Q.insts
  length_le := by
    rw [List.length_append]
    exact h
  wellFormed := by
    intro i hi
    rcases List.mem_append.mp hi with hi | hi
    · exact P.wellFormed i hi
    · exact Q.wellFormed i hi

/-- `R` begins with the instructions of `P`. -/
structure PrefixOf (P R : Trace) : Prop where
  length_le : P.length ≤ R.length
  type : ∀ k, k < P.length → R.type k = P.type k
  dest : ∀ k, k < P.length → R.dest k = P.dest k
  src1 : ∀ k, k < P.length → R.src1 k = P.src1 k
  src2 : ∀ k, k < P.length → R.src2 k = P.src2 k

/-- A trace is a prefix of itself followed by another. -/
theorem prefixOf_append (P Q : Trace) (h : P.length + Q.length ≤ maxInstNum) :
    P.PrefixOf (P.append Q h) := by
  have hget : ∀ k, k < P.length → (P.append Q h).insts[k]? = P.insts[k]? := fun k hk =>
    List.getElem?_append_left hk
  refine ⟨?_, fun k hk => ?_, fun k hk => ?_, fun k hk => ?_, fun k hk => ?_⟩
  · rw [Trace.length, Trace.length, append, List.length_append]
    omega
  · rw [Trace.type, Trace.type, hget k hk]
  · rw [Trace.dest, Trace.dest, hget k hk]
  · rw [Trace.src1, Trace.src1, hget k hk]
  · rw [Trace.src2, Trace.src2, hget k hk]

end Trace

/-! ### The property and the guard -/

/-- **The recorded cycles of the instructions of `P` are the same** in two states. -/
def SameTiming (P : Trace) (m m' : Machine) : Prop :=
  ∀ k, k < P.length →
    (m'.inst.get k).issue = (m.inst.get k).issue ∧
    (m'.inst.get k).execute = (m.inst.get k).execute ∧
    (m'.inst.get k).writeback = (m.inst.get k).writeback ∧
    (m'.inst.get k).commit = (m.inst.get k).commit

instance (P : Trace) (m m' : Machine) : Decidable (SameTiming P m m') := by
  unfold SameTiming; infer_instance

/-- A station of the first `p` instructions is written back from `m` to register `r`. -/
def OwnDone (p : ℕ) (m : Machine) (r : DataRegTag) : Prop :=
  ∃ s ∈ slots, (m.entry s).state = .done ∧ (m.entry s).destTag = r ∧ ∃ i ∈ m.ptr s, i < p

/-- A station of the first `p` instructions marks register `r` in `m`. -/
def OwnMarks (p : ℕ) (m : Machine) (r : DataRegTag) : Prop :=
  ∃ s ∈ slots, ((m.entry s).state = .exec ∨ (m.entry s).state = .issued ∧ s.1 ≠ .load) ∧
    s.1 ≠ .store ∧ (m.entry s).destTag = r ∧ ∃ i ∈ m.ptr s, i < p

/-- A writer among the first `p` instructions is written back from `m` to register `r`. -/
def OwnSends (p : ℕ) (m : Machine) (r : DataRegTag) : Prop :=
  ∃ s ∈ slots, (m.entry s).state = .done ∧ s.1 ≠ .store ∧ (m.entry s).destTag = r ∧
    ∃ i ∈ m.ptr s, i < p

/-- No write-back of a younger instruction wakes up one of the first `p`, unless one of the
first `p` is written back to the same register. -/
def WakesNone (p : ℕ) (m : Machine) : Prop :=
  ∀ s ∈ slots, (m.entry s).state = .done → s.1 ≠ .store → (∃ i ∈ m.ptr s, p ≤ i) →
    ∀ s' ∈ slots, (m.entry s').state = .issued → (∃ j ∈ m.ptr s', j < p) →
      ((m.entry s').qj = findRegIndex (m.entry s).destTag ∨
        (m.entry s').qk = findRegIndex (m.entry s).destTag) →
      OwnSends p m (m.entry s).destTag

/-- The flag that a waiting `SW` of the first `p` instructions tests in this cycle is what
these instructions alone leave: it was set and none of them clears it, or one of them marks
it. -/
def FlagsKept (p : ℕ) (m : Machine) : Prop :=
  ∀ s ∈ slots, s.1 = .store → (m.entry s).state = .issued → (∃ j ∈ m.ptr s, j < p) →
    ((issue (beforeIssue m)).waiting (m.entry s).destTag = true ↔
      (m.waiting (m.entry s).destTag = true ∧ ¬OwnDone p m (m.entry s).destTag) ∨
        OwnMarks p (beforeIssue m) (m.entry s).destTag)

instance (p : ℕ) (m : Machine) (r : DataRegTag) : Decidable (OwnDone p m r) := by
  unfold OwnDone; infer_instance

instance (p : ℕ) (m : Machine) (r : DataRegTag) : Decidable (OwnMarks p m r) := by
  unfold OwnMarks; infer_instance

instance (p : ℕ) (m : Machine) (r : DataRegTag) : Decidable (OwnSends p m r) := by
  unfold OwnSends; infer_instance

instance (p : ℕ) (m : Machine) : Decidable (WakesNone p m) := by
  unfold WakesNone; infer_instance

instance (p : ℕ) (m : Machine) : Decidable (FlagsKept p m) := by
  unfold FlagsKept; infer_instance

/-- **In this cycle no younger instruction reaches one of the first `p`.** -/
def YoungerGuard (p : ℕ) (m : Machine) : Prop :=
  WakesNone p m ∧ (m.programCounter < p ∨ FlagsKept p m)

instance (p : ℕ) (m : Machine) : Decidable (YoungerGuard p m) := by
  unfold YoungerGuard; infer_instance

/-! ### Agreement of two abstract runs -/

namespace Pipe

variable {P R : Trace} {x y : Pipe} {ks ls : List ℕ} {u v : ℤ}

/-- **Agreement** of a state `x` of the run of `P` and a state `y` of the run of `R`, which
begins with `P`. -/
structure Agrees (P : Trace) (x y : Pipe) : Prop where
  cycle : y.cycle = x.cycle
  pc : x.pc = min y.pc P.length
  commitCount : x.commitCount = min y.commitCount P.length
  stage : ∀ k, k < P.length → y.stage k = x.stage k
  issueAt : ∀ k, k < P.length → y.issueAt k = x.issueAt k
  executeAt : ∀ k, k < P.length → y.executeAt k = x.executeAt k
  writebackAt : ∀ k, k < P.length → y.writebackAt k = x.writebackAt k
  commitAt : ∀ k, k < P.length → y.commitAt k = x.commitAt k
  waiting : y.pc ≤ P.length → ∀ t, y.waiting t = x.waiting t
  store : ∀ k, k < P.length → P.type k = .sw → x.stage k = .issued false false →
    y.waiting (P.dest k) = x.waiting (P.dest k)

/-- The guard on the instruction-level machine. -/
structure YoungerGuard (P R : Trace) (ls : List ℕ) (v : ℤ) (y : Pipe) : Prop where
  wake : ∀ i j wj wk, P.length ≤ i → y.stage i = .done → R.Writes i → j < P.length →
    y.stage j = .issued wj wk →
      (wj = true ∧ R.src1 j = R.dest i ∨ wk = true ∧ R.src2 j = R.dest i) →
        ∃ i', i' < P.length ∧ y.stage i' = .done ∧ R.Writes i' ∧ R.dest i' = R.dest i
  flag : y.pc < P.length ∨ ∀ j, j < P.length → R.type j = .sw →
    y.stage j = .issued false false →
      (((y.beforeIssue R ls).issue R v).waiting (R.dest j) = true ↔
        (y.waiting (R.dest j) = true ∧
          ¬∃ i, i < P.length ∧ y.stage i = .done ∧ R.dest i = R.dest j) ∨
        ∃ i, i < P.length ∧ (y.beforeIssue R ls).Marks R i ∧ R.dest i = R.dest j)

theorem agrees_init (P : Trace) : (init : Pipe).Agrees P init where
  cycle := rfl
  pc := (Nat.zero_min _).symm
  commitCount := (Nat.zero_min _).symm
  stage _ _ := rfl
  issueAt _ _ := rfl
  executeAt _ _ := rfl
  writebackAt _ _ := rfl
  commitAt _ _ := rfl
  waiting _ _ := rfl
  store _ _ _ h := by cases h

namespace Agrees

variable (h : x.Agrees P y) (hpre : P.PrefixOf R) (hx : x.Inv P) (hy : y.Inv R)
  (hcx : Covers ks x) (hcy : Covers ls y)

theorem writes_iff (hpre : P.PrefixOf R) {k : ℕ} (hk : k < P.length) :
    R.Writes k ↔ P.Writes k := by
  rw [Trace.Writes, Trace.Writes, hpre.type k hk]

theorem latency_eq (hpre : P.PrefixOf R) {k : ℕ} (hk : k < P.length) :
    R.latency k = P.latency k := by
  rw [Trace.latency, Trace.latency, hpre.type k hk]

include h hpre hx hcx hcy in
/-- A broadcast of the longer run that wakes up an instruction of `P` is one of the shorter
run. -/
theorem sends_iff (hg : y.YoungerGuard P R ls v) {j : ℕ} {wj wk : Bool} {t : DataRegTag}
    (hj : j < P.length) (hst : x.stage j = .issued wj wk)
    (hsrc : wj = true ∧ R.src1 j = t ∨ wk = true ∧ R.src2 j = t) :
    y.Sends R ls t ↔ x.Sends P ks t := by
  rw [Inv.sends_iff hcx, Inv.sends_iff hcy]
  constructor
  · rintro ⟨i, hd, hw, rfl⟩
    obtain ⟨i', hi, hd, hw, ht⟩ : ∃ i', i' < P.length ∧ y.stage i' = .done ∧ R.Writes i' ∧
        R.dest i' = R.dest i := by
      by_cases hi : i < P.length
      · exact ⟨i, hi, hd, hw, rfl⟩
      · exact hg.wake i j wj wk (by omega) hd hw hj ((h.stage j hj).trans hst) hsrc
    exact ⟨i', (h.stage i' hi).symm.trans hd, (writes_iff hpre hi).mp hw,
      (hpre.dest i' hi).symm.trans ht⟩
  · rintro ⟨i, hd, hw, ht⟩
    have hi : i < P.length := hx.lt_length (by rw [hd]; trivial)
    exact ⟨i, (h.stage i hi).trans hd, (writes_iff hpre hi).mpr hw, (hpre.dest i hi).trans ht⟩

include h hpre hx hcx hcy in
/-- Up to issue the instructions of `P` go through the same stages: no younger write-back reaches
them. -/
theorem beforeIssue_stage_eq (hg : y.YoungerGuard P R ls v) {k : ℕ} (hk : k < P.length) :
    (y.beforeIssue R ls).stage k = (x.beforeIssue P ks).stage k := by
  rw [beforeIssue_stage, beforeIssue_stage, stepStage, stepStage, h.stage k hk]
  cases hst : x.stage k with
  | issued wj wk =>
    dsimp only
    congr 1
    · cases wj with
      | false => rfl
      | true => simp only [hpre.src1 k hk,
          h.sends_iff hpre hx hcx hcy hg hk hst (.inl ⟨rfl, hpre.src1 k hk⟩)]
    · cases wk with
      | false => rfl
      | true => simp only [hpre.src2 k hk,
          h.sends_iff hpre hx hcx hcy hg hk hst (.inr ⟨rfl, hpre.src2 k hk⟩)]
  | done =>
    dsimp only
    rw [if_pos (hcx k hst), if_pos (hcy k ((h.stage k hk).trans hst))]
  | _ => rfl

include hpre in
/-- The same instructions of `P` mark their registers. -/
theorem marks_iff {b c : Pipe} {k : ℕ} (hk : k < P.length) (hst : c.stage k = b.stage k) :
    c.Marks R k ↔ b.Marks P k := by
  unfold Marks
  rw [hst, hpre.type k hk]
  cases b.stage k with
  | exec left => exact writes_iff hpre hk
  | _ => exact Iff.rfl

include h hpre hx hcx hcy in
/-- Before issue the flag of a register is what the instructions of `P` leave, when only they
are in the stations. -/
theorem beforeIssue_waiting_eq (hy : y.Inv R) (hg : y.YoungerGuard P R ls v)
    (hpc : y.pc ≤ P.length) (t : DataRegTag) :
    (y.beforeIssue R ls).waiting t = (x.beforeIssue P ks).waiting t := by
  -- no younger instruction is in the stations yet
  have hown : ∀ {k}, (y.stage k).InFlight → k < P.length := fun hfl =>
    (hy.lt_pc hfl).trans_le hpc
  rw [Bool.eq_iff_iff, beforeIssue_waiting, beforeIssue_waiting, Inv.clears_iff hcx,
    Inv.clears_iff hcy, h.waiting hpc]
  refine or_congr (and_congr_right fun _ => not_congr ?_) ?_
  · constructor
    · rintro ⟨k, hd, ht⟩
      have hk : k < P.length := hown (by rw [hd]; trivial)
      exact ⟨k, (h.stage k hk).symm.trans hd, (hpre.dest k hk).symm.trans ht⟩
    · rintro ⟨k, hd, ht⟩
      have hk : k < P.length := hx.lt_length (by rw [hd]; trivial)
      exact ⟨k, (h.stage k hk).trans hd, (hpre.dest k hk).trans ht⟩
  · constructor
    · rintro ⟨k, -, hm, ht⟩
      have hk : k < P.length :=
        hown ((Inv.inFlight_beforeIssue hcy).mp (Inv.marks_writes hm).1).1
      have hst := h.beforeIssue_stage_eq hpre hx hcx hcy hg hk
      exact ⟨k, hk, (marks_iff hpre hk hst).mp hm, (hpre.dest k hk).symm.trans ht⟩
    · rintro ⟨k, hk, hm, ht⟩
      have hst := h.beforeIssue_stage_eq hpre hx hcx hcy hg hk
      exact ⟨k, hk.trans_le hpre.length_le, (marks_iff hpre hk hst).mpr hm,
        (hpre.dest k hk).trans ht⟩

include h hpre hx hcx hcy in
/-- While instructions of `P` remain, both runs issue alike. -/
theorem canIssue_iff (hy : y.Inv R) (hg : y.YoungerGuard P R ls v) (hpc : y.pc < P.length) :
    (y.beforeIssue R ls).CanIssue R ↔ (x.beforeIssue P ks).CanIssue P := by
  have hxpc : x.pc = y.pc := by
    rw [h.pc]
    omega
  have hclass : ∀ k, k < P.length → R.rsClass k = P.rsClass k := by
    intro k hk
    rw [Trace.rsClass, Trace.rsClass, hpre.type k hk]
  have hin : ∀ c, (y.beforeIssue R ls).inClass R c = (x.beforeIssue P ks).inClass P c := by
    intro c
    ext k
    simp only [inClass, Finset.mem_filter, Finset.mem_range]
    constructor
    · rintro ⟨-, hc, hfl⟩
      have hk : k < P.length :=
        (hy.lt_pc ((Inv.inFlight_beforeIssue hcy).mp hfl).1).trans hpc
      rw [h.beforeIssue_stage_eq hpre hx hcx hcy hg hk] at hfl
      exact ⟨hk, (hclass k hk).symm.trans hc, hfl⟩
    · rintro ⟨hk, hc, hfl⟩
      rw [← h.beforeIssue_stage_eq hpre hx hcx hcy hg hk] at hfl
      exact ⟨hk.trans_le hpre.length_le, (hclass k hk).trans hc, hfl⟩
  rw [CanIssue, CanIssue, beforeIssue_pc, beforeIssue_pc, hxpc, hclass _ hpc, hin]
  exact and_congr_left fun _ => ⟨fun _ => hpc, fun _ => hpc.trans_le hpre.length_le⟩

/-- The shorter run has nothing to issue once its instructions are issued. -/
theorem not_canIssue (h : x.Agrees P y) (hpc : ¬y.pc < P.length) :
    ¬(x.beforeIssue P ks).CanIssue P := by
  rintro ⟨hlt, -⟩
  rw [beforeIssue_pc, h.pc] at hlt
  omega

include h hpre hx hcx hcy in
/-- The issue phase treats an instruction of `P` alike: while it waits to be issued no younger one
is, so that its class is filled by instructions of `P` only. -/
theorem issue_stage_eq (hy : y.Inv R) (hg : y.YoungerGuard P R ls v) {k : ℕ}
    (hk : k < P.length) :
    ((y.beforeIssue R ls).issue R v).stage k = ((x.beforeIssue P ks).issue P u).stage k := by
  have hbefore := h.beforeIssue_stage_eq hpre hx hcx hcy hg hk
  rw [issue_stage, issue_stage, beforeIssue_pc, beforeIssue_pc, hbefore]
  by_cases hpc : y.pc < P.length
  · have hxpc : x.pc = y.pc := by
      rw [h.pc]
      omega
    have hw := h.beforeIssue_waiting_eq hpre hx hcx hcy hy hg (le_of_lt hpc)
    refine if_congr ?_ ?_ rfl
    · rw [hxpc, h.canIssue_iff hpre hx hcx hcy hy hg hpc]
    · rw [entryStage, entryStage, hpre.type k hk, hpre.src1 k hk, hpre.src2 k hk, hw, hw,
        latency_eq hpre hk]
  · have hkpc : k ≠ y.pc := by omega
    rw [if_neg fun hh => hkpc hh.1, if_neg fun hh => h.not_canIssue hpc hh.2]

include h hpre hx hcx hcy in
/-- As long as no younger instruction is issued the flags are the same. -/
theorem issue_waiting_eq (hy : y.Inv R) (hg : y.YoungerGuard P R ls v)
    (hpc : ((y.beforeIssue R ls).issue R v).pc ≤ P.length) (t : DataRegTag) :
    ((y.beforeIssue R ls).issue R v).waiting t =
      ((x.beforeIssue P ks).issue P u).waiting t := by
  have hypc : y.pc ≤ P.length := by
    rw [issue_pc, beforeIssue_pc] at hpc
    split_ifs at hpc <;> omega
  have hw := h.beforeIssue_waiting_eq hpre hx hcx hcy hy hg hypc t
  rw [Bool.eq_iff_iff, issue_waiting, issue_waiting, hw, beforeIssue_pc, beforeIssue_pc]
  by_cases hlt : y.pc < P.length
  · have hxpc : x.pc = y.pc := by
      rw [h.pc]
      omega
    rw [h.canIssue_iff hpre hx hcx hcy hy hg hlt, hxpc, writes_iff hpre hlt,
      hpre.dest _ hlt]
  · have hny : ¬(y.beforeIssue R ls).CanIssue R := by
      intro hc
      rw [issue_pc, if_pos hc, beforeIssue_pc] at hpc
      omega
    refine or_congr_right ?_
    exact iff_of_false (fun hh => hny hh.1) fun hh => h.not_canIssue hlt hh.1

include h hpre hx hcx hcy in
/-- **The flags that the stores of `P` test** are the same in both runs. -/
theorem issue_waiting_store (hy : y.Inv R) (hg : y.YoungerGuard P R ls v) {k : ℕ}
    (hk : k < P.length) (hsw : P.type k = .sw)
    (hst : ((x.beforeIssue P ks).issue P u).stage k = .issued false false) :
    ((y.beforeIssue R ls).issue R v).waiting (P.dest k) =
      ((x.beforeIssue P ks).issue P u).waiting (P.dest k) := by
  by_cases hlt : y.pc < P.length
  · -- no younger instruction has been issued when the start tests are made
    refine h.issue_waiting_eq hpre hx hcx hcy hy hg ?_ _
    rw [issue_pc, beforeIssue_pc]
    split_ifs <;> omega
  · -- the store was issued before, and the shorter run issues nothing
    have hnx : ¬(x.beforeIssue P ks).CanIssue P := h.not_canIssue hlt
    have hmem : (P.type k).isMem = true := by
      rw [hsw]
      rfl
    obtain ⟨wj, wk, hs, -, -⟩ :=
      (Inv.issue_issued hst).resolve_left fun hh => hnx hh.2.1
    obtain ⟨rfl, rfl⟩ := hx.issued_mem k wj wk hs hmem
    have hflag := hg.flag.resolve_left hlt k hk ((hpre.type k hk).trans hsw)
      ((h.stage k hk).trans hs)
    rw [hpre.dest k hk, h.store k hk hsw hs] at hflag
    rw [Bool.eq_iff_iff, hflag, issue_waiting, beforeIssue_waiting, Inv.clears_iff hcx,
      or_iff_left fun hh : _ ∧ _ => hnx hh.1]
    refine or_congr (and_congr_right fun _ => not_congr ?_) ?_
    · constructor
      · rintro ⟨i, hi, hd, ht⟩
        exact ⟨i, (h.stage i hi).symm.trans hd, (hpre.dest i hi).symm.trans ht⟩
      · rintro ⟨i, hd, ht⟩
        have hi : i < P.length := hx.lt_length (by rw [hd]; trivial)
        exact ⟨i, hi, (h.stage i hi).trans hd, (hpre.dest i hi).trans ht⟩
    · refine exists_congr fun i => and_congr_right fun hi => ?_
      rw [marks_iff hpre hi (h.beforeIssue_stage_eq hpre hx hcx hcy hg hi), hpre.dest i hi]

/-- Both runs commit the instructions of `P` alike. -/
theorem next_commit_eq (h : x.Agrees P y) (ks ls : List ℕ) (u v : ℤ) (hx : x.Inv P)
    (hy : y.Inv R) :
    (x.next P ks u).commitCount = min (y.next R ls v).commitCount P.length ∧
      ∀ k, k < P.length → (y.next R ls v).commitAt k = (x.next P ks u).commitAt k := by
  have hcount := h.commitCount
  have hcycle := h.cycle
  rcases Nat.lt_or_ge y.commitCount P.length with hlt | hge
  · -- an instruction of `P` is next, and both runs look at the same one
    have heq : x.commitCount = y.commitCount := by omega
    have hst := h.stage _ hlt
    rcases hx.next_commit_cases ks u with ⟨hr, hxc, hxa⟩ | ⟨hr, hxc, hxa⟩ <;>
      rcases hy.next_commit_cases ls v with ⟨hr', hyc, hya⟩ | ⟨hr', hyc, hya⟩
    · refine ⟨by omega, fun k hk => ?_⟩
      rw [hxa, hya, heq, hcycle, Function.update_apply, Function.update_apply, h.commitAt k hk]
    · rw [heq, ← hst] at hr
      exact absurd hr hr'
    · rw [heq, ← hst] at hr
      exact absurd hr' hr
    · refine ⟨by omega, fun k hk => ?_⟩
      rw [hxa, hya, h.commitAt k hk]
  · -- the instructions of `P` are all committed
    have hidle : x.stage x.commitCount ≠ .retired := by
      intro hr
      have hle : x.pc ≤ x.commitCount := by
        have hpc := h.pc
        omega
      rw [(hx.idle_iff _).mpr hle] at hr
      cases hr
    obtain ⟨hxc, hxa⟩ := ((hx.next_commit_cases ks u).resolve_left
      fun hh => hidle hh.1).2
    rw [hxc, hxa]
    rcases hy.next_commit_cases ls v with ⟨-, hyc, hya⟩ | ⟨-, hyc, hya⟩
    · refine ⟨by omega, fun k hk => ?_⟩
      rw [hya, Function.update_of_ne (by omega), h.commitAt k hk]
    · refine ⟨by omega, fun k hk => ?_⟩
      rw [hya, h.commitAt k hk]

include h hpre hx hcx hcy in
/-- The start tests let the same instructions of `P` start. -/
theorem ready_iff (hy : y.Inv R) (hg : y.YoungerGuard P R ls v) {k : ℕ} (hk : k < P.length) :
    ((y.beforeIssue R ls).issue R v).Ready R k ↔
      ((x.beforeIssue P ks).issue P u).Ready P k := by
  have hst := h.issue_stage_eq (u := u) hpre hx hcx hcy hy hg hk
  rw [Ready, Ready, hst, hpre.type k hk]
  refine and_congr_right fun hissued => ?_
  by_cases hsw : P.type k = .sw
  · rw [if_pos hsw, if_pos hsw, hpre.dest k hk,
      h.issue_waiting_store hpre hx hcx hcy hy hg hk hsw hissued]
  · rw [if_neg hsw, if_neg hsw]
    have hcommit := (h.next_commit_eq ks ls u v hx hy).2
    refine forall_congr' fun i => forall_congr' fun hi => ?_
    have hip : i < P.length := hi.trans hk
    have hc : ((y.beforeIssue R ls).issue R v).commitAt i =
        ((x.beforeIssue P ks).issue P u).commitAt i := hcommit i hip
    rw [hc, hpre.dest i hip, hpre.dest k hk]

include h hpre hx hcx hcy in
/-- **One guarded cycle of both runs.** -/
theorem next (hy : y.Inv R) (hg : y.YoungerGuard P R ls v) :
    (x.next P ks u).Agrees P (y.next R ls v) := by
  have hcommit := h.next_commit_eq ks ls u v hx hy
  have hstage : ∀ k, k < P.length → (y.next R ls v).stage k = (x.next P ks u).stage k := by
    intro k hk
    rw [next_stage, next_stage, h.issue_stage_eq (u := u) hpre hx hcx hcy hy hg hk,
      latency_eq hpre hk]
    exact if_congr (h.ready_iff hpre hx hcx hcy hy hg hk) rfl rfl
  refine ⟨?_, ?_, hcommit.1, hstage, fun k hk => ?_, fun k hk => ?_, fun k hk => ?_,
    hcommit.2, fun hpc t => ?_, fun k hk hsw hst => ?_⟩
  · rw [next_cycle, next_cycle, h.cycle]
  · -- the program counters stay together until the end of `P`
    have hpc := h.pc
    rw [next_pc, next_pc]
    by_cases hlt : y.pc < P.length
    · have hiff := h.canIssue_iff hpre hx hcx hcy hy hg hlt
      by_cases hc : (x.beforeIssue P ks).CanIssue P
      · rw [if_pos hc, if_pos (hiff.mpr hc)]
        omega
      · rw [if_neg hc, if_neg (mt hiff.mp hc)]
        omega
    · rw [if_neg (h.not_canIssue hlt)]
      split_ifs <;> omega
  · rw [next_issueAt, next_issueAt, h.cycle, h.issueAt k hk]
    refine if_congr ?_ rfl rfl
    by_cases hlt : y.pc < P.length
    · have hpc := h.pc
      have hxpc : x.pc = y.pc := by omega
      rw [hxpc, h.canIssue_iff hpre hx hcx hcy hy hg hlt]
    · exact iff_of_false (fun hh => hlt (hh.1 ▸ hk)) fun hh => h.not_canIssue hlt hh.2
  · rw [next_executeAt, next_executeAt, h.stage k hk, h.cycle, h.executeAt k hk]
  · rw [next_writebackAt hcy, next_writebackAt hcx, h.stage k hk, h.cycle, h.writebackAt k hk]
  · exact h.issue_waiting_eq hpre hx hcx hcy hy hg hpc t
  · exact h.issue_waiting_store hpre hx hcx hcy hy hg hk hsw (Inv.issue_of_next_issued hst)

end Agrees

end Pipe

/-! ### From the simulator to the instruction-level machine -/

section Simulator

variable {P R : Trace} {m : Machine} {y : Pipe} {ls : List ℕ} {v : ℤ}

/-- Which own instructions are done can be read off the stations. -/
theorem Refines.ownDone_iff (h : Refines R m y) {p : ℕ} {r : DataRegTag} :
    OwnDone p m r ↔ ∃ i, i < p ∧ y.stage i = .done ∧ R.dest i = r := by
  constructor
  · rintro ⟨s, -, hst, ht, i, hp, hi⟩
    exact ⟨i, hi, (h.stations.represents s i hp).state_done_iff.mp hst,
      (h.stations.destTag s i hp).symm.trans ht⟩
  · rintro ⟨i, hi, hd, ht⟩
    obtain ⟨s, hs, hp, hst⟩ := h.inState_done_iff.mpr hd
    exact ⟨s, hs, hst, (h.stations.destTag s i hp).trans ht, i, hp, hi⟩

/-- So can the registers that they broadcast. -/
theorem Refines.ownSends_iff (h : Refines R m y) {p : ℕ} {r : DataRegTag} :
    OwnSends p m r ↔ ∃ i, i < p ∧ y.stage i = .done ∧ R.Writes i ∧ R.dest i = r := by
  have hclass : ∀ {s : Slot} {i : ℕ}, m.ptr s = some i → (s.1 ≠ .store ↔ R.Writes i) := by
    intro s i hp
    rw [ne_eq, h.store_iff hp, not_not]
  constructor
  · rintro ⟨s, -, hst, hns, ht, i, hp, hi⟩
    exact ⟨i, hi, (h.stations.represents s i hp).state_done_iff.mp hst, (hclass hp).mp hns,
      (h.stations.destTag s i hp).symm.trans ht⟩
  · rintro ⟨i, hi, hd, hw, ht⟩
    obtain ⟨s, hs, hp, hst⟩ := h.inState_done_iff.mpr hd
    exact ⟨s, hs, hst, (hclass hp).mpr hw, (h.stations.destTag s i hp).trans ht, i, hp, hi⟩

/-- So can the registers that they mark. -/
theorem Refines.ownMarks_iff (h : Refines R m y) {p : ℕ} {r : DataRegTag} :
    OwnMarks p m r ↔ ∃ i, i < p ∧ y.Marks R i ∧ R.dest i = r := by
  constructor
  · rintro ⟨s, -, hst, hns, ht, i, hp, hi⟩
    exact ⟨i, hi, (h.marks_iff hp).mpr ⟨hst, hns⟩, (h.stations.destTag s i hp).symm.trans ht⟩
  · rintro ⟨i, hi, hm, ht⟩
    obtain ⟨s, hs, hp⟩ := h.stations.held i hm.inFlight
    obtain ⟨hst, hns⟩ := (h.marks_iff hp).mp hm
    exact ⟨s, hs, hst, hns, (h.stations.destTag s i hp).trans ht, i, hp, hi⟩

/-- The guard of the simulator is the guard of the instruction-level machine. -/
theorem YoungerGuard.abstract (hg : YoungerGuard P.length m) (hm : Refines R m y)
    (hb : Refines R (beforeIssue m) (y.beforeIssue R ls))
    (hc : Refines R (issue (beforeIssue m)) ((y.beforeIssue R ls).issue R v)) :
    y.YoungerGuard P R ls v := by
  obtain ⟨hwake, hflag⟩ := hg
  refine ⟨fun i j wj wk hi hd hw hj hst hsrc => ?_, ?_⟩
  · -- the broadcasts of younger instructions
    obtain ⟨s, hs, hp, hdone⟩ := hm.inState_done_iff.mpr hd
    obtain ⟨s', hs', hp', hissued⟩ := hm.inState_issued_iff.mpr ⟨wj, wk, hst⟩
    have hns : s.1 ≠ .store := fun hstore => (hm.store_iff hp).mp hstore hw
    have hrep := hm.stations.represents s' j hp'
    rw [hst] at hrep
    have hdest := hm.stations.destTag s i hp
    have hown := hwake s hs hdone hns ⟨i, hp, hi⟩ s' hs' hissued ⟨j, hp', hj⟩ ?_
    · rw [hm.ownSends_iff, hdest] at hown
      exact hown
    · rcases hsrc with ⟨rfl, hsrc⟩ | ⟨rfl, hsrc⟩
      · refine .inl ?_
        rw [hrep.2.2.1.qj, if_pos rfl, hsrc, hdest]
      · refine .inr ?_
        rw [hrep.2.2.1.qk, if_pos rfl, hsrc, hdest]
  · -- the flags that the stores test
    refine hflag.imp (fun hlt => hm.programCounter ▸ hlt) fun hkept j hj hsw hst => ?_
    obtain ⟨s, hs, hp, hissued⟩ := hm.inState_issued_iff.mpr ⟨_, _, hst⟩
    have hstore : s.1 = .store := (hm.store_iff hp).mpr fun hw => hw hsw
    have hdest := hm.stations.destTag s j hp
    have hne := Trace.dest_ne_noReg (hm.stations.lt s j hp)
    have hiff := hkept s hs hstore hissued ⟨j, hp, hj⟩
    rwa [hdest, hc.waiting_eq hne, hm.waiting_eq hne, hm.ownDone_iff, hb.ownMarks_iff] at hiff

end Simulator

/-! ### Runs -/

/-- **Younger instructions do not change the timing of older ones** in a run whose cycles are
guarded: up to the cycle in which the run of `P` ends, the instructions of `P` have the same
recorded cycles when they are followed by those of `Q`. -/
theorem sameTiming_append (P Q : Trace) (hlen : P.length + Q.length ≤ maxInstNum) (n : ℕ)
    (hrun : ∀ c, c < n → (run P c).finish = false)
    (hguard : ∀ c, c < n → YoungerGuard P.length (run (P.append Q hlen) c)) :
    SameTiming P (run P n) (run (P.append Q hlen) n) := by
  obtain ⟨x, ks, u, htx⟩ := exists_trajectory P
  obtain ⟨y, ls, v, hty⟩ := exists_trajectory (P.append Q hlen)
  have hpre := Trace.prefixOf_append P Q hlen
  have hagree : ∀ c, c ≤ n → (x c).Agrees P (y c) := by
    intro c
    induction c with
    | zero =>
      intro _
      rw [htx.zero, hty.zero]
      exact Pipe.agrees_init P
    | succ c ih =>
      intro hc
      have hxy := ih (by omega)
      have hfx := hrun c (by omega)
      -- the longer run has not ended either
      have hfy : (run (P.append Q hlen) c).finish = false := by
        refine Bool.eq_false_iff.mpr fun hf => ?_
        obtain ⟨hpos, hle⟩ := (hty.finished c).mp hf
        have hfin : (x c).Finished P := by
          refine ⟨hxy.cycle ▸ hpos, ?_⟩
          have hcount := hxy.commitCount
          have hpl := hpre.length_le
          omega
        rw [← htx.finished, hfx] at hfin
        cases hfin
      rw [htx.next c hfx, hty.next c hfy]
      exact hxy.next hpre (htx.inv c) (htx.covers c) (hty.covers c) (hty.inv c)
        ((hguard c (by omega)).abstract (hty.refines c) (hty.before c hfy) (hty.issued c hfy))
  have hn := hagree n (le_refl n)
  intro k hk
  rw [(hty.refines n).issue_eq, (hty.refines n).execute_eq, (hty.refines n).writeback_eq,
    (hty.refines n).commit_eq, (htx.refines n).issue_eq, (htx.refines n).execute_eq,
    (htx.refines n).writeback_eq, (htx.refines n).commit_eq]
  exact ⟨hn.issueAt k hk, hn.executeAt k hk, hn.writebackAt k hk, hn.commitAt k hk⟩

/-- `ADD F2 F4 F6; SW F2`. -/
def addStoreTrace : Trace where
  insts := [⟨.add, .f2, .f4, .f6, -1⟩, ⟨.sw, .f2, .f14, .noReg, 0⟩]
  length_le := by decide
  wellFormed := by decide

/-- `ADD F8 F2 F2; SW F8`, which reads the register that `addStoreTrace` writes. -/
def otherRegTrace : Trace where
  insts := [⟨.add, .f8, .f2, .f2, -1⟩, ⟨.sw, .f8, .f14, .noReg, 0⟩]
  length_le := by decide
  wellFormed := by decide

/-- A guarded run, up to the cycle in which `addStoreTrace` alone ends. -/
theorem sameTiming_otherRegTrace :
    (run addStoreTrace 8).finish = true ∧
      SameTiming addStoreTrace (run addStoreTrace 8)
        (run (addStoreTrace.append otherRegTrace (by decide)) 8) :=
  ⟨by decide +kernel, sameTiming_append addStoreTrace otherRegTrace (by decide) 8
    (by decide +kernel) (by decide +kernel)⟩

/-- `ADD F2 F2 F4`, which writes the register that the `SW` of `addStoreTrace` waits for. -/
def sameRegTrace : Trace where
  insts := [⟨.add, .f2, .f2, .f4, -1⟩]
  length_le := by decide
  wellFormed := by decide

/-- **A younger instruction delays an older one**: alone the `SW` of `addStoreTrace` has
executed in cycle 6, and followed by `sameRegTrace` it has not. -/
theorem not_sameTiming_sameRegTrace :
    (∀ c, c < 6 → (run addStoreTrace c).finish = false) ∧
      ¬SameTiming addStoreTrace (run addStoreTrace 6)
        (run (addStoreTrace.append sameRegTrace (by decide)) 6) :=
  ⟨by decide +kernel, by decide +kernel⟩

end AdvancedArchitecture.Tomasulo
