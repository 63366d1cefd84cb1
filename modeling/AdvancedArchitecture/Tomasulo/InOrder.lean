import AdvancedArchitecture.Lib.Admission
import AdvancedArchitecture.Tomasulo.Observe

/-!
# In-order issue

The stations admit the instructions of a trace in order (`Lib/Admission.lean`): an instruction
takes a place of its class when it is issued and leaves it when it is written back, and it is
issued in the first cycle after its predecessor that finds a place free. So the search for an
unused station blocks on a full class only, and on nothing else: `issuesInOrder_run`.

The property is about the first `n` cycles of a run, for every `n`, with the counter tied to
`n` until the simulation has finished (`IssuesInOrder.counted`). An instruction whose class
has a place in one of these cycles, and whose predecessor was issued before it, has been
issued; that it has not is only possible while its class is full.

`AdmitsInOrder` says this of an abstract state up to its own cycle. A cycle extends it by one,
since it issues the next instruction exactly if its class has a place (`admitsInOrder_next`).
When the simulation has finished, all instructions have been admitted, and in-order admission
up to the last cycle is in-order admission up to every later one.
-/

namespace AdvancedArchitecture.Tomasulo

variable {P : Trace} {a : Pipe} {ks : List ℕ} {v : ℤ}

/-! ### The property -/

/-- The stations as a system with admission, as far as `m` has recorded it. -/
def Machine.timetable (P : Trace) (m : Machine) : Timetable RsClass where
  cls := P.rsClass
  enter := m.issuedAt
  leave := m.writtenBackAt

/-- **In-order issue**, in the state `m` of a run after `n` cycles. As long as the run has not
finished, each of these cycles has been counted. Each instruction is issued in the first cycle
after the issue of its predecessor (from cycle 1 on) in which fewer than three earlier
instructions of its class have been issued and not written back, as soon as this cycle has come.
Hence the issue cycles increase, at most three instructions of a class are in flight, a full class
blocks the next instruction of the class, and a station that is freed is available in the same
cycle. -/
structure IssuesInOrder (P : Trace) (n : ℕ) (m : Machine) : Prop where
  counted : m.finish = false → m.cycleCounter = n
  first : ∀ k, k < P.length → ∀ c : ℤ, m.issuedAt k = c ↔
    IsLeast {c' : ℤ | c' ≤ n ∧ (m.timetable P).Admits stationsPerClass k c'} c
  increasing : ∀ i k, i < k → k < P.length → m.issuedAt k ≠ ⊤ → m.issuedAt i < m.issuedAt k
  bounded : ∀ x c, ((m.timetable P).inside P.length x c).card ≤ stationsPerClass
  blocked : ∀ k, k < P.length → ∀ c : ℤ,
    stationsPerClass ≤ ((m.timetable P).inside k (P.rsClass k) c).card → m.issuedAt k ≠ c
  freed : ∀ k i (c : ℤ), i < k → k < P.length → P.rsClass i = P.rsClass k →
    c ≤ n → (m.timetable P).previous k < c → ¬m.issuedAt k < c →
      m.writtenBackAt i = c → m.issuedAt k = c

/-- All of it follows from the first two parts. -/
theorem IssuesInOrder.of_inOrder {m : Machine} {n : ℕ}
    (hcount : m.finish = false → m.cycleCounter = n)
    (h : (m.timetable P).InOrder stationsPerClass P.length n) : IssuesInOrder P n m where
  counted := hcount
  first := h
  increasing _ _ hik hk hne := h.enter_lt hik hk hne
  bounded := h.card_inside_le
  blocked _ hk _ hfull hc := absurd (h.admits hk hc).2.2 (not_lt.mpr hfull)
  freed _ _ _ hik hk hcls hc hprev hnot hleave :=
    h.enter_eq_leave hk hc hprev hnot hik hcls hleave

/-! ### The instruction-level machine -/

namespace Pipe

/-- The admission of the instruction-level machine. -/
def timetable (P : Trace) (a : Pipe) : Timetable RsClass where
  cls := P.rsClass
  enter k := recorded (a.issueAt k)
  leave k := recorded (a.writebackAt k)

/-- **The invariant**: admission is in order up to now. -/
def AdmitsInOrder (P : Trace) (a : Pipe) : Prop :=
  (a.timetable P).InOrder stationsPerClass P.length a.cycle

namespace Inv

/-- The instructions that have been admitted are those before the program counter. -/
theorem enter_ne_top_iff (h : a.Inv P) (k : ℕ) : (a.timetable P).enter k ≠ ⊤ ↔ k < a.pc :=
  (not_congr recorded_eq_top_iff).trans (h.issueAt k)

/-- A cycle records only itself. -/
theorem extends_next (h : a.Inv P) (hcov : Covers ks a) :
    Timetable.Extends a.cycle (a.timetable P) ((a.next P ks v).timetable P) where
  cls := rfl
  enter k := by
    change Timetable.Gains _ (recorded (a.issueAt k)) (recorded ((a.next P ks v).issueAt k))
    rw [next_issueAt]
    split_ifs with hk
    · refine .inr ⟨?_, recorded_of_ne h.cycle_succ_ne⟩
      by_contra hne
      exact absurd ((h.enter_ne_top_iff k).mp hne) (by omega)
    · exact .inl rfl
  leave k := by
    change Timetable.Gains _ (recorded (a.writebackAt k))
      (recorded ((a.next P ks v).writebackAt k))
    rw [next_writebackAt hcov]
    split_ifs with hk
    · refine .inr ⟨recorded_eq_top_iff.mpr ?_, recorded_of_ne h.cycle_succ_ne⟩
      by_contra hne
      have hret := (h.writebackAt k).mp hne
      rw [hk] at hret
      cases hret
    · exact .inl rfl

/-- An issued instruction is inside a cycle later if it is in flight before issue. -/
theorem inside_next_iff (h : a.Inv P) (hcov : Covers ks a) (ha : a.AdmitsInOrder P) {k : ℕ}
    (hk : k < a.pc) :
    ((a.next P ks v).timetable P).Inside k (a.cycle + 1) ↔
      ((a.beforeIssue P ks).stage k).InFlight := by
  have henter : recorded ((a.next P ks v).issueAt k) ≤ ((a.cycle + 1 : ℤ) : WithTop ℤ) := by
    rw [next_issueAt, if_neg fun hh => hk.ne hh.1]
    have hne := (h.issueAt k).mpr hk
    have hle := (Timetable.InOrder.admits ha (hk.trans_le h.pc_le) (recorded_of_ne hne)).1
    exact recorded_le_iff.mpr ⟨hne, by omega⟩
  have hleave : recorded ((a.next P ks v).writebackAt k) ≤ ((a.cycle + 1 : ℤ) : WithTop ℤ) ↔
      a.stage k = .done ∨ a.stage k = .retired := by
    have hle := (h.next (v := v) hcov).writeback_le k
    rw [next_cycle] at hle
    rw [recorded_le_iff, h.next_writebackAt_iff hcov, (h.step hcov k).retired_iff]
    exact and_iff_left hle
  have hidle : a.stage k ≠ .idle := fun hid => absurd ((h.idle_iff k).mp hid) (by omega)
  rw [inFlight_beforeIssue hcov, Stage.inFlight_iff]
  change recorded ((a.next P ks v).issueAt k) ≤ _ ∧
    ¬recorded ((a.next P ks v).writebackAt k) ≤ _ ↔ _
  rw [hleave, not_or]
  exact ⟨fun hh => ⟨⟨hidle, hh.2.2⟩, hh.2.1⟩, fun hh => ⟨henter, hh.2, hh.1.2⟩⟩

/-- At issue, the places taken are the stations in use. -/
theorem inside_next (h : a.Inv P) (hcov : Covers ks a) (ha : a.AdmitsInOrder P) (x : RsClass) :
    ((a.next P ks v).timetable P).inside a.pc x (a.cycle + 1) =
      (a.beforeIssue P ks).inClass P x := by
  ext k
  rw [Timetable.mem_inside, inClass, Finset.mem_filter, Finset.mem_range]
  constructor
  · rintro ⟨hk, hx, hin⟩
    exact ⟨hk.trans_le h.pc_le, hx, (h.inside_next_iff hcov ha hk).mp hin⟩
  · rintro ⟨-, hx, hfl⟩
    have hk := h.lt_pc ((inFlight_beforeIssue hcov).mp hfl).1
    exact ⟨hk, hx, (h.inside_next_iff hcov ha hk).mpr hfl⟩

/-- **A cycle issues the next instruction exactly if its class has a place.** -/
theorem admitsInOrder_next (h : a.Inv P) (hcov : Covers ks a) (ha : a.AdmitsInOrder P) :
    (a.next P ks v).AdmitsInOrder P := by
  rw [AdmitsInOrder, next_cycle]
  refine ha.step h.cycle_nonneg h.enter_ne_top_iff h.pc_le (h.extends_next hcov) fun k => ?_
  change recorded ((a.next P ks v).issueAt k) = ite _ _ (recorded (a.issueAt k))
  rw [h.inside_next hcov ha, next_issueAt, apply_ite recorded, recorded_of_ne h.cycle_succ_ne]
  refine if_congr ?_ rfl rfl
  rw [CanIssue, beforeIssue_pc]
  exact Iff.rfl

end Inv

end Pipe

/-! ### Runs -/

/-- The timetable can be read off the records of the simulator. -/
theorem Refines.timetable_eq {m : Machine} (h : Refines P m a) :
    m.timetable P = a.timetable P := by
  rw [Machine.timetable, Pipe.timetable, funext h.issuedAt_eq, funext h.writtenBackAt_eq]

/-- When the simulation has ended, every instruction has been admitted. -/
theorem Trajectory.admitted_of_finish {a : ℕ → Pipe} {ks : ℕ → List ℕ} {v : ℕ → ℤ} {n k : ℕ}
    (h : Trajectory P a ks v) (hf : (run P n).finish = true) (hk : k < P.length) :
    ((a n).timetable P).enter k ≠ ⊤ := by
  have hret := (h.inv n).committed k (hk.trans_le ((h.finished n).mp hf).2)
  refine ((h.inv n).enter_ne_top_iff k).mpr ?_
  by_contra hpc
  rw [((h.inv n).idle_iff k).mpr (not_lt.mp hpc)] at hret
  cases hret

/-- **Every run issues in order.** -/
theorem issuesInOrder_run (P : Trace) (n : ℕ) : IssuesInOrder P n (run P n) := by
  obtain ⟨a, ks, v, htr⟩ := exists_trajectory P
  have hadm : (a n).AdmitsInOrder P := by
    refine htr.induction (p := fun _ b => b.AdmitsInOrder P) ?_ (fun _ _ hb => hb)
      (fun c _ hcov hb => (htr.inv c).admitsInOrder_next hcov hb) n
    exact Timetable.inOrder_zero fun k => rfl
  refine .of_inOrder (htr.counted n) ?_
  rw [(htr.refines n).timetable_eq]
  cases hf : (run P n).finish with
  | false =>
    rw [← htr.cycle_eq hf]
    exact hadm
  | true =>
    -- no admission is left to come in the rounds after the end
    exact Timetable.InOrder.mono hadm (htr.cycle_le n) fun k hk => htr.admitted_of_finish hf hk

/-- Four multiplications. -/
def mulTrace : Trace where
  insts := [⟨.mul, .f0, .f8, .f10, -1⟩, ⟨.mul, .f2, .f8, .f10, -1⟩, ⟨.mul, .f4, .f8, .f10, -1⟩,
    ⟨.mul, .f6, .f8, .f10, -1⟩]
  length_le := by decide
  wellFormed := by decide

/-- From cycle 4 on the class is full, and the last multiplication waits; it is issued in
cycle 12, in which the first one is written back. -/
theorem issuesInOrder_mulTrace :
    (∀ c ∈ [4, 5, 6, 7, 8, 9, 10, 11], (run mulTrace 14).issuedAt 3 ≠ (c : ℤ)) ∧
      (run mulTrace 14).writtenBackAt 0 = (12 : ℤ) ∧
      (run mulTrace 14).issuedAt 3 = (12 : ℤ) := by
  have horder := issuesInOrder_run mulTrace 14
  have hfull : ∀ c ∈ [4, 5, 6, 7, 8, 9, 10, (11 : ℤ)],
      stationsPerClass ≤ (((run mulTrace 14).timetable mulTrace).inside 3
        (mulTrace.rsClass 3) c).card := by
    decide +kernel
  have hback : (run mulTrace 14).writtenBackAt 0 = (12 : ℤ) := by decide +kernel
  refine ⟨fun c hc => horder.blocked 3 (by decide) c (hfull c hc), hback, ?_⟩
  exact horder.freed 3 0 12 (by decide) (by decide) rfl (by decide) (by decide +kernel)
    (by decide +kernel) hback

end AdvancedArchitecture.Tomasulo
