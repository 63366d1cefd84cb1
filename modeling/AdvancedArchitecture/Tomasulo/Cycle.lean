import AdvancedArchitecture.Tomasulo.Pipeline

/-!
# One cycle in closed form

The write-backs of a cycle are a fold along a list, but all that the other phases see of them
is which registers were broadcast (`Pipe.Sends`) and which flags were cleared
(`Pipe.Clears`). Here the state after a cycle is read off the state before it, field by
field; what a cycle can do to one instruction is the relation `Stage.Step`.

The lemmas come in three groups, for the state when issue begins (`Pipe.beforeIssue`), after
issue, and after the start tests (`Pipe.next`). The last group is what the invariants are
proved from: none of them unfolds a phase. Where the list of write-backs covers the
instructions that are done, its order does not appear in any of them.
-/

namespace AdvancedArchitecture.Tomasulo

variable {P : Trace} {a : Pipe} {ks : List ℕ} {v : ℤ}

/-! ### Write-back -/

namespace Pipe

/-- A write-back along `ks` broadcasts register `t`. -/
def Sends (P : Trace) (ks : List ℕ) (a : Pipe) (t : DataRegTag) : Prop :=
  ∃ k ∈ ks, a.stage k = .done ∧ P.Writes k ∧ P.dest k = t

instance (a : Pipe) (t : DataRegTag) : Decidable (a.Sends P ks t) := by
  unfold Sends; infer_instance

/-- A write-back along `ks` clears the flag of register `t`. -/
def Clears (P : Trace) (ks : List ℕ) (a : Pipe) (t : DataRegTag) : Prop :=
  ∃ k ∈ ks, a.stage k = .done ∧ P.dest k = t

instance (a : Pipe) (t : DataRegTag) : Decidable (a.Clears P ks t) := by
  unfold Clears; infer_instance

/-- The stage of instruction `k` after the write-backs along `ks`. -/
def retireStage (P : Trace) (ks : List ℕ) (a : Pipe) (k : ℕ) : Stage :=
  match a.stage k with
  | .issued wj wk =>
    .issued (wj && !decide (a.Sends P ks (P.src1 k))) (wk && !decide (a.Sends P ks (P.src2 k)))
  | .done => if k ∈ ks then .retired else .done
  | s => s

/-- A write-back retires its instruction and broadcasts its register to the others, unless it is an
`SW`. -/
theorem retireOne_of_done {k : ℕ} (h : a.stage k = .done) (j : ℕ) :
    (a.retireOne P k).stage j =
      if j = k then .retired
      else if P.Writes k then (a.stage j).receive (P.dest k) (P.src1 j) (P.src2 j)
      else a.stage j := by
  rw [retireOne, if_pos h]

theorem retireOne_of_not_done {k : ℕ} (h : a.stage k ≠ .done) : a.retireOne P k = a := by
  rw [retireOne, if_neg h]

/-- A write-back makes no instruction done, so that the order of the list does not matter for which
instructions are written back. -/
theorem retireOne_stage_done {k j : ℕ} :
    (a.retireOne P k).stage j = .done ↔ a.stage j = .done ∧ j ≠ k := by
  by_cases hk : a.stage k = .done
  · rw [retireOne_of_done hk]
    by_cases hj : j = k
    · simp [hj]
    · rw [if_neg hj]
      split_ifs
      · cases hst : a.stage j <;> simp [Stage.receive, hj]
      · simp [hj]
  · rw [retireOne_of_not_done hk]
    refine ⟨fun h => ⟨h, ?_⟩, And.left⟩
    rintro rfl
    exact hk h

/-- The instructions written back along a list: the first one, and those after it. -/
theorem exists_done_cons {k : ℕ} {q : ℕ → Prop} :
    (∃ j ∈ k :: ks, a.stage j = .done ∧ q j) ↔
      (a.stage k = .done ∧ q k) ∨ ∃ j ∈ ks, (a.retireOne P k).stage j = .done ∧ q j := by
  constructor
  · rintro ⟨j, hj, hd, hq⟩
    by_cases hjk : j = k
    · exact .inl (hjk ▸ ⟨hd, hq⟩)
    · have hmem : j ∈ ks := (List.mem_cons.mp hj).resolve_left hjk
      exact .inr ⟨j, hmem, retireOne_stage_done.mpr ⟨hd, hjk⟩, hq⟩
  · rintro (⟨hd, hq⟩ | ⟨j, hj, hd, hq⟩)
    · exact ⟨k, List.mem_cons_self, hd, hq⟩
    · exact ⟨j, List.mem_cons_of_mem _ hj, (retireOne_stage_done.mp hd).1, hq⟩

/-- What a list of write-backs broadcasts, by its first element. -/
theorem sends_cons {k : ℕ} {t : DataRegTag} :
    a.Sends P (k :: ks) t ↔
      (a.stage k = .done ∧ P.Writes k ∧ P.dest k = t) ∨ (a.retireOne P k).Sends P ks t :=
  exists_done_cons

theorem clears_cons {k : ℕ} {t : DataRegTag} :
    a.Clears P (k :: ks) t ↔
      (a.stage k = .done ∧ P.dest k = t) ∨ (a.retireOne P k).Clears P ks t :=
  exists_done_cons

/-- The fields that a write-back leaves alone. -/
theorem retire_core (ks : List ℕ) (a : Pipe) :
    (a.retire P ks).cycle = a.cycle ∧ (a.retire P ks).pc = a.pc ∧
      (a.retire P ks).commitCount = a.commitCount ∧ (a.retire P ks).issueAt = a.issueAt ∧
      (a.retire P ks).executeAt = a.executeAt ∧ (a.retire P ks).commitAt = a.commitAt := by
  induction ks generalizing a with
  | nil => exact ⟨rfl, rfl, rfl, rfl, rfl, rfl⟩
  | cons k ks ih =>
    obtain ⟨h1, h2, h3, h4, h5, h6⟩ := ih (a.retireOne P k)
    have hone : (a.retireOne P k).cycle = a.cycle ∧ (a.retireOne P k).pc = a.pc ∧
        (a.retireOne P k).commitCount = a.commitCount ∧
        (a.retireOne P k).issueAt = a.issueAt ∧ (a.retireOne P k).executeAt = a.executeAt ∧
        (a.retireOne P k).commitAt = a.commitAt := by
      rw [retireOne]
      split_ifs <;> exact ⟨rfl, rfl, rfl, rfl, rfl, rfl⟩
    obtain ⟨g1, g2, g3, g4, g5, g6⟩ := hone
    exact ⟨h1.trans g1, h2.trans g2, h3.trans g3, h4.trans g4, h5.trans g5, h6.trans g6⟩

theorem retire_stage (ks : List ℕ) (a : Pipe) (j : ℕ) :
    (a.retire P ks).stage j = a.retireStage P ks j := by
  induction ks generalizing a with
  | nil =>
    change a.stage j = _
    rw [retireStage]
    cases hst : a.stage j <;> simp [Sends]
  | cons k ks ih =>
    change ((a.retireOne P k).retire P ks).stage j = _
    rw [ih]
    -- the first write-back reaches `j` before the others do
    by_cases hk : a.stage k = .done
    · unfold retireStage
      rw [retireOne_of_done hk]
      by_cases hj : j = k
      · subst hj
        simp [hk]
      · rw [if_neg hj]
        cases hst : a.stage j with
        | issued wj wk =>
          by_cases hw : P.Writes k
          · rw [if_pos hw]
            simp only [Stage.receive, sends_cons, hk, hw, true_and, Bool.and_assoc,
              Bool.decide_or, Bool.not_or, decide_not, ne_eq]
          · rw [if_neg hw]
            simp only [sends_cons, hk, hw, false_and, and_false, false_or]
        | _ => simp [Stage.receive, hj]
    · rw [retireOne_of_not_done hk]
      unfold retireStage
      cases hst : a.stage j with
      | issued wj wk => simp only [sends_cons, hk, false_and, false_or, retireOne_of_not_done hk]
      | done =>
        have hne : j ≠ k := fun h => hk (h ▸ hst)
        simp [hne]
      | _ => rfl

/-- The write-backs record the cycle for the instructions of the list that were done. -/
theorem retire_writebackAt (ks : List ℕ) (a : Pipe) (j : ℕ) :
    (a.retire P ks).writebackAt j =
      if j ∈ ks ∧ a.stage j = .done then a.cycle else a.writebackAt j := by
  induction ks generalizing a with
  | nil => simp [retire]
  | cons k ks ih =>
    change ((a.retireOne P k).retire P ks).writebackAt j = _
    have hcyc : (a.retireOne P k).cycle = a.cycle := by
      rw [retireOne]
      split_ifs <;> rfl
    rw [ih, hcyc]
    by_cases hjk : j = k
    · subst hjk
      -- after the first write-back `j` is not done, so the rest of the list leaves its record
      by_cases hd : a.stage j = .done
      · rw [if_neg fun h => (retireOne_stage_done.mp h.2).2 rfl, if_pos ⟨by simp, hd⟩, retireOne,
          if_pos hd]
        exact Function.update_self _ _ _
      · rw [retireOne_of_not_done hd, if_neg fun h => hd h.2, if_neg fun h => hd h.2]
    · have hsame : (a.retireOne P k).writebackAt j = a.writebackAt j := by
        by_cases hd : a.stage k = .done
        · rw [retireOne, if_pos hd]
          exact Function.update_of_ne hjk _ _
        · rw [retireOne_of_not_done hd]
      rw [hsame]
      refine if_congr ?_ rfl rfl
      rw [retireOne_stage_done, List.mem_cons]
      simp [hjk]

/-- A flag survives the write-backs if none of them takes it down; none raises one. -/
theorem retire_waiting (ks : List ℕ) (a : Pipe) (t : DataRegTag) :
    (a.retire P ks).waiting t = true ↔ a.waiting t = true ∧ ¬a.Clears P ks t := by
  induction ks generalizing a with
  | nil => simp [retire, Clears]
  | cons k ks ih =>
    change ((a.retireOne P k).retire P ks).waiting t = true ↔ _
    rw [ih, clears_cons]
    by_cases hd : a.stage k = .done
    · by_cases ht : t = P.dest k
      · simp [retireOne, hd, ht]
      · simp [retireOne, hd, ht, Ne.symm ht]
    · simp [retireOne_of_not_done hd, hd]

/-- The value a broadcast leaves comes from an instruction that sent it. -/
theorem retire_value (ks : List ℕ) (a : Pipe) (t : DataRegTag) :
    (¬a.Sends P ks t ∧ (a.retire P ks).value t = a.value t) ∨
      ∃ k ∈ ks, a.stage k = .done ∧ P.Writes k ∧ P.dest k = t ∧
        (a.retire P ks).value t = memOffset + k := by
  induction ks generalizing a with
  | nil => exact .inl ⟨by simp [Sends], rfl⟩
  | cons k ks ih =>
    change (_ ∧ ((a.retireOne P k).retire P ks).value t = a.value t) ∨
      ∃ j ∈ k :: ks, _ ∧ _ ∧ _ ∧ ((a.retireOne P k).retire P ks).value t = memOffset + j
    rcases ih (a.retireOne P k) with ⟨hns, hv⟩ | ⟨j, hj, hd, hw, ht, hv⟩
    · by_cases hk : a.stage k = .done ∧ P.Writes k ∧ P.dest k = t
      · obtain ⟨hd, hw, rfl⟩ := hk
        refine .inr ⟨k, List.mem_cons_self, hd, hw, rfl, ?_⟩
        rw [hv, retireOne, if_pos hd]
        simp [hw]
      · refine .inl ⟨fun hs => (sends_cons.mp hs).elim hk hns, ?_⟩
        rw [hv]
        rw [retireOne]
        split_ifs with hd hw
        · exact Function.update_of_ne (fun h => hk ⟨hd, hw, h.symm⟩) _ _
        · rfl
        · rfl
    · exact .inr ⟨j, List.mem_cons_of_mem _ hj, (retireOne_stage_done.mp hd).1, hw, ht, hv⟩

/-! ### The state before issue -/

/-- The stage of instruction `k` before issue. -/
def stepStage (P : Trace) (ks : List ℕ) (a : Pipe) (k : ℕ) : Stage :=
  match a.stage k with
  | .exec left => if left - 1 = 0 then .done else .exec (left - 1)
  | .issued wj wk =>
    .issued (wj && !decide (a.Sends P ks (P.src1 k))) (wk && !decide (a.Sends P ks (P.src2 k)))
  | .done => if k ∈ ks then .retired else .done
  | .idle => .idle
  | .retired => .retired

theorem tick_commit_stage (a : Pipe) (k : ℕ) :
    a.tick.commit.stage k = (a.stage k).tick := by
  rw [commit]
  split_ifs <;> rfl

/-- An executing instruction loses a cycle at the beginning, and is not done by that alone. -/
theorem tick_commit_done {k : ℕ} : a.tick.commit.stage k = .done ↔ a.stage k = .done := by
  rw [tick_commit_stage]
  cases hst : a.stage k <;> simp [Stage.tick]

/-- The registers broadcast in a cycle can be read off its first state. -/
theorem tick_commit_sends (t : DataRegTag) :
    a.tick.commit.Sends P ks t ↔ a.Sends P ks t := by
  simp only [Sends, tick_commit_done]

theorem tick_commit_clears (t : DataRegTag) :
    a.tick.commit.Clears P ks t ↔ a.Clears P ks t := by
  simp only [Clears, tick_commit_done]

/-- The fields `commit` leaves alone. -/
theorem tick_commit_core (a : Pipe) :
    a.tick.commit.cycle = a.cycle + 1 ∧ a.tick.commit.pc = a.pc ∧
      a.tick.commit.issueAt = a.issueAt ∧ a.tick.commit.executeAt = a.executeAt ∧
      a.tick.commit.writebackAt = a.writebackAt ∧ a.tick.commit.waiting = a.waiting ∧
      a.tick.commit.value = a.value := by
  rw [commit]
  split_ifs <;> exact ⟨rfl, rfl, rfl, rfl, rfl, rfl, rfl⟩

theorem beforeIssue_stage (ks : List ℕ) (a : Pipe) (k : ℕ) :
    (a.beforeIssue P ks).stage k = a.stepStage P ks k := by
  change ((a.tick.commit.retire P ks).stage k).complete = _
  rw [retire_stage]
  unfold retireStage stepStage
  rw [tick_commit_stage]
  cases hst : a.stage k with
  | issued wj wk => simp only [Stage.tick, tick_commit_sends, Stage.complete]
  | done =>
    simp only [Stage.tick]
    split_ifs <;> rfl
  | _ => rfl

theorem beforeIssue_cycle (ks : List ℕ) (a : Pipe) :
    (a.beforeIssue P ks).cycle = a.cycle + 1 :=
  (retire_core ks _).1.trans (tick_commit_core a).1

theorem beforeIssue_pc (ks : List ℕ) (a : Pipe) : (a.beforeIssue P ks).pc = a.pc :=
  (retire_core ks _).2.1.trans (tick_commit_core a).2.1

theorem beforeIssue_issueAt (ks : List ℕ) (a : Pipe) :
    (a.beforeIssue P ks).issueAt = a.issueAt :=
  (retire_core ks _).2.2.2.1.trans (tick_commit_core a).2.2.1

theorem beforeIssue_writebackAt (ks : List ℕ) (a : Pipe) (k : ℕ) :
    (a.beforeIssue P ks).writebackAt k =
      if k ∈ ks ∧ a.stage k = .done then a.cycle + 1 else a.writebackAt k := by
  change (a.tick.commit.retire P ks).writebackAt k = _
  rw [retire_writebackAt, (tick_commit_core a).1, (tick_commit_core a).2.2.2.2.1]
  simp only [tick_commit_done]

/-- An instruction whose last cycle this is has `execute` recorded. -/
theorem beforeIssue_executeAt (ks : List ℕ) (a : Pipe) (k : ℕ) :
    (a.beforeIssue P ks).executeAt k =
      if a.stage k = .exec 1 then a.cycle + 1 else a.executeAt k := by
  change (if (a.tick.commit.retire P ks).stage k = .exec 0 then
    (a.tick.commit.retire P ks).cycle else (a.tick.commit.retire P ks).executeAt k) = _
  obtain ⟨h1, -, -, -, h5, -⟩ := retire_core (P := P) ks a.tick.commit
  rw [h1, h5, (tick_commit_core a).1, (tick_commit_core a).2.2.2.1, retire_stage]
  refine if_congr ?_ rfl rfl
  rw [retireStage]
  rw [tick_commit_stage]
  cases hst : a.stage k with
  | exec left =>
    simp only [Stage.tick, Stage.exec.injEq]
    omega
  | done =>
    simp only [Stage.tick]
    split_ifs <;> simp
  | _ => simp [Stage.tick]

/-- Only the first phase commits. -/
theorem beforeIssue_commit (ks : List ℕ) (a : Pipe) :
    (a.beforeIssue P ks).commitAt = a.tick.commit.commitAt ∧
      (a.beforeIssue P ks).commitCount = a.tick.commit.commitCount := by
  obtain ⟨-, -, h3, -, -, h6⟩ := retire_core (P := P) ks a.tick.commit
  exact ⟨h6, h3⟩

/-- A flag before issue: it was set and not cleared, or an instruction marks it. -/
theorem beforeIssue_waiting (ks : List ℕ) (a : Pipe) (t : DataRegTag) :
    (a.beforeIssue P ks).waiting t = true ↔
      (a.waiting t = true ∧ ¬a.Clears P ks t) ∨
        ∃ k, k < P.length ∧ (a.beforeIssue P ks).Marks P k ∧ P.dest k = t := by
  change ((a.tick.commit.retire P ks).waiting t || decide _) = true ↔ _
  rw [Bool.or_eq_true, decide_eq_true_iff, retire_waiting, (tick_commit_core a).2.2.2.2.2.1,
    tick_commit_clears]
  exact Iff.rfl

/-- A register keeps its value unless it was broadcast, in which case it has the value of an
instruction that was written back. -/
theorem beforeIssue_value (ks : List ℕ) (a : Pipe) (t : DataRegTag) :
    (¬a.Sends P ks t ∧ (a.beforeIssue P ks).value t = a.value t) ∨
      ∃ k ∈ ks, a.stage k = .done ∧ P.Writes k ∧ P.dest k = t ∧
        (a.beforeIssue P ks).value t = memOffset + k := by
  have h := retire_value (P := P) ks a.tick.commit t
  simp only [tick_commit_sends, tick_commit_done, (tick_commit_core a).2.2.2.2.2.2] at h
  exact h

/-! ### The state after issue -/

/-- A field that is updated at one place under a condition. -/
theorem ite_update_apply {α : Type} {c : Prop} [Decidable c] (f : ℕ → α) (p : ℕ) (x : α)
    (k : ℕ) : (if c then Function.update f p x else f) k = if k = p ∧ c then x else f k := by
  by_cases hc : c
  · rw [if_pos hc, Function.update_apply]
    exact if_congr (iff_of_eq (and_iff_left hc).eq.symm) rfl rfl
  · rw [if_neg hc, if_neg fun h => hc h.2]

/-- Issue moves one instruction, the one at the program counter. -/
theorem issue_stage (v : ℤ) (b : Pipe) (k : ℕ) :
    (b.issue P v).stage k =
      if k = b.pc ∧ b.CanIssue P then b.entryStage P k else b.stage k := by
  have hfield : (b.issue P v).stage =
      if b.CanIssue P then Function.update b.stage b.pc (b.entryStage P b.pc) else b.stage := by
    rw [issue]
    split_ifs <;> rfl
  rw [hfield, ite_update_apply]
  split_ifs with hk
  · rw [hk.1]
  · rfl

theorem issue_pc (v : ℤ) (b : Pipe) :
    (b.issue P v).pc = if b.CanIssue P then b.pc + 1 else b.pc := by
  rw [issue]
  split_ifs <;> rfl

theorem issue_issueAt (v : ℤ) (b : Pipe) (k : ℕ) :
    (b.issue P v).issueAt k = if k = b.pc ∧ b.CanIssue P then b.cycle else b.issueAt k := by
  have hfield : (b.issue P v).issueAt =
      if b.CanIssue P then Function.update b.issueAt b.pc b.cycle else b.issueAt := by
    rw [issue]
    split_ifs <;> rfl
  rw [hfield, ite_update_apply]

/-- Issue raises the flag of the register it writes, and takes none down. -/
theorem issue_waiting (v : ℤ) (b : Pipe) (t : DataRegTag) :
    (b.issue P v).waiting t = true ↔
      b.waiting t = true ∨ (b.CanIssue P ∧ P.Writes b.pc ∧ P.dest b.pc = t) := by
  rw [issue]
  by_cases hc : b.CanIssue P
  · by_cases hw : P.Writes b.pc
    · by_cases ht : t = P.dest b.pc
      · simp [hc, hw, ht]
      · simp [hc, hw, ht, Ne.symm ht]
    · simp [hc, hw]
  · simp [hc]

theorem issue_value (v : ℤ) (b : Pipe) (t : DataRegTag) :
    (b.issue P v).value t =
      if b.CanIssue P ∧ P.Writes b.pc ∧ P.dest b.pc = t then v else b.value t := by
  rw [issue]
  by_cases hc : b.CanIssue P
  · by_cases hw : P.Writes b.pc
    · by_cases ht : t = P.dest b.pc
      · simp [hc, hw, ht]
      · simp [hc, hw, ht, Ne.symm ht]
    · simp [hc, hw]
  · simp [hc]

/-- The fields `issue` leaves alone. -/
theorem issue_core (v : ℤ) (b : Pipe) :
    (b.issue P v).cycle = b.cycle ∧ (b.issue P v).commitCount = b.commitCount ∧
      (b.issue P v).executeAt = b.executeAt ∧ (b.issue P v).writebackAt = b.writebackAt ∧
      (b.issue P v).commitAt = b.commitAt := by
  rw [issue]
  split_ifs <;> exact ⟨rfl, rfl, rfl, rfl, rfl⟩

/-! ### The state after a cycle -/

/-- A whole cycle, given the two choices the abstract machine leaves open. -/
def next (P : Trace) (ks : List ℕ) (v : ℤ) (a : Pipe) : Pipe :=
  start P (issue P v (beforeIssue P ks a))

/-- The start tests are the last phase that moves an instruction. -/
theorem next_stage (ks : List ℕ) (v : ℤ) (a : Pipe) (k : ℕ) :
    (a.next P ks v).stage k =
      if ((a.beforeIssue P ks).issue P v).Ready P k then .exec (P.latency k)
      else ((a.beforeIssue P ks).issue P v).stage k := rfl

theorem next_cycle (ks : List ℕ) (v : ℤ) (a : Pipe) : (a.next P ks v).cycle = a.cycle + 1 :=
  (issue_core v _).1.trans (beforeIssue_cycle ks a)

/-- At most one instruction is issued in a cycle. -/
theorem next_pc (ks : List ℕ) (v : ℤ) (a : Pipe) :
    (a.next P ks v).pc = if (a.beforeIssue P ks).CanIssue P then a.pc + 1 else a.pc := by
  change (issue P v _).pc = _
  rw [issue_pc, beforeIssue_pc]

theorem next_issueAt (ks : List ℕ) (v : ℤ) (a : Pipe) (k : ℕ) :
    (a.next P ks v).issueAt k =
      if k = a.pc ∧ (a.beforeIssue P ks).CanIssue P then a.cycle + 1 else a.issueAt k := by
  change (issue P v _).issueAt k = _
  rw [issue_issueAt, beforeIssue_pc, beforeIssue_cycle, beforeIssue_issueAt]

/-- `execute` is the cycle in which the counter runs out. -/
theorem next_executeAt (ks : List ℕ) (v : ℤ) (a : Pipe) (k : ℕ) :
    (a.next P ks v).executeAt k =
      if a.stage k = .exec 1 then a.cycle + 1 else a.executeAt k := by
  change (issue P v _).executeAt k = _
  rw [(issue_core v _).2.2.1, beforeIssue_executeAt]

/-- Every instruction that was done at the end of a cycle is written back in the next. -/
theorem next_writebackAt (hcov : Covers ks a) (v : ℤ) (k : ℕ) :
    (a.next P ks v).writebackAt k =
      if a.stage k = .done then a.cycle + 1 else a.writebackAt k := by
  change (issue P v _).writebackAt k = _
  rw [(issue_core v _).2.2.2.1, beforeIssue_writebackAt]
  exact if_congr ⟨And.right, fun h => ⟨hcov k h, h⟩⟩ rfl rfl

/-- What `commit` does is decided before the write-backs of the cycle: an instruction never commits
in the cycle it is written back. -/
theorem next_commit (ks : List ℕ) (v : ℤ) (a : Pipe) :
    (a.next P ks v).commitAt = a.tick.commit.commitAt ∧
      (a.next P ks v).commitCount = a.tick.commit.commitCount :=
  ⟨(issue_core v _).2.2.2.2.trans (beforeIssue_commit ks a).1,
    (issue_core v _).2.1.trans (beforeIssue_commit ks a).2⟩

theorem next_waiting (ks : List ℕ) (v : ℤ) (a : Pipe) :
    (a.next P ks v).waiting = ((a.beforeIssue P ks).issue P v).waiting := rfl

theorem next_value (ks : List ℕ) (v : ℤ) (a : Pipe) :
    (a.next P ks v).value = ((a.beforeIssue P ks).issue P v).value := rfl

end Pipe

/-! ### One instruction in one cycle -/

/-- **What a cycle does to one instruction.** -/
inductive Stage.Step (P : Trace) (k : ℕ) : Stage → Stage → Prop
  | idle : Step P k .idle .idle
  | issue {wj wk : Bool} (hmem : (P.type k).isMem = true → wj = false ∧ wk = false) :
      Step P k .idle (.issued wj wk)
  | issueStart : Step P k .idle (.exec (P.latency k))
  | wait {wj wk wj' wk' : Bool} (hj : wj' = true → wj = true) (hk : wk' = true → wk = true) :
      Step P k (.issued wj wk) (.issued wj' wk')
  | start {wj wk : Bool} : Step P k (.issued wj wk) (.exec (P.latency k))
  | exec {left : ℤ} (h : left ≠ 1) : Step P k (.exec left) (.exec (left - 1))
  | complete : Step P k (.exec 1) .done
  | retire : Step P k .done .retired
  | retired : Step P k .retired .retired

/-- An instruction enters the stations waiting, and a load or store without sources to wait for, or
it starts at once. -/
theorem Pipe.entryStage_cases (b : Pipe) (k : ℕ) :
    (∃ wj wk, b.entryStage P k = .issued wj wk ∧
      ((P.type k).isMem = true → wj = false ∧ wk = false)) ∨
      b.entryStage P k = .exec (P.latency k) := by
  rw [entryStage]
  split_ifs with hm hw
  · exact .inl ⟨false, false, rfl, fun _ => ⟨rfl, rfl⟩⟩
  · exact .inr rfl
  · exact .inl ⟨_, _, rfl, fun h => absurd h hm⟩

/-- **One instruction.** Whatever the other instructions do, a cycle changes the stage of each by a
`Stage.Step`. -/
theorem Pipe.next_step (hcov : Covers ks a) (hpc : a.stage a.pc = .idle) (k : ℕ) :
    Stage.Step P k (a.stage k) ((a.next P ks v).stage k) := by
  set c := (a.beforeIssue P ks).issue P v with hc
  -- up to the start tests: issue changes the next instruction only
  have hissue : Stage.Step P k (a.stage k) (c.stage k) := by
    rw [hc, issue_stage, beforeIssue_pc]
    split_ifs with hk
    · rw [hk.1, hpc]
      rcases (a.beforeIssue P ks).entryStage_cases (P := P) a.pc with ⟨wj, wk, he, hm⟩ | he
      · rw [he]
        exact .issue hm
      · rw [he]
        exact .issueStart
    · rw [beforeIssue_stage, stepStage]
      cases hst : a.stage k with
      | idle => exact .idle
      | retired => exact .retired
      | issued wj wk =>
        refine .wait (fun h => ?_) (fun h => ?_)
        · exact (Bool.and_eq_true_iff.mp h).1
        · exact (Bool.and_eq_true_iff.mp h).1
      | exec left =>
        dsimp only
        by_cases hl : left - 1 = 0
        · have hl1 : left = 1 := by omega
          rw [if_pos hl, hl1]
          exact .complete
        · rw [if_neg hl]
          exact .exec fun h => hl (by rw [h]; rfl)
      | done =>
        dsimp only
        rw [if_pos (hcov k hst)]
        exact .retire
  rw [next_stage]
  split_ifs with hr
  · have hst : c.stage k = .issued false false := hr.1
    rw [hst] at hissue
    generalize a.stage k = s at hissue
    cases hissue with
    | issue _ => exact .issueStart
    | wait _ _ => exact .start
  · exact hissue

end AdvancedArchitecture.Tomasulo
