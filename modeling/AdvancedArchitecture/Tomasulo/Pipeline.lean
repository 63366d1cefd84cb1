import Mathlib.Data.Finset.Card
import Mathlib.Logic.Function.Basic
import AdvancedArchitecture.Tomasulo.Machine

/-!
# The instruction-level machine

An abstract view of the simulator in which there are no stations: each instruction of the
trace is in one `Stage`, each register has its waiting flag and its value, and a cycle is a
sequence of maps over all instructions at once. It says what the twelve stations are for;
`Refinement.lean` proves that the loop body of `main` computes one of its cycles.

An instruction goes from `idle` to `issued`, where it may wait for its sources, on to `exec`
with a number of cycles left, `done` and `retired`; one whose sources are present skips
`issued`. The commit is not a stage, since nothing but the records and `check_reg` depends on
it: the committed instructions are the first `commitCount` of the trace.

Two things are left open, since no property depends on them: the order in which the
instructions that complete together are written back (a list covering them), and the value
a register holds between the issue of a writer and its write-back.
-/

namespace AdvancedArchitecture.Tomasulo

/-! ### The static side of a trace -/

/-- The four station arrays. -/
inductive RsClass
  | load | store | addSub | mulDiv
  deriving DecidableEq, Repr

/-- The station array an operation is issued to (there is no `NOP` in a trace). -/
def InstOp.rsClass : InstOp → RsClass
  | .lw | .nop => .load
  | .sw => .store
  | .add | .sub => .addSub
  | .mul | .div => .mulDiv

/-- The value `cycle_last` starts from. -/
def InstOp.latency : InstOp → ℤ
  | .lw => lwCycle
  | .sw => swCycle
  | .add | .sub => addSubCycle
  | .mul => mulCycle
  | .div => divCycle
  | .nop => valueEmpty

/-- Stations per class. -/
def stationsPerClass : ℕ := 3

namespace Trace

variable (P : Trace)

/-- The number of instructions. -/
def length : ℕ := P.insts.length

/-- The operation of instruction `k`, `NOP` past the end. -/
def type (k : ℕ) : InstOp := (P.insts[k]?.map Instr.type).getD .nop

/-- The destination of instruction `k`; the stored register of an `SW`. -/
def dest (k : ℕ) : DataRegTag := (P.insts[k]?.map Instr.destTag).getD .noReg

/-- The first source of instruction `k`. -/
def src1 (k : ℕ) : DataRegTag := (P.insts[k]?.map Instr.src1Tag).getD .noReg

/-- The second source of instruction `k`. -/
def src2 (k : ℕ) : DataRegTag := (P.insts[k]?.map Instr.src2Tag).getD .noReg

/-- Instruction `k` writes its destination: it is not an `SW`. -/
def Writes (k : ℕ) : Prop := P.type k ≠ .sw

instance (k : ℕ) : Decidable (P.Writes k) := by unfold Writes; infer_instance

/-- The number of cycles instruction `k` executes. -/
def latency (k : ℕ) : ℤ := (P.type k).latency

/-- The station class of instruction `k`. -/
def rsClass (k : ℕ) : RsClass := (P.type k).rsClass

variable {P} {k : ℕ}

theorem length_le_max : P.length ≤ maxInstNum := P.length_le

/-- The facts that an instruction of the trace carries. -/
theorem wellFormed_getElem (h : k < P.length) : (P.insts.get ⟨k, h⟩).WellFormed :=
  P.wellFormed _ (List.getElem_mem h)

theorem type_ne_nop (h : k < P.length) : P.type k ≠ .nop := by
  have hk : P.insts[k]? = some (P.insts.get ⟨k, h⟩) := List.getElem?_eq_getElem h
  simpa [type, hk] using (wellFormed_getElem h).type_ne

theorem dest_ne_noReg (h : k < P.length) : P.dest k ≠ .noReg := by
  have hk : P.insts[k]? = some (P.insts.get ⟨k, h⟩) := List.getElem?_eq_getElem h
  simpa [dest, hk] using (wellFormed_getElem h).dest_ne

theorem src1_ne_noReg (h : k < P.length) : P.src1 k ≠ .noReg := by
  have hk : P.insts[k]? = some (P.insts.get ⟨k, h⟩) := List.getElem?_eq_getElem h
  simpa [src1, hk] using (wellFormed_getElem h).src1_ne

/-- Only the arithmetic instructions have a second source. -/
theorem src2_ne_noReg (h : k < P.length) (hm : (P.type k).isMem = false) :
    P.src2 k ≠ .noReg := by
  have hk : P.insts[k]? = some (P.insts.get ⟨k, h⟩) := List.getElem?_eq_getElem h
  have hiff := (wellFormed_getElem h).src2_iff
  simp only [type, hk, Option.map_some, Option.getD_some] at hm
  simp only [src2, hk, Option.map_some, Option.getD_some, ne_eq, hiff, hm]
  exact Bool.false_ne_true

/-- Every operation executes for two cycles at least. -/
theorem two_le_latency (h : k < P.length) : 2 ≤ P.latency k := by
  have hne := type_ne_nop h
  rw [latency]
  cases htype : P.type k with
  | nop => exact absurd htype hne
  | _ => simp [InstOp.latency, lwCycle, swCycle, addSubCycle, mulCycle, divCycle]

end Trace

/-! ### Stages -/

/-- Where an instruction is. In `issued` it still waits for its first, its second source. -/
inductive Stage
  | idle
  | issued (wj wk : Bool)
  | exec (left : ℤ)
  | done
  | retired
  deriving DecidableEq, Repr

namespace Stage

/-- The instruction occupies a station. -/
def InFlight : Stage → Prop
  | idle | retired => False
  | issued _ _ | exec _ | done => True

instance : DecidablePred InFlight := fun s => by
  cases s <;> unfold InFlight <;> infer_instance

/-- The instruction has entered state `exec` at some point. -/
def Started : Stage → Prop
  | idle | issued _ _ => False
  | exec _ | done | retired => True

/-- One executed cycle. -/
def tick : Stage → Stage
  | exec left => exec (left - 1)
  | s => s

/-- Execution ends when no cycle is left. -/
def complete : Stage → Stage
  | exec left => if left = 0 then done else exec left
  | s => s

/-- A broadcast of register `t` reaches an instruction with sources `s1` and `s2`. -/
def receive (t s1 s2 : DataRegTag) : Stage → Stage
  | issued wj wk => issued (wj && decide (t ≠ s1)) (wk && decide (t ≠ s2))
  | s => s

end Stage

/-- The abstract state. -/
structure Pipe where
  cycle : ℤ
  pc : ℕ
  commitCount : ℕ
  stage : ℕ → Stage
  issueAt : ℕ → ℤ
  executeAt : ℕ → ℤ
  writebackAt : ℕ → ℤ
  commitAt : ℕ → ℤ
  waiting : DataRegTag → Bool
  value : DataRegTag → ℤ

namespace Pipe

variable (P : Trace)

/-- Before the first cycle. -/
def init : Pipe where
  cycle := 0
  pc := 0
  commitCount := 0
  stage := fun _ => .idle
  issueAt := fun _ => valueEmpty
  executeAt := fun _ => valueEmpty
  writebackAt := fun _ => valueEmpty
  commitAt := fun _ => valueEmpty
  waiting := fun _ => false
  value := fun _ => valueEmpty

/-- A new cycle begins, and every executing instruction executes. -/
def tick (a : Pipe) : Pipe :=
  { a with cycle := a.cycle + 1, stage := fun k => (a.stage k).tick }

/-- The oldest uncommitted instruction commits if it was written back. -/
def commit (a : Pipe) : Pipe :=
  if a.writebackAt a.commitCount ≠ valueEmpty ∧ a.commitAt a.commitCount = valueEmpty then
    { a with
      commitAt := Function.update a.commitAt a.commitCount a.cycle
      commitCount := a.commitCount + 1 }
  else a

/-- Instruction `k` is written back if it is done: its register is no longer marked, and
unless it is an `SW` its result is broadcast. -/
def retireOne (a : Pipe) (k : ℕ) : Pipe :=
  if a.stage k = .done then
    { a with
      stage := fun j =>
        if j = k then .retired
        else if P.Writes k then (a.stage j).receive (P.dest k) (P.src1 j) (P.src2 j)
        else a.stage j
      writebackAt := Function.update a.writebackAt k a.cycle
      waiting := Function.update a.waiting (P.dest k) false
      value := if P.Writes k then Function.update a.value (P.dest k) (memOffset + k)
        else a.value }
  else a

/-- The instructions of `ks` are written back in this order. -/
def retire (ks : List ℕ) (a : Pipe) : Pipe := ks.foldl (retireOne P) a

/-- Instructions with no cycle left are done. -/
def complete (a : Pipe) : Pipe :=
  { a with
    stage := fun k => (a.stage k).complete
    executeAt := fun k => if a.stage k = .exec 0 then a.cycle else a.executeAt k }

/-- Instruction `k` marks its register every cycle: an `LW` while it executes, an arithmetic
instruction from issue on. -/
def Marks (a : Pipe) (k : ℕ) : Prop :=
  match a.stage k with
  | .issued _ _ => (P.type k).isMem = false
  | .exec _ => P.Writes k
  | _ => False

instance (a : Pipe) (k : ℕ) : Decidable (a.Marks P k) := by
  unfold Marks
  cases a.stage k <;> infer_instance

/-- The registers of the marking instructions are marked. -/
def depend (a : Pipe) : Pipe :=
  { a with
    waiting := fun t =>
      a.waiting t || decide (∃ k, k < P.length ∧ a.Marks P k ∧ P.dest k = t) }

/-- The instructions of class `c` in flight. -/
def inClass (a : Pipe) (c : RsClass) : Finset ℕ :=
  (Finset.range P.length).filter fun k => P.rsClass k = c ∧ (a.stage k).InFlight

/-- The next instruction has a free station. -/
def CanIssue (a : Pipe) : Prop :=
  a.pc < P.length ∧ (a.inClass P (P.rsClass a.pc)).card < stationsPerClass

instance (a : Pipe) : Decidable (a.CanIssue P) := by unfold CanIssue; infer_instance

/-- The stage an instruction enters at issue: an arithmetic instruction with both sources
present starts at once. -/
def entryStage (a : Pipe) (k : ℕ) : Stage :=
  if (P.type k).isMem then .issued false false
  else if a.waiting (P.src1 k) = false ∧ a.waiting (P.src2 k) = false then
    .exec (P.latency k)
  else .issued (a.waiting (P.src1 k)) (a.waiting (P.src2 k))

/-- The next instruction is issued if it has a free station; `v` is what its register holds
until its result arrives. -/
def issue (v : ℤ) (a : Pipe) : Pipe :=
  if a.CanIssue P then
    { a with
      pc := a.pc + 1
      issueAt := Function.update a.issueAt a.pc a.cycle
      stage := Function.update a.stage a.pc (a.entryStage P a.pc)
      waiting := if P.Writes a.pc then Function.update a.waiting (P.dest a.pc) true
        else a.waiting
      value := if P.Writes a.pc then Function.update a.value (P.dest a.pc) v
        else a.value }
  else a

/-- `check_reg`: every earlier instruction with the same destination is committed. -/
def RegFree (a : Pipe) (k : ℕ) : Prop :=
  ∀ i, i < k → a.commitAt i = valueEmpty → P.dest i ≠ P.dest k

instance (a : Pipe) (k : ℕ) : Decidable (a.RegFree P k) := by
  unfold RegFree; infer_instance

/-- Instruction `k` waits for no source and its destination allows it to start. -/
def Ready (a : Pipe) (k : ℕ) : Prop :=
  a.stage k = .issued false false ∧
    if P.type k = .sw then a.waiting (P.dest k) = false else a.RegFree P k

instance (a : Pipe) (k : ℕ) : Decidable (a.Ready P k) := by unfold Ready; infer_instance

/-- The ready instructions start. -/
def start (a : Pipe) : Pipe :=
  { a with stage := fun k => if a.Ready P k then .exec (P.latency k) else a.stage k }

/-- A cycle up to issue. -/
def beforeIssue (ks : List ℕ) (a : Pipe) : Pipe :=
  depend P (complete (retire P ks (commit (tick a))))

/-- The list `ks` covers the instructions that are done. -/
def Covers (ks : List ℕ) (a : Pipe) : Prop :=
  ∀ k, a.stage k = .done → k ∈ ks

/-- **One cycle.** -/
def Next (a a' : Pipe) : Prop :=
  ∃ ks v, Covers ks a ∧ a' = start P (issue P v (beforeIssue P ks a))

end Pipe

end AdvancedArchitecture.Tomasulo
