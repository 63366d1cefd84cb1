import AdvancedArchitecture.Outorder.Invariant
import AdvancedArchitecture.Outorder.Machine

/-!
# The order of the program

What the simulator is to compute: the program, one instruction after the other. `SeqState` and
`seqStep` are this machine; its trace has the instructions that are not a `MD_NOP_OP`.

`ruu_dispatch` executes the program in order and fills the window with it. `Good` is the invariant
of the machine, and `Front.program` the part of it that connects the two machines: the architected
state is that of the sequential machine after some number of steps, its trace is what has been
retired and what is in flight outside of speculative mode, and the fetch queue goes on where it
stands.

This part is about programs that do not write their own text (`Target.FixedText`). `ruu_fetch`
reads an instruction before the stores ahead of it have been executed, nothing fetches it again,
and `mem_access` writes wherever a store says; so a program that stores over an instruction that
has been fetched is executed with the old one.
-/

namespace AdvancedArchitecture.Outorder

open Bpred (MdAddr sizeofMdInst)

variable {σ τ W U : Type}

/-! ### The sequential machine -/

/-- The state of the sequential machine, with the instructions it has executed. -/
structure SeqState (σ : Type) where
  regs : σ
  pc : MdAddr
  trace : List (MdAddr × MdInst) := []

/-- The instruction at an address; outside of the text it is the no-op that `ruu_fetch` makes up. -/
def Target.instAt (T : Target σ τ) (regs : σ) (pc : MdAddr) : MdInst :=
  (T.fetchInst regs pc).getD T.nopInst

/-- One instruction is executed. `none` for a fault. -/
def seqStep (T : Target σ τ) (s : SeqState σ) : Option (SeqState σ) :=
  match T.decode (T.instAt s.regs s.pc) with
  | none => some { s with pc := s.pc + sizeofMdInst }
  | some _ =>
    (T.exec s.regs s.pc (T.instAt s.regs s.pc)).map fun e =>
      { regs := e.state, pc := e.npc, trace := s.trace ++ [(s.pc, T.instAt s.regs s.pc)] }

/-- `k` instructions are executed. -/
def seqRun (T : Target σ τ) (start : SeqState σ) : ℕ → Option (SeqState σ)
  | 0 => some start
  | k + 1 => (seqRun T start k).bind (seqStep T)

/-- **The program does not write its own text**: as long as it runs, every state has the text of
the first. -/
def Target.FixedText (T : Target σ τ) (start : SeqState σ) : Prop :=
  ∀ k t, seqRun T start k = some t → T.fetchInst t.regs = T.fetchInst start.regs

/-- All the states of a run have the same instructions. -/
theorem Target.FixedText.instAt {T : Target σ τ} {start t t' : SeqState σ} {k k' : ℕ}
    (h : T.FixedText start) (ht : seqRun T start k = some t) (ht' : seqRun T start k' = some t')
    (pc : MdAddr) : T.instAt t.regs pc = T.instAt t'.regs pc := by
  rw [Target.instAt, Target.instAt, h k t ht, h k' t' ht']

/-! ### The fetch queue -/

/-- What `ruu_fetch` puts into a record is followed by the next address, but for a prediction. -/
def FetchRec.Straight (r : FetchRec U) (T : Target σ τ) : Prop :=
  ((T.decode r.IR).getD {}).ctrl = false → r.predPC = r.regsPC + sizeofMdInst

/-- The records at `slots` follow each other, from the address `pc` to the address `last`. -/
def Path (data : ℕ → FetchRec U) (pc : MdAddr) : List ℕ → MdAddr → Prop
  | [], last => pc = last
  | i :: slots, last => (data i).regsPC = pc ∧ Path data (data i).predPC slots last

theorem Path.snoc {data : ℕ → FetchRec U} {pc last : MdAddr} {slots : List ℕ} {j : ℕ}
    {r : FetchRec U} (h : Path data pc slots last) (hj : j ∉ slots) (hr : r.regsPC = last) :
    Path (Function.update data j r) pc (slots ++ [j]) r.predPC := by
  induction slots generalizing pc with
  | nil =>
    rw [List.nil_append, Path, Path, Function.update_self]
    exact ⟨hr.trans h.symm, rfl⟩
  | cons i slots ih =>
    have hij : i ≠ j := fun heq => hj (heq ▸ List.mem_cons_self)
    rw [List.cons_append, Path, Function.update_of_ne hij]
    exact ⟨h.1, ih h.2 fun hmem => hj (List.mem_cons_of_mem _ hmem)⟩

/-! ### The invariant of the machine -/

/-- The instructions in flight that are not speculative, oldest first. -/
def inflight (s : Core U) : List (MdAddr × MdInst) :=
  (s.ruu.slots.filter fun i => !(s.station ⟨false, i⟩).specMode).map fun i =>
    ((s.station ⟨false, i⟩).PC, (s.station ⟨false, i⟩).IR)

namespace Machine

variable {S : Setup σ τ W U} {m m' : Machine σ τ W U} {start : SeqState σ} {d : Core.Doing}
  {due : ℕ}

/-- The invariant of the stations in a machine. There are no events before `due`. -/
structure Back (S : Setup σ τ W U) (d : Core.Doing) (due : ℕ) (m : Machine σ τ W U) : Prop where
  inv : m.core.Inv S.target.names d
  ruu_size : m.core.ruu.size = S.cfg.ruuSize
  lsq_size : m.core.lsq.size = S.cfg.lsqSize
  decoded : ∀ i ∈ m.core.lsq.slots, S.target.decode (m.core.entry i).IR = some (m.core.entry i).op
  timely : ∀ ℓ ∈ m.core.eventQueue, due ≤ ℓ.x

/-- The machine executes the program: the records have the instructions of the text, and what has
been executed is a run of the sequential machine, which goes on at `pc`. -/
structure Executes (S : Setup σ τ W U) (start : SeqState σ) (m : Machine σ τ W U) (pc : MdAddr) :
    Prop where
  fetched : ∀ i ∈ m.ifq.slots, (m.fetchData i).IR = S.target.instAt m.regs (m.fetchData i).regsPC
  order : ∃ k r, seqRun S.target start k = some r ∧ r.regs = m.regs ∧
    r.trace = m.retired ++ inflight m.core ∧ r.pc = if m.core.specMode then m.recoverPC else pc

/-- The invariant of the fetch queue and of the order of the program. -/
structure Front (S : Setup σ τ W U) (start : SeqState σ) (m : Machine σ τ W U) : Prop where
  ifq_ok : m.ifq.Ok
  ifq_size : m.ifq.size = S.cfg.ifqSize
  straight : ∀ i ∈ m.ifq.slots, (m.fetchData i).Straight S.target
  program : ∃ pc, Path m.fetchData pc m.ifq.slots m.fetchPredPC ∧
    (S.target.FixedText start → m.Executes S start pc)

/-- The invariant of the machine. -/
structure Good (S : Setup σ τ W U) (start : SeqState σ) (d : Core.Doing) (due : ℕ)
    (m : Machine σ τ W U) : Prop where
  back : m.Back S d due
  front : m.Front S start

/-- The order of the program is not touched. -/
structure SameFront (m m' : Machine σ τ W U) : Prop where
  regs : m'.regs = m.regs
  ifq : m'.ifq = m.ifq
  fetchData : m'.fetchData = m.fetchData
  fetchPredPC : m'.fetchPredPC = m.fetchPredPC
  recoverPC : m'.recoverPC = m.recoverPC
  specMode : m'.core.specMode = m.core.specMode
  program : m'.retired ++ inflight m'.core = m.retired ++ inflight m.core

theorem Executes.congr {pc : MdAddr} (h : m.Executes S start pc) (hs : m.SameFront m') :
    m'.Executes S start pc := by
  refine ⟨?_, ?_⟩
  · rw [hs.ifq, hs.fetchData, hs.regs]
    exact h.fetched
  · rw [hs.regs, hs.program, hs.specMode, hs.recoverPC]
    exact h.order

theorem Front.congr (h : m.Front S start) (hs : m.SameFront m') : m'.Front S start := by
  obtain ⟨pc, hpath, hprog⟩ := h.program
  refine ⟨hs.ifq ▸ h.ifq_ok, hs.ifq ▸ h.ifq_size, ?_, pc, ?_, fun hT => (hprog hT).congr hs⟩
  · rw [hs.ifq, hs.fetchData]
    exact h.straight
  · rw [hs.fetchData, hs.ifq, hs.fetchPredPC]
    exact hpath

theorem SameFront.refl (m : Machine σ τ W U) : m.SameFront m := ⟨rfl, rfl, rfl, rfl, rfl, rfl, rfl⟩

end Machine

theorem inflight_congr {s s' : Core U} (hst : ∀ p, (s'.station p).static = (s.station p).static)
    (hruu : s'.ruu = s.ruu) : inflight s' = inflight s := by
  have hget : ∀ {β : Type} (g : Station U → β), (∀ st, g st.static = g st) →
      ∀ p, g (s'.station p) = g (s.station p) := by
    intro β g hg p
    rw [← hg, hst, hg]
  simp only [inflight, hruu, hget Station.specMode fun _ => rfl, hget Station.PC fun _ => rfl,
    hget Station.IR fun _ => rfl]

end AdvancedArchitecture.Outorder
