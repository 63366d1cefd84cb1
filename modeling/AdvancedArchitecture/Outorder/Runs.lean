import AdvancedArchitecture.Outorder.Pipeline

/-!
# The pipeline computes what the program does

From the invariant of a turn of the main loop follow the guarantees of a whole simulation. It does
not panic. After any number of cycles the architected state is that of the sequential machine
after some number of instructions, and the retired instructions are those of the program, in its
order; so two pipelines that run the same program retire the same instructions, whatever their
widths, latencies, predictors and caches are.
-/

namespace AdvancedArchitecture.Outorder

open Bpred (MdAddr sizeofMdInst)

variable {σ τ W U W' U' : Type} {S : Setup σ τ W U} {S' : Setup σ τ W' U'} {m : Machine σ τ W U}
  {m' : Machine σ τ W' U'} {regs : σ} {pc : MdAddr}

/-! ### The sequential machine -/

theorem SeqState.trace_seqStep {T : Target σ τ} {s s' : SeqState σ} (h : seqStep T s = some s') :
    s.trace <+: s'.trace := by
  rw [seqStep] at h
  split at h
  · obtain rfl := Option.some.inj h
    exact List.prefix_rfl
  · obtain ⟨e, -, rfl⟩ := Option.map_eq_some_iff.mp h
    exact List.prefix_append _ _

/-- The trace of a longer run goes on where that of a shorter one ends. -/
theorem SeqState.trace_seqRun {T : Target σ τ} {start s s' : SeqState σ} {k j : ℕ}
    (h : seqRun T start k = some s) (h' : seqRun T start (k + j) = some s') :
    s.trace <+: s'.trace := by
  induction j generalizing s' with
  | zero =>
    obtain rfl := Option.some.inj (h.symm.trans h')
    exact List.prefix_rfl
  | succ j ih =>
    obtain ⟨r, hr, hstep⟩ := Option.bind_eq_some_iff.mp h'
    exact (ih hr).trans (trace_seqStep hstep)

/-! ### Reachable states -/

namespace Machine

/-- The state `m` is reached by a simulation that starts with `regs` at `pc`. -/
def Reached (S : Setup σ τ W U) (regs : σ) (pc : MdAddr) (m : Machine σ τ W U) : Prop :=
  ∃ spec world n, iterate (cycle S) n (init S regs spec world pc) = .ok m

theorem good_init (S : Setup σ τ W U) (regs : σ) (spec : τ) (world : W) (pc : MdAddr) :
    (init S regs spec world pc).Good S { regs := regs, pc := pc } {} 0 where
  back :=
    { inv := Core.inv_init _ _ _ (Nat.zero_lt_of_lt S.cfg.ruuSize_ok)
        (Nat.zero_lt_of_lt S.cfg.lsqSize_ok)
      ruu_size := rfl
      lsq_size := rfl
      decoded := fun i hi => absurd hi (by simp [init, Core.init, Ring.slots])
      timely := fun ℓ hℓ => absurd hℓ (by simp [init, Core.init]) }
  front :=
    { ifq_ok := ⟨S.cfg.ifqSize_ok, Nat.zero_le _, Nat.zero_mod _⟩
      ifq_size := rfl
      straight := fun i hi => absurd hi (by simp [init, Ring.slots])
      program := ⟨pc, rfl, fun _ => ⟨fun i hi => absurd hi (by simp [init, Ring.slots]),
        0, { regs := regs, pc := pc }, rfl, rfl, rfl, rfl⟩⟩ }

/-- A simulation keeps the invariant, and stops for the reasons of `Stops` only. -/
theorem run_meets (S : Setup σ τ W U) (regs : σ) (spec : τ) (world : W) (pc : MdAddr) (n : ℕ) :
    Meets (Stops S) (fun m => m.Good S { regs := regs, pc := pc } {} m.core.simCycle)
      (iterate (cycle S) n (init S regs spec world pc)) :=
  Meets.iterate _ (fun _ h => (cycle_meets h).mono fun _ h' => h'.1) n
    (good_init S regs spec world pc)

theorem Reached.good (h : Reached S regs pc m) :
    m.Good S { regs := regs, pc := pc } {} m.core.simCycle := by
  obtain ⟨spec, world, n, hn⟩ := h
  exact (run_meets S regs spec world pc n).of_eq_ok hn

end Machine

/-! ### A program

A loop: an addition, a store, a load, and a jump back to the addition. Without a predictor the jump
is mispredicted every time, and the addition and the load after it are executed speculatively. -/

/-- Two registers and a word of memory. -/
structure LoopRegs where
  r1 : ℕ
  r2 : ℕ
  word : ℕ
  deriving DecidableEq

def loopText : List MdInst := [1, 2, 3, 4, 1, 3]

def loopDecode (i : MdInst) : Option Opcode :=
  if i = 1 then some { fuclass := some .intALU }
  else if i = 2 then some { mem := true, store := true, fuclass := some .wrPort }
  else if i = 3 then some { mem := true, load := true, fuclass := some .rdPort }
  else if i = 4 then some { ctrl := true, dirJmp := true, fuclass := some .intALU }
  else none

def loopNames (i : MdInst) : Names :=
  if i = 1 then ⟨5, NA, 5, NA, NA⟩
  else if i = 2 then ⟨NA, NA, 5, NA, NA⟩
  else if i = 3 then ⟨6, NA, NA, NA, NA⟩
  else ⟨NA, NA, NA, NA, NA⟩

def loopExec (s : LoopRegs) (pc : MdAddr) (i : MdInst) : Effect LoopRegs :=
  if i = 1 then { state := { s with r1 := s.r1 + 1 }, npc := pc + 4, targetPC := 0, addr := 0 }
  else if i = 2 then { state := { s with word := s.r1 }, npc := pc + 4, targetPC := 0, addr := 64 }
  else if i = 3 then { state := { s with r2 := s.word }, npc := pc + 4, targetPC := 0, addr := 64 }
  else { state := s, npc := 0, targetPC := 0, addr := 0 }

theorem loopDecode_mem {i : MdInst} {op : Opcode} (h : loopDecode i = some op)
    (hm : op.mem = true) :
    i = 2 ∧ op = { mem := true, store := true, fuclass := some .wrPort } ∨
      i = 3 ∧ op = { mem := true, load := true, fuclass := some .rdPort } := by
  rw [loopDecode] at h
  split_ifs at h with h₁ h₂ h₃ h₄ <;> obtain rfl := Option.some.inj h
  · exact absurd hm (by simp)
  · exact Or.inl ⟨h₂, rfl⟩
  · exact Or.inr ⟨h₃, rfl⟩
  · exact absurd hm (by simp)

def loopTarget : Target LoopRegs Unit where
  fetchInst _ pc := if pc.toNat % 4 = 0 then loopText[pc.toNat / 4]? else none
  nopInst := 0
  decode := loopDecode
  names := loopNames
  exec s pc i := some (loopExec s pc i)
  specExec s _ pc i := { loopExec s pc i with state := () }
  specClear t := t
  validAddr _ _ := true
  mem_ctrl i op h hm := by
    rcases loopDecode_mem h hm with ⟨-, rfl⟩ | ⟨-, rfl⟩ <;> rfl
  mem_load i op h hm := by
    rcases loopDecode_mem h hm with ⟨-, rfl⟩ | ⟨-, rfl⟩ <;> rfl
  mem_fuclass i op h hm := by
    rcases loopDecode_mem h hm with ⟨-, rfl⟩ | ⟨-, rfl⟩ <;> simp
  mem_npc s pc i op r h hm he := by
    obtain rfl := Option.some.inj he
    rcases loopDecode_mem h hm with ⟨rfl, -⟩ | ⟨rfl, -⟩ <;> rfl
  store_out i op h hs := by
    rcases loopDecode_mem h (Bool.and_eq_true_iff.mp hs).1 with ⟨rfl, -⟩ | ⟨-, rfl⟩
    · exact ⟨rfl, rfl⟩
    · exact absurd hs (by decide)

/-- One unit of each kind. -/
def loopUnits : FuQuantities where
  ialu := 1
  imult := 1
  memport := 1
  fpalu := 1
  fpmult := 1
  ialu_ok := by decide
  imult_ok := by decide
  memport_ok := by decide
  fpalu_ok := by decide
  fpmult_ok := by decide

def loopPool : ResPool where
  numResources := 5
  table c := (templates (fuConfig loopUnits)).filter fun t => decide (t.cls = c)

def loopSetup : Setup LoopRegs Unit Unit Unit where
  target := loopTarget
  env := { pred := none, dl1 := none, dtlb := none, il1 := none, itlb := none, dl1_pos := by simp }
  cfg :=
    { ruuSize := 8, lsqSize := 4, ifqSize := 4, decodeWidth := 2, issueWidth := 2, commitWidth := 2
      fetchSpeed := 1, branchPenalty := 1, il1Lat := 1, inorderIssue := false, includeSpec := true
      bugcompat := false, predPerfect := false, specUpdate := .CT, pool := loopPool
      ruuSize_ok := by decide
      lsqSize_ok := by decide
      ifqSize_ok := by decide
      pool_ok := complete_of_fuConfig (q := loopUnits) rfl }

/-- `n` cycles of the loop. -/
@[irreducible]
def loopRun (n : ℕ) : Except Halt (Machine LoopRegs Unit Unit Unit) :=
  iterate (Machine.cycle loopSetup) n (Machine.init loopSetup ⟨0, 0, 0⟩ () () 0)

/-- The state after `n` cycles. -/
@[irreducible]
def loopAt (n : ℕ) : Machine LoopRegs Unit Unit Unit :=
  (loopRun n).toOption.getD (Machine.init loopSetup ⟨0, 0, 0⟩ () () 0)

namespace Machine

theorem loopRun_isSome : ∀ n < 16, (loopRun n).toOption.isSome = true := by decide +kernel

theorem reached_loopAt {n : ℕ} (hn : n < 16) : Reached loopSetup ⟨0, 0, 0⟩ 0 (loopAt n) := by
  refine ⟨(), (), n, ?_⟩
  have h := loopRun_isSome n hn
  rw [loopAt]
  rw [loopRun] at h ⊢
  exact eq_ok_of_isSome h _

/-- Some of the states of the loop: in its second cycle, where nothing is speculative, the load and
the jump wait in the fetch queue; in the fourth the jump is being executed, the addition and the
load after it are speculative, and the first store waits for its address; in the fifth the
misprediction has been recovered from; in the sixth the store has its address and in the seventh
the load. -/
structure LoopStates : Prop where
  normal₂ : (loopAt 2).core.specMode = false
  waiting₂ : 0 < (loopAt 2).ifq.num
  next₂ : ((loopAt 2).fetchData (loopAt 2).ifq.head).regsPC = 8
  created₂ : ((loopAt 2).core.readCreateVector 5).isSome = true
  spec₄ : (loopAt 4).core.specMode = true
  jump₄ : (loopAt 4).core.Live ⟨false, 3⟩ ∧ ((loopAt 4).core.station ⟨false, 3⟩).queued = false ∧
    ((loopAt 4).core.station ⟨false, 3⟩).issued = true ∧
    ((loopAt 4).core.station ⟨false, 3⟩).completed = false
  addition₄ : (loopAt 4).core.Live ⟨false, 4⟩ ∧
    ((loopAt 4).core.station ⟨false, 4⟩).operandsReady = true
  store₄ : (loopAt 4).core.Live ⟨true, 0⟩ ∧
    ((loopAt 4).core.station ⟨true, 0⟩).idepReady 1 = false ∧
    (((loopAt 4).core.station ⟨true, 0⟩).names loopSetup.target.names).input 1 = DTMP
  agens₄ : ((loopAt 4).core.ruu.slots.filter fun i =>
    ((loopAt 4).core.station ⟨false, i⟩).eaComp) = [1, 2, 5]
  few₄ : (loopAt 4).core.instSeq < 2 ^ 32
  regs₅ : (loopAt 5).regs = ⟨1, 1, 1⟩
  retired₅ : (loopAt 5).retired = [(0, 1)]
  inflight₅ : inflight (loopAt 5).core = [(4, 2), (8, 3), (12, 4)]
  store₆ : 0 ∈ (loopAt 6).core.lsq.slots ∧ ((loopAt 6).core.entry 0).op.isStore = true ∧
    ((loopAt 6).core.entry 0).seq < ((loopAt 6).core.entry 1).seq ∧
    ((loopAt 6).core.entry 0).addr = ((loopAt 6).core.entry 1).addr
  load₆ : 1 ∈ (loopAt 6).core.lsq.slots
  head₇ : 0 < (loopAt 7).core.ruu.num ∧
    ((loopAt 7).core.station (loopAt 7).core.firstRuu).completed = true ∧
    ((loopAt 7).core.station (loopAt 7).core.firstRuu).eaComp = true
  load₇ : 1 ∈ (loopAt 7).core.lsq.slots ∧ ((loopAt 7).core.entry 1).op.isStore = false ∧
    ((loopAt 7).core.entry 1).issued = true

theorem loopStates : LoopStates := by
  constructor <;> decide +kernel

/-- No simulation reaches a panic or the assertion of `res_get`, whatever the program, the
predictor and the caches are. -/
theorem run_never_panics (S : Setup σ τ W U) (regs : σ) (spec : τ) (world : W) (pc : MdAddr)
    (n : ℕ) (msg : String) :
    iterate (cycle S) n (init S regs spec world pc) ≠ .error (.panic msg) ∧
      iterate (cycle S) n (init S regs spec world pc) ≠
        .error (.assertion "pool->table[class][0]") := by
  have h := run_meets S regs spec world pc n
  refine ⟨fun heq => ?_, fun heq => ?_⟩
  · rw [heq] at h
    cases h
  · rw [heq] at h
    generalize hmsg : Halt.assertion "pool->table[class][0]" = e at h
    cases h <;> simp at hmsg

/-- The array of `lsq_refresh` is large enough for a load/store queue of up to 64 entries. -/
theorem run_ne_stdUnknowns (hlsq : S.cfg.lsqSize ≤ Core.maxStdUnknowns) (regs : σ) (spec : τ)
    (world : W) (pc : MdAddr) (n : ℕ) :
    iterate (cycle S) n (init S regs spec world pc) ≠
      .error (.fatal "STD unknown array overflow, increase MAX_STD_UNKNOWNS") := by
  intro heq
  have h := run_meets S regs spec world pc n
  rw [heq] at h
  generalize hmsg : Halt.fatal "STD unknown array overflow, increase MAX_STD_UNKNOWNS" = e at h
  cases h with
  | fault => simp at hmsg
  | predictor => simp at hmsg
  | stdUnknowns hlt => omega

theorem run_ne_stdUnknowns_loop :
    iterate (cycle loopSetup) 1000 (init loopSetup ⟨0, 0, 0⟩ () () 0) ≠
      .error (.fatal "STD unknown array overflow, increase MAX_STD_UNKNOWNS") :=
  run_ne_stdUnknowns (S := loopSetup) (by decide) ⟨0, 0, 0⟩ () () 0 1000

/-- **Refinement.** If the program does not write its own text, the architected state is that of the
sequential machine, and its trace is what has been retired and what is in flight outside of
speculative mode. -/
theorem Reached.refines (h : Reached S regs pc m)
    (hfix : S.target.FixedText { regs := regs, pc := pc }) :
    ∃ k t, seqRun S.target { regs := regs, pc := pc } k = some t ∧ t.regs = m.regs ∧
      t.trace = m.retired ++ inflight m.core := by
  obtain ⟨_, -, hprog⟩ := h.good.front.program
  obtain ⟨k, t, hrun, hregs, htrace, -⟩ := (hprog hfix).order
  exact ⟨k, t, hrun, hregs, htrace⟩

/-- The text of the loop is not in its memory. -/
theorem fixedText_loop (start : SeqState LoopRegs) : loopTarget.FixedText start :=
  fun _ _ _ => rfl

/-- When the first misprediction is recovered from, the addition has been retired, and the store,
the load and the jump are in flight. -/
theorem refines_loopAt_five :
    ∃ k t, seqRun loopTarget { regs := ⟨0, 0, 0⟩, pc := 0 } k = some t ∧ t.regs = ⟨1, 1, 1⟩ ∧
      t.trace = [(0, 1)] ++ [(4, 2), (8, 3), (12, 4)] := by
  obtain ⟨k, t, hrun, hregs, htrace⟩ :=
    (reached_loopAt (n := 5) (by decide)).refines (fixedText_loop _)
  refine ⟨k, t, hrun, hregs.trans (LoopStates.regs₅ loopStates), htrace.trans ?_⟩
  rw [LoopStates.retired₅ loopStates, LoopStates.inflight₅ loopStates]

/-- The loop with its word of memory in the text, at address 8: when the word has been stored to,
the instruction there is an addition. -/
def patchedTarget : Target LoopRegs Unit :=
  { loopTarget with
    fetchInst := fun s pc => if pc = 8 ∧ s.word ≠ 0 then some 1 else loopTarget.fetchInst s pc
    exec := fun s pc i => some { loopExec s pc i with addr := 8 }
    mem_npc := fun s pc i op r h hm he => by
      obtain rfl := Option.some.inj he
      rcases loopDecode_mem h hm with ⟨rfl, -⟩ | ⟨rfl, -⟩ <;> rfl }

/-- `n` cycles of it, from the store on. -/
@[irreducible]
def patchedRun (n : ℕ) : Except Halt (Machine LoopRegs Unit Unit Unit) :=
  iterate (cycle { loopSetup with target := patchedTarget }) n
    (init { loopSetup with target := patchedTarget } ⟨5, 0, 0⟩ () () 4)

/-- **The text has to be fixed.** The load at address 8 has been fetched together with the store
before it. The pipeline executes it, and the sequential machine the addition. -/
theorem not_refines_patched : ∃ m, patchedRun 3 = .ok m ∧
    ¬∃ k t, seqRun patchedTarget { regs := ⟨5, 0, 0⟩, pc := 4 } k = some t ∧
      t.trace = m.retired ++ inflight m.core := by
  have hrun := eq_ok_of_isSome (x := patchedRun 3) (by decide +kernel) (loopAt 0)
  refine ⟨_, hrun, ?_⟩
  rintro ⟨k, t, ht, htrace⟩
  have hpipe : t.trace = [(4, 2), (8, 3), (12, 4)] := htrace.trans (by decide +kernel)
  obtain ⟨t₂, ht₂, htrace₂⟩ : ∃ t₂,
      seqRun patchedTarget { regs := ⟨5, 0, 0⟩, pc := 4 } 2 = some t₂ ∧
        t₂.trace = [(4, 2), (8, 1)] := ⟨_, rfl, rfl⟩
  -- Two runs of the sequential machine agree as far as both have got.
  rcases Nat.le_total k 2 with hk | hk
  · obtain ⟨j, hj⟩ := Nat.exists_eq_add_of_le hk
    have hle := SeqState.trace_seqRun ht (hj ▸ ht₂)
    rw [hpipe, htrace₂] at hle
    exact absurd hle.length_le (by decide)
  · obtain ⟨j, rfl⟩ := Nat.exists_eq_add_of_le hk
    have hle := SeqState.trace_seqRun ht₂ ht
    rw [hpipe, htrace₂] at hle
    exact absurd hle (by decide)

/-- Two pipelines that run the same program, one that does not write its own text, retire the same
instructions, as far as both have got. -/
theorem Reached.retired_comparable (h : Reached S regs pc m) (h' : Reached S' regs pc m')
    (hT : S'.target = S.target) (hfix : S.target.FixedText { regs := regs, pc := pc }) :
    m.retired <+: m'.retired ∨ m'.retired <+: m.retired := by
  obtain ⟨k, t, hrun, -, htrace⟩ := h.refines hfix
  obtain ⟨k', t', hrun', -, htrace'⟩ := h'.refines (hT ▸ hfix)
  have hle : m.retired <+: t.trace := htrace ▸ List.prefix_append _ _
  have hle' : m'.retired <+: t'.trace := htrace' ▸ List.prefix_append _ _
  rw [hT] at hrun'
  rcases Nat.le_total k k' with hk | hk
  · obtain ⟨j, rfl⟩ := Nat.exists_eq_add_of_le hk
    exact List.prefix_or_prefix_of_prefix (hle.trans (SeqState.trace_seqRun hrun hrun')) hle'
  · obtain ⟨j, rfl⟩ := Nat.exists_eq_add_of_le hk
    exact List.prefix_or_prefix_of_prefix hle (hle'.trans (SeqState.trace_seqRun hrun' hrun))

/-- The same loop on a narrow pipeline that issues in order. -/
def narrowSetup : Setup LoopRegs Unit Unit Unit where
  target := loopTarget
  env := loopSetup.env
  cfg := { loopSetup.cfg with
    ruuSize := 2, lsqSize := 2, ifqSize := 1, decodeWidth := 1, issueWidth := 1, commitWidth := 1
    inorderIssue := true, includeSpec := false
    ruuSize_ok := by decide
    lsqSize_ok := by decide
    ifqSize_ok := by decide }

/-- `n` cycles of the narrow pipeline. -/
@[irreducible]
def narrowRun (n : ℕ) : Except Halt (Machine LoopRegs Unit Unit Unit) :=
  iterate (cycle narrowSetup) n (init narrowSetup ⟨0, 0, 0⟩ () () 0)

theorem retired_comparable_narrow : ∃ m, narrowRun 12 = .ok m ∧
    (m.retired <+: (loopAt 9).retired ∨ (loopAt 9).retired <+: m.retired) := by
  have hrun := eq_ok_of_isSome (x := narrowRun 12) (by decide +kernel) (loopAt 0)
  refine ⟨_, hrun, ?_⟩
  rw [narrowRun] at hrun ⊢
  exact Reached.retired_comparable (S := narrowSetup) ⟨(), (), 12, hrun⟩
    (reached_loopAt (by decide)) rfl (fixedText_loop _)

end Machine

end AdvancedArchitecture.Outorder
