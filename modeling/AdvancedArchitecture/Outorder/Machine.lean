import AdvancedArchitecture.Outorder.Core

/-!
# The pipeline of `sim-outorder.c`

The stages `ruu_commit`, `ruu_writeback`, `ruu_issue`, `ruu_dispatch` and `ruu_fetch`, and the
main loop of `sim_main`, over the stations of `Core`. The instruction set (`machine.def` and the
system calls), the branch predictor, the caches and the TLBs are parameters; the state `W` of
predictor and caches is threaded through. The architected state `σ` is what instructions change
outside of speculative mode, and `τ` the copied-on-write registers and memory.

The program counters of `regs` are local to `ruu_dispatch` here. `fetch_data` is indexed modulo its
size, a power of two, instead of by a mask.
Pipe trace, statistics, the debugger and the fast-forward loop are left out.
-/

namespace AdvancedArchitecture.Outorder

open Bpred (MdAddr sizeofMdInst)

/-! ### Parameters -/

/-- What the execution of an instruction leaves: the state, the next and the target program
counter and the effective address. -/
structure Effect (σ : Type) where
  state : σ
  npc : MdAddr
  targetPC : MdAddr
  addr : MdAddr

/-- The instruction set. `fetchInst` is `none` outside of the text, `decode` is `none` for what
becomes a `MD_NOP_OP`, and `exec` is `none` for a fault. -/
structure Target (σ τ : Type) where
  fetchInst : σ → MdAddr → Option MdInst
  nopInst : MdInst
  decode : MdInst → Option Opcode
  names : MdInst → Names
  exec : σ → MdAddr → MdInst → Option (Effect σ)
  specExec : σ → τ → MdAddr → MdInst → Effect τ
  specClear : τ → τ
  validAddr : σ → MdAddr → Bool
  mem_ctrl : ∀ i op, decode i = some op → op.mem → op.ctrl = false
  mem_load : ∀ i op, decode i = some op → op.mem → op.load = !op.store
  mem_fuclass : ∀ i op, decode i = some op → op.mem → op.fuclass ≠ none
  mem_npc : ∀ s pc i op r, decode i = some op → op.mem → exec s pc i = some r →
    r.npc = pc + sizeofMdInst
  store_out : ∀ i op, decode i = some op → op.isStore → (names i).out1 = NA ∧ (names i).out2 = NA

/-- `bpred_lookup`, `bpred_update` and `bpred_recover`. An update is `none` if an assertion
fails. -/
structure PredFns (W U : Type) where
  lookup : W → MdAddr → MdInst → MdAddr × U × W
  update : W → (baddr btarget : MdAddr) → (taken predTaken correct : Bool) → MdInst →
    Option U → Option W
  recover : W → MdAddr → Option U → W

/-- `cache_access`: the latency of an access at a cycle. -/
abbrev CacheFn (W : Type) := W → (write : Bool) → MdAddr → (now : ℕ) → ℕ × W

/-- The predictor, the caches and the TLBs, where they are configured. -/
structure Env (W U : Type) where
  pred : Option (PredFns W U)
  dl1 : Option (CacheFn W)
  dtlb : Option (CacheFn W)
  il1 : Option (CacheFn W)
  itlb : Option (CacheFn W)
  dl1_pos : ∀ f ∈ dl1, ∀ w b a t, 0 < (f w b a t).1

/-- `bpred_spec_update`. -/
inductive SpecUpdate
  | ID | WB | CT
  deriving DecidableEq

/-- The options, as `sim_check_options` admits them. -/
structure Config where
  ruuSize : ℕ
  lsqSize : ℕ
  ifqSize : ℕ
  decodeWidth : ℕ
  issueWidth : ℕ
  commitWidth : ℕ
  fetchSpeed : ℕ
  branchPenalty : ℕ
  il1Lat : ℕ
  inorderIssue : Bool
  includeSpec : Bool
  bugcompat : Bool
  predPerfect : Bool
  specUpdate : SpecUpdate
  pool : ResPool
  ruuSize_ok : 2 ≤ ruuSize
  lsqSize_ok : 2 ≤ lsqSize
  ifqSize_ok : 1 ≤ ifqSize
  pool_ok : pool.Complete

/-- What a simulation is configured with. -/
structure Setup (σ τ W U : Type) where
  target : Target σ τ
  env : Env W U
  cfg : Config

/-! ### State -/

/-- `struct fetch_rec`. What `bpred_lookup` has left is there for branches only. -/
structure FetchRec (U : Type) where
  IR : MdInst := 0
  regsPC : MdAddr := 0
  predPC : MdAddr := 0
  update : Option U := none

/-- The state of the simulator. `retired` is the trace of retired instructions that is printed in
verbose mode. -/
structure Machine (σ τ W U : Type) where
  core : Core U
  regs : σ
  spec : τ
  world : W
  fuBusy : ℕ → ℕ
  fetchData : ℕ → FetchRec U
  ifq : Ring
  fetchRegsPC : MdAddr
  fetchPredPC : MdAddr
  recoverPC : MdAddr
  fetchIssueDelay : ℕ
  lastOp : Option RsLink
  retired : List (MdAddr × MdInst)

variable {σ τ W U : Type}

/-- The state at the start of the main loop of `sim_main`. -/
def Machine.init (S : Setup σ τ W U) (regs : σ) (spec : τ) (world : W) (pc : MdAddr) :
    Machine σ τ W U where
  core := Core.init S.cfg.ruuSize S.cfg.lsqSize
  regs := regs
  spec := spec
  world := world
  fuBusy := fun _ => 0
  fetchData := fun _ => {}
  ifq := { size := S.cfg.ifqSize, head := 0, tail := 0, num := 0 }
  fetchRegsPC := pc - sizeofMdInst
  fetchPredPC := pc
  recoverPC := 0
  fetchIssueDelay := 0
  lastOp := none
  retired := []

namespace Machine

variable (S : Setup σ τ W U)

/-! ### Commit -/

/-- `bpred_update`, called where a predictor is configured and updated in this stage. -/
def updatePred (m : Machine σ τ W U) (stage : SpecUpdate) (op : Opcode) (PC nextPC predPC : MdAddr)
    (inst : MdInst) (u : Option U) : Except Halt (Machine σ τ W U) :=
  match S.env.pred with
  | none => .ok m
  | some P =>
    if S.cfg.specUpdate = stage && op.ctrl then
      match P.update m.world PC nextPC (nextPC ≠ PC + sizeofMdInst) (predPC ≠ PC + sizeofMdInst)
          (predPC = nextPC) inst u with
      | none => .error (.assertion "bpred_update")
      | some w => .ok { m with world := w }
    else .ok m

/-- The store part of `ruu_commit`: a store port and the accesses to cache and TLB. `none` if no
port is left. -/
def commitStore (m : Machine σ τ W U) : Except Halt (Option (Machine σ τ W U)) := do
  let st := m.core.station ⟨true, m.core.lsq.head⟩
  match st.op.fuclass with
  | none => .error (.assertion "pool->table[class][0]")
  | some c =>
    match ← resGet S.cfg.pool m.fuBusy c with
    | none => .ok none
    | some fu =>
      if m.fuBusy fu.master ≠ 0 then .error (.panic "functional unit already in use")
      else
        let addr := st.addr &&& ~~~3
        let w := match S.env.dl1 with
          | some f => (f m.world true addr m.core.simCycle).2
          | none => m.world
        let w := match S.env.dtlb with
          | some f => (f w false addr m.core.simCycle).2
          | none => w
        .ok (some { m with
          fuBusy := Function.update m.fuBusy fu.master fu.issuelat
          world := w })

/-- `tag++` of a station that leaves. -/
def invalidate (m : Machine σ τ W U) (p : RsPtr) : Machine σ τ W U :=
  { m with core := m.core.modify p fun st => { st with tag := st.tag + 1 } }

/-- The load/store queue part of `ruu_commit`; `none` where the loop is left. -/
def commitLsq (m : Machine σ τ W U) : Except Halt (Option (Machine σ τ W U)) :=
  if (m.core.station ⟨false, m.core.ruu.head⟩).eaComp then
    let lsq := m.core.station ⟨true, m.core.lsq.head⟩
    if m.core.lsq.num = 0 || !lsq.inLSQ then .error (.panic "RUU out of sync with LSQ")
    else if !lsq.completed then .ok none
    else do
      match ← if lsq.op.isStore then m.commitStore S else .ok (some m) with
      | none => .ok none
      | some m =>
        let m := m.invalidate ⟨true, m.core.lsq.head⟩
        .ok (some { m with core := { m.core with lsq := m.core.lsq.pop } })
  else .ok (some m)

/-- The retirement of the head of the RUU. -/
def retireHead (m : Machine σ τ W U) : Except Halt (Machine σ τ W U) :=
  let rs : RsPtr := ⟨false, m.core.ruu.head⟩
  let st := m.core.station rs
  let m := m.invalidate rs
  let m := { m with
    retired := m.retired ++ [(st.PC, st.IR)]
    core := { m.core with ruu := m.core.ruu.pop } }
  if (st.odepList 0).isEmpty && (st.odepList 1).isEmpty then .ok m
  else .error (.panic "retired instruction has odeps\n")

/-- The loop of `ruu_commit`, for up to `n` more instructions. -/
def commitLoop : ℕ → Machine σ τ W U → Except Halt (Machine σ τ W U)
  | 0, m => .ok m
  | n + 1, m =>
    if m.core.ruu.num = 0 then .ok m
    else if !(m.core.station ⟨false, m.core.ruu.head⟩).completed then .ok m
    else do
      match ← m.commitLsq S with
      | none => .ok m
      | some m =>
        let st := m.core.station ⟨false, m.core.ruu.head⟩
        let m ← m.updatePred S .CT st.op st.PC st.nextPC st.predPC st.IR st.update
        let m ← m.retireHead
        commitLoop n m

/-- `ruu_commit`. -/
def ruuCommit (m : Machine σ τ W U) : Except Halt (Machine σ τ W U) :=
  commitLoop S S.cfg.commitWidth m

/-! ### Writeback -/

/-- `tracer_recover`. -/
def tracerRecover (m : Machine σ τ W U) : Except Halt (Machine σ τ W U) :=
  if !m.core.specMode then .error (.panic "cannot recover unless in speculative mode")
  else
    .ok { m with
      core := { m.core with specMode := false }
      spec := S.target.specClear m.spec
      ifq := { m.ifq with num := 0, tail := 0, head := 0 }
      fetchRegsPC := m.recoverPC
      fetchPredPC := m.recoverPC }

/-- The recovery from a mispredicted branch in `ruu_writeback`. -/
def mispredict (m : Machine σ τ W U) (rs : RsPtr) : Except Halt (Machine σ τ W U) := do
  let st := m.core.station rs
  if st.inLSQ then .error (.panic "mis-predicted load or store?!?!?")
  else
    let core ← m.core.ruuRecover rs.idx
    let m ← { m with core := core }.tracerRecover S
    return { m with
      world := match S.env.pred with
        | some P => P.recover m.world st.PC st.update
        | none => m.world
      fetchIssueDelay := S.cfg.branchPenalty }

/-- The writeback of one completed operation. -/
def writebackOne (m : Machine σ τ W U) (rs : RsPtr) : Except Halt (Machine σ τ W U) :=
  let st := m.core.station rs
  if !st.operandsReady || st.queued || !st.issued || st.completed then
    .error (.panic "inst completed and !ready, !issued, or completed")
  else do
    let m := { m with core := m.core.modify rs fun st => { st with completed := true } }
    let m ← if st.recoverInst then m.mispredict S rs else .ok m
    let m ←
      if !st.inLSQ then m.updatePred S .WB st.op st.PC st.nextPC st.predPC st.IR st.update
      else .ok m
    let core ← (List.range maxOdeps).foldlM (Core.broadcast rs) m.core
    return { m with core := core }

/-- The loop of `ruu_writeback`; the fuel is the length of the event queue. -/
def writebackLoop : ℕ → Machine σ τ W U → Except Halt (Machine σ τ W U)
  | 0, m => .ok m
  | n + 1, m =>
    match m.core.eventqNextEvent with
    | (none, core) => .ok { m with core := core }
    | (some rs, core) => do
      let m ← { m with core := core }.writebackOne S rs
      writebackLoop n m

/-- `ruu_writeback`. -/
def ruuWriteback (m : Machine σ τ W U) : Except Halt (Machine σ τ W U) :=
  writebackLoop S m.core.eventQueue.length m

/-! ### Issue -/

/-- The latency of the data of a load in `ruu_issue`: from a store in the LSQ, or from the data
cache. -/
def dataLatency (m : Machine σ τ W U) (rs : RsPtr) (fu : ResTemplate) : ℕ × W :=
  let addr := (m.core.station rs).addr
  if m.core.storeForward rs then (1, m.world)
  else
    match S.env.dl1 with
    | some f =>
      if S.target.validAddr m.regs addr then f m.world false (addr &&& ~~~3) m.core.simCycle
      else (fu.oplat, m.world)
    | none => (fu.oplat, m.world)

/-- The latency of a load, that of its translation included. -/
def loadLatency (m : Machine σ τ W U) (rs : RsPtr) (fu : ResTemplate) : ℕ × Machine σ τ W U :=
  let addr := (m.core.station rs).addr
  let r := m.dataLatency S rs fu
  match S.env.dtlb with
  | some f =>
    if S.target.validAddr m.regs addr then
      let t := f r.2 false (addr &&& ~~~3) m.core.simCycle
      (max t.1 r.1, { m with world := t.2 })
    else (r.1, { m with world := r.2 })
  | none => (r.1, { m with world := r.2 })

/-- The execution of an operation on a functional unit, or without one: it is issued, and an event
is scheduled after its latency. -/
def execute (m : Machine σ τ W U) (rs : RsPtr) (fu : Option ResTemplate) :
    Except Halt (Machine σ τ W U) := do
  let m := { m with core := m.core.modify rs fun st => { st with issued := true } }
  let st := m.core.station rs
  match fu with
  | none =>
    let core ← m.core.eventqQueueEvent rs (m.core.simCycle + 1)
    return { m with core := core }
  | some fu =>
    if m.fuBusy fu.master ≠ 0 then .error (.panic "functional unit already in use")
    else
      let m := { m with fuBusy := Function.update m.fuBusy fu.master fu.issuelat }
      let r := if st.inLSQ && st.op.isLoad then m.loadLatency S rs fu else (fu.oplat, m)
      let core ← r.2.core.eventqQueueEvent rs (r.2.core.simCycle + r.1)
      return { r.2 with core := core }

/-- The attempt to issue one ready operation in `ruu_issue`; the answer is whether it counts
against the issue width. -/
def issueOne (m : Machine σ τ W U) (rs : RsPtr) : Except Halt (Bool × Machine σ τ W U) :=
  let st := m.core.station rs
  if !st.operandsReady || !st.queued || st.issued || st.completed then
    .error (.panic "issued inst !ready, issued, or completed")
  else
    let m := { m with core := m.core.modify rs fun st => { st with queued := false } }
    if st.inLSQ && st.op.isStore then
      let m := { m with
        core := m.core.modify rs fun st => { st with issued := true, completed := true } }
      if st.onames 0 ≠ NA || st.onames 1 ≠ NA then .error (.panic "store creates result")
      else if st.recoverInst then .error (.panic "mis-predicted store")
      else .ok (true, m)
    else
      match st.op.fuclass with
      | some c => do
        match ← resGet S.cfg.pool m.fuBusy c with
        | some fu => return (true, ← m.execute S rs (some fu))
        | none =>
          let core ← m.core.readyqEnqueue rs
          return (false, { m with core := core })
      | none => do return (true, ← m.execute S rs none)

/-- The first loop of `ruu_issue`, while at most `n` more operations may issue. The answer has the
links not visited. -/
def issueLoop : List RsLink → ℕ → Machine σ τ W U →
    Except Halt (List RsLink × Machine σ τ W U)
  | [], _, m => .ok ([], m)
  | node :: rest, 0, m => .ok (node :: rest, m)
  | node :: rest, n + 1, m =>
    if m.core.Valid node then do
      let (counts, m) ← m.issueOne S node.rs
      issueLoop rest (if counts then n else n + 1) m
    else issueLoop rest (n + 1) m

/-- The second loop of `ruu_issue`: an operation that was not visited goes back. -/
def requeue (s : Core U) (node : RsLink) : Except Halt (Core U) :=
  if s.Valid node then
    (s.modify node.rs fun st => { st with queued := false }).readyqEnqueue node.rs
  else .ok s

/-- `ruu_issue`. -/
def ruuIssue (m : Machine σ τ W U) : Except Halt (Machine σ τ W U) := do
  let (rest, m) ← issueLoop S m.core.readyQueue S.cfg.issueWidth
    { m with core := { m.core with readyQueue := [] } }
  let core ← rest.foldlM requeue m.core
  return { m with core := core }

/-! ### Dispatch -/

/-- The fields that `ruu_dispatch` fills in for a station. Its tag, its names, its output lists and
its ready flags are what the last operation has left. -/
def fill (s : Core U) (p : RsPtr) (r : FetchRec U) (op : Opcode) (npc predPC addr : MdAddr)
    (eaComp : Bool) (update : Option U) : Core U :=
  { s.modify p fun st =>
      { st with
        IR := r.IR
        op := op
        PC := r.regsPC
        nextPC := npc
        predPC := predPC
        inLSQ := p.inLSQ
        eaComp := eaComp
        recoverInst := false
        update := update
        specMode := s.specMode
        addr := addr
        seq := s.instSeq + 1
        queued := false
        issued := false
        completed := false }
    with instSeq := s.instSeq + 1 }

/-- The three inputs and the two outputs of a station. -/
def linkStation (s : Core U) (p : RsPtr) (names : Names) : Core U :=
  let s := ((s.ruuLinkIdep p 0 names.in1).ruuLinkIdep p 1 names.in2).ruuLinkIdep p 2 names.in3
  (s.ruuInstallOdep p 0 names.out1).ruuInstallOdep p 1 names.out2

/-- The station of an operation that is not a load or store is filled in, linked and installed. -/
def install (s : Core U) (r : FetchRec U) (op : Opcode) (names : Names) (npc predPC : MdAddr) :
    Core U :=
  let rs : RsPtr := ⟨false, s.ruu.tail⟩
  let s := fill s rs r op npc predPC 0 false r.update
  let s := linkStation s rs names
  { s with ruu := s.ruu.push }

/-- The two stations of a load or store. -/
def installMem (s : Core U) (r : FetchRec U) (op : Opcode) (names : Names)
    (npc predPC addr : MdAddr) : Core U :=
  let rs : RsPtr := ⟨false, s.ruu.tail⟩
  let lsq : RsPtr := ⟨true, s.lsq.tail⟩
  let s := fill s rs r mdAgenOp npc predPC 0 true r.update
  let s := fill s lsq r op npc predPC addr false none
  let s := linkStation s rs names.agen
  let s := linkStation s lsq names.access
  { s with ruu := s.ruu.push, lsq := s.lsq.push }

/-- The allocation of an operation that is not a load or store in `ruu_dispatch`. -/
def allocate (m : Machine σ τ W U) (r : FetchRec U) (op : Opcode) (names : Names)
    (npc predPC : MdAddr) : Except Halt (Machine σ τ W U) := do
  let rs : RsPtr := ⟨false, m.core.ruu.tail⟩
  let s := install m.core r op names npc predPC
  if (s.station rs).operandsReady then
    let s ← s.readyqEnqueue rs
    return { m with core := s, lastOp := none }
  else return { m with core := s, lastOp := some (s.link rs 0) }

/-- The allocation of a load or store, as two operations. -/
def allocateMem (m : Machine σ τ W U) (r : FetchRec U) (op : Opcode) (names : Names)
    (npc predPC addr : MdAddr) : Except Halt (Machine σ τ W U) := do
  let rs : RsPtr := ⟨false, m.core.ruu.tail⟩
  let lsq : RsPtr := ⟨true, m.core.lsq.tail⟩
  let s := installMem m.core r op names npc predPC addr
  let s ← if (s.station rs).operandsReady then s.readyqEnqueue rs else .ok s
  let m := { m with core := s, lastOp := some (s.link lsq 0) }
  if op.isStore && (s.station lsq).operandsReady then
    let s ← s.readyqEnqueue lsq
    return { m with core := s }
  else return m

/-- The execution of an instruction in `ruu_dispatch`: next and target program counter, effective
address, and the state. In speculative mode a fault is ignored. -/
def executeInst (m : Machine σ τ W U) (r : FetchRec U) :
    Except Halt ((MdAddr × MdAddr × MdAddr) × Machine σ τ W U) :=
  if m.core.specMode then
    let e := S.target.specExec m.regs m.spec r.regsPC r.IR
    .ok ((e.npc, e.targetPC, e.addr), { m with spec := e.state })
  else
    match S.target.exec m.regs r.regsPC r.IR with
    | none => .error (.fatal "non-speculative fault detected")
    | some e => .ok ((e.npc, e.targetPC, e.addr), { m with regs := e.state })

/-- The switch over the opcode in `ruu_dispatch`; a `MD_NOP_OP` has the default values. -/
def executeOp (m : Machine σ τ W U) (r : FetchRec U) (op : Option Opcode) :
    Except Halt ((MdAddr × MdAddr × MdAddr) × Machine σ τ W U) :=
  match op with
  | none => .ok ((r.regsPC + sizeofMdInst, 0, 0), m)
  | some _ => m.executeInst S r

/-- The stations of an instruction; a `MD_NOP_OP` has none. -/
def allocateOp (m : Machine σ τ W U) (r : FetchRec U) (op : Option Opcode)
    (npc predPC addr : MdAddr) : Except Halt (Machine σ τ W U) :=
  match op with
  | none => .ok m
  | some op =>
    if op.mem then m.allocateMem r op (S.target.names r.IR) npc predPC addr
    else m.allocate r op (S.target.names r.IR) npc predPC

/-- Whether `ruu_dispatch` redirects the fetch stage: the prediction is patched up, or the
predicted target of a direct jump is wrong. -/
def redirects (op : Opcode) (regsPC npc targetPC predPC : MdAddr) : Bool :=
  (predPC ≠ npc && S.cfg.predPerfect) ||
    ((op.ctrl && op.dirJmp) && targetPC ≠ predPC && predPC ≠ regsPC + sizeofMdInst)

/-- The redirection: the fetch queue is squashed but for the record being dispatched, which is
moved to its last slot. -/
def redirect (m : Machine σ τ W U) (npc : MdAddr) : Machine σ τ W U :=
  { m with
    fetchPredPC := npc
    fetchRegsPC := npc
    ifq := { m.ifq with head := S.cfg.ifqSize - 1, num := 1, tail := 0 }
    fetchIssueDelay := if S.cfg.predPerfect then m.fetchIssueDelay else S.cfg.branchPenalty }

/-- The end of an instruction outside of speculative mode: the predictor is updated, and
speculative mode is entered after a wrong prediction. `rs` is null for a `MD_NOP_OP`. -/
def resolve (m : Machine σ τ W U) (rs : Option RsPtr) (r : FetchRec U) (op : Opcode)
    (npc predPC : MdAddr) (redirected : Bool) : Except Halt (Machine σ τ W U) := do
  let m ← m.updatePred S .ID op r.regsPC npc predPC r.IR
    (rs.bind fun rs => (m.core.station rs).update)
  if predPC ≠ npc && !redirected then
    match rs with
    | none => .error (.panic "null dereference")
    | some rs =>
      let core := m.core.modify rs fun st => { st with recoverInst := true }
      return { m with core := { core with specMode := true }, recoverPC := npc }
  else return m

/-- One instruction in `ruu_dispatch`; `none` where the loop is left. The answer is whether the
instruction counts against the decode width. -/
def dispatchOne (m : Machine σ τ W U) : Except Halt (Option (Bool × Machine σ τ W U)) := do
  let r := m.fetchData m.ifq.head
  let op := S.target.decode r.IR
  let flags := op.getD {}
  if flags.trap && m.core.ruu.num ≠ 0 then return none
  else if flags.trap && m.core.specMode then .error (.panic "drained and speculative")
  else
    let specMode := m.core.specMode
    let rs : RsPtr := ⟨false, m.core.ruu.tail⟩
    let ((npc, targetPC, addr), m) ← m.executeOp S r op
    let redirected := redirects S flags r.regsPC npc targetPC r.predPC
    let predPC := if redirected && S.cfg.predPerfect then npc else r.predPC
    let m ← (if redirected then m.redirect S npc else m).allocateOp S r op npc predPC addr
    let m ←
      if specMode then .ok m
      else m.resolve S (op.map fun _ => rs) r flags npc predPC redirected
    return some (op.isSome, { m with ifq := m.ifq.pop })

/-- Whether the loop of `ruu_dispatch` goes on. -/
def canDispatch (m : Machine σ τ W U) : Bool :=
  m.core.ruu.num < S.cfg.ruuSize && m.core.lsq.num < S.cfg.lsqSize && m.ifq.num ≠ 0 &&
    (S.cfg.includeSpec || !m.core.specMode)

/-- Whether in-order issue blocks on the last operation. -/
def blocked (m : Machine σ τ W U) : Bool :=
  S.cfg.inorderIssue &&
    m.lastOp.any fun ℓ => m.core.Valid ℓ && !(m.core.station ℓ.rs).operandsReady

/-- The loop of `ruu_dispatch`, while `n` more operations may be dispatched; the fuel is
`fetch_num`. -/
def dispatchLoop : ℕ → ℕ → Machine σ τ W U → Except Halt (Machine σ τ W U)
  | 0, _, m => .ok m
  | fuel + 1, n, m =>
    if n = 0 || !m.canDispatch S || m.blocked S then .ok m
    else do
      match ← m.dispatchOne S with
      | none => .ok m
      | some (counts, m) => dispatchLoop fuel (if counts then n - 1 else n) m

/-- `ruu_dispatch`. -/
def ruuDispatch (m : Machine σ τ W U) : Except Halt (Machine σ τ W U) :=
  dispatchLoop S m.ifq.num (S.cfg.decodeWidth * S.cfg.fetchSpeed) m

/-! ### Fetch -/

/-- The accesses to instruction cache and TLB, and their latency. -/
def fetchLatency (m : Machine σ τ W U) : ℕ × Machine σ τ W U :=
  let r := match S.env.il1 with
    | some f => f m.world false m.fetchRegsPC m.core.simCycle
    | none => (S.cfg.il1Lat, m.world)
  match S.env.itlb with
  | some f =>
    let t := f r.2 false m.fetchRegsPC m.core.simCycle
    (max t.1 r.1, { m with world := t.2 })
  | none => (r.1, { m with world := r.2 })

/-- The access to the instruction cache at `fetchRegsPC`. The answer is whether it misses, which
ends the fetch. -/
def fetchMiss (m : Machine σ τ W U) : Bool × Machine σ τ W U :=
  match S.target.fetchInst m.regs m.fetchRegsPC with
  | some _ =>
    let r := m.fetchLatency S
    if r.1 ≠ S.cfg.il1Lat then
      (true, { r.2 with fetchIssueDelay := r.2.fetchIssueDelay + (r.1 - 1) })
    else (false, r.2)
  | none => (false, m)

/-- The prediction of the next fetch address; 0 where there is no target. -/
def predictNext (m : Machine σ τ W U) (inst : MdInst) : (MdAddr × Option U) × Machine σ τ W U :=
  match S.env.pred with
  | none => ((0, none), m)
  | some P =>
    if ((S.target.decode inst).getD {}).ctrl then
      let p := P.lookup m.world m.fetchRegsPC inst
      ((p.1, some p.2.1), { m with world := p.2.2 })
    else ((0, none), m)

/-- An instruction enters the fetch queue. The answer is whether the fetch goes on at a predicted
target. -/
def fetchInst (m : Machine σ τ W U) (inst : MdInst) : Bool × Machine σ τ W U :=
  let ((target, update), m) := m.predictNext S inst
  let predPC := if target = 0 then m.fetchRegsPC + sizeofMdInst else target
  (target ≠ 0,
    { m with
      fetchPredPC := predPC
      fetchData := Function.update m.fetchData m.ifq.tail
        { IR := inst, regsPC := m.fetchRegsPC, predPC := predPC, update := update }
      ifq := m.ifq.push })

/-- The loop of `ruu_fetch`, for up to `n` more instructions and `branches` more targets. -/
def fetchLoop : ℕ → ℕ → Machine σ τ W U → Machine σ τ W U
  | 0, _, m => m
  | n + 1, branches, m =>
    if m.ifq.num < S.cfg.ifqSize then
      let (miss, m) := { m with fetchRegsPC := m.fetchPredPC }.fetchMiss S
      if miss then m
      else
        let inst := (S.target.fetchInst m.regs m.fetchRegsPC).getD S.target.nopInst
        let (jumps, m) := m.fetchInst S inst
        if jumps && branches ≤ 1 then m
        else fetchLoop n (if jumps then branches - 1 else branches) m
    else m

/-- `ruu_fetch`. -/
def ruuFetch (m : Machine σ τ W U) : Machine σ τ W U :=
  fetchLoop S (S.cfg.decodeWidth * S.cfg.fetchSpeed) S.cfg.fetchSpeed m

/-! ### The main loop -/

/-- The sanity checks of `sim_main`. -/
def sanityCheck (m : Machine σ τ W U) : Except Halt Unit :=
  if m.core.ruu.num < m.core.lsq.num then .error (.panic "RUU_num < LSQ_num")
  else if (m.core.ruu.head + m.core.ruu.num) % S.cfg.ruuSize ≠ m.core.ruu.tail then
    .error (.panic "RUU_head/RUU_tail wedged")
  else if (m.core.lsq.head + m.core.lsq.num) % S.cfg.lsqSize ≠ m.core.lsq.tail then
    .error (.panic "LSQ_head/LSQ_tail wedged")
  else .ok ()

/-- `lsq_refresh` and `ruu_issue`. -/
def refreshIssue (m : Machine σ τ W U) : Except Halt (Machine σ τ W U) := do
  let core ← m.core.lsqRefresh
  { m with core := core }.ruuIssue S

/-- The end of a turn of the main loop: `ruu_fetch`, if it is not blocked, and the next cycle. -/
def nextCycle (m : Machine σ τ W U) : Machine σ τ W U :=
  let m :=
    if m.fetchIssueDelay = 0 then m.ruuFetch S
    else { m with fetchIssueDelay := m.fetchIssueDelay - 1 }
  { m with core := { m.core with simCycle := m.core.simCycle + 1 } }

/-- One turn of the main loop of `sim_main`. -/
def cycle (m : Machine σ τ W U) : Except Halt (Machine σ τ W U) := do
  m.sanityCheck S
  let m ← m.ruuCommit S
  let m := { m with fuBusy := ruuReleaseFu S.cfg.pool m.fuBusy }
  let m ← m.ruuWriteback S
  let m ← if !S.cfg.bugcompat then m.refreshIssue S else .ok m
  let m ← m.ruuDispatch S
  let m ← if S.cfg.bugcompat then m.refreshIssue S else .ok m
  return m.nextCycle S

end Machine

end AdvancedArchitecture.Outorder
