import Mathlib.Logic.Function.Iterate
import AdvancedArchitecture.Lib.Table
import AdvancedArchitecture.Tomasulo.Trace

/-!
# The simulator of `main.c` and `tomasulo.c`

A shallow embedding of the main loop, one definition for each phase of the loop body and for
each function it calls. The local variables of `main` and the static counter of `commit` are
the fields of `Machine`; a C array is a `Table`, an `INST_REG *` is an optional index into the
instruction array, and a station search returns `none` for `RS_NOT_FOUND`. Register indices
stay integers, since `VALUE_EMPTY` is compared with them.

The phases of a cycle are, in the order of the loop body: count the cycle and decrement the
executing stations, `commit`, write-back, completion, the dependency pass, issue, the start
tests, and `check_finish`. The order matters: a station that completes in a cycle is written
back in the next, and a station that is written back is free for the issue phase of the same
cycle. `beforeIssue` names the part before issue, since what issue and the start tests read
is the state there; `cycle` is the whole body and `run P n` the state after `n` rounds.

Printing is left out, and with it the strings of `INST_REG`.
-/

namespace AdvancedArchitecture.Tomasulo

/-! ### Parameters -/

/-- The length of `fp_reg`. -/
def numReg : ℕ := 8

def numLoadRs : ℕ := 3
def numStoreRs : ℕ := 3
def numAddSubRs : ℕ := 3
def numMulDivRs : ℕ := 3

def lwCycle : ℤ := 2
def swCycle : ℤ := 2
def addSubCycle : ℤ := 2
def mulCycle : ℤ := 10
def divCycle : ℤ := 40

def loadOffset : ℤ := 1000
def addOffset : ℤ := 3000
def multOffset : ℤ := 4000
def memOffset : ℤ := 5000

/-! ### Data types -/

/-- `RS_state`. -/
inductive RsState
  | unused | issued | exec | done
  deriving DecidableEq, Repr

/-- `INST_REG`: what `read_inst` parsed, and the cycles the simulation records. -/
structure InstReg where
  issue : ℤ
  execute : ℤ
  writeback : ℤ
  commit : ℤ
  id : ℤ
  type : InstOp
  offset : ℤ
  src1Tag : DataRegTag
  src2Tag : DataRegTag
  destTag : DataRegTag
  deriving DecidableEq, Repr

/-- `DATA_REG`. -/
structure DataReg where
  valid : Bool
  waiting : Bool
  instPtr : Option ℕ
  value : ℤ
  deriving DecidableEq, Repr

/-- `RS_LS`, a load or store station. -/
structure RsLs where
  state : RsState
  instPtr : Option ℕ
  op : InstOp
  baseTag : DataRegTag
  destTag : DataRegTag
  offset : ℤ
  cycleLast : ℤ
  deriving DecidableEq, Repr

/-- `RS`, an add/sub or mul/div station. -/
structure RS where
  state : RsState
  instPtr : Option ℕ
  op : InstOp
  destTag : DataRegTag
  vj : ℤ
  vk : ℤ
  qj : ℤ
  qk : ℤ
  cycleLast : ℤ
  deriving DecidableEq, Repr

/-- The entry `inst_reg_init` writes, with `NO_REG` for the tags it leaves alone. -/
def initInst : InstReg where
  issue := valueEmpty
  execute := valueEmpty
  writeback := valueEmpty
  commit := valueEmpty
  id := valueEmpty
  type := .nop
  offset := valueEmpty
  src1Tag := .noReg
  src2Tag := .noReg
  destTag := .noReg

/-- The entry `reg_init` writes. -/
def initReg : DataReg where
  valid := false
  waiting := false
  instPtr := none
  value := valueEmpty

/-- `reset_RS_LS`; also the entry `rs_ls_init` writes. -/
def resetRsLs : RsLs where
  state := .unused
  instPtr := none
  op := .nop
  baseTag := .noReg
  destTag := .noReg
  offset := valueEmpty
  cycleLast := valueEmpty

/-- `reset_RS`; also the entry `rs_add_init` and `rs_mul_init` write. -/
def resetRs : RS where
  state := .unused
  instPtr := none
  op := .nop
  destTag := .noReg
  vj := valueEmpty
  vk := valueEmpty
  qj := valueEmpty
  qk := valueEmpty
  cycleLast := valueEmpty

-- a read out of bounds finds an initial entry

instance : Inhabited InstReg := ⟨initInst⟩

instance : Inhabited DataReg := ⟨initReg⟩

instance : Inhabited RsLs := ⟨resetRsLs⟩

instance : Inhabited RS := ⟨resetRs⟩

/-- The local variables of `main`, and the static `commit_count` of `commit`. -/
structure Machine where
  finish : Bool
  instCount : ℕ
  cycleCounter : ℤ
  programCounter : ℕ
  rsIndex : Option ℕ
  commitCount : ℕ
  inst : Table InstReg maxInstNum
  fpReg : Table DataReg numReg
  rsLoad : Table RsLs numLoadRs
  rsStore : Table RsLs numStoreRs
  rsAddSub : Table RS numAddSubRs
  rsMulDiv : Table RS numMulDivRs
  deriving DecidableEq, Repr

/-! ### Registers and stations -/

/-- `find_reg_index`. -/
def findRegIndex : DataRegTag → ℤ
  | .f0 => 0
  | .f2 => 1
  | .f4 => 2
  | .f6 => 3
  | .f8 => 4
  | .f10 => 5
  | .f12 => 6
  | .f14 => 7
  | .noReg => valueEmpty

/-- `reg[i]`; the index `VALUE_EMPTY` is out of bounds. -/
def readReg (reg : Table DataReg numReg) (i : ℤ) : DataReg :=
  if i = valueEmpty then default else reg.get i.toNat

/-- `reg[i] = r`. -/
def writeReg (reg : Table DataReg numReg) (i : ℤ) (r : DataReg) : Table DataReg numReg :=
  if i = valueEmpty then reg else reg.set i.toNat r

/-- `reset_REG`, which keeps the value. -/
def resetReg (r : DataReg) : DataReg :=
  { r with valid := false, waiting := false, instPtr := none }

/-- The first index of an unused station, `none` for `RS_NOT_FOUND`: the loop shared by the
four `find_idle_*` functions. -/
def findIdle {α : Type} [Inhabited α] {n : ℕ} (state : α → RsState) (rs : Table α n) :
    Option ℕ :=
  (List.range n).find? fun i => state (rs.get i) = .unused

/-- `find_idle_load`. -/
def findIdleLoad (rs : Table RsLs numLoadRs) : Option ℕ := findIdle RsLs.state rs

/-- `find_idle_store`. -/
def findIdleStore (rs : Table RsLs numStoreRs) : Option ℕ := findIdle RsLs.state rs

/-- `find_idle_add`. -/
def findIdleAdd (rs : Table RS numAddSubRs) : Option ℕ := findIdle RS.state rs

/-- `find_idle_mult`. -/
def findIdleMult (rs : Table RS numMulDivRs) : Option ℕ := findIdle RS.state rs

/-! ### Issue -/

/-- The destination bookkeeping of `set_idle_load`, `set_idle_add` and `set_idle_mult`. -/
def claimReg (p : ℕ) (value : ℤ) : DataReg where
  valid := true
  waiting := true
  instPtr := some p
  value := value

/-- `set_idle_load` on station `k` for instruction `p`. -/
def setIdleLoad (m : Machine) (k p : ℕ) : Machine :=
  let i := m.inst.get p
  let regIndex := findRegIndex i.destTag
  { m with
    inst := m.inst.set p { i with issue := m.cycleCounter }
    rsLoad := m.rsLoad.set k
      { state := .issued, instPtr := some p, op := i.type, baseTag := i.src1Tag
        destTag := i.destTag, offset := i.offset, cycleLast := lwCycle }
    fpReg := writeReg m.fpReg regIndex
      (claimReg p (loadOffset + k)) }

/-- `set_idle_store` on station `k` for instruction `p`: no register is claimed. -/
def setIdleStore (m : Machine) (k p : ℕ) : Machine :=
  let i := m.inst.get p
  { m with
    inst := m.inst.set p { i with issue := m.cycleCounter }
    rsStore := m.rsStore.set k
      { state := .issued, instPtr := some p, op := i.type, baseTag := i.src1Tag
        destTag := i.destTag, offset := i.offset, cycleLast := swCycle } }

/-- The station `set_idle_add` and `set_idle_mult` fill: each source is either waited for in
`Qj`/`Qk` or present in `Vj`/`Vk`, and with both present the station is in `exec` at once. -/
def fillRs (data : Table DataReg numReg) (i : InstReg) (p : ℕ) (cycleLast : ℤ) : RS :=
  let j := findRegIndex i.src1Tag
  let k := findRegIndex i.src2Tag
  let qj := if (readReg data j).waiting = true then j else valueEmpty
  let vj := if (readReg data j).waiting = true then valueEmpty else j
  let qk := if (readReg data k).waiting = true then k else valueEmpty
  let vk := if (readReg data k).waiting = true then valueEmpty else k
  { state := if qj = valueEmpty ∧ qk = valueEmpty then .exec else .issued
    instPtr := some p, op := i.type, destTag := i.destTag
    vj := vj, vk := vk, qj := qj, qk := qk, cycleLast := cycleLast }

/-- `set_idle_add` on station `k` for instruction `p`. -/
def setIdleAdd (m : Machine) (k p : ℕ) : Machine :=
  let i := m.inst.get p
  let regIndex := findRegIndex i.destTag
  { m with
    inst := m.inst.set p { i with issue := m.cycleCounter }
    rsAddSub := m.rsAddSub.set k (fillRs m.fpReg i p addSubCycle)
    fpReg := writeReg m.fpReg regIndex
      (claimReg p (addOffset + k)) }

/-- `set_idle_mult` on station `k` for instruction `p`; `cycle_last` keeps its old value for
an operation that is neither `MUL` nor `DIV`. -/
def setIdleMult (m : Machine) (k p : ℕ) : Machine :=
  let i := m.inst.get p
  let regIndex := findRegIndex i.destTag
  let cycleLast := match i.type with
    | .mul => mulCycle
    | .div => divCycle
    | _ => (m.rsMulDiv.get k).cycleLast
  { m with
    inst := m.inst.set p { i with issue := m.cycleCounter }
    rsMulDiv := m.rsMulDiv.set k (fillRs m.fpReg i p cycleLast)
    fpReg := writeReg m.fpReg regIndex
      (claimReg p (multOffset + k)) }

/-- The station search of the issue phase; `RS_index` keeps its value on any other type. -/
def findStation (m : Machine) : InstOp → Option ℕ
  | .lw => findIdleLoad m.rsLoad
  | .sw => findIdleStore m.rsStore
  | .add | .sub => findIdleAdd m.rsAddSub
  | .mul | .div => findIdleMult m.rsMulDiv
  | .nop => m.rsIndex

/-- The dispatch of the issue phase: add instruction `p` to station `k` of its class. -/
def setIdle (m : Machine) (k p : ℕ) : InstOp → Machine
  | .lw => setIdleLoad m k p
  | .sw => setIdleStore m k p
  | .add | .sub => setIdleAdd m k p
  | .mul | .div => setIdleMult m k p
  | .nop => m

/-- "Add instruction into RS": at most one instruction is issued in a cycle, in program
order, when its class has an unused station. -/
def issue (m : Machine) : Machine :=
  if m.programCounter < m.instCount then
    let p := m.programCounter
    let m := { m with rsIndex := findStation m (m.inst.get p).type }
    match m.rsIndex with
    | some k => { setIdle m k p (m.inst.get p).type with programCounter := p + 1 }
    | none => m
  else m

/-! ### Execution -/

/-- The decrement of one load or store station. -/
def RsLs.tick (rs : RsLs) : RsLs :=
  if rs.state = .exec then { rs with cycleLast := rs.cycleLast - 1 } else rs

/-- The decrement of one add/sub or mul/div station. -/
def RS.tick (rs : RS) : RS :=
  if rs.state = .exec then { rs with cycleLast := rs.cycleLast - 1 } else rs

/-- "Decrement all executing RS's cycle_last". -/
def decrement (m : Machine) : Machine :=
  { m with
    rsLoad := m.rsLoad.mapRange RsLs.tick
    rsStore := m.rsStore.mapRange RsLs.tick
    rsAddSub := m.rsAddSub.mapRange RS.tick
    rsMulDiv := m.rsMulDiv.mapRange RS.tick }

/-- Write through an `INST_REG *`. -/
def setInst (inst : Table InstReg maxInstNum) (ptr : Option ℕ) (f : InstReg → InstReg) :
    Table InstReg maxInstNum :=
  match ptr with
  | some p => inst.set p (f (inst.get p))
  | none => inst

/-- `inst_ptr->execute = cycle_counter`. -/
def setExecute (m : Machine) (ptr : Option ℕ) : Table InstReg maxInstNum :=
  setInst m.inst ptr fun i => { i with execute := m.cycleCounter }

/-- "Check instruction complete or not", one load station. -/
def completeLoad (m : Machine) (i : ℕ) : Machine :=
  let rs := m.rsLoad.get i
  if rs.cycleLast = 0 ∧ rs.state = .exec then
    { m with
      inst := setExecute m rs.instPtr
      rsLoad := m.rsLoad.set i { rs with state := .done } }
  else m

/-- "Check instruction complete or not", one store station. -/
def completeStore (m : Machine) (i : ℕ) : Machine :=
  let rs := m.rsStore.get i
  if rs.cycleLast = 0 ∧ rs.state = .exec then
    { m with
      inst := setExecute m rs.instPtr
      rsStore := m.rsStore.set i { rs with state := .done } }
  else m

/-- "Check instruction complete or not", one add/sub station. -/
def completeAddSub (m : Machine) (i : ℕ) : Machine :=
  let rs := m.rsAddSub.get i
  if rs.cycleLast = 0 ∧ rs.state = .exec then
    { m with
      inst := setExecute m rs.instPtr
      rsAddSub := m.rsAddSub.set i { rs with state := .done } }
  else m

/-- "Check instruction complete or not", one mul/div station. -/
def completeMulDiv (m : Machine) (i : ℕ) : Machine :=
  let rs := m.rsMulDiv.get i
  if rs.cycleLast = 0 ∧ rs.state = .exec then
    { m with
      inst := setExecute m rs.instPtr
      rsMulDiv := m.rsMulDiv.set i { rs with state := .done } }
  else m

/-- "Check instruction complete or not". -/
def complete (m : Machine) : Machine :=
  let m := forRange numLoadRs completeLoad m
  let m := forRange numStoreRs completeStore m
  let m := forRange numAddSubRs completeAddSub m
  forRange numMulDivRs completeMulDiv m

/-- `check_reg`: no earlier instruction with that destination is uncommitted. A store counts
as such an instruction, its `dest_tag` being the register it stores. -/
def checkReg (inst : Table InstReg maxInstNum) (instCount : ℤ) (tag : DataRegTag) : Bool :=
  (List.range instCount.toNat).all fun i =>
    !decide ((inst.get i).commit = valueEmpty ∧ (inst.get i).destTag = tag)

/-- `check_reg` at the instruction a station points to. -/
def allowExec (m : Machine) (ptr : Option ℕ) (tag : DataRegTag) : Bool :=
  match ptr with
  | some p => checkReg m.inst (m.inst.get p).id tag
  | none => false

/-- "Check ready or not, allow execution", one load station. -/
def startLoad (m : Machine) (rs : RsLs) : RsLs :=
  if rs.instPtr ≠ none ∧ rs.state = .issued ∧ allowExec m rs.instPtr rs.destTag = true then
    { rs with state := .exec }
  else rs

/-- "Check ready or not, allow execution", one store station. The loop computes `check_reg`
here too, but tests the waiting flag of the stored register instead. -/
def startStore (m : Machine) (rs : RsLs) : RsLs :=
  if rs.instPtr ≠ none ∧ rs.state = .issued ∧
      (readReg m.fpReg (findRegIndex rs.destTag)).waiting = false then
    { rs with state := .exec }
  else rs

/-- "Check ready or not, allow execution", one add/sub or mul/div station. -/
def startRs (m : Machine) (rs : RS) : RS :=
  if rs.instPtr ≠ none ∧ rs.state = .issued ∧ rs.qj = valueEmpty ∧ rs.qk = valueEmpty ∧
      allowExec m rs.instPtr rs.destTag = true then
    { rs with state := .exec }
  else rs

/-- "Check ready or not, allow execution". The tests read the instructions and the registers
only, which no iteration changes. -/
def start (m : Machine) : Machine :=
  { m with
    rsLoad := m.rsLoad.mapRange (startLoad m)
    rsStore := m.rsStore.mapRange (startStore m)
    rsAddSub := m.rsAddSub.mapRange (startRs m)
    rsMulDiv := m.rsMulDiv.mapRange (startRs m) }

/-! ### Write-back and commit -/

/-- The body of the loops of `update_RS`: a waiting station takes register `regIndex`. -/
def updateRsEntry (regIndex : ℤ) (rs : RS) : RS :=
  if rs.state = .issued then
    let rs := if rs.qj = regIndex then { rs with vj := regIndex, qj := valueEmpty } else rs
    if rs.qk = regIndex then { rs with vk := regIndex, qk := valueEmpty } else rs
  else rs

/-- `update_RS`. -/
def updateRs (m : Machine) (regIndex : ℤ) : Machine :=
  { m with
    rsAddSub := m.rsAddSub.mapRange (updateRsEntry regIndex)
    rsMulDiv := m.rsMulDiv.mapRange (updateRsEntry regIndex) }

/-- `inst_ptr->writeback = cycle_counter`. -/
def setWriteback (m : Machine) (ptr : Option ℕ) : Table InstReg maxInstNum :=
  setInst m.inst ptr fun i => { i with writeback := m.cycleCounter }

/-- `MEM_OFFSET + inst_ptr->ID`. -/
def resultValue (m : Machine) (ptr : Option ℕ) : ℤ :=
  memOffset + match ptr with
    | some p => (m.inst.get p).id
    | none => 0

/-- The part of `writeback` the three writing classes share: record the cycle, store the
result and broadcast the register. -/
def broadcast (m : Machine) (ptr : Option ℕ) (regIndex : ℤ) : Machine :=
  updateRs
    { m with
      inst := setWriteback m ptr
      fpReg := writeReg m.fpReg regIndex
        { readReg m.fpReg regIndex with value := resultValue m ptr } }
    regIndex

/-- `reset_REG(&reg[reg_index])`. -/
def clearReg (m : Machine) (regIndex : ℤ) : Machine :=
  { m with fpReg := writeReg m.fpReg regIndex (resetReg (readReg m.fpReg regIndex)) }

/-- One iteration of the load loop of `writeback`. -/
def writebackLoad (m : Machine) (i : ℕ) : Machine :=
  let rs := m.rsLoad.get i
  if rs.state = .done then
    let regIndex := findRegIndex rs.destTag
    let m := broadcast m rs.instPtr regIndex
    clearReg { m with rsLoad := m.rsLoad.set i resetRsLs } regIndex
  else m

/-- One iteration of the store loop of `writeback`: no value and no broadcast, but the
register is reset all the same. -/
def writebackStore (m : Machine) (i : ℕ) : Machine :=
  let rs := m.rsStore.get i
  if rs.state = .done then
    let regIndex := findRegIndex rs.destTag
    clearReg
      { m with
        inst := setWriteback m rs.instPtr
        rsStore := m.rsStore.set i resetRsLs }
      regIndex
  else m

/-- One iteration of the add/sub loop of `writeback`. -/
def writebackAddSub (m : Machine) (i : ℕ) : Machine :=
  let rs := m.rsAddSub.get i
  if rs.state = .done then
    let regIndex := findRegIndex rs.destTag
    let m := broadcast m rs.instPtr regIndex
    clearReg { m with rsAddSub := m.rsAddSub.set i resetRs } regIndex
  else m

/-- One iteration of the mul/div loop of `writeback`. -/
def writebackMulDiv (m : Machine) (i : ℕ) : Machine :=
  let rs := m.rsMulDiv.get i
  if rs.state = .done then
    let regIndex := findRegIndex rs.destTag
    let m := broadcast m rs.instPtr regIndex
    clearReg { m with rsMulDiv := m.rsMulDiv.set i resetRs } regIndex
  else m

/-- `writeback`. -/
def writeback (m : Machine) : Machine :=
  let m := forRange numLoadRs writebackLoad m
  let m := forRange numStoreRs writebackStore m
  let m := forRange numAddSubRs writebackAddSub m
  forRange numMulDivRs writebackMulDiv m

/-- The flag `check` of `commit`: the loop overwrites it for each earlier instruction. -/
def commitCheck (m : Machine) : Bool :=
  forRange m.commitCount
    (fun _ i => decide ((m.inst.get i).writeback ≠ valueEmpty ∧ (m.inst.get i).commit ≠ valueEmpty))
    (decide (m.commitCount = 0))

/-- `commit`. -/
def commit (m : Machine) : Machine :=
  let i := m.inst.get m.commitCount
  if i.writeback ≠ valueEmpty ∧ i.commit = valueEmpty ∧ commitCheck m = true then
    { m with
      inst := m.inst.set m.commitCount { i with commit := m.cycleCounter }
      commitCount := m.commitCount + 1 }
  else m

/-! ### Register dependency -/

/-- `waiting = TRUE, valid = TRUE, inst_ptr = rs.inst_ptr` on a register. -/
def markReg (m : Machine) (tag : DataRegTag) (ptr : Option ℕ) : Machine :=
  let regIndex := findRegIndex tag
  { m with
    fpReg := writeReg m.fpReg regIndex
      { readReg m.fpReg regIndex with waiting := true, valid := true, instPtr := ptr } }

/-- "Check register dependency", one load station: only an executing load marks. -/
def dependLoad (m : Machine) (i : ℕ) : Machine :=
  let rs := m.rsLoad.get i
  if rs.state = .exec then markReg m rs.destTag rs.instPtr else m

/-- "Check register dependency", one store station: the waiting flag is left alone. -/
def dependStore (m : Machine) (i : ℕ) : Machine :=
  let rs := m.rsStore.get i
  if rs.state = .issued ∨ rs.state = .exec then
    let regIndex := findRegIndex rs.destTag
    { m with
      fpReg := writeReg m.fpReg regIndex
        { readReg m.fpReg regIndex with valid := true, instPtr := rs.instPtr } }
  else m

/-- "Check register dependency", one add/sub station. -/
def dependAddSub (m : Machine) (i : ℕ) : Machine :=
  let rs := m.rsAddSub.get i
  if rs.state = .issued ∨ rs.state = .exec then markReg m rs.destTag rs.instPtr else m

/-- "Check register dependency", one mul/div station. -/
def dependMulDiv (m : Machine) (i : ℕ) : Machine :=
  let rs := m.rsMulDiv.get i
  if rs.state = .issued ∨ rs.state = .exec then markReg m rs.destTag rs.instPtr else m

/-- "Check register dependency". -/
def depend (m : Machine) : Machine :=
  let m := forRange numLoadRs dependLoad m
  let m := forRange numStoreRs dependStore m
  let m := forRange numAddSubRs dependAddSub m
  forRange numMulDivRs dependMulDiv m

/-! ### The main loop -/

/-- `check_finish`. -/
def checkFinish (inst : Table InstReg maxInstNum) (instCount : ℕ) : Bool :=
  (List.range instCount).all fun i => !decide ((inst.get i).commit = valueEmpty)

/-- The phases of a cycle up to issue: what issue and the start tests read. -/
def beforeIssue (m : Machine) : Machine :=
  depend (complete (writeback (commit
    (decrement { m with cycleCounter := m.cycleCounter + 1 }))))

/-- The body of the `while` loop. -/
def cycle (m : Machine) : Machine :=
  let m := start (issue (beforeIssue m))
  { m with finish := checkFinish m.inst m.instCount }

/-- One test and body of the `while` loop: a finished machine stays as it is. -/
def step (m : Machine) : Machine :=
  if m.finish = true then m else cycle m

/-- An `INST_REG` after `inst_reg_init` and `read_inst`. -/
def loadInst (P : Trace) (k : ℕ) : InstReg :=
  match P.insts[k]? with
  | some i =>
    { initInst with
      id := k, type := i.type, offset := i.offset
      src1Tag := i.src1Tag, src2Tag := i.src2Tag, destTag := i.destTag }
  | none => initInst

/-- The machine before the first cycle. -/
def init (P : Trace) : Machine where
  finish := false
  instCount := P.insts.length
  cycleCounter := 0
  programCounter := 0
  rsIndex := none
  commitCount := 0
  inst := .ofFn _ (loadInst P)
  fpReg := .replicate _ initReg
  rsLoad := .replicate _ resetRsLs
  rsStore := .replicate _ resetRsLs
  rsAddSub := .replicate _ resetRs
  rsMulDiv := .replicate _ resetRs

/-- The machine at the end of cycle `n`, or at the end of the run if that is earlier. -/
def run (P : Trace) (n : ℕ) : Machine := step^[n] (init P)

end AdvancedArchitecture.Tomasulo
