import Mathlib.Data.List.Sort
import Mathlib.Logic.Function.Basic
import AdvancedArchitecture.Bpred.Predictor
import AdvancedArchitecture.Lib.Ring
import AdvancedArchitecture.Outorder.Resource

/-!
# The register update unit of `sim-outorder.c`

The reservation stations, the queues that refer to them and the functions that work on these
alone. A pointer to a station names its array, the RUU or the LSQ, and the index there. An
`RS_link` keeps the three members of its union in one field `x`. The lists of links are lists,
and a link that is freed leaves its list.

The pool of free links (and the panic when it is empty), the pipe trace, the statistics and the
times of the last definition of a register (`create_vector_rt`) are left out.

`INST_TAG_TYPE` and `INST_SEQ_TYPE` are `unsigned int`s. Tags are natural numbers here, which
makes no difference: a stale link would be taken for a valid one only after 2^32 uses of its
station, and a station has at most one use in a cycle. The links of the ready queue are tested in
the next cycle, an event comes before 2^31 cycles are over, `last_op` is replaced by the next
dispatch, and what an output list refers to can be squashed at most once for each branch that is
in the RUU together with the writer. Sequence numbers do roll over, and then the order of the
ready queue is another one. `Station.seq` goes on counting; what the code has is
`Station.seqNum`, and the ready queue is ordered by it.
-/

namespace AdvancedArchitecture.Outorder

open Bpred (MdAddr sizeofMdInst)

/-- `md_inst_t`. -/
abbrev MdInst := BitVec 32

/-- An opcode: its flags and its functional unit class, `none` for `NA`. -/
structure Opcode where
  ctrl : Bool := false
  dirJmp : Bool := false
  mem : Bool := false
  load : Bool := false
  store : Bool := false
  longLat : Bool := false
  trap : Bool := false
  fuclass : Option FuClass := none
  deriving DecidableEq, Repr, Inhabited

/-- `(MD_OP_FLAGS(op) & (F_MEM|F_STORE)) == (F_MEM|F_STORE)`. -/
def Opcode.isStore (op : Opcode) : Bool := op.mem && op.store

/-- `(MD_OP_FLAGS(op) & (F_MEM|F_LOAD)) == (F_MEM|F_LOAD)`. -/
def Opcode.isLoad (op : Opcode) : Bool := op.mem && op.load

/-- `MD_AGEN_OP`, an integer addition. -/
def mdAgenOp : Opcode := { fuclass := some .intALU }

/-- The register name of an unused input or output. -/
def NA : ℕ := 0

/-- `DTMP`, the reserved name of an effective address. -/
def DTMP : ℕ := 2 + 32 + 32

/-- `MAX_IDEPS`. -/
def maxIdeps : ℕ := 3

/-- `MAX_ODEPS`. -/
def maxOdeps : ℕ := 2

/-- The register names of the outputs and inputs of an operation. -/
structure Names where
  out1 : ℕ
  out2 : ℕ
  in1 : ℕ
  in2 : ℕ
  in3 : ℕ

namespace Names

/-- The names of the address computation of a load or store. -/
def agen (n : Names) : Names := ⟨DTMP, NA, NA, n.in2, n.in3⟩

/-- The names of the memory access of a load or store. -/
def access (n : Names) : Names := ⟨n.out1, n.out2, n.in1, DTMP, NA⟩

/-- The input `k`. -/
def input (n : Names) : ℕ → ℕ
  | 0 => n.in1
  | 1 => n.in2
  | _ => n.in3

/-- The output `i`. -/
def output (n : Names) : ℕ → ℕ
  | 0 => n.out1
  | _ => n.out2

end Names

/-- `struct RUU_station *`: `&RUU[idx]` or `&LSQ[idx]`. -/
structure RsPtr where
  inLSQ : Bool
  idx : ℕ
  deriving DecidableEq, Repr

/-- `struct RS_link`; `x` is the time of an event, the sequence number of a ready operation or
the number of an operand. -/
structure RsLink where
  rs : RsPtr
  tag : ℕ
  x : ℕ
  deriving DecidableEq, Repr

/-- `struct CV_link`. -/
structure CvLink where
  rs : RsPtr
  odepNum : ℕ
  deriving DecidableEq, Repr

/-- `struct RUU_station`. What `bpred_lookup` leaves for `bpred_update` and `bpred_recover`
(`dir_update` and `stack_recover_idx`) is in `update`; `tag` and `seq` are not reduced modulo
2^32. -/
structure Station (U : Type) where
  IR : MdInst := 0
  op : Opcode := {}
  PC : MdAddr := 0
  nextPC : MdAddr := 0
  predPC : MdAddr := 0
  inLSQ : Bool := false
  eaComp : Bool := false
  recoverInst : Bool := false
  update : Option U := none
  specMode : Bool := false
  addr : MdAddr := 0
  tag : ℕ := 0
  seq : ℕ := 0
  queued : Bool := false
  issued : Bool := false
  completed : Bool := false
  onames : ℕ → ℕ := fun _ => NA
  odepList : ℕ → List RsLink := fun _ => []
  idepReady : ℕ → Bool := fun _ => false

namespace Station

variable {U : Type}

/-- `rs->seq`. -/
def seqNum (st : Station U) : BitVec 32 := BitVec.ofNat 32 st.seq

/-- `OPERANDS_READY`. -/
def operandsReady (st : Station U) : Bool := st.idepReady 0 && st.idepReady 1 && st.idepReady 2

/-- `STORE_ADDR_READY`. -/
def storeAddrReady (st : Station U) : Bool := st.idepReady 1

/-- `rs->idep_ready[k] = b`. -/
def setIdepReady (k : ℕ) (b : Bool) (st : Station U) : Station U :=
  { st with idepReady := Function.update st.idepReady k b }

/-- `rs->odep_list[i] = l`. -/
def setOdepList (i : ℕ) (l : List RsLink) (st : Station U) : Station U :=
  { st with odepList := Function.update st.odepList i l }

/-- `rs->onames[i] = n`. -/
def setOname (i n : ℕ) (st : Station U) : Station U :=
  { st with onames := Function.update st.onames i n }

end Station

/-- The stations and the queues that refer to them; `instSeq` is the number of operations that have
been dispatched, of which the code's `inst_seq` has the low 32 bits. -/
structure Core (U : Type) where
  station : RsPtr → Station U
  ruu : Ring
  lsq : Ring
  eventQueue : List RsLink
  readyQueue : List RsLink
  createVector : ℕ → Option CvLink
  specCreateVector : ℕ → Option CvLink
  useSpecCv : ℕ → Bool
  specMode : Bool
  instSeq : ℕ
  simCycle : ℕ

namespace Core

variable {U : Type}

/-- The state that `ruu_init`, `lsq_init`, `eventq_init`, `readyq_init`, `cv_init` and
`tracer_init` leave. -/
def init (ruuSize lsqSize : ℕ) : Core U where
  station := fun _ => {}
  ruu := { size := ruuSize, head := 0, tail := 0, num := 0 }
  lsq := { size := lsqSize, head := 0, tail := 0, num := 0 }
  eventQueue := []
  readyQueue := []
  createVector := fun _ => none
  specCreateVector := fun _ => none
  useSpecCv := fun _ => false
  specMode := false
  instSeq := 0
  simCycle := 0

/-- An assignment to fields of a station. -/
def modify (s : Core U) (p : RsPtr) (f : Station U → Station U) : Core U :=
  { s with station := Function.update s.station p (f (s.station p)) }

/-! ### Links -/

/-- `RSLINK_INIT` and `RSLINK_NEW`. -/
def link (s : Core U) (rs : RsPtr) (x : ℕ) : RsLink := ⟨rs, (s.station rs).tag, x⟩

/-- `RSLINK_VALID`. -/
def Valid (s : Core U) (ℓ : RsLink) : Prop := ℓ.tag = (s.station ℓ.rs).tag

instance (s : Core U) (ℓ : RsLink) : Decidable (s.Valid ℓ) := inferInstanceAs (Decidable (_ = _))

/-- A new link goes before the first one whose key is not smaller. -/
def insertLink (ℓ : RsLink) (q : List RsLink) : List RsLink :=
  q.orderedInsert (fun a b => a.x ≤ b.x) ℓ

/-! ### The event queue -/

/-- `eventq_queue_event`. -/
def eventqQueueEvent (s : Core U) (rs : RsPtr) (when_ : ℕ) : Except Halt (Core U) :=
  if (s.station rs).completed then .error (.panic "event completed")
  else if when_ ≤ s.simCycle then .error (.panic "event occurred in the past")
  else .ok { s with eventQueue := insertLink (s.link rs when_) s.eventQueue }

/-- The first valid event that is due, and the queue without it and the squashed ones before. -/
def nextEvent (s : Core U) : List RsLink → Option RsPtr × List RsLink
  | [] => (none, [])
  | ev :: q =>
    if ev.x ≤ s.simCycle then
      if s.Valid ev then (some ev.rs, q) else nextEvent s q
    else (none, ev :: q)

/-- `eventq_next_event`. -/
def eventqNextEvent (s : Core U) : Option RsPtr × Core U :=
  let r := nextEvent s s.eventQueue
  (r.1, { s with eventQueue := r.2 })

/-! ### The ready queue -/

/-- `readyq_enqueue`: memory and long latency operations and branches go first, the others in
program order. -/
def readyqEnqueue (s : Core U) (rs : RsPtr) : Except Halt (Core U) :=
  if (s.station rs).queued then .error (.panic "node is already queued")
  else
    let s := s.modify rs fun st => { st with queued := true }
    let st := s.station rs
    let node := s.link rs st.seqNum.toNat
    .ok
      { s with
        readyQueue :=
          if st.inLSQ || (st.op.longLat || st.op.ctrl) then node :: s.readyQueue
          else insertLink node s.readyQueue }

/-! ### The create vector -/

/-- `CREATE_VECTOR`. -/
def readCreateVector (s : Core U) (n : ℕ) : Option CvLink :=
  if s.useSpecCv n then s.specCreateVector n else s.createVector n

/-- `SET_CREATE_VECTOR`. -/
def setCreateVector (s : Core U) (n : ℕ) (l : CvLink) : Core U :=
  if s.specMode then
    { s with
      useSpecCv := Function.update s.useSpecCv n true
      specCreateVector := Function.update s.specCreateVector n (some l) }
  else { s with createVector := Function.update s.createVector n (some l) }

/-- `ruu_link_idep`. -/
def ruuLinkIdep (s : Core U) (rs : RsPtr) (idepNum idepName : ℕ) : Core U :=
  if idepName = NA then s.modify rs (Station.setIdepReady idepNum true)
  else
    match s.readCreateVector idepName with
    | none => s.modify rs (Station.setIdepReady idepNum true)
    | some head =>
      let s := s.modify rs (Station.setIdepReady idepNum false)
      let link := s.link rs idepNum
      s.modify head.rs fun st =>
        st.setOdepList head.odepNum (link :: st.odepList head.odepNum)

/-- `ruu_install_odep`. -/
def ruuInstallOdep (s : Core U) (rs : RsPtr) (odepNum odepName : ℕ) : Core U :=
  if odepName = NA then s.modify rs (Station.setOname odepNum NA)
  else
    let s := s.modify rs fun st => (st.setOname odepNum odepName).setOdepList odepNum []
    s.setCreateVector odepName ⟨rs, odepNum⟩

/-! ### Recovery -/

/-- The list and tag updates of a squash in `ruu_recover`. -/
def squash (s : Core U) (p : RsPtr) : Core U :=
  s.modify p fun st => { st with odepList := fun _ => [], tag := st.tag + 1 }

/-- The local variables of `ruu_recover`. -/
structure RecoverVars where
  ruuIndex : ℕ
  ruuPrevTail : ℕ
  lsqIndex : ℕ
  lsqPrevTail : ℕ

/-- The loop of `ruu_recover`, from the tail towards the branch; the fuel is `RUU_num`. -/
def recoverLoop (branchIndex : ℕ) : ℕ → RecoverVars → Core U → Except Halt (RecoverVars × Core U)
  | 0, v, s => if v.ruuIndex = branchIndex then .ok (v, s) else .error (.panic "empty RUU")
  | n + 1, v, s =>
    if v.ruuIndex = branchIndex then .ok (v, s)
    else if s.ruu.num = 0 then .error (.panic "empty RUU")
    else if v.ruuIndex = s.ruu.head then .error (.panic "RUU head and tail broken")
    else do
      let (v, s) ←
        if (s.station ⟨false, v.ruuIndex⟩).eaComp then
          if s.lsq.num = 0 then .error (.panic "RUU and LSQ out of sync")
          else
            let s := s.squash ⟨true, v.lsqIndex⟩
            .ok
              ({ v with lsqPrevTail := v.lsqIndex, lsqIndex := s.lsq.prev v.lsqIndex },
                { s with lsq := { s.lsq with num := s.lsq.num - 1 } })
        else .ok (v, s)
      let s := s.squash ⟨false, v.ruuIndex⟩
      recoverLoop branchIndex n
        { v with ruuPrevTail := v.ruuIndex, ruuIndex := s.ruu.prev v.ruuIndex }
        { s with ruu := { s.ruu with num := s.ruu.num - 1 } }

/-- `ruu_recover`. -/
def ruuRecover (s : Core U) (branchIndex : ℕ) : Except Halt (Core U) := do
  let (v, s) ← recoverLoop branchIndex s.ruu.num
    { ruuIndex := s.ruu.prev s.ruu.tail, ruuPrevTail := s.ruu.tail
      lsqIndex := s.lsq.prev s.lsq.tail, lsqPrevTail := s.lsq.tail } s
  return { s with
    ruu := { s.ruu with tail := v.ruuPrevTail }
    lsq := { s.lsq with tail := v.lsqPrevTail }
    useSpecCv := fun _ => false }

/-! ### Result broadcast -/

/-- The create vector part of `ruu_writeback` for one output: the result can now be read from the
register file. -/
def releaseCv (s : Core U) (rs : RsPtr) (i : ℕ) : Core U :=
  let name := (s.station rs).onames i
  if (s.station rs).specMode then
    if s.specCreateVector name = some ⟨rs, i⟩ then
      { s with specCreateVector := Function.update s.specCreateVector name none }
    else s
  else
    if s.createVector name = some ⟨rs, i⟩ then
      { s with createVector := Function.update s.createVector name none }
    else s

/-- The treatment of one link of an output list in `ruu_writeback`. -/
def wakeLink (s : Core U) (olink : RsLink) : Except Halt (Core U) :=
  if s.Valid olink then
    if (s.station olink.rs).idepReady olink.x then
      .error (.panic "output dependence already satisfied")
    else
      let s := s.modify olink.rs (Station.setIdepReady olink.x true)
      let st := s.station olink.rs
      if st.operandsReady && (!st.inLSQ || st.op.isStore) then s.readyqEnqueue olink.rs
      else .ok s
  else .ok s

/-- The walk of an output list. Each link is freed when it has been treated. -/
def wakeChain (rs : RsPtr) (i : ℕ) : List RsLink → Core U → Except Halt (Core U)
  | [], s => .ok s
  | olink :: rest, s => do
    let s ← s.wakeLink olink
    wakeChain rs i rest (s.modify rs (Station.setOdepList i rest))

/-- One output in the broadcast loop of `ruu_writeback`. -/
def broadcast (rs : RsPtr) (s : Core U) (i : ℕ) : Except Halt (Core U) :=
  if (s.station rs).onames i ≠ NA then
    wakeChain rs i ((s.station rs).odepList i) (s.releaseCv rs i)
  else .ok s

/-! ### Memory dependences -/

/-- `MAX_STD_UNKNOWNS`. -/
def maxStdUnknowns : ℕ := 64

/-- The stores with an unknown value, after a store has been passed in `lsq_refresh`: one more if
the value of this one is unknown, otherwise those at its address are hidden. -/
def stdUnknownsAfter (st : Station U) (stdUnknowns : List MdAddr) : Except Halt (List MdAddr) :=
  if !st.op.isStore then .ok stdUnknowns
  else if !st.operandsReady then
    if stdUnknowns.length = maxStdUnknowns then
      .error (.fatal "STD unknown array overflow, increase MAX_STD_UNKNOWNS")
    else .ok (stdUnknowns ++ [st.addr])
  else .ok (stdUnknowns.map fun a => if a = st.addr then 0 else a)

/-- The loop of `lsq_refresh`, over `n` more entries from `index` on. -/
def lsqRefreshLoop : ℕ → ℕ → List MdAddr → Core U → Except Halt (Core U)
  | 0, _, _, s => .ok s
  | n + 1, index, stdUnknowns, s =>
    let st := s.station ⟨true, index⟩
    if st.op.isStore && !st.storeAddrReady then .ok s
    else do
      let stdUnknowns ← stdUnknownsAfter st stdUnknowns
      let s ←
        if st.op.isLoad && !st.queued && !st.issued && !st.completed && st.operandsReady
            && !stdUnknowns.contains st.addr then
          s.readyqEnqueue ⟨true, index⟩
        else .ok s
      lsqRefreshLoop n (s.lsq.next index) stdUnknowns s

/-- `lsq_refresh`. -/
def lsqRefresh (s : Core U) : Except Halt (Core U) := lsqRefreshLoop s.lsq.num s.lsq.head [] s

/-- The scan of `ruu_issue` for an earlier store at the address of a load, from the entry before
`i` on; the fuel is a bound on the number of earlier entries. -/
def forwardScan (s : Core U) (addr : MdAddr) : ℕ → ℕ → Bool
  | 0, _ => false
  | n + 1, i =>
    let i := s.lsq.prev i
    if (s.station ⟨true, i⟩).op.store && (s.station ⟨true, i⟩).addr = addr then true
    else if i = s.lsq.head then false
    else forwardScan s addr n i

/-- Whether a load can take its value from a store in the LSQ. -/
def storeForward (s : Core U) (rs : RsPtr) : Bool :=
  if rs.idx ≠ s.lsq.head then s.forwardScan (s.station rs).addr s.lsq.num rs.idx else false

end Core

end AdvancedArchitecture.Outorder
