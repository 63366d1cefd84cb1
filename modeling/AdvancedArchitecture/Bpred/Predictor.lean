import Mathlib.Data.Int.Notation
import AdvancedArchitecture.Lib.PowTwo
import AdvancedArchitecture.Lib.Table

/-!
# The branch predictor of `bpred.c`

A shallow embedding of `bpred_create`, `bpred_dir_create`, `bpred_dir_lookup`, `bpred_lookup`
and `bpred_update`. A pointer to a counter (`char *`) names the table it points into and the
index there, a pointer to a BTB entry is the index of the entry, and a failed assertion, a
null dereference or a call of `fatal` gives `none`. The union of `bpred_dir_t` and the class
of `bpred_t` become constructors, so that a predictor only has the tables of its class.

The functions that configure and print statistics are left out.
-/

namespace AdvancedArchitecture.Bpred

/-! ### Addresses and opcodes -/

/-- `md_addr_t`. -/
abbrev MdAddr := BitVec 64

/-- `MD_BR_SHIFT`. -/
def mdBrShift : ℕ := 2

/-- `sizeof(md_inst_t)`. -/
def sizeofMdInst : MdAddr := 4

/-- `enum md_opcode`: the control instructions, and all the others. -/
inductive MdOpcode
  | br | fbeq | fblt | fble | bsr | fbne | fbge | fbgt
  | blbc | beq | blt | ble | blbs | bne | bge | bgt
  | jmp | jsr | retn | jsrCoroutine
  | other
  deriving DecidableEq, Repr, Inhabited

namespace MdOpcode

/-- `MD_OP_FLAGS(op) & F_CTRL`. -/
def isCtrl : MdOpcode → Bool
  | other => false
  | _ => true

/-- `(MD_OP_FLAGS(op) & (F_CTRL|F_UNCOND)) == (F_CTRL|F_UNCOND)`. -/
def isUncond : MdOpcode → Bool
  | br | bsr | jmp | jsr | retn | jsrCoroutine => true
  | _ => false

/-- `(MD_OP_FLAGS(op) & (F_CTRL|F_COND)) == (F_CTRL|F_COND)`. -/
def isCond : MdOpcode → Bool
  | fbeq | fblt | fble | fbne | fbge | fbgt
  | blbc | beq | blt | ble | blbs | bne | bge | bgt => true
  | _ => false

/-- `MD_IS_CALL`. -/
def isCall (op : MdOpcode) : Bool := op = jsr ∨ op = bsr

/-- `MD_IS_RETURN`. -/
def isReturn (op : MdOpcode) : Bool := op = retn

/-- `MD_IS_INDIR`. -/
def isIndir (op : MdOpcode) : Bool := op = jmp ∨ op = jsr ∨ op = retn ∨ op = jsrCoroutine

theorem isCtrl_of_isCond {op : MdOpcode} (h : op.isCond = true) : op.isCtrl = true := by
  cases op <;> first | rfl | exact absurd h (by decide)

theorem isUncond_of_isCond {op : MdOpcode} (h : op.isCond = true) : op.isUncond = false := by
  cases op <;> first | rfl | exact absurd h (by decide)

theorem isIndir_of_isCond {op : MdOpcode} (h : op.isCond = true) : op.isIndir = false := by
  cases op <;> first | rfl | exact absurd h (by decide)

end MdOpcode

/-! ### Direction predictors -/

/-- `config.two` of `bpred_dir_t`: a two-level predictor. -/
structure TwoLevel where
  l1size : ℕ
  l2size : ℕ
  shiftWidth : ℕ
  xor : Bool
  shiftregs : Table (BitVec 32) l1size
  l2table : Table ℕ l2size
  l1_ok : SizeOk l1size
  l2_ok : SizeOk l2size
  width_ok : shiftWidth ≠ 0 ∧ shiftWidth ≤ 30

/-- `config.bimod` of `bpred_dir_t`: a direct-mapped table of counters. -/
structure Bimod where
  size : ℕ
  table : Table ℕ size
  size_ok : SizeOk size

/-- The initial counters, "weakly this-or-that": `flipflop` starts at 1 and is replaced by
`3 - flipflop` after every entry. -/
def flipflopTable (n : ℕ) : Table ℕ n :=
  (forRange n (fun s cnt => (s.1.set cnt s.2, 3 - s.2)) (Table.replicate n 0, 1)).1

/-- `bpred_dir_create`, case `BPred2Level`. -/
def bpredDirCreateTwoLevel (l1size l2size shiftWidth : ℕ) (xor : Bool) : Option TwoLevel :=
  if h : SizeOk l1size ∧ SizeOk l2size ∧ shiftWidth ≠ 0 ∧ shiftWidth ≤ 30 then
    some
      { l1size, l2size, shiftWidth, xor
        shiftregs := Table.replicate l1size 0
        l2table := flipflopTable l2size
        l1_ok := h.1
        l2_ok := h.2.1
        width_ok := h.2.2 }
  else none

/-- `bpred_dir_create`, case `BPred2bit`. -/
def bpredDirCreateBimod (l1size : ℕ) : Option Bimod :=
  if h : SizeOk l1size then
    some { size := l1size, table := flipflopTable l1size, size_ok := h }
  else none

/-- The index of the history register of a branch. -/
def TwoLevel.l1index (two : TwoLevel) (baddr : MdAddr) : ℕ :=
  ((baddr >>> mdBrShift) &&& BitVec.ofNat 64 (two.l1size - 1)).toNat

/-- `bpred_dir_lookup`, case `BPred2Level`: the index of the counter. The address is shifted
as a 64-bit number and the result is stored in an `int`. -/
def TwoLevel.l2index (two : TwoLevel) (baddr : MdAddr) : ℕ :=
  let shiftreg := two.shiftregs.get (two.l1index baddr)
  let l2index : BitVec 32 :=
    if two.xor then shiftreg
    else ((shiftreg.signExtend 64) |||
      ((baddr >>> mdBrShift) <<< two.shiftWidth)).setWidth 32
  (l2index &&& BitVec.ofNat 32 (two.l2size - 1)).toNat

/-- `BIMOD_HASH`: `bpred_dir_lookup`, case `BPred2bit`. -/
def Bimod.hash (b : Bimod) (baddr : MdAddr) : ℕ :=
  (((baddr >>> 19) ^^^ (baddr >>> mdBrShift)) &&& BitVec.ofNat 64 (b.size - 1)).toNat

/-- The level-1 update of `bpred_update`: `taken` is shifted into the history register. -/
def TwoLevel.updateHistory (two : TwoLevel) (baddr : MdAddr) (taken : Bool) : TwoLevel :=
  let l1index := two.l1index baddr
  let shiftReg := (two.shiftregs.get l1index <<< 1) ||| (if taken then 1 else 0)
  { two with
    shiftregs := two.shiftregs.set l1index
      (shiftReg &&& ((1#32 <<< two.shiftWidth) - 1)) }

/-! ### The predictor -/

/-- `dirpred`, by the class of the predictor. `BPredComb` combines two two-level predictors
(in `dirpred.bimod` the GAg, in `dirpred.twolev` the PAg) through a table of choosers. -/
inductive DirPred
  | comb (bimod twolev : TwoLevel) (chooser : Bimod)
  | twoLevel (twolev : TwoLevel)
  | twoBit (bimod : Bimod)
  | taken
  | notTaken

/-- The field of `dirpred` whose table a counter pointer points into. -/
inductive Component
  | bimod | twolev | chooser
  deriving DecidableEq, Repr

/-- A pointer to a prediction counter. -/
structure CounterPtr where
  table : Component
  index : ℕ
  deriving DecidableEq, Repr

/-- `*p`. -/
def DirPred.read : DirPred → CounterPtr → ℕ
  | comb bimod _ _, ⟨.bimod, i⟩ => bimod.l2table.get i
  | comb _ twolev _, ⟨.twolev, i⟩ => twolev.l2table.get i
  | comb _ _ chooser, ⟨.chooser, i⟩ => chooser.table.get i
  | twoLevel twolev, ⟨.twolev, i⟩ => twolev.l2table.get i
  | twoBit bimod, ⟨.bimod, i⟩ => bimod.table.get i
  | _, _ => 0

/-- `*p = v`. -/
def DirPred.write : DirPred → CounterPtr → ℕ → DirPred
  | comb bimod twolev chooser, ⟨.bimod, i⟩, v =>
    comb { bimod with l2table := bimod.l2table.set i v } twolev chooser
  | comb bimod twolev chooser, ⟨.twolev, i⟩, v =>
    comb bimod { twolev with l2table := twolev.l2table.set i v } chooser
  | comb bimod twolev chooser, ⟨.chooser, i⟩, v =>
    comb bimod twolev { chooser with table := chooser.table.set i v }
  | twoLevel twolev, ⟨.twolev, i⟩, v =>
    twoLevel { twolev with l2table := twolev.l2table.set i v }
  | twoBit bimod, ⟨.bimod, i⟩, v => twoBit { bimod with table := bimod.table.set i v }
  | d, _, _ => d

/-- `bpred_btb_ent_t`. -/
structure BtbEnt where
  addr : MdAddr
  op : MdOpcode
  target : MdAddr
  prev : Option ℕ
  next : Option ℕ
  deriving DecidableEq, Repr

/-- A zeroed entry, as `calloc` leaves it. -/
instance : Inhabited BtbEnt := ⟨⟨0, .other, 0, none, none⟩⟩

/-- The branch target buffer. -/
structure Btb where
  sets : ℕ
  assoc : ℕ
  btbData : Table BtbEnt (sets * assoc)
  sets_ok : SizeOk sets
  assoc_ok : SizeOk assoc

/-- The return-address stack; `tos` is -1 when it has no entries. -/
structure RetStack where
  size : ℕ
  tos : ℤ
  stack : Table MdAddr size
  deriving DecidableEq, Repr

/-- The statistics of `bpred_t`. -/
structure Stats where
  addrHits : ℤ := 0
  dirHits : ℤ := 0
  usedRas : ℤ := 0
  usedBimod : ℤ := 0
  used2lev : ℤ := 0
  jrHits : ℤ := 0
  jrSeen : ℤ := 0
  jrNonRasHits : ℤ := 0
  jrNonRasSeen : ℤ := 0
  misses : ℤ := 0
  lookups : ℤ := 0
  retstackPops : ℤ := 0
  retstackPushes : ℤ := 0
  rasHits : ℤ := 0
  deriving DecidableEq, Repr

/-- `bpred_t`. -/
structure Predictor where
  dirpred : DirPred
  btb : Btb
  retstack : RetStack
  stats : Stats

/-- `bpred_update_t`: the counters a lookup used, and what it predicted. -/
structure UpdateRec where
  pdir1 : Option CounterPtr := none
  pdir2 : Option CounterPtr := none
  pmeta : Option CounterPtr := none
  dirRas : Bool := false
  dirBimod : Bool := false
  dirTwolev : Bool := false
  dirMeta : Bool := false
  deriving DecidableEq, Repr

/-! ### `bpred_create` -/

/-- The LRU links of a new BTB: each set is the list of its entries in order. -/
def btbLinks (sets assoc : ℕ) : Table BtbEnt (sets * assoc) :=
  forRange (assoc * sets)
    (fun data i =>
      if i % assoc ≠ assoc - 1 then
        (data.modify i fun e => { e with next := some (i + 1) }).modify (i + 1)
          fun e => { e with prev := some i }
      else data.modify i fun e => { e with next := none })
    (Table.replicate (sets * assoc) default)

/-- The BTB of `bpred_create`. -/
def btbCreate (sets assoc : ℕ) : Option Btb :=
  if h : SizeOk sets ∧ SizeOk assoc then
    some
      { sets, assoc
        btbData :=
          if assoc > 1 then btbLinks sets assoc else Table.replicate (sets * assoc) default
        sets_ok := h.1
        assoc_ok := h.2 }
  else none

/-- The return-address stack of `bpred_create`. -/
def retStackCreate (size : ℕ) : Option RetStack :=
  if size &&& (size - 1) = 0 then
    some { size, tos := (size : ℤ) - 1, stack := Table.replicate size 0 }
  else none

/-- `bpred_create` for `BPredComb`: its tables have fixed sizes. -/
def bpredCreateComb (btbSets btbAssoc retstackSize : ℕ) : Option Predictor := do
  let twolev ← bpredDirCreateTwoLevel 1024 1024 10 false
  let bimod ← bpredDirCreateTwoLevel 1 4096 12 false
  let chooser ← bpredDirCreateBimod 4096
  let btb ← btbCreate btbSets btbAssoc
  let retstack ← retStackCreate retstackSize
  return { dirpred := .comb bimod twolev chooser, btb, retstack, stats := {} }

/-- `bpred_create` for `BPred2Level`. -/
def bpredCreateTwoLevel (l1size l2size shiftWidth : ℕ) (xor : Bool)
    (btbSets btbAssoc retstackSize : ℕ) : Option Predictor := do
  let twolev ← bpredDirCreateTwoLevel l1size l2size shiftWidth xor
  let btb ← btbCreate btbSets btbAssoc
  let retstack ← retStackCreate retstackSize
  return { dirpred := .twoLevel twolev, btb, retstack, stats := {} }

/-- `bpred_create` for `BPred2bit`. -/
def bpredCreateBimod (bimodSize btbSets btbAssoc retstackSize : ℕ) : Option Predictor := do
  let b ← bpredDirCreateBimod bimodSize
  let btb ← btbCreate btbSets btbAssoc
  let retstack ← retStackCreate retstackSize
  return { dirpred := .twoBit b, btb, retstack, stats := {} }

/-! ### `bpred_lookup` -/

/-- The BTB set of a branch, as the index of its first entry. -/
def Btb.index (btb : Btb) (baddr : MdAddr) : ℕ :=
  ((baddr >>> mdBrShift) &&& BitVec.ofNat 64 (btb.sets - 1)).toNat * btb.assoc

/-- The BTB search of `bpred_lookup`: the first matching entry of the set. -/
def Btb.probe (btb : Btb) (baddr : MdAddr) : Option ℕ :=
  (List.range' (btb.index baddr) btb.assoc).find? fun i => (btb.btbData.get i).addr = baddr

/-- The direction predictors' part of `bpred_lookup` for a stateful predictor: the pointers to
the counters of a branch that is not a jump, and the directions they predict. -/
def DirPred.lookup (d : DirPred) (baddr : MdAddr) (upd : UpdateRec) : UpdateRec :=
  match d with
  | comb bimod twolev chooser =>
    let bimodPtr : CounterPtr := ⟨.bimod, bimod.l2index baddr⟩
    let twolevPtr : CounterPtr := ⟨.twolev, twolev.l2index baddr⟩
    let metaPtr : CounterPtr := ⟨.chooser, chooser.hash baddr⟩
    let upd := { upd with
      pmeta := some metaPtr
      dirMeta := d.read metaPtr ≥ 4
      dirBimod := d.read bimodPtr ≥ 2
      dirTwolev := d.read twolevPtr ≥ 4 }
    if d.read metaPtr ≥ 4 then { upd with pdir1 := some twolevPtr, pdir2 := some bimodPtr }
    else { upd with pdir1 := some bimodPtr, pdir2 := some twolevPtr }
  | twoLevel twolev => { upd with pdir1 := some ⟨.twolev, twolev.l2index baddr⟩ }
  | twoBit bimod => { upd with pdir1 := some ⟨.bimod, bimod.hash baddr⟩ }
  | taken | notTaken => upd

/-- What `bpred_lookup` returns and writes: the predicted target (1 for a direction only, 0
for not taken), the predictor, the update record and the recovery index. -/
structure LookupResult where
  target : MdAddr
  pred : Predictor
  dirUpdate : UpdateRec
  stackRecoverIdx : ℤ

/-- `lookups++`. -/
def Predictor.countLookup (pred : Predictor) : Predictor :=
  { pred with stats := { pred.stats with lookups := pred.stats.lookups + 1 } }

/-- The pop of the return-address stack. -/
def Predictor.popRetStack (pred : Predictor) : Predictor :=
  let rs := pred.retstack
  { pred with
    retstack := { rs with tos := (rs.tos + rs.size - 1) % rs.size }
    stats := { pred.stats with retstackPops := pred.stats.retstackPops + 1 } }

/-- The push of the return-address stack. -/
def Predictor.pushRetStack (pred : Predictor) (target : MdAddr) : Predictor :=
  let rs := pred.retstack
  let tos := (rs.tos + 1) % rs.size
  { pred with
    retstack := { rs with tos, stack := rs.stack.set tos.toNat target }
    stats := { pred.stats with retstackPushes := pred.stats.retstackPushes + 1 } }

section

variable (pred : Predictor) (target : MdAddr)

@[simp] theorem Predictor.countLookup_dirpred : pred.countLookup.dirpred = pred.dirpred := rfl
@[simp] theorem Predictor.countLookup_btb : pred.countLookup.btb = pred.btb := rfl
@[simp] theorem Predictor.countLookup_retstack : pred.countLookup.retstack = pred.retstack := rfl
@[simp] theorem Predictor.popRetStack_dirpred : pred.popRetStack.dirpred = pred.dirpred := rfl

@[simp] theorem Predictor.pushRetStack_dirpred :
    (pred.pushRetStack target).dirpred = pred.dirpred := rfl

@[simp] theorem Predictor.pushRetStack_btb : (pred.pushRetStack target).btb = pred.btb := rfl

end

/-- The direction and target `bpred_lookup` returns once the return-address stack is dealt
with: 1 where only the direction is known, 0 for not taken. -/
def Predictor.finalTarget (pred : Predictor) (baddr : MdAddr) (op : MdOpcode)
    (pdir1 : Option CounterPtr) : MdAddr :=
  let pbtb := pred.btb.probe baddr
  if op.isUncond then
    match pbtb with
    | some i => (pred.btb.btbData.get i).target
    | none => 1
  else
    let predicted := (pdir1.map pred.dirpred.read).getD 0
    match pbtb with
    | none => if predicted ≥ 2 then 1 else 0
    | some i => if predicted ≥ 2 then (pred.btb.btbData.get i).target else 0

/-- `bpred_lookup` past the direction predictors: the return-address stack, the BTB and the
final direction. -/
def Predictor.lookupTarget (pred : Predictor) (baddr : MdAddr) (op : MdOpcode)
    (isCall isReturn : Bool) (upd : UpdateRec) : LookupResult :=
  let stackRecoverIdx := if pred.retstack.size ≠ 0 then pred.retstack.tos else 0
  if isReturn ∧ pred.retstack.size ≠ 0 then
    { target := pred.retstack.stack.get pred.retstack.tos.toNat
      pred := pred.popRetStack
      dirUpdate := { upd with dirRas := true }
      stackRecoverIdx }
  else
    let pred :=
      if isCall ∧ pred.retstack.size ≠ 0 then pred.pushRetStack (baddr + sizeofMdInst) else pred
    { target := pred.finalTarget baddr op upd.pdir1, pred, dirUpdate := upd, stackRecoverIdx }

/-- The fields of the record that `bpred_lookup` clears first. -/
def UpdateRec.clear (upd : UpdateRec) : UpdateRec :=
  { upd with dirRas := false, pdir1 := none, pdir2 := none, pmeta := none }

/-- `bpred_lookup`. -/
def bpredLookup (pred : Predictor) (baddr btarget : MdAddr) (op : MdOpcode)
    (isCall isReturn : Bool) (upd : UpdateRec) (stackRecoverIdx : ℤ) : LookupResult :=
  if ¬ op.isCtrl then { target := 0, pred, dirUpdate := upd, stackRecoverIdx }
  else
    match pred.dirpred with
    | .taken =>
      { target := btarget, pred := pred.countLookup, dirUpdate := upd.clear, stackRecoverIdx }
    | .notTaken =>
      { target := if ¬ op.isUncond then baddr + sizeofMdInst else btarget
        pred := pred.countLookup, dirUpdate := upd.clear, stackRecoverIdx }
    | d =>
      pred.countLookup.lookupTarget baddr op isCall isReturn
        (if ¬ op.isUncond then d.lookup baddr upd.clear else upd.clear)

/-! ### `bpred_update` -/

/-- The statistics `bpred_update` keeps. `taken` and the other flags are C integers. -/
def Stats.update (st : Stats) (taken predTaken correct : BitVec 32) (op : MdOpcode)
    (upd : UpdateRec) : Stats :=
  let ok := correct ≠ 0
  let st := if ok then { st with addrHits := st.addrHits + 1 } else st
  let st :=
    if (predTaken ≠ 0 ↔ taken ≠ 0) then { st with dirHits := st.dirHits + 1 }
    else { st with misses := st.misses + 1 }
  let st :=
    if upd.dirRas then
      { st with
        usedRas := st.usedRas + 1
        rasHits := if ok then st.rasHits + 1 else st.rasHits }
    else if op.isCond then
      if upd.dirMeta then { st with used2lev := st.used2lev + 1 }
      else { st with usedBimod := st.usedBimod + 1 }
    else st
  if op.isIndir then
    let st := { st with
      jrSeen := st.jrSeen + 1
      jrHits := if ok then st.jrHits + 1 else st.jrHits }
    if ¬ upd.dirRas then
      { st with
        jrNonRasSeen := st.jrNonRasSeen + 1
        jrNonRasHits := if ok then st.jrNonRasHits + 1 else st.jrNonRasHits }
    else st
  else st

/-- The level-1 histories: `BPredComb` updates both its components, `BPred2Level` its one. -/
def DirPred.updateHistories (d : DirPred) (baddr : MdAddr) (taken : Bool) : DirPred :=
  match d with
  | comb bimod twolev chooser =>
    comb (bimod.updateHistory baddr taken) (twolev.updateHistory baddr taken) chooser
  | twoLevel twolev => twoLevel (twolev.updateHistory baddr taken)
  | d => d

/-- The local variables of the BTB loop of `bpred_update`. -/
structure BtbScan where
  pbtb : Option ℕ := none
  lruhead : Option ℕ := none
  lruitem : Option ℕ := none
  deriving DecidableEq, Repr

/-- One iteration of the BTB loop; `assert(!pbtb)` fails on a second match. The `dassert`s are
not compiled in. -/
def BtbScan.step {n : ℕ} (data : Table BtbEnt n) (baddr : MdAddr) (s : BtbScan) (i : ℕ) :
    Option BtbScan :=
  let e := data.get i
  if e.addr = baddr ∧ s.pbtb.isSome then none
  else
    some
      { pbtb := if e.addr = baddr then some i else s.pbtb
        lruhead := if e.prev = none then some i else s.lruhead
        lruitem := if e.next = none then some i else s.lruitem }

/-- The splice that makes entry `p` the head of its set's LRU list. -/
def btbMoveToFront {n : ℕ} (data : Table BtbEnt n) (p lruhead : ℕ) : Table BtbEnt n :=
  let data :=
    match (data.get p).prev with
    | some q => data.modify q fun e => { e with next := (data.get p).next }
    | none => data
  let data :=
    match (data.get p).next with
    | some q => data.modify q fun e => { e with prev := (data.get p).prev }
    | none => data
  let data := data.modify p fun e => { e with next := some lruhead, prev := none }
  data.modify lruhead fun e => { e with prev := some p }

/-- The BTB entry a taken branch is entered into, made the most recently used of its set. -/
def Btb.select (btb : Btb) (baddr : MdAddr) : Option (Btb × Option ℕ) :=
  let index := btb.index baddr
  if btb.assoc > 1 then do
    let s ← (List.range' index btb.assoc).foldlM (BtbScan.step btb.btbData baddr) {}
    let pbtb := if s.pbtb = none then s.lruitem else s.pbtb
    if pbtb ≠ s.lruhead then
      let p ← pbtb
      let h ← s.lruhead
      return ({ btb with btbData := btbMoveToFront btb.btbData p h }, some p)
    else return (btb, pbtb)
  else some (btb, some index)

/-- The BTB write at the end of `bpred_update`. -/
def Btb.enter (btb : Btb) (p : ℕ) (baddr btarget : MdAddr) (op : MdOpcode) (correct : Bool) :
    Btb :=
  { btb with
    btbData := btb.btbData.modify p fun e =>
      if e.addr = baddr then if ¬ correct then { e with target := btarget } else e
      else { e with addr := baddr, op, target := btarget } }

/-- `if (*p < limit) ++*p;` when taken, `if (*p > 0) --*p;` when not. -/
def DirPred.train (d : DirPred) (p : CounterPtr) (limit : ℕ) (taken : Bool) : DirPred :=
  if taken then if d.read p < limit then d.write p (d.read p + 1) else d
  else if d.read p > 0 then d.write p (d.read p - 1) else d

/-- The update of the first counter: three bits wide if the chooser now selects the two-level
predictor, else two. -/
def DirPred.trainPdir1 (d : DirPred) (upd : UpdateRec) (taken : Bool) : DirPred :=
  match upd.pdir1 with
  | none => d
  | some p =>
    let threeBit : Bool := match upd.pmeta with
      | some m => d.read m ≥ 4
      | none => false
    d.train p (if threeBit then 7 else 3) taken

/-- The update of the second counter: three bits wide if the chooser now selects the bimodal
predictor, else two. -/
def DirPred.trainPdir2 (d : DirPred) (upd : UpdateRec) (taken : Bool) : DirPred :=
  match upd.pdir2 with
  | none => d
  | some p =>
    let threeBit : Bool := match upd.pmeta with
      | some m => d.read m < 4
      | none => false
    d.train p (if threeBit then 7 else 3) taken

/-- The update of the chooser, towards the component that was right when they disagreed. -/
def DirPred.trainMeta (d : DirPred) (upd : UpdateRec) (taken : BitVec 32) : DirPred :=
  match upd.pmeta with
  | none => d
  | some m =>
    if upd.dirBimod ≠ upd.dirTwolev then
      d.train m 7 ((if upd.dirTwolev then 1 else 0) = taken)
    else d

/-- The counters after `bpred_update`. -/
def DirPred.updateCounters (d : DirPred) (upd : UpdateRec) (taken : BitVec 32) : DirPred :=
  ((d.trainPdir1 upd (taken ≠ 0)).trainPdir2 upd (taken ≠ 0)).trainMeta upd taken

/-- `bpred_update`. -/
def bpredUpdate (pred : Predictor) (baddr btarget : MdAddr) (taken predTaken correct : BitVec 32)
    (op : MdOpcode) (upd : UpdateRec) : Option Predictor :=
  if ¬ op.isCtrl then some pred
  else
    let pred := { pred with stats := pred.stats.update taken predTaken correct op upd }
    if op.isIndir ∧ upd.dirRas then some pred
    else
      match pred.dirpred with
      | .taken | .notTaken => some pred
      | d =>
        let d := if ¬ op.isUncond then d.updateHistories baddr (taken ≠ 0) else d
        let d := d.updateCounters upd taken
        if taken ≠ 0 then do
          let (btb, pbtb) ← pred.btb.select baddr
          let btb := match pbtb with
            | some p => btb.enter p baddr btarget op (correct ≠ 0)
            | none => btb
          return { pred with dirpred := d, btb }
        else some { pred with dirpred := d }

end AdvancedArchitecture.Bpred
