import Mathlib.Data.Int.Notation
import AdvancedArchitecture.Lib.LinkedList
import AdvancedArchitecture.Lib.PowTwo
import AdvancedArchitecture.Lib.Table

/-!
# The cache of `cache.c`

A shallow embedding of `cache_create`, `cache_access`, `cache_probe`, `cache_flush` and
`cache_flush_addr`. A pointer to a block is the index of the block in its set (with the set
where the pointer leaves it, as `last_blk` does), and a failed assertion, a null dereference or
a call of `fatal` gives `none`. The loops along the way lists and hash chains are those of
`searchFrom` and `foldFrom`.

A block is split into its links and the rest, its `Line`: what `cache_access` does to a block
once it has found it, it does to the line alone. The memory behind the cache and the random
numbers are parameters (`Extern`), threaded as a state of any type.

Parameter names, debug output and the statistics database are left out, and with them
`tag_mask`, which nothing reads.
-/

namespace AdvancedArchitecture.Cache

/-! ### Parameters -/

/-- `md_addr_t`. -/
abbrev MdAddr := BitVec 64

/-- `byte_t`. -/
abbrev Byte := BitVec 8

/-- `enum mem_cmd`. -/
inductive MemCmd
  | read | write
  deriving DecidableEq, Repr

/-- `enum cache_policy`. -/
inductive CachePolicy
  | lru | random | fifo | nru | drrip
  deriving DecidableEq, Repr

/-- `set_type`; `unset` is the 0 of a set that is not assigned one. -/
inductive SetType
  | unset | srrip | brrip | follower
  deriving DecidableEq, Repr, Inhabited

/-- `RRPV_MAX`. -/
def rrpvMax : ℤ := 7

/-- `BIPCTR_MAX`. -/
def bipctrMax : ℤ := 31

/-- `PSEL_LENGTH`. -/
def pselLength : ℕ := 10

/-- `PSEL_MAX`. -/
def pselMax : ℤ := 1023

/-- `PSEL_INIT`. -/
def pselInit : ℤ := 511

/-- The parameters of `cache_create`, as it accepts them: C integers, the sizes powers of two,
a block at least eight bytes. -/
structure Config where
  nsets : ℕ
  bsize : ℕ
  balloc : Bool
  usize : ℕ
  assoc : ℕ
  policy : CachePolicy
  hitLatency : ℕ
  nsets_ok : SizeOk nsets
  nsets_lt : nsets < 2 ^ 31
  bsize_ok : SizeOk bsize
  bsize_ge : 8 ≤ bsize
  bsize_lt : bsize < 2 ^ 31
  assoc_ok : SizeOk assoc
  assoc_lt : assoc < 2 ^ 31

namespace Config

variable (cfg : Config)

/-- `hsize`: the number of hash chains of a set, 0 unless `CACHE_HIGHLY_ASSOC`. -/
def hsize : ℕ := if cfg.assoc > 4 then cfg.assoc >>> 2 else 0

/-- `blk_mask`. -/
def blkMask : MdAddr := BitVec.ofNat 64 (cfg.bsize - 1)

/-- `set_mask`. -/
def setMask : MdAddr := BitVec.ofNat 64 (cfg.nsets - 1)

/-- `set_shift`: `log_base2(bsize)`. -/
def setShift : ℕ := cfg.bsize.log2

/-- `tag_shift`. -/
def tagShift : ℕ := cfg.setShift + cfg.nsets.log2

/-- `CACHE_TAG`. -/
def tag (addr : MdAddr) : MdAddr := addr >>> cfg.tagShift

/-- `CACHE_SET`. -/
def set (addr : MdAddr) : MdAddr := (addr >>> cfg.setShift) &&& cfg.setMask

/-- `CACHE_BLK`. -/
def blk (addr : MdAddr) : MdAddr := addr &&& cfg.blkMask

/-- `CACHE_TAGSET`, with `tagset_mask = ~blk_mask`. -/
def tagset (addr : MdAddr) : MdAddr := addr &&& ~~~cfg.blkMask

/-- `CACHE_BADDR`. -/
def baddr (addr : MdAddr) : MdAddr := addr &&& ~~~cfg.blkMask

/-- `CACHE_MK_BADDR`. -/
def mkBaddr (tag set : MdAddr) : MdAddr := (tag <<< cfg.tagShift) ||| (set <<< cfg.setShift)

/-- `CACHE_MK_BADDR` in `cache_flush`, where the set index is an `int` and is shifted as one. -/
def mkBaddrInt (tag : MdAddr) (i : ℕ) : MdAddr :=
  (tag <<< cfg.tagShift) ||| ((BitVec.ofNat 32 i) <<< cfg.setShift).signExtend 64

/-- `CACHE_HASH`. -/
def hash (key : MdAddr) : ℕ :=
  (((key >>> 24) ^^^ (key >>> 16) ^^^ (key >>> 8) ^^^ key) &&&
    BitVec.ofNat 64 (cfg.hsize - 1)).toNat

end Config

/-! ### Data types -/

/-- `cache_blk_t` without its links. `user_data` is the address of the block's user data. -/
structure Line (cfg : Config) where
  tag : MdAddr
  valid : Bool
  dirty : Bool
  ready : ℤ
  userData : Option ℕ
  nruBit : Bool
  rrpv : ℤ
  data : Table Byte cfg.bsize
  deriving DecidableEq

/-- `cache_blk_t`. -/
structure CacheBlk (cfg : Config) extends Line cfg where
  wayNext : Option ℕ
  wayPrev : Option ℕ
  hashNext : Option ℕ
  deriving DecidableEq

/-- A zeroed block, as `calloc` leaves it. -/
instance (cfg : Config) : Inhabited (Line cfg) :=
  ⟨⟨0, false, false, 0, none, false, 0, Table.replicate _ 0⟩⟩

instance (cfg : Config) : Inhabited (CacheBlk cfg) := ⟨⟨default, none, none, none⟩⟩

/-- `cache_set_t`. -/
structure CacheSet (cfg : Config) where
  hash : Table (Option ℕ) cfg.hsize
  wayHead : Option ℕ
  wayTail : Option ℕ
  blks : Table (CacheBlk cfg) cfg.assoc
  setType : SetType
  deriving DecidableEq

instance (cfg : Config) : Inhabited (CacheSet cfg) :=
  ⟨⟨Table.replicate _ none, none, none, Table.replicate _ default, .unset⟩⟩

/-- The statistics of `cache_t`, and what its sets share. -/
structure Regs where
  hits : ℤ := 0
  misses : ℤ := 0
  replacements : ℤ := 0
  writebacks : ℤ := 0
  invalidations : ℤ := 0
  bipctr : ℤ := 0
  psel : ℤ := pselInit
  busFree : ℤ := 0
  deriving DecidableEq, Repr

/-- `cache_t`. `lastBlk` is a set and a block in it. -/
structure CacheT (cfg : Config) where
  regs : Regs
  lastTagset : MdAddr
  lastBlk : Option (ℕ × ℕ)
  sets : Table (CacheSet cfg) cfg.nsets
  deriving DecidableEq

/-- What lies outside `cache.c`: `blk_access_fn`, which is given the data of a block and
returns a latency and the data it leaves, and `myrand`. -/
structure Extern (W : Type) (cfg : Config) where
  blkAccessFn : MemCmd → MdAddr → Table Byte cfg.bsize → ℤ → W → ℕ × Table Byte cfg.bsize × W
  myrand : W → ℕ × W

/-- The arguments of `cache_access`: `buf` is the buffer at `vp`. -/
structure Request where
  cmd : MemCmd
  addr : MdAddr
  buf : List Byte
  nbytes : BitVec 32
  now : ℤ
  deriving DecidableEq

/-- What `cache_access` returns: the latency, the buffer, `*udata` and `*repl_addr`. -/
structure Reply where
  lat : ℤ
  buf : List Byte
  udata : Option ℕ
  replAddr : MdAddr
  deriving DecidableEq

/-! ### Copying data -/

/-- The number of bytes `CACHE_BCOPY` copies. -/
def bcopyBytes (nbytes : BitVec 32) : ℕ :=
  if nbytes = 1 then 1 else if nbytes = 2 then 2 else if nbytes = 4 then 4
  else 4 * (nbytes.sshiftRight 2).toInt.toNat

/-- `CACHE_BCOPY`: the block's data and the buffer after the copy of `k` bytes at `bofs`. -/
def cacheBcopy {n : ℕ} (cmd : MemCmd) (data : Table Byte n) (bofs k : ℕ) (buf : List Byte) :
    Table Byte n × List Byte :=
  match cmd with
  | .read => (data, (List.range k).map (fun i => data.get (bofs + i)) ++ buf.drop k)
  | .write => (forRange k (fun d i => d.set (bofs + i) (buf.getD i 0)) data, buf)

/-- `BOUND_POS`. -/
def boundPos (n : ℤ) : ℤ := min (max 0 n) 2147483647

/-! ### Links of a set -/

namespace CacheSet

variable {cfg : Config}

/-- `*blk` rewritten. -/
def modifyBlk (s : CacheSet cfg) (i : ℕ) (f : CacheBlk cfg → CacheBlk cfg) : CacheSet cfg :=
  { s with blks := s.blks.modify i f }

/-- The line of a block rewritten. -/
def modifyLine (s : CacheSet cfg) (i : ℕ) (f : Line cfg → Line cfg) : CacheSet cfg :=
  s.modifyBlk i fun b => { b with toLine := f b.toLine }

/-- The line of a block. -/
def line (s : CacheSet cfg) (i : ℕ) : Line cfg := (s.blks.get i).toLine

/-- `blk->way_next`. -/
def wayNext (s : CacheSet cfg) (i : ℕ) : Option ℕ := (s.blks.get i).wayNext

/-- `blk->way_prev`. -/
def wayPrev (s : CacheSet cfg) (i : ℕ) : Option ℕ := (s.blks.get i).wayPrev

/-- `blk->hash_next`. -/
def hashNext (s : CacheSet cfg) (i : ℕ) : Option ℕ := (s.blks.get i).hashNext

/-- `blk->way_next = v`. -/
def setWayNext (s : CacheSet cfg) (i : ℕ) (v : Option ℕ) : CacheSet cfg :=
  s.modifyBlk i fun b => { b with wayNext := v }

/-- `blk->way_prev = v`. -/
def setWayPrev (s : CacheSet cfg) (i : ℕ) (v : Option ℕ) : CacheSet cfg :=
  s.modifyBlk i fun b => { b with wayPrev := v }

/-- `blk->hash_next = v`. -/
def setHashNext (s : CacheSet cfg) (i : ℕ) (v : Option ℕ) : CacheSet cfg :=
  s.modifyBlk i fun b => { b with hashNext := v }

/-- `set->way_head = v`. -/
def setWayHead (s : CacheSet cfg) (v : Option ℕ) : CacheSet cfg := { s with wayHead := v }

/-- `set->way_tail = v`. -/
def setWayTail (s : CacheSet cfg) (v : Option ℕ) : CacheSet cfg := { s with wayTail := v }

/-- `set->hash[index] = v`. -/
def setHash (s : CacheSet cfg) (index : ℕ) (v : Option ℕ) : CacheSet cfg :=
  { s with hash := s.hash.set index v }

/-- The loop of `unlink_htab_ent`: the predecessor of `blk` in its chain; the end of the chain
is the failed assertion. -/
def hashPrev (s : CacheSet cfg) (blk : ℕ) : ℕ → Option ℕ → Option ℕ → Option (Option ℕ)
  | 0, _, _ => none
  | _ + 1, _, none => none
  | fuel + 1, prev, some ent =>
    if ent = blk then some prev else s.hashPrev blk fuel (some ent) (s.hashNext ent)

/-- `unlink_htab_ent`. -/
def unlinkHtabEnt (s : CacheSet cfg) (blk : ℕ) : Option (CacheSet cfg) :=
  let index := cfg.hash (s.line blk).tag
  match s.hashPrev blk cfg.assoc none (s.hash.get index) with
  | none => none
  | some none => some ((s.setHash index (s.hashNext blk)).setHashNext blk none)
  | some (some p) => some ((s.setHashNext p (s.hashNext blk)).setHashNext blk none)

/-- `link_htab_ent`. -/
def linkHtabEnt (s : CacheSet cfg) (blk : ℕ) : CacheSet cfg :=
  let index := cfg.hash (s.line blk).tag
  (s.setHashNext blk (s.hash.get index)).setHash index (some blk)

/-- A block taken off its hash chain, if the set has any. -/
def unhash (s : CacheSet cfg) (blk : ℕ) : Option (CacheSet cfg) :=
  if cfg.hsize ≠ 0 then s.unlinkHtabEnt blk else some s

/-- A block put on its hash chain, if the set has any. -/
def rehash (s : CacheSet cfg) (blk : ℕ) : CacheSet cfg :=
  if cfg.hsize ≠ 0 then s.linkHtabEnt blk else s

/-- `enum list_loc_t`. -/
inductive ListLoc
  | head | tail
  deriving DecidableEq, Repr

/-- The second half of `update_way_list`: `blk` linked back into the list. -/
def linkWay (s : CacheSet cfg) (blk : ℕ) : ListLoc → Option (CacheSet cfg)
  | .head =>
    match s.wayHead with
    | none => none
    | some h =>
      some ((((s.setWayNext blk (some h)).setWayPrev blk none).setWayPrev h (some blk)).setWayHead
        (some blk))
  | .tail =>
    match s.wayTail with
    | none => none
    | some t =>
      some ((((s.setWayPrev blk (some t)).setWayNext blk none).setWayNext t (some blk)).setWayTail
        (some blk))

/-- `update_way_list`. -/
def updateWayList (s : CacheSet cfg) (blk : ℕ) (loc : ListLoc) : Option (CacheSet cfg) :=
  match s.wayPrev blk, s.wayNext blk with
  | none, none => if s.wayHead = some blk ∧ s.wayTail = some blk then some s else none
  | none, some n =>
    if s.wayHead = some blk ∧ s.wayTail ≠ some blk then
      if loc = .head then some s
      else ((s.setWayHead (some n)).setWayPrev n none).linkWay blk loc
    else none
  | some p, none =>
    if s.wayHead ≠ some blk ∧ s.wayTail = some blk then
      if loc = .tail then some s
      else ((s.setWayTail (some p)).setWayNext p none).linkWay blk loc
    else none
  | some p, some n =>
    if s.wayHead ≠ some blk ∧ s.wayTail ≠ some blk then
      ((s.setWayNext p (some n)).setWayPrev n (some p)).linkWay blk loc
    else none

/-- The reordering of the way list on a slow hit, under `LRU`. -/
def reorder (s : CacheSet cfg) (blk : ℕ) : Option (CacheSet cfg) :=
  if s.wayPrev blk ≠ none ∧ cfg.policy = .lru then s.updateWayList blk .head else some s

end CacheSet

/-! ### `cache_create` -/

/-- A new block put at the head of the way list. -/
def CacheSet.addWay {cfg : Config} (s : CacheSet cfg) (j : ℕ) : CacheSet cfg :=
  let s := (s.setWayNext j s.wayHead).setWayPrev j none
  let s := match s.wayHead with
    | some h => s.setWayPrev h (some j)
    | none => s
  let s := s.setWayHead (some j)
  if s.wayTail = none then s.setWayTail (some j) else s

/-- One iteration of the loop over the blocks of a set; `k` numbers the blocks of the cache. -/
def CacheSet.addBlk {cfg : Config} (i : ℕ) (s : CacheSet cfg) (j : ℕ) : CacheSet cfg :=
  let k := i * cfg.assoc + j
  let s := s.modifyLine j fun l =>
    { l with
      valid := false, dirty := false, tag := 0, ready := 0
      userData := if cfg.usize ≠ 0 then some k else none }
  ((s.rehash j).addWay j).modifyLine j fun l => { l with nruBit := true, rrpv := rrpvMax - 1 }

/-- The type of set `i`: the sets of each of the 32 groups are an SRRIP leader, followers and a
BRRIP leader. -/
def Config.setType (cfg : Config) (i : ℕ) : SetType :=
  if cfg.policy = .drrip then
    if i % (cfg.nsets / (bipctrMax + 1).toNat) = 0 then .srrip
    else if (i + 1) % (cfg.nsets / (bipctrMax + 1).toNat) = 0 then .brrip
    else .follower
  else .unset

/-- Set `i` of a new cache. -/
def CacheSet.create (cfg : Config) (i : ℕ) : CacheSet cfg :=
  forRange cfg.assoc (CacheSet.addBlk i) { (default : CacheSet cfg) with setType := cfg.setType i }

/-- `cache_create`. The set types of a DRRIP cache divide by `nsets/32`. -/
def cacheCreate (cfg : Config) : Option (CacheT cfg) :=
  if cfg.policy = .drrip ∧ cfg.nsets / (bipctrMax + 1).toNat = 0 then none
  else
    some
      { regs := {}
        lastTagset := 0
        lastBlk := none
        sets := Table.ofFn cfg.nsets (CacheSet.create cfg) }

/-! ### Victim selection -/

namespace CacheSet

variable {cfg : Config}

/-- The way-list lookup of a tag, or that of its hash chain. -/
def lookup (s : CacheSet cfg) (tag : MdAddr) : Option ℕ :=
  let isMatch := fun i => (s.line i).tag = tag ∧ (s.line i).valid
  if cfg.hsize ≠ 0 then
    searchFrom s.hashNext isMatch cfg.assoc (s.hash.get (cfg.hash tag))
  else searchFrom s.wayNext isMatch cfg.assoc s.wayHead

/-- `for (blk = way_head; blk; blk = blk->way_next) body(blk)`, on the lines. -/
def mapWays (s : CacheSet cfg) (f : Line cfg → Line cfg) : CacheSet cfg :=
  foldFrom wayNext (fun s i => s.modifyLine i f) cfg.assoc s.wayHead s

/-- The search loop of `NRU` and `DRRIP` from `blk` on: the first block that is `found`. At the
last block all are renewed and the loop goes on with the *second* block, since `blk = way_head`
is followed by `blk = blk->way_next`. A loop that ends leaves the victim unset. -/
def victimLoop (found : Line cfg → Bool) (renew : Line cfg → Line cfg) :
    ℕ → CacheSet cfg → Option ℕ → Option (ℕ × CacheSet cfg)
  | 0, _, _ => none
  | _ + 1, _, none => none
  | fuel + 1, s, some blk =>
    if found (s.line blk) then some (blk, s)
    else if s.wayNext blk = none then
      let s := s.mapWays renew
      match s.wayHead with
      | none => none
      | some h => victimLoop found renew fuel s (s.wayNext h)
    else victimLoop found renew fuel s (s.wayNext blk)

/-- The bound on the iterations of a search: one pass to find no victim, and one for each of
the `RRPV_MAX` rounds of renewal. -/
def victimFuel (cfg : Config) : ℕ := (rrpvMax.toNat + 1) * (cfg.assoc + 1)

/-- The victim of the `NRU` policy. -/
def nruVictim (s : CacheSet cfg) : Option (ℕ × CacheSet cfg) := do
  let (repl, s) ← victimLoop (fun l => l.nruBit) (fun l => { l with nruBit := true })
    (victimFuel cfg) s s.wayHead
  return (repl, s.modifyLine repl fun l => { l with nruBit := false })

end CacheSet

/-- The bimodal insertion: `RRPV_MAX - 1` once in `BIPCTR_MAX + 1` times. -/
def brripInsert (regs : Regs) : ℤ × Regs :=
  (if regs.bipctr = 0 then rrpvMax - 1 else rrpvMax,
    { regs with bipctr := if regs.bipctr = bipctrMax then 0 else regs.bipctr + 1 })

/-- The insertion value of a `DRRIP` victim, and the counters after the miss. -/
def drripInsert (setType : SetType) (regs : Regs) : ℤ × Regs :=
  match setType with
  | .srrip =>
    (rrpvMax - 1, { regs with psel := if regs.psel ≤ pselMax then regs.psel + 1 else regs.psel })
  | .brrip =>
    let (v, r) := brripInsert regs
    (v, { r with psel := if regs.psel > 0 then regs.psel - 1 else regs.psel })
  | _ => if regs.psel >>> (pselLength - 1) = 0 then (rrpvMax - 1, regs) else brripInsert regs

/-- The victim of the `DRRIP` policy. -/
def CacheSet.drripVictim {cfg : Config} (s : CacheSet cfg) (regs : Regs) :
    Option (ℕ × CacheSet cfg × Regs) := do
  let (repl, s) ← CacheSet.victimLoop (fun l => l.rrpv = rrpvMax)
    (fun l => { l with rrpv := l.rrpv + 1 }) (CacheSet.victimFuel cfg) s s.wayHead
  let (rrpv, regs) := drripInsert s.setType regs
  return (repl, s.modifyLine repl fun l => { l with rrpv }, regs)

/-- The block to replace on a miss, by policy. -/
def CacheSet.selectVictim {cfg : Config} {W : Type} (E : Extern W cfg) (s : CacheSet cfg)
    (regs : Regs) (w : W) : Option (ℕ × CacheSet cfg × Regs × W) :=
  match cfg.policy with
  | .lru | .fifo => do
    let repl ← s.wayTail
    let s ← s.updateWayList repl .head
    return (repl, s, regs, w)
  | .random =>
    let (r, w) := E.myrand w
    some (r &&& (cfg.assoc - 1), s, regs, w)
  | .nru => do
    let (repl, s) ← s.nruVictim
    return (repl, s, regs, w)
  | .drrip => do
    let (repl, s, regs) ← s.drripVictim regs
    return (repl, s, regs, w)

/-! ### `cache_access` -/

section

variable {W : Type} {cfg : Config}

/-- The replacement of the block in `line`: its write-back, if it is valid and dirty, and the
latency so far. Returns also `*repl_addr`. -/
def evictLine (E : Extern W cfg) (regs : Regs) (line : Line cfg) (set : MdAddr) (now : ℤ)
    (w : W) : ℤ × MdAddr × Line cfg × Regs × W :=
  if line.valid then
    let replAddr := cfg.mkBaddr line.tag set
    let lat := boundPos (line.ready - now)
    let lat := lat + boundPos (regs.busFree - (now + lat))
    let regs := { regs with
      replacements := regs.replacements + 1, busFree := max regs.busFree (now + lat) + 1 }
    if line.dirty then
      let (l, data, w) := E.blkAccessFn .write replAddr line.data (now + lat) w
      (lat + l, replAddr, { line with data }, { regs with writebacks := regs.writebacks + 1 }, w)
    else (lat, replAddr, line, regs, w)
  else (0, 0, line, regs, w)

/-- `CACHE_BCOPY` between a block's data and the buffer, if the blocks have data. -/
def Request.copy (req : Request) (data : Table Byte cfg.bsize) : Table Byte cfg.bsize × List Byte :=
  if cfg.balloc then
    cacheBcopy req.cmd data (cfg.blk req.addr).toNat (bcopyBytes req.nbytes) req.buf
  else (data, req.buf)

/-- The fill of a replaced block and the access to it. Returns the latency and the buffer. -/
def fillLine (E : Extern W cfg) (line : Line cfg) (req : Request) (lat : ℤ) (w : W) :
    ℤ × List Byte × Line cfg × W :=
  let (l, data, w) := E.blkAccessFn .read (cfg.baddr req.addr) line.data (req.now + lat) w
  let lat := lat + l
  let (data, buf) := req.copy data
  (lat, buf,
    { line with
      tag := cfg.tag req.addr, valid := true, dirty := req.cmd = .write
      ready := req.now + lat, data }, w)

/-- The access to a block that is hit: its data, its dirty bit and the buffer. -/
def hitLine (line : Line cfg) (req : Request) : List Byte × Line cfg :=
  let (data, buf) := req.copy line.data
  (buf, { line with data, dirty := if req.cmd = .write then true else line.dirty })

/-- The latency of a hit. -/
def hitLatency (line : Line cfg) (now : ℤ) : ℤ := max cfg.hitLatency (line.ready - now)

/-- What a hit does to the replacement bits of the block. -/
def promote (line : Line cfg) : Line cfg :=
  { line with
    nruBit := if cfg.policy = .nru then false else line.nruBit
    rrpv := if cfg.policy = .drrip then 0 else line.rrpv }

/-- The argument checks of `cache_access`: a size that is a power of two, an aligned address,
and an access that fits in its block. -/
def Request.ok (cfg : Config) (req : Request) : Bool :=
  req.nbytes &&& (req.nbytes - 1) = 0 ∧ req.addr &&& (req.nbytes - 1).signExtend 64 = 0 ∧
    req.addr + req.nbytes.signExtend 64 ≤
      (req.addr &&& ~~~cfg.blkMask) + BitVec.ofNat 64 cfg.bsize

namespace CacheT

/-- `cache_access` on a miss. -/
def miss (E : Extern W cfg) (c : CacheT cfg) (req : Request) (w : W) :
    Option (Reply × CacheT cfg × W) := do
  let set := (cfg.set req.addr).toNat
  let regs := { c.regs with misses := c.regs.misses + 1 }
  let (repl, s, regs, w) ← (c.sets.get set).selectVictim E regs w
  let s ← s.unhash repl
  let line := s.line repl
  let (lat, replAddr, line, regs, w) := evictLine E regs line (cfg.set req.addr) req.now w
  let (lat, buf, line, w) := fillLine E line req lat w
  let s := (s.modifyLine repl fun _ => line).rehash repl
  return ({ lat, buf, udata := line.userData, replAddr },
    { regs, lastTagset := 0, lastBlk := none, sets := c.sets.set set s }, w)

/-- `cache_hit`: the slow hit handler. -/
def cacheHit (c : CacheT cfg) (req : Request) (blk : ℕ) : Option (Reply × CacheT cfg) := do
  let set := (cfg.set req.addr).toNat
  let s := c.sets.get set
  let line := s.line blk
  let (buf, line) := hitLine line req
  let s ← (s.modifyLine blk fun _ => line).reorder blk
  let s := s.modifyLine blk promote
  return ({ lat := hitLatency line req.now, buf, udata := line.userData, replAddr := 0 },
    { c with
      regs := { c.regs with hits := c.regs.hits + 1 }
      lastTagset := cfg.tagset req.addr
      lastBlk := some (set, blk)
      sets := c.sets.set set s })

/-- `cache_fast_hit`: the fast hit handler, on the block of the last hit. -/
def cacheFastHit (c : CacheT cfg) (req : Request) (set blk : ℕ) : Reply × CacheT cfg :=
  let line := (c.sets.get set).line blk
  let (buf, line) := hitLine line req
  ({ lat := hitLatency line req.now, buf, udata := line.userData, replAddr := 0 },
    { c with
      regs := { c.regs with hits := c.regs.hits + 1 }
      lastTagset := cfg.tagset req.addr
      lastBlk := some (set, blk)
      sets := c.sets.set set ((c.sets.get set).modifyLine blk fun _ => line) })

/-- `cache_access`. -/
def access (E : Extern W cfg) (c : CacheT cfg) (req : Request) (w : W) :
    Option (Reply × CacheT cfg × W) :=
  if ¬ req.ok cfg then none
  else if cfg.tagset req.addr = c.lastTagset then
    match c.lastBlk with
    | none => none
    | some (set, blk) => some ((c.cacheFastHit req set blk).1, (c.cacheFastHit req set blk).2, w)
  else
    match (c.sets.get (cfg.set req.addr).toNat).lookup (cfg.tag req.addr) with
    | some blk => (c.cacheHit req blk).map fun r => (r.1, r.2, w)
    | none => c.miss E req w

/-! ### `cache_probe`, `cache_flush` and `cache_flush_addr` -/

/-- `cache_probe`. -/
def probe (c : CacheT cfg) (addr : MdAddr) : Bool :=
  ((c.sets.get (cfg.set addr).toNat).lookup (cfg.tag addr)).isSome

end CacheT

/-- The invalidation of a valid block, and its write-back to `baddr` if it is dirty. The dirty
bit stays. -/
def invalidateLine (E : Extern W cfg) (lat : ℤ) (regs : Regs) (line : Line cfg)
    (baddr : MdAddr) (now : ℤ) (w : W) : ℤ × Line cfg × Regs × W :=
  let line := { line with valid := false }
  let regs := { regs with invalidations := regs.invalidations + 1 }
  if line.dirty then
    let (l, data, w) := E.blkAccessFn .write baddr line.data (now + lat) w
    (lat + l, { line with data }, { regs with writebacks := regs.writebacks + 1 }, w)
  else (lat, line, regs, w)

/-- The state of the inner loop of `cache_flush`. -/
structure FlushState (W : Type) (cfg : Config) where
  lat : ℤ
  set : CacheSet cfg
  regs : Regs
  world : W

/-- The body of the inner loop of `cache_flush`, on block `blk` of set `i`. -/
def flushBlk (E : Extern W cfg) (now : ℤ) (i : ℕ) (f : FlushState W cfg) (blk : ℕ) :
    FlushState W cfg :=
  let line := f.set.line blk
  if line.valid then
    let (lat, line, regs, w) :=
      invalidateLine E f.lat f.regs line (cfg.mkBaddrInt line.tag i) now f.world
    { lat, set := f.set.modifyLine blk fun _ => line, regs, world := w }
  else f

namespace CacheT

/-- The body of the outer loop of `cache_flush`. -/
def flushSet (E : Extern W cfg) (now : ℤ) (a : ℤ × CacheT cfg × W) (i : ℕ) :
    ℤ × CacheT cfg × W :=
  let (lat, c, w) := a
  let s := c.sets.get i
  let f := foldFrom (fun f j => f.set.wayNext j) (flushBlk E now i) cfg.assoc s.wayHead
    { lat, set := s, regs := c.regs, world := w }
  (f.lat, { c with regs := f.regs, sets := c.sets.set i f.set }, f.world)

/-- `cache_flush`: the latency of the flush, and the cache. -/
def flush (E : Extern W cfg) (c : CacheT cfg) (now : ℤ) (w : W) : ℤ × CacheT cfg × W :=
  forRange cfg.nsets (flushSet E now)
    ((cfg.hitLatency : ℤ), { c with lastTagset := 0, lastBlk := none }, w)

/-- `cache_flush_addr`. -/
def flushAddr (E : Extern W cfg) (c : CacheT cfg) (addr : MdAddr) (now : ℤ) (w : W) :
    Option (ℤ × CacheT cfg × W) :=
  let set := (cfg.set addr).toNat
  let s := c.sets.get set
  match s.lookup (cfg.tag addr) with
  | none => some ((cfg.hitLatency : ℤ), c, w)
  | some blk => do
    let line := s.line blk
    let (lat, line, regs, w) := invalidateLine E cfg.hitLatency c.regs line
      (cfg.mkBaddr line.tag (cfg.set addr)) now w
    let s ← (s.modifyLine blk fun _ => line).updateWayList blk .tail
    return (lat, { regs, lastTagset := 0, lastBlk := none, sets := c.sets.set set s }, w)

end CacheT

/-! ### Sequences of calls -/

/-- A call of the cache. -/
inductive Op
  | access (req : Request)
  | probe (addr : MdAddr)
  | flush (now : ℤ)
  | flushAddr (addr : MdAddr) (now : ℤ)
  deriving DecidableEq

/-- What a call answers. -/
inductive Answer
  | reply (r : Reply)
  | found (b : Bool)
  | latency (lat : ℤ)
  deriving DecidableEq

/-- One call. -/
def CacheT.step (E : Extern W cfg) (s : CacheT cfg × W) (op : Op) :
    Option (Answer × (CacheT cfg × W)) :=
  match op with
  | .access req => (s.1.access E req s.2).map fun r => (.reply r.1, r.2)
  | .probe addr => some (.found (s.1.probe addr), s)
  | .flush now =>
    let r := s.1.flush E now s.2
    some (.latency r.1, r.2)
  | .flushAddr addr now => (s.1.flushAddr E addr now s.2).map fun r => (.latency r.1, r.2)

/-- The same memory, recording the calls of `blk_access_fn`. -/
def Extern.logged (E : Extern W cfg) : Extern (W × List (MemCmd × MdAddr)) cfg where
  blkAccessFn cmd baddr data now w :=
    let (l, data, w') := E.blkAccessFn cmd baddr data now w.1
    (l, data, w', w.2 ++ [(cmd, baddr)])
  myrand w :=
    let (r, w') := E.myrand w.1
    (r, w', w.2)

end

end AdvancedArchitecture.Cache
