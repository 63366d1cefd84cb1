import AdvancedArchitecture.Cache.Contents

/-!
# Transparency

A cache in front of a memory, with `blk_access_fn` copying blocks between the two
(`Extern.Backs`), answers reads as the memory alone would (`transparency`): through hits on the
list or the hash chains, fast hits, misses that evict, and blocks that were invalidated with
their dirty bit left on. After `cache_flush` the memory holds what was written.

The memory alone is `flatStep`. What a reader of the cache sees is the view of its write-back
store, and the accesses change a byte of the view as they change the flat memory.
-/

namespace AdvancedArchitecture.Cache

variable {W : Type} {cfg : Config} {E : Extern W cfg}

/-! ### Memory -/

/-- `blk_access_fn` copies whole blocks between the data of a block and the byte memory `mem`,
and `myrand` leaves the memory alone. -/
structure Extern.Backs (E : Extern W cfg) (mem : W → MdAddr → Byte) : Prop where
  write : ∀ (b : cfg.Block) data now w addr, mem (E.blkAccessFn .write b data now w).2.2 addr =
    if cfg.block addr = b then data.get (cfg.blk addr).toNat else mem w addr
  read : ∀ (b : cfg.Block) data now w addr, cfg.block addr = b →
    (E.blkAccessFn .read b data now w).2.1.get (cfg.blk addr).toNat = mem w addr
  read_mem : ∀ (b : cfg.Block) data now w, mem (E.blkAccessFn .read b data now w).2.2 = mem w
  myrand : ∀ w, mem (E.myrand w).2 = mem w

/-- The number of bytes of an access. -/
def Request.size (req : Request) : ℕ := req.nbytes.toInt.toNat

/-- An access to a flat memory: the buffer it leaves, and the memory. -/
def flatAccess (m : MdAddr → Byte) (req : Request) : List Byte × (MdAddr → Byte) :=
  match req.cmd with
  | .read =>
    ((List.range req.size).map (fun i => m (req.addr + BitVec.ofNat 64 i)) ++
      req.buf.drop req.size, m)
  | .write =>
    (req.buf, forRange req.size
      (fun m i => Function.update m (req.addr + BitVec.ofNat 64 i) (req.buf.getD i 0)) m)

/-- One call on a flat memory: the buffer that it leaves, if it is an access, and the memory. -/
def flatStep (m : MdAddr → Byte) : Op → Option (Option (List Byte) × (MdAddr → Byte))
  | .access req => some (some (flatAccess m req).1, (flatAccess m req).2)
  | _ => some (none, m)

/-- The buffer that a call leaves. -/
def Answer.buffer : Answer → Option (List Byte)
  | .reply r => some r.buf
  | _ => none

/-- A call whose access, if it is one, is to one block that is not block 0. -/
def Op.Contained (cfg : Config) : Op → Prop
  | .access req => cfg.baddr req.addr ≠ 0 ∧ (cfg.blk req.addr).toNat + req.size ≤ cfg.bsize
  | _ => True

instance (cfg : Config) : ∀ op : Op, Decidable (op.Contained cfg)
  | .access _ => inferInstanceAs (Decidable (_ ∧ _))
  | .probe _ | .flush _ | .flushAddr _ _ => isTrue trivial

/-! ### Bytes and blocks -/

/-- The data of a block in a byte memory. -/
def blockData (cfg : Config) (m : MdAddr → Byte) (b : cfg.Block) : cfg.Data :=
  Table.ofFn cfg.bsize fun i => m (b + BitVec.ofNat 64 i)

theorem Config.blk_lt (addr : MdAddr) : (cfg.blk addr).toNat < cfg.bsize := by
  rw [blk_toNat]
  exact Nat.mod_lt _ cfg.bsize_ok.pos

/-- The address of a byte of a block. -/
theorem Config.addr_eq (cfg : Config) (addr : MdAddr) :
    cfg.baddr addr + BitVec.ofNat 64 (cfg.blk addr).toNat = addr := by
  rw [← BitVec.toNat_inj, BitVec.toNat_add, BitVec.ofNat_toNat, BitVec.setWidth_eq, baddr_add_blk]
  exact Nat.mod_eq_of_lt addr.isLt

theorem blockData_get (cfg : Config) (m : MdAddr → Byte) (addr : MdAddr) :
    (blockData cfg m (cfg.block addr)).get (cfg.blk addr).toNat = m addr := by
  rw [blockData, Table.get_ofFn (Config.blk_lt addr)]
  exact congrArg m (cfg.addr_eq addr)

/-- Every byte of a block has an address. -/
theorem Config.exists_addr (b : cfg.Block) {i : ℕ} (hi : i < cfg.bsize) :
    ∃ addr, cfg.block addr = b ∧ (cfg.blk addr).toNat = i := by
  have hz : (cfg.blk b).toNat = 0 := by
    have h := baddr_add_blk cfg b
    rw [b.2] at h
    omega
  obtain ⟨hb, hk⟩ := add_ofNat cfg b (i := i) (by omega)
  refine ⟨b + BitVec.ofNat 64 i, Subtype.ext (hb.trans b.2), ?_⟩
  omega

/-- Data with the same bytes. -/
theorem data_ext {d d' : cfg.Data} (b : cfg.Block)
    (h : ∀ addr, cfg.block addr = b → d.get (cfg.blk addr).toNat = d'.get (cfg.blk addr).toNat) :
    d = d' := by
  refine Table.ext_get fun i hi => ?_
  obtain ⟨addr, hb, rfl⟩ := Config.exists_addr b hi
  exact h addr hb

/-- A memory of bytes is a memory of blocks. -/
theorem Extern.Backs.bus {mem : W → MdAddr → Byte} (h : E.Backs mem) :
    E.bus.Backs fun w => blockData cfg (mem w) := by
  refine ⟨fun t b x w => funext fun b' => ?_, fun t b x w => ?_, fun t b x w => ?_⟩
  · refine data_ext b' fun addr hb => ?_
    rw [← hb, blockData_get]
    refine (h.write b x t w addr).trans ?_
    by_cases hbb : cfg.block addr = b
    · rw [if_pos hbb, hbb, Function.update_self]
    · rw [if_neg hbb, Function.update_of_ne hbb, blockData_get]
  · refine data_ext b fun addr hb => ?_
    refine (h.read b x t w addr hb).trans ?_
    rw [← hb, blockData_get]
  · rw [Extern.bus, h.read_mem]

theorem blockData_inj (cfg : Config) {m m' : MdAddr → Byte}
    (h : blockData cfg m = blockData cfg m') : m = m' := by
  funext addr
  rw [← blockData_get cfg m, ← blockData_get cfg m', h]

/-! ### Accesses -/

/-- `CACHE_BCOPY` copies as many bytes as the access has. -/
theorem bcopyBytes_eq {n : BitVec 32} (h : n &&& (n - 1) = 0) : bcopyBytes n = n.toInt.toNat := by
  by_cases hz : n = 0
  · rw [hz]
    decide
  · have hpos : 0 < n.toNat := Nat.pos_of_ne_zero fun h0 => hz (BitVec.eq_of_toNat_eq h0)
    have hsub : (n - 1).toNat = n.toNat - 1 := by
      have h1 : (1 : BitVec 32).toNat = 1 := rfl
      rw [BitVec.toNat_sub_of_le (by rw [BitVec.le_def, h1]; omega), h1]
    have hok : SizeOk n.toNat := by
      refine ⟨by omega, ?_⟩
      have hand := congrArg BitVec.toNat h
      rwa [BitVec.toNat_and, hsub] at hand
    have hpow : n = BitVec.ofNat 32 (2 ^ n.toNat.log2) := by
      rw [hok.two_pow_log2, BitVec.ofNat_toNat, BitVec.setWidth_eq]
    have hlog : n.toNat.log2 < 32 := by
      rw [Nat.log2_lt (by omega)]
      exact n.isLt
    have hall : ∀ k < 32, bcopyBytes (BitVec.ofNat 32 (2 ^ k)) =
        (BitVec.ofNat 32 (2 ^ k)).toInt.toNat := by decide
    rw [hpow]
    exact hall _ hlog

/-- A byte written to a memory is written to its block. -/
theorem blockData_update (m : MdAddr → Byte) (addr : MdAddr) (v : Byte) :
    blockData cfg (Function.update m addr v) = Function.update (blockData cfg m) (cfg.block addr)
      ((blockData cfg m (cfg.block addr)).set (cfg.blk addr).toNat v) := by
  funext b
  refine data_ext b fun addr' hb => ?_
  rw [← hb, blockData_get]
  by_cases hba : cfg.block addr' = cfg.block addr
  · rw [hba, Function.update_self]
    by_cases ha : addr' = addr
    · rw [ha, Function.update_self, Table.get_set_self _ (Config.blk_lt addr)]
    · have hk : (cfg.blk addr').toNat ≠ (cfg.blk addr).toNat := fun hk => ha (by
        rw [← cfg.addr_eq addr', ← cfg.addr_eq addr, hk,
          show cfg.baddr addr' = cfg.baddr addr from congrArg Subtype.val hba])
      rw [Function.update_of_ne ha, Table.get_set_ne _ hk, ← hba, blockData_get]
  · have ha : addr' ≠ addr := fun ha => hba (by rw [ha])
    rw [Function.update_of_ne ha, Function.update_of_ne hba, blockData_get]

/-- **An access to a block** is an access to a flat memory with the same bytes. -/
theorem flatAccess_eq (hb : cfg.balloc = true) {req : Request} (hok : req.ok cfg = true)
    (hsize : (cfg.blk req.addr).toNat + req.size ≤ cfg.bsize) (m : MdAddr → Byte) :
    (flatAccess m req).1 = (req.copy (blockData cfg m (cfg.block req.addr))).2 ∧
      blockData cfg (flatAccess m req).2 = Function.update (blockData cfg m)
        (cfg.block req.addr) (req.copy (blockData cfg m (cfg.block req.addr))).1 := by
  have hk : bcopyBytes req.nbytes = req.size := by
    rw [Request.ok, decide_eq_true_eq] at hok
    exact bcopyBytes_eq hok.1
  -- the bytes of the access are in the block
  have hin : ∀ i < req.size, cfg.block (req.addr + BitVec.ofNat 64 i) = cfg.block req.addr ∧
      (cfg.blk (req.addr + BitVec.ofNat 64 i)).toNat = (cfg.blk req.addr).toNat + i := by
    intro i hi
    obtain ⟨hba, hbl⟩ := cfg.add_ofNat req.addr (i := i) (by omega)
    exact ⟨Subtype.ext hba, hbl⟩
  rw [Request.copy, if_pos hb, hk, flatAccess, cacheBcopy.eq_def]
  rcases req.cmd with _ | _ <;> dsimp only
  · refine ⟨congrArg (· ++ req.buf.drop req.size) (List.map_congr_left fun i hi => ?_), ?_⟩
    · obtain ⟨hbi, hki⟩ := hin i (List.mem_range.mp hi)
      rw [← hki, ← hbi, blockData_get]
    · rw [Function.update_eq_self]
  · refine ⟨rfl, ?_⟩
    -- the two loops write the same bytes
    refine forRange_rel (r := fun m' d =>
      blockData cfg m' = Function.update (blockData cfg m) (cfg.block req.addr) d) ?_ ?_
    · rw [Function.update_eq_self]
    · intro i hi m' d hd
      obtain ⟨hbi, hki⟩ := hin i hi
      rw [blockData_update, hbi, hki, hd, Function.update_self, Function.update_idem]

/-! ### Transparency -/

/-- A read leaves the data of its block. -/
theorem copy_of_ne_write {req : Request} (h : req.cmd ≠ .write) (data : cfg.Data) :
    (req.copy data).1 = data := by
  rw [Request.copy]
  split_ifs
  · rw [cacheBcopy.eq_def]
    rcases hc : req.cmd with _ | _
    · rfl
    · exact absurd hc h
  · rfl

/-- The cache and the memory behind it show the memory `m`. -/
def Shows (mem : W → MdAddr → Byte) (s : CacheT cfg × W) (m : MdAddr → Byte) : Prop :=
  ∃ st : WriteBack cfg.Block cfg.Data W, Stores s.1 s.2 st ∧
    st.Clean (fun w => blockData cfg (mem w)) ∧
    st.view (fun w => blockData cfg (mem w)) = blockData cfg m

section access

variable {mem : W → MdAddr → Byte} {st st₁ : WriteBack cfg.Block cfg.Data W} {m : MdAddr → Byte}
  {req : Request}

/-- **A hit** reads and writes the bytes of the memory that is shown. -/
theorem view_hit (hb : cfg.balloc = true) (hok : req.ok cfg = true)
    (hsize : (cfg.blk req.addr).toNat + req.size ≤ cfg.bsize)
    (hclean : st.Clean fun w => blockData cfg (mem w))
    (hview : st.view (fun w => blockData cfg (mem w)) = blockData cfg m) {e : Entry cfg.Data}
    (he : st.blocks (cfg.block req.addr) = some e) :
    (req.copy e.data).2 = (flatAccess m req).1 ∧
      (st.touch (cfg.block req.addr) req.touch).Clean (fun w => blockData cfg (mem w)) ∧
      (st.touch (cfg.block req.addr) req.touch).view (fun w => blockData cfg (mem w)) =
        blockData cfg (flatAccess m req).2 := by
  -- the entry of the block has the bytes of the memory
  have hdata : e.data = blockData cfg m (cfg.block req.addr) := by
    rw [← hview, WriteBack.view_of_some he]
  obtain ⟨hbytes, hmem⟩ := flatAccess_eq hb hok hsize m
  obtain ⟨hv, hc⟩ := WriteBack.view_touch (f := req.touch) hclean he fun e' hd => by
    have hcmd : req.cmd ≠ .write := fun hcmd => by simp [Request.touch, hcmd] at hd
    refine ⟨by simpa [Request.touch, hcmd] using hd, copy_of_ne_write hcmd e'.data⟩
  refine ⟨by rw [hdata, hbytes], hc, ?_⟩
  rw [hv, hmem, hview, ← hdata]
  rfl

/-- **A miss** fetches the bytes of the memory that is shown, reads them and writes them. -/
theorem view_miss (hE : E.Backs mem) (hb : cfg.balloc = true) (hok : req.ok cfg = true)
    (hsize : (cfg.blk req.addr).toNat + req.size ≤ cfg.bsize)
    (hclean : st.Clean fun w => blockData cfg (mem w))
    (hview : st.view (fun w => blockData cfg (mem w)) = blockData cfg m)
    (hn : st.blocks (cfg.block req.addr) = none) {w : W} (hw : mem w = mem st.world)
    {addr : MdAddr} (hev : Evicts E { st with world := w } st₁ addr) (now : ℤ) (old : cfg.Data) :
    (req.copy (E.bus.read now (cfg.block req.addr) old st₁.world).1).2 = (flatAccess m req).1 ∧
      (st₁.fill E.bus now (cfg.block req.addr) old req.enter).Clean
        (fun w => blockData cfg (mem w)) ∧
      (st₁.fill E.bus now (cfg.block req.addr) old req.enter).view
        (fun w => blockData cfg (mem w)) = blockData cfg (flatAccess m req).2 := by
  have hmem : blockData cfg (mem w) = blockData cfg (mem st.world) := by rw [hw]
  have hclean' : WriteBack.Clean (fun w => blockData cfg (mem w)) { st with world := w } :=
    WriteBack.clean_world hmem hclean
  have hview' : WriteBack.view (fun w => blockData cfg (mem w)) { st with world := w } =
      blockData cfg m := (WriteBack.view_world hmem).trans hview
  obtain ⟨hv₁, hc₁⟩ := hev.drops.view hE.bus hclean'
  rw [hview'] at hv₁
  have hn₁ : st₁.blocks (cfg.block req.addr) = none := by
    rcases hev.drops.blocks (cfg.block req.addr) with h | h
    · exact h.trans hn
    · exact h
  -- the bytes that are fetched are those of the memory
  have hread : (E.bus.read now (cfg.block req.addr) old st₁.world).1 =
      blockData cfg m (cfg.block req.addr) := by
    rw [hE.bus.read, ← hv₁, WriteBack.view_of_none hn₁]
  obtain ⟨hbytes, hmem'⟩ := flatAccess_eq hb hok hsize m
  obtain ⟨hv, hc⟩ := WriteBack.view_fill (t := now) (f := req.enter) hE.bus hc₁ hn₁ old
    fun x hd => copy_of_ne_write (by simpa [Request.enter] using hd) x
  refine ⟨by rw [hread, hbytes], hc, ?_⟩
  rw [hv, hmem', hv₁]
  rfl

end access

/-- **One call** of the cache is one call on the memory that it shows. -/
theorem Shows.step {mem : W → MdAddr → Byte} (hE : E.Backs mem) (hb : cfg.balloc = true)
    (hfit : cfg.nsets * cfg.bsize < 2 ^ 31) {s s' : CacheT cfg × W} {m : MdAddr → Byte}
    (h : Shows mem s m) {op : Op} (hop : op.Contained cfg) {ans : Answer}
    (hs : CacheT.step E s op = some (ans, s')) :
    ∃ m', flatStep m op = some (ans.buffer, m') ∧ Shows mem s' m' ∧
      ∀ now, op = .flush now → mem s'.2 = m' := by
  obtain ⟨st, hst, hclean, hview⟩ := h
  have hzero : op.OutsideZero cfg := by
    cases op with
    | access req => exact hop.1
    | _ => trivial
  obtain ⟨st', hcall, hst'⟩ := hst.step hfit hzero hs
  -- case by case what a call does to the store
  cases hcall with
  | @hit req r e hok he hbuf hrepl =>
    obtain ⟨hbytes, hc, hv⟩ := view_hit hb hok hop.2 hclean hview he
    exact ⟨_, by rw [flatStep, Answer.buffer, hbuf, hbytes], ⟨_, hst', hc, hv⟩, by simp⟩
  | @miss req r w st₁ now old hok hn hw hev hbuf =>
    have hworld : mem w = mem st.world := by
      rcases hw with rfl | rfl
      · rfl
      · exact hE.myrand _
    obtain ⟨hbytes, hc, hv⟩ := view_miss hE hb hok hop.2 hclean hview hn hworld hev now old
    exact ⟨_, by rw [flatStep, Answer.buffer, hbuf, hbytes], ⟨_, hst', hc, hv⟩, by simp⟩
  | probe addr b => exact ⟨m, rfl, ⟨st, hst', hclean, hview⟩, by simp⟩
  | flush hd hn =>
    obtain ⟨hv, hc⟩ := hd.view hE.bus hclean
    refine ⟨m, rfl, ⟨st', hst', hc, hv.trans hview⟩, fun now _ => blockData_inj cfg ?_⟩
    rw [← hview, ← hv, WriteBack.view_of_empty hn, hst'.world]
  | flushAddr addr now lat t =>
    obtain ⟨hv, hc⟩ := WriteBack.view_drop (t := t) (b := cfg.block addr) hE.bus hclean
    exact ⟨m, rfl, ⟨_, hst', hc, hv.trans hview⟩, by simp⟩

/-- **Transparency.** The reads of a cache with a memory behind it are those of the memory alone,
and after a flush the memory holds what was written. -/
theorem transparency {mem : W → MdAddr → Byte} (hE : E.Backs mem) (hb : cfg.balloc = true)
    (hfit : cfg.nsets * cfg.bsize < 2 ^ 31) {c : CacheT cfg} (hc : cacheCreate cfg = some c) (w : W)
    {ops : List Op} (hops : ∀ op ∈ ops, op.Contained cfg) {answers : List Answer}
    {c' : CacheT cfg} {w' : W}
    (hr : run (CacheT.step E) (c, w) ops = some (answers, (c', w'))) :
    ∃ m, run flatStep (mem w) ops = some (answers.map Answer.buffer, m) ∧
      ∀ pre now, ops = pre ++ [.flush now] → mem w' = m := by
  obtain ⟨st, hst, hempty⟩ := Stores.create hc w
  have hshows : Shows mem (c, w) (mem w) := by
    refine ⟨st, hst, fun b e he => absurd (he.symm.trans (hempty b)) (by simp), ?_⟩
    rw [WriteBack.view_of_empty hempty, hst.world]
  have hstep : ∀ s m op ans s', Shows mem s m → op.Contained cfg →
      CacheT.step E s op = some (ans, s') →
      ∃ m', flatStep m op = some (ans.buffer, m') ∧ Shows mem s' m' := by
    intro s m op ans s' h hop hs
    obtain ⟨m', hm, hs', -⟩ := h.step hE hb hfit hop hs
    exact ⟨m', hm, hs'⟩
  obtain ⟨m, hm, -⟩ := run_simulation hstep hops hshows hr
  refine ⟨m, hm, ?_⟩
  rintro pre now rfl
  -- the state before the flush shows the memory before the flush
  obtain ⟨s₁, as₁, as₂, hpre, hlast, rfl⟩ := (run_append _).mp hr
  obtain ⟨ans, s₂, as₃, hs₂, hnil, rfl⟩ := (run_cons_eq_some _).mp hlast
  obtain ⟨-, rfl⟩ := Prod.mk.inj (Option.some.inj hnil)
  obtain ⟨m₁, hm₁, hshows₁⟩ := run_simulation hstep
    (fun op hop => hops op (List.mem_append_left _ hop)) hshows hpre
  obtain ⟨m₂, hm₂, -, hflush⟩ := hshows₁.step hE hb hfit (hops (.flush now) (by simp)) hs₂
  rw [hflush now rfl]
  have hrun : run flatStep (mem w) (pre ++ [.flush now]) =
      some (as₁.map Answer.buffer ++ [ans.buffer], m₂) :=
    (run_append _).mpr ⟨m₁, _, _, hm₁, (run_cons_eq_some _).mpr ⟨_, _, _, hm₂, rfl, rfl⟩, rfl⟩
  rw [hrun] at hm
  exact (Prod.mk.inj (Option.some.inj hm)).2

/-- A memory that is the list of the blocks written to it, the last one first. -/
def journal (cfg : Config) : Extern (List (MdAddr × cfg.Data)) cfg where
  blkAccessFn cmd baddr data _ w :=
    match cmd with
    | .write => (1, data, (baddr, data) :: w)
    | .read => (1, ((w.find? fun p => p.1 = baddr).map Prod.snd).getD (Table.replicate _ 0), w)
  myrand w := (0, w)

/-- The bytes of such a memory. -/
def journalMem (cfg : Config) (w : List (MdAddr × cfg.Data)) (addr : MdAddr) : Byte :=
  (((w.find? fun p => p.1 = cfg.baddr addr).map Prod.snd).getD (Table.replicate _ 0)).get
    (cfg.blk addr).toNat

theorem journal_backs (cfg : Config) : (journal cfg).Backs (journalMem cfg) where
  write b data now w addr := by
    rw [journalMem, journal]
    by_cases hb : cfg.block addr = b
    · have hba : b.val = cfg.baddr addr := by rw [← hb]; rfl
      rw [if_pos hb, List.find?_cons_of_pos (by simpa using hba)]
      rfl
    · have hba : b.val ≠ cfg.baddr addr := fun h => hb (Subtype.ext h.symm)
      rw [if_neg hb, List.find?_cons_of_neg (by simpa using hba)]
      rfl
  read b data now w addr hb := by
    have hba : b.val = cfg.baddr addr := by rw [← hb]; rfl
    rw [journalMem, ← hba]
    rfl
  read_mem b data now w := rfl
  myrand w := rfl

/-- Two sets of two blocks of eight bytes. -/
def sampleConfig : Config := Config.ofLogs 1 3 1 .lru

/-- Two writes, a read that evicts, a flush of one address, a read of what was written, and a
flush. -/
def sampleOps : List Op :=
  let w (addr : MdAddr) (v : Byte) := Op.access ⟨.write, addr, [v], 1, 0⟩
  let r (addr : MdAddr) := Op.access ⟨.read, addr, [0], 1, 0⟩
  [w 8 7, w 9 5, w 24 3, r 40, .flushAddr 24 0, r 24, r 9, .flush 0]

theorem transparency_sample :
    ∃ c, cacheCreate sampleConfig = some c ∧ ∃ answers c' w',
      run (CacheT.step (journal _)) (c, []) sampleOps = some (answers, (c', w')) ∧
        ∃ m, run flatStep (journalMem sampleConfig []) sampleOps =
            some (answers.map Answer.buffer, m) ∧ journalMem sampleConfig w' = m := by
  let c := (cacheCreate sampleConfig).get (by decide)
  have hc : cacheCreate sampleConfig = some c := (Option.some_get _).symm
  have hs : (run (CacheT.step (journal _)) (c, []) sampleOps).isSome = true := by decide +kernel
  obtain ⟨⟨answers, c', w'⟩, hr⟩ := Option.isSome_iff_exists.mp hs
  obtain ⟨m, hm, hflush⟩ := transparency (journal_backs _) (by decide) (by decide) hc []
    (by decide) hr
  exact ⟨c, hc, answers, c', w', hr, m, hm, hflush (sampleOps.take 7) 0 rfl⟩

end AdvancedArchitecture.Cache
