import AdvancedArchitecture.Cache.Refinement
import AdvancedArchitecture.Lib.WriteBack

/-!
# The cache as a write-back store

A set-associative cache holds the blocks of its valid lines: `WayCache.store` reads it as a
write-back store of the library. Where a block is in its set and what the replacement bits are
does not matter here; a call is a sequence of the moves of a write-back store. A hit touches a
block (`store_hit`), a miss drops at most one block and fills another (`store_miss`), and the
flushes drop blocks (`store_flush`, `store_flushAddr`).

For the addresses of the write-backs, the tag of a valid line must be that of an address of its
set (`WayCache.Home`).
-/

namespace AdvancedArchitecture.Cache

open CacheSet

variable {W : Type} {cfg : Config} {E : Extern W cfg}

/-! ### Blocks of memory -/

theorem Config.baddr_baddr (addr : MdAddr) : cfg.baddr (cfg.baddr addr) = cfg.baddr addr := by
  rw [Config.baddr, Config.baddr, BitVec.and_assoc, BitVec.and_self]

/-- The address of a block. -/
abbrev Config.Block (cfg : Config) : Type := { b : MdAddr // cfg.baddr b = b }

/-- The block of an address. -/
def Config.block (cfg : Config) (addr : MdAddr) : cfg.Block := ⟨cfg.baddr addr, baddr_baddr addr⟩

theorem Config.block_coe (b : cfg.Block) : cfg.block b = b := Subtype.ext b.2

/-- A block is determined by its tag and its set. -/
theorem Config.block_eq_iff {addr addr' : MdAddr} :
    cfg.block addr = cfg.block addr' ↔
      cfg.tag addr = cfg.tag addr' ∧ cfg.set addr = cfg.set addr' := by
  rw [tag_set_eq_iff, ← baddr_eq_iff, Config.block, Config.block, Subtype.mk.injEq]

theorem Config.tag_block (addr : MdAddr) : cfg.tag (cfg.block addr) = cfg.tag addr :=
  (block_eq_iff.mp (block_coe (cfg.block addr))).1

theorem Config.set_block (addr : MdAddr) : cfg.set (cfg.block addr) = cfg.set addr :=
  (block_eq_iff.mp (block_coe (cfg.block addr))).2

/-- The data of a block. -/
abbrev Config.Data (cfg : Config) : Type := Table Byte cfg.bsize

/-- The calls of `blk_access_fn` as transfers of blocks. -/
def Extern.bus (E : Extern W cfg) : Bus ℤ cfg.Block cfg.Data W where
  write now b data w := (E.blkAccessFn .write b data now w).2.2
  read now b data w := (E.blkAccessFn .read b data now w).2

/-! ### The contents of a set -/

/-- What a valid line holds. -/
def Line.entry (line : Line cfg) : Entry cfg.Data := ⟨line.dirty, line.data⟩

/-- What an access does to the entry of its block. -/
def Request.touch (req : Request) (e : Entry cfg.Data) : Entry cfg.Data :=
  ⟨if req.cmd = .write then true else e.dirty, (req.copy e.data).1⟩

/-- The entry that an access makes of the data it fetches. -/
def Request.enter (req : Request) (data : cfg.Data) : Entry cfg.Data :=
  ⟨req.cmd = .write, (req.copy data).1⟩

namespace WaySet

variable {t t' : WaySet cfg} {i : ℕ}

/-- What a set holds of the block with a tag. -/
def content (t : WaySet cfg) (tag : MdAddr) : Option (Entry cfg.Data) :=
  (t.lookup tag).map fun i => (t.lines i).entry

theorem content_eq_none {tag : MdAddr} :
    t.content tag = none ↔ ∀ i ∈ t.order, ¬ t.Holds tag i := by
  rw [content, Option.map_eq_none_iff, lookup_eq_none]

theorem Inv.content_of_holds (h : t.Inv) (hi : i ∈ t.order) {tag : MdAddr} (hh : t.Holds tag i) :
    t.content tag = some (t.lines i).entry := by
  rw [content, h.lookup_eq_some.mpr ⟨hi, hh⟩]
  rfl

/-- The contents do not depend on the order of the blocks. -/
theorem Inv.content_congr (h : t.Inv) (h' : t'.Inv) (hm : ∀ j, j ∈ t'.order ↔ j ∈ t.order)
    (hc : ∀ j, SameContents (t.lines j) (t'.lines j)) : t'.content = t.content := by
  funext tag
  have hh : ∀ j, t'.Holds tag j ↔ t.Holds tag j := by
    intro j
    rw [Holds, Holds, (hc j).tag, (hc j).valid]
  rcases hl : t.lookup tag with _ | j
  · have hn : t'.lookup tag = none := by
      rw [lookup_eq_none] at hl ⊢
      exact fun j hj hj' => hl j ((hm j).mp hj) ((hh j).mp hj')
    rw [content, content, hl, hn]
    rfl
  · obtain ⟨hj, hj'⟩ := h.lookup_eq_some.mp hl
    rw [h.content_of_holds hj hj', h'.content_of_holds ((hm j).mpr hj) ((hh j).mpr hj'),
      Line.entry, Line.entry, (hc j).dirty, (hc j).data]

theorem Inv.content_move (h : t.Inv) (hi : i ∈ t.order) (loc : ListLoc) :
    (t.move loc i).content = t.content :=
  h.content_congr (h.move hi loc) (mem_moveTo loc hi) fun _ => SameContents.refl _

theorem Inv.content_selected (h : t.Inv) (hs : Selected t i t') : t'.content = t.content :=
  h.content_congr (hs.inv h) hs.mem_iff hs.contents

/-- The contents without block `i`. -/
def vacated (t : WaySet cfg) (i : ℕ) : MdAddr → Option (Entry cfg.Data) :=
  if (t.lines i).valid then Function.update t.content (t.lines i).tag none else t.content

/-- **A line replaced**: its block leaves, and that of a valid new line enters. -/
theorem Inv.content_setLine (h : t.Inv) (hi : i ∈ t.order) {line : Line cfg}
    (h' : (t.setLine i line).Inv) : (t.setLine i line).content =
      if line.valid then Function.update (t.vacated i) line.tag (some line.entry)
      else t.vacated i := by
  have hself : (t.setLine i line).lines i = line := Function.update_self _ _ _
  have hne : ∀ {j}, j ≠ i → (t.setLine i line).lines j = t.lines j := fun hji =>
    Function.update_of_ne hji _ _
  -- a tag that the new line does not have
  have hother : ∀ tag, ¬ (line.tag = tag ∧ line.valid = true) →
      (t.setLine i line).content tag = t.vacated i tag := by
    intro tag hl
    have hnh : ¬ (t.setLine i line).Holds tag i := by
      rwa [Holds, hself]
    by_cases hh : t.Holds tag i
    · rw [vacated, if_pos hh.2, hh.1, Function.update_self, content_eq_none]
      intro j hj hjh
      by_cases hji : j = i
      · exact hnh (hji ▸ hjh)
      · rw [Holds, hne hji] at hjh
        exact hji (h.unique j hj i hi hjh.2 hh.2 (hjh.1.trans hh.1.symm))
    · have hlookup : (t.setLine i line).lookup tag = t.lookup tag := by
        refine List.find?_congr fun j _ => ?_
        by_cases hji : j = i
        · rw [hji, decide_eq_false hnh, decide_eq_false hh]
        · exact decide_eq_decide.mpr (by rw [Holds, Holds, hne hji])
      have hv : t.vacated i tag = t.content tag := by
        rw [vacated]
        split_ifs with hv
        · exact Function.update_of_ne (fun ht => hh ⟨ht.symm, hv⟩) _ _
        · rfl
      rw [hv, content, content, hlookup]
      rcases hl : t.lookup tag with _ | j
      · rfl
      · obtain ⟨-, hj⟩ := h.lookup_eq_some.mp hl
        have hji : j ≠ i := fun hji => hh (hji ▸ hj)
        simp only [Option.map_some, hne hji]
  funext tag
  split_ifs with hv
  · by_cases ht : tag = line.tag
    · have hh : (t.setLine i line).Holds line.tag i := by
        rw [Holds, hself]
        exact ⟨rfl, hv⟩
      rw [ht, Function.update_self, h'.content_of_holds hi hh, hself]
    · rw [Function.update_of_ne ht]
      exact hother tag fun hl => ht hl.1.symm
  · exact hother tag fun hl => hv hl.2

/-- A line that leaves. -/
theorem Inv.content_setLine_of_not_valid (h : t.Inv) (hi : i ∈ t.order) {line : Line cfg}
    (h' : (t.setLine i line).Inv) (hv : line.valid = false) :
    (t.setLine i line).content = t.vacated i := by
  rw [h.content_setLine hi h', if_neg (by simp [hv])]

/-- A hit changes the entry of its block. -/
theorem Inv.content_hit (h : t.Inv) (hi : i ∈ t.order) {req : Request}
    (hh : t.Holds (cfg.tag req.addr) i) : (t.hit req i).content =
      Function.update t.content (cfg.tag req.addr)
        (some (hitLine (t.lines i) req).2.entry) := by
  have hset := h.setLine_hit hi req
  have hline : (t.setLine i (promote (hitLine (t.lines i) req).2)).content =
      Function.update t.content (cfg.tag req.addr) (some (hitLine (t.lines i) req).2.entry) := by
    have htag : (promote (hitLine (t.lines i) req).2).tag = (t.lines i).tag := rfl
    have hval : (promote (hitLine (t.lines i) req).2).valid = (t.lines i).valid := rfl
    rw [h.content_setLine hi hset, hval, if_pos hh.2, vacated, if_pos hh.2, htag,
      Function.update_idem, hh.1]
    rfl
  rw [WaySet.hit]
  split_ifs
  · rw [hset.content_move hi, hline]
  · exact hline

end WaySet

/-- The tags of the valid lines of set `i` are those of addresses of the set. -/
def WaySet.Home (t : WaySet cfg) (i : ℕ) : Prop :=
  ∀ j ∈ t.order, (t.lines j).valid = true →
    ∃ addr, (cfg.set addr).toNat = i ∧ cfg.tag addr = (t.lines j).tag

theorem Selected.home {t t' : WaySet cfg} {i j : ℕ} (hs : Selected t i t') (h : t.Home j) :
    t'.Home j := by
  intro k hk hv
  rw [(hs.contents k).valid] at hv
  rw [(hs.contents k).tag]
  exact h k ((hs.mem_iff k).mp hk) hv

/-! ### The store -/

/-- What a miss does before it fetches a block: it drops the block of the victim, if it holds
one. The address is `*repl_addr`. -/
inductive Evicts (E : Extern W cfg) (s : WriteBack cfg.Block cfg.Data W) :
    WriteBack cfg.Block cfg.Data W → MdAddr → Prop
  | none : Evicts E s s 0
  | drop (now : ℤ) (v : cfg.Block) (hv : s.blocks v ≠ none) : Evicts E s (s.drop E.bus now v) v

theorem Evicts.drops {s s' : WriteBack cfg.Block cfg.Data W} {addr : MdAddr}
    (h : Evicts E s s' addr) : WriteBack.Drops E.bus s s' := by
  cases h with
  | none => exact WriteBack.Drops.refl s
  | drop now v _ => exact (WriteBack.Drops.refl s).drop now v

namespace WayCache

/-- The tags of the valid lines are those of addresses of their sets. -/
def Home (a : WayCache cfg) : Prop := ∀ i < cfg.nsets, (a.sets i).Home i

variable {a : WayCache cfg}

/-- The cache as a write-back store. -/
def store (a : WayCache cfg) (w : W) : WriteBack cfg.Block cfg.Data W where
  blocks b := (a.sets (cfg.set b).toNat).content (cfg.tag b)
  writebacks := a.regs.writebacks
  world := w

theorem store_blocks (w : W) (b : cfg.Block) :
    (a.store w).blocks b = (a.sets (cfg.set b).toNat).content (cfg.tag b) := rfl

/-- A set whose contents change at one tag. -/
theorem store_update {addr : MdAddr} {t : WaySet cfg} {e : Option (Entry cfg.Data)}
    (h : t.content =
      Function.update (a.sets (cfg.set addr).toNat).content (cfg.tag addr) e) (regs : Regs)
    (w w' : W) :
    (store { regs, sets := Function.update a.sets (cfg.set addr).toNat t } w').blocks =
      Function.update (a.store w).blocks (cfg.block addr) e := by
  funext b
  have hb : b = cfg.block addr ↔ cfg.tag b = cfg.tag addr ∧ cfg.set b = cfg.set addr := by
    rw [← Config.block_eq_iff, Config.block_coe]
  rw [store_blocks]
  dsimp only
  by_cases hs : (cfg.set b).toNat = (cfg.set addr).toNat
  · rw [hs, Function.update_self, h]
    by_cases ht : cfg.tag b = cfg.tag addr
    · rw [ht, Function.update_self, hb.mpr ⟨ht, BitVec.toNat_inj.mp hs⟩, Function.update_self]
    · rw [Function.update_of_ne ht, Function.update_of_ne fun h => ht (hb.mp h).1, store_blocks, hs]
  · rw [Function.update_of_ne hs, Function.update_of_ne fun h => hs (by rw [(hb.mp h).2]),
      store_blocks]

/-- A set replaced by one with the same contents. -/
theorem store_congr {t t' : WaySet cfg} (h : t'.content = t.content) (regs : Regs) (i : ℕ)
    (w : W) : store ⟨regs, Function.update a.sets i t'⟩ w =
      store ⟨regs, Function.update a.sets i t⟩ w := by
  have hb : (store ⟨regs, Function.update a.sets i t'⟩ w).blocks =
      (store ⟨regs, Function.update a.sets i t⟩ w).blocks := by
    funext b
    rw [store_blocks, store_blocks]
    dsimp only
    by_cases hs : (cfg.set b).toNat = i
    · rw [hs, Function.update_self, Function.update_self, h]
    · rw [Function.update_of_ne hs, Function.update_of_ne hs]
  exact congrArg (fun bl => WriteBack.mk bl regs.writebacks w) hb

theorem store_blocks_block (w : W) (addr : MdAddr) : (a.store w).blocks (cfg.block addr) =
    (a.sets (cfg.set addr).toNat).content (cfg.tag addr) := by
  rw [store_blocks, Config.tag_block, Config.set_block]

/-- **A hit** touches its block. -/
theorem store_hit {req : Request} {i : ℕ} (h : (a.sets (cfg.set req.addr).toNat).Inv)
    (hl : (a.sets (cfg.set req.addr).toNat).lookup (cfg.tag req.addr) = some i) (w : W) :
    (a.hit req i).2.store w = (a.store w).touch (cfg.block req.addr) req.touch := by
  obtain ⟨hi, hh⟩ := h.lookup_eq_some.mp hl
  have hb := store_update (h.content_hit hi hh) { a.regs with hits := a.regs.hits + 1 } w w
  have he := store_blocks_block (a := a) w req.addr
  rw [h.content_of_holds hi hh] at he
  rw [WriteBack.touch, he]
  exact congrArg (fun bl => WriteBack.mk bl a.regs.writebacks w) hb

/-- **A block leaves**: its line is invalidated, and written if it is dirty. -/
theorem store_drop {t : WaySet cfg} {i : ℕ} {addr : MdAddr}
    (ht : a.sets (cfg.set addr).toNat = t) (h : t.Inv) (hi : i ∈ t.order)
    (hh : t.Holds (cfg.tag addr) i) {line : Line cfg} (h' : (t.setLine i line).Inv)
    (hv : line.valid = false) (now : ℤ) {regs : Regs} {w w' : W}
    (hr : regs.writebacks =
      if (t.lines i).dirty then a.regs.writebacks + 1 else a.regs.writebacks)
    (hw : w' = if (t.lines i).dirty then
      (E.blkAccessFn .write (cfg.baddr addr) (t.lines i).data now w).2.2 else w) :
    store ⟨regs, Function.update a.sets (cfg.set addr).toNat (t.setLine i line)⟩ w' =
      (a.store w).drop E.bus now (cfg.block addr) := by
  subst ht
  have hc := h.content_setLine_of_not_valid hi h' hv
  rw [WaySet.vacated, if_pos hh.2, hh.1] at hc
  have hb := store_update hc regs w w'
  have he := store_blocks_block (a := a) w addr
  rw [h.content_of_holds hi hh] at he
  rw [WriteBack.drop, he]
  dsimp only
  rw [← hb, hw]
  simp only [store, hr]
  rfl

/-- **A block enters**: an invalid line is filled. -/
theorem store_fill {t : WaySet cfg} {i : ℕ} {req : Request}
    (ht : a.sets (cfg.set req.addr).toNat = t) (h : t.Inv) (hi : i ∈ t.order)
    (hn : (t.lines i).valid = false) {line : Line cfg} (h' : (t.setLine i line).Inv)
    (hv : line.valid = true) (htag : line.tag = cfg.tag req.addr) (now : ℤ) (old : cfg.Data)
    {regs : Regs} {w w' : W} (hr : regs.writebacks = a.regs.writebacks)
    (he : line.entry = req.enter (E.bus.read now (cfg.block req.addr) old w).1)
    (hw : w' = (E.bus.read now (cfg.block req.addr) old w).2) :
    store ⟨regs, Function.update a.sets (cfg.set req.addr).toNat (t.setLine i line)⟩ w' =
      (a.store w).fill E.bus now (cfg.block req.addr) old req.enter := by
  subst ht
  have hc := h.content_setLine hi h'
  rw [if_pos hv, WaySet.vacated, if_neg (by simp [hn]), htag, he] at hc
  have hb := store_update hc regs w w'
  rw [WriteBack.fill]
  simp only [store] at hb ⊢
  rw [hb, hr, hw]

/-- **The choice of a victim** moves no block. -/
theorem store_selected {addr : MdAddr} {i : ℕ} {t : WaySet cfg} {regs : Regs}
    (h : (a.sets (cfg.set addr).toNat).Inv) (hs : Selected (a.sets (cfg.set addr).toNat) i t)
    (hwb : regs.writebacks = a.regs.writebacks) (w : W) :
    store ⟨regs, Function.update a.sets (cfg.set addr).toNat t⟩ w = a.store w := by
  have hb := store_update (a := a) (t := t)
    (e := (a.sets (cfg.set addr).toNat).content (cfg.tag addr))
    (by rw [Function.update_eq_self, h.content_selected hs]) regs w w
  rw [← store_blocks_block w, Function.update_eq_self] at hb
  simp only [store, hwb] at hb ⊢
  rw [hb]

/-- **The eviction of a valid line** drops its block. -/
theorem store_evict {addr : MdAddr} {i : ℕ} {t : WaySet cfg}
    (ht : a.sets (cfg.set addr).toNat = t) (h : t.Inv) (hi : i ∈ t.order)
    (hv : (t.lines i).valid = true) (hh : t.Home (cfg.set addr).toNat) (now : ℤ) (w : W) :
    Evicts E (a.store w)
      (store ⟨(evictLine E a.regs (t.lines i) (cfg.set addr) now w).2.2.2.1,
          Function.update a.sets (cfg.set addr).toNat
            (t.setLine i { t.lines i with valid := false })⟩
        (evictLine E a.regs (t.lines i) (cfg.set addr) now w).2.2.2.2)
      (evictLine E a.regs (t.lines i) (cfg.set addr) now w).2.1 := by
  obtain ⟨v, hset, htag⟩ := hh i hi hv
  have hset' : cfg.set v = cfg.set addr := BitVec.toNat_inj.mp hset
  obtain ⟨time, hrepl, hwb, hworld⟩ :=
    evictLine_of_valid E a.regs (t.lines i) (cfg.set addr) now w hv
  rw [← htag, ← hset', Config.mkBaddr_tag_set] at hrepl hworld
  have hheld : (t.setLine i { t.lines i with valid := false }).Inv :=
    h.setLine_of_tag hi _ (h.rrpv_nonneg i hi) rfl (by simp)
  rw [← hset'] at ht hwb ⊢
  rw [hrepl, store_drop (E := E) ht h hi ⟨htag.symm, hv⟩ hheld rfl time hwb hworld]
  refine Evicts.drop time (cfg.block v) ?_
  rw [store_blocks_block, ht, h.content_of_holds hi ⟨htag.symm, hv⟩]
  simp

/-- **A miss** drops at most one block, and fills that of the request. -/
theorem store_miss {req : Request} {w w' : W} {r : Reply} {a' : WayCache cfg}
    (h : (a.sets (cfg.set req.addr).toNat).Inv) (hh : a.Home)
    (hl : (a.sets (cfg.set req.addr).toNat).lookup (cfg.tag req.addr) = none)
    (hm : a.miss E req w = some (r, a', w')) :
    ∃ w₁ s now old, (w₁ = w ∨ w₁ = (E.myrand w).2) ∧ Evicts E (a.store w₁) s r.replAddr ∧
      a'.store w' = s.fill E.bus now (cfg.block req.addr) old req.enter ∧
      r.buf = (req.copy (E.bus.read now (cfg.block req.addr) old s.world).1).2 := by
  obtain ⟨i, t, regs, w₁, hsel, rfl, rfl, rfl⟩ := miss_eq_some hm
  obtain ⟨hs, hstats, hw⟩ := selectVictim_spec h hsel
  have hi := hs.inv h
  have hfill := hi.fill hs.mem_order (hs.lookup_eq_none.mpr hl) (E := E) regs w₁
  -- the cache with the victim chosen holds the same blocks
  let a₁ : WayCache cfg := ⟨regs, Function.update a.sets (cfg.set req.addr).toNat t⟩
  have hstore : a₁.store w₁ = a.store w₁ := store_selected h hs hstats.writebacks w₁
  have hset : a₁.sets (cfg.set req.addr).toNat = t := Function.update_self _ _ _
  rw [WaySet.fill] at hfill ⊢
  dsimp only at hfill ⊢
  by_cases hv : (t.lines i).valid = true
  · -- the victim leaves first
    have hevict := store_evict (E := E) hset hi hs.mem_order hv (hs.home (hh _ (Config.set_lt _)))
      req.now w₁
    rw [Function.update_idem, hstore] at hevict
    let t₂ := t.setLine i { t.lines i with valid := false }
    let a₂ : WayCache cfg := ⟨(evictLine E regs (t.lines i) (cfg.set req.addr) req.now w₁).2.2.2.1,
      Function.update a.sets (cfg.set req.addr).toNat t₂⟩
    have hset₂ : a₂.sets (cfg.set req.addr).toNat = t₂ := Function.update_self _ _ _
    have hheld : t₂.Inv :=
      hi.setLine_of_tag hs.mem_order _ (hi.rrpv_nonneg i hs.mem_order) rfl (by simp)
    have hinvalid : (t₂.lines i).valid = false := by
      rw [WaySet.setLine_lines, Function.update_self]
    have hst := store_fill (E := E) hset₂ hheld hs.mem_order hinvalid
      (by rw [WaySet.setLine_setLine]; exact hfill) rfl rfl
      (req.now + (evictLine E regs (t.lines i) (cfg.set req.addr) req.now w₁).1)
      (evictLine E regs (t.lines i) (cfg.set req.addr) req.now w₁).2.2.1.data rfl rfl rfl
    rw [WaySet.setLine_setLine, Function.update_idem] at hst
    exact ⟨w₁, _, _, _, hw, hevict, hst, rfl⟩
  · have hev : evictLine E regs (t.lines i) (cfg.set req.addr) req.now w₁ =
        (0, 0, t.lines i, regs, w₁) := by
      rw [evictLine, if_neg hv]
    rw [hev] at hfill ⊢
    refine ⟨w₁, a.store w₁, req.now + 0, (t.lines i).data, hw, Evicts.none, ?_, rfl⟩
    have hst := store_fill (E := E) hset hi hs.mem_order (by simpa using hv) hfill rfl rfl
      (req.now + 0) (t.lines i).data (w := w₁) rfl rfl rfl
    rw [Function.update_idem, hstore] at hst
    exact hst

/-! ### Flushes -/

theorem home_update (hh : a.Home) {i : ℕ} {t : WaySet cfg} (ht : t.Home i) (regs : Regs) :
    Home ⟨regs, Function.update a.sets i t⟩ :=
  (Function.forall_update_iff a.sets (p := fun j s => j < cfg.nsets → s.Home j)).mpr
    ⟨fun _ => ht, fun j _ => hh j⟩

/-- The invalidation of a line keeps the others at home. -/
theorem home_setLine {t : WaySet cfg} {i j : ℕ} (hh : t.Home i) {line : Line cfg}
    (hl : line.valid = true → ∃ addr, (cfg.set addr).toNat = i ∧ cfg.tag addr = line.tag) :
    (t.setLine j line).Home i := by
  intro k hk hv
  rw [WaySet.setLine_lines] at hv ⊢
  by_cases hkj : k = j
  · rw [hkj, Function.update_self] at hv ⊢
    exact hl hv
  · rw [Function.update_of_ne hkj] at hv ⊢
    exact hh k hk hv

/-- **A flush of one address** drops its block. -/
theorem store_flushAddr {addr : MdAddr} (h : (a.sets (cfg.set addr).toNat).Inv) (now : ℤ) (w : W) :
    ∃ t, (a.flushAddr E addr now w).2.1.store (a.flushAddr E addr now w).2.2 =
      (a.store w).drop E.bus t (cfg.block addr) := by
  rw [flushAddr]
  dsimp only
  rcases hl : (a.sets (cfg.set addr).toNat).lookup (cfg.tag addr) with _ | i
  · have hn : (a.store w).blocks (cfg.block addr) = none := by
      rw [store_blocks_block, WaySet.content, hl]
      rfl
    exact ⟨now, by rw [WriteBack.drop, hn]⟩
  · obtain ⟨hi, hh⟩ := h.lookup_eq_some.mp hl
    have hmk : cfg.mkBaddr ((a.sets (cfg.set addr).toNat).lines i).tag (cfg.set addr) =
        cfg.baddr addr := by
      rw [hh.1, Config.mkBaddr_tag_set]
    dsimp only
    rw [hmk]
    have hinv := h.invalidate hi (E := E) cfg.hitLatency a.regs (cfg.baddr addr) now w
    obtain ⟨hwb, hw⟩ := invalidateLine_call E a.regs ((a.sets (cfg.set addr).toNat).lines i) now
      cfg.hitLatency w (cfg.baddr addr)
    have hv := congrArg Line.valid (invalidateLine_line E a.regs
      ((a.sets (cfg.set addr).toNat).lines i) (cfg.baddr addr) now cfg.hitLatency w)
    refine ⟨now + cfg.hitLatency, ?_⟩
    rw [store_congr (hinv.content_move hi .tail)]
    exact store_drop rfl h hi hh hinv hv _ hwb hw

theorem home_flushAddr {addr : MdAddr} (hh : a.Home) (now : ℤ) (w : W) :
    (a.flushAddr E addr now w).2.1.Home := by
  rw [flushAddr]
  dsimp only
  rcases hl : (a.sets (cfg.set addr).toNat).lookup (cfg.tag addr) with _ | i
  · exact hh
  · refine home_update hh (fun j hj => ?_) _
    refine (home_setLine (j := i) (hh _ (Config.set_lt addr)) fun hv => ?_) j
      ((mem_moveTo .tail (List.mem_of_find?_eq_some hl) j).mp hj)
    rw [invalidateLine_line] at hv
    exact absurd hv (by simp)

/-- The flush of set `i`, on the way: the blocks of the list `l` have left. -/
structure Flushing (E : Extern W cfg) (a : WayCache cfg) (w : W) (i : ℕ) (l : List ℕ)
    (f : FlushState W cfg) : Prop where
  drops : WriteBack.Drops E.bus (a.store w)
    (store ⟨f.regs, Function.update a.sets i f.set⟩ f.world)
  inv : f.set.Inv
  home : f.set.Home i
  order : f.set.order = (a.sets i).order
  invalid : ∀ j ∈ l, (f.set.lines j).valid = false

theorem Flushing.flushBlk (hfit : cfg.nsets * cfg.bsize < 2 ^ 31) {w : W} {i blk : ℕ}
    {l : List ℕ} {f : FlushState W cfg} (hf : Flushing E a w i l f)
    (hb : blk ∈ (a.sets i).order) (now : ℤ) :
    Flushing E a w i (blk :: l) (flushBlk E now i f blk) := by
  have hm : blk ∈ f.set.order := hf.order ▸ hb
  rw [WayCache.flushBlk]
  dsimp only
  split_ifs with hv
  · obtain ⟨addr, rfl, htag⟩ := hf.home blk hm hv
    have hmk : cfg.mkBaddrInt (f.set.lines blk).tag (cfg.set addr).toNat = cfg.baddr addr := by
      rw [Config.mkBaddrInt_eq hfit _ (Config.set_lt addr), ← htag, Config.mkBaddr_tag_set]
    rw [hmk]
    have hinv := hf.inv.invalidate hm (E := E) f.lat f.regs (cfg.baddr addr) now f.world
    obtain ⟨hwb, hw⟩ := invalidateLine_call E f.regs (f.set.lines blk) now f.lat f.world
      (cfg.baddr addr)
    have hv' := congrArg Line.valid (invalidateLine_line E f.regs (f.set.lines blk)
      (cfg.baddr addr) now f.lat f.world)
    have hdrop := store_drop (a := ⟨f.regs, Function.update a.sets (cfg.set addr).toNat f.set⟩)
      (Function.update_self _ _ _) hf.inv hm ⟨htag.symm, hv⟩ hinv hv' _ hwb hw
    dsimp only at hdrop
    rw [Function.update_idem] at hdrop
    refine ⟨?_, hinv, home_setLine hf.home fun h => absurd (hv'.symm.trans h) (by simp), hf.order,
      fun j hj => ?_⟩
    · dsimp only
      rw [hdrop]
      exact hf.drops.drop _ _
    · dsimp only
      rw [WaySet.setLine_lines]
      by_cases hjb : j = blk
      · rw [hjb, Function.update_self]
        exact hv'
      · rw [Function.update_of_ne hjb]
        exact hf.invalid j ((List.mem_cons.mp hj).resolve_left hjb)
  · refine ⟨hf.drops, hf.inv, hf.home, hf.order, fun j hj => ?_⟩
    rcases List.mem_cons.mp hj with rfl | hj
    · simpa using hv
    · exact hf.invalid j hj

/-- The flush, on the way: the sets below `k` are empty. -/
structure Flushed (E : Extern W cfg) (a : WayCache cfg) (w : W) (k : ℕ) (a' : WayCache cfg)
    (w' : W) : Prop where
  drops : WriteBack.Drops E.bus (a.store w) (a'.store w')
  inv : ∀ i < cfg.nsets, (a'.sets i).Inv
  home : a'.Home
  invalid : ∀ i < k, ∀ j ∈ (a'.sets i).order, ((a'.sets i).lines j).valid = false

theorem Flushed.flushSet (hfit : cfg.nsets * cfg.bsize < 2 ^ 31) {w w' : W} {k : ℕ}
    {a' : WayCache cfg} (hf : Flushed E a w k a' w') (hk : k < cfg.nsets) (now lat : ℤ) :
    Flushed E a w (k + 1) (WayCache.flushSet E now (lat, a', w') k).2.1
      (WayCache.flushSet E now (lat, a', w') k).2.2 := by
  -- along the way order, the blocks leave
  have hfold : ∀ (l l' : List ℕ) (f : FlushState W cfg), (∀ j ∈ l, j ∈ (a'.sets k).order) →
      Flushing E a' w' k l' f →
      Flushing E a' w' k (l.reverse ++ l') (l.foldl (WayCache.flushBlk E now k) f) := by
    intro l
    induction l with
    | nil => exact fun _ _ _ h => h
    | cons j l ih =>
      intro l' f hl h
      have hj := h.flushBlk hfit (hl j List.mem_cons_self) now
      have hrest := ih (j :: l') _ (fun j' hj' => hl j' (List.mem_cons_of_mem j hj')) hj
      rwa [List.reverse_cons, List.append_assoc]
  have hset := hfold (a'.sets k).order [] ⟨lat, a'.sets k, a'.regs, w'⟩ (fun j hj => hj)
    ⟨by rw [Function.update_eq_self]; exact WriteBack.Drops.refl _, hf.inv k hk, hf.home k hk, rfl,
      fun j hj => absurd hj (List.not_mem_nil)⟩
  rw [List.append_nil] at hset
  rw [WayCache.flushSet]
  dsimp only
  refine ⟨hf.drops.trans hset.drops, fun i hi => ?_, home_update hf.home hset.home _,
    fun i hi j hj => ?_⟩
  · dsimp only
    by_cases hik : i = k
    · rw [hik, Function.update_self]
      exact hset.inv
    · rw [Function.update_of_ne hik]
      exact hf.inv i hi
  · dsimp only at hj ⊢
    by_cases hik : i = k
    · rw [hik, Function.update_self] at hj ⊢
      refine hset.invalid j (List.mem_reverse.mpr ?_)
      rwa [hset.order] at hj
    · rw [Function.update_of_ne hik] at hj ⊢
      exact hf.invalid i (by omega) j hj

/-- **A flush** drops blocks until none is held. -/
theorem store_flush (hfit : cfg.nsets * cfg.bsize < 2 ^ 31)
    (h : ∀ i < cfg.nsets, (a.sets i).Inv) (hh : a.Home) (now : ℤ) (w : W) :
    Flushed E a w cfg.nsets (a.flush E now w).2.1 (a.flush E now w).2.2 := by
  refine forRange_induction (WayCache.flushSet E now)
    (fun k p => Flushed E a w k p.2.1 p.2.2)
    ⟨WriteBack.Drops.refl _, h, hh, fun i hi => absurd hi (Nat.not_lt_zero i)⟩ ?_
  rintro k ⟨lat, a', w'⟩ hk hf
  exact hf.flushSet hfit hk now lat

theorem Flushed.empty {a' : WayCache cfg} {w w' : W} (hf : Flushed E a w cfg.nsets a' w')
    (b : cfg.Block) : (a'.store w').blocks b = none := by
  rw [store_blocks, WaySet.content_eq_none]
  intro j hj hh
  exact absurd (hh.2.symm.trans (hf.invalid _ (Config.set_lt _) j hj)) (by simp)

/-! ### Valid lines stay at home -/

theorem home_hit (hh : a.Home) (req : Request) {i : ℕ}
    (hi : i ∈ (a.sets (cfg.set req.addr).toNat).order) : (a.hit req i).2.Home := by
  have hs := hh _ (Config.set_lt req.addr)
  have hline : ((a.sets (cfg.set req.addr).toNat).setLine i
      (promote (hitLine ((a.sets (cfg.set req.addr).toNat).lines i) req).2)).Home
        (cfg.set req.addr).toNat := home_setLine hs (hs i hi)
  refine home_update hh (fun j hj hv => ?_) _
  rw [WaySet.hit] at hj hv ⊢
  split_ifs at hj hv ⊢
  · exact hline j ((mem_moveTo .head hi j).mp hj) hv
  · exact hline j hj hv

theorem home_miss (hh : a.Home) {req : Request} {w w' : W} {r : Reply} {a' : WayCache cfg}
    (h : (a.sets (cfg.set req.addr).toNat).Inv) (hm : a.miss E req w = some (r, a', w')) :
    a'.Home := by
  obtain ⟨i, t, regs, w₁, hsel, -, rfl, -⟩ := miss_eq_some hm
  obtain ⟨hs, -, -⟩ := selectVictim_spec h hsel
  obtain ⟨ready, data, hfill⟩ := t.fill_line E regs req i w₁
  have ht := hs.home (hh _ (Config.set_lt req.addr))
  refine home_update hh ?_ _
  rw [hfill]
  exact home_setLine ht fun _ => ⟨req.addr, rfl, rfl⟩

end WayCache

/-! ### What a call does to the store -/

/-- What a call does to a write-back store, and what it answers. -/
inductive StoreStep (E : Extern W cfg) (s : WriteBack cfg.Block cfg.Data W) :
    Op → Answer → WriteBack cfg.Block cfg.Data W → Prop
  /-- An access to a block that is held. -/
  | hit {req : Request} {r : Reply} {e : Entry cfg.Data} (hok : req.ok cfg = true)
      (he : s.blocks (cfg.block req.addr) = some e) (hbuf : r.buf = (req.copy e.data).2)
      (hrepl : r.replAddr = 0) :
      StoreStep E s (.access req) (.reply r) (s.touch (cfg.block req.addr) req.touch)
  /-- An access to a block that is not held: at most one other block leaves, and it enters. -/
  | miss {req : Request} {r : Reply} {w : W} {s' : WriteBack cfg.Block cfg.Data W} {now : ℤ}
      {old : cfg.Data} (hok : req.ok cfg = true) (hn : s.blocks (cfg.block req.addr) = none)
      (hw : w = s.world ∨ w = (E.myrand s.world).2)
      (hs' : Evicts E { s with world := w } s' r.replAddr)
      (hbuf : r.buf =
        (req.copy (E.bus.read now (cfg.block req.addr) old s'.world).1).2) :
      StoreStep E s (.access req) (.reply r) (s'.fill E.bus now (cfg.block req.addr) old req.enter)
  | probe (addr : MdAddr) (b : Bool) : StoreStep E s (.probe addr) (.found b) s
  /-- A flush: blocks leave until none is held. -/
  | flush {now lat : ℤ} {s' : WriteBack cfg.Block cfg.Data W} (hd : WriteBack.Drops E.bus s s')
      (hn : ∀ b, s'.blocks b = none) : StoreStep E s (.flush now) (.latency lat) s'
  | flushAddr (addr : MdAddr) (now lat t : ℤ) :
      StoreStep E s (.flushAddr addr now) (.latency lat) (s.drop E.bus t (cfg.block addr))

/-- **Calls** of the cache are calls of a write-back store. -/
theorem WayCache.storeStep {a a' : WayCache cfg} (hfit : cfg.nsets * cfg.bsize < 2 ^ 31)
    (h : ∀ i < cfg.nsets, (a.sets i).Inv) (hh : a.Home) {op : Op} {w w' : W} {ans : Answer}
    (hs : WayCache.step E (a, w) op = some (ans, (a', w'))) :
    StoreStep E (a.store w) op ans (a'.store w') ∧ a'.Home := by
  cases op with
  | access req =>
    have hset := h _ (Config.set_lt req.addr)
    obtain ⟨r, rfl, hr⟩ := WayCache.step_access hs
    obtain ⟨hok, ⟨hl, hr⟩ | ⟨i, hl, rfl, rfl, hw⟩⟩ := access_eq_some hr
    · obtain ⟨w₁, s, now, old, hw, hev, hst, hbuf⟩ := store_miss hset hh hl hr
      have hn : (a.store w).blocks (cfg.block req.addr) = none := by
        rw [store_blocks_block, WaySet.content, hl]
        rfl
      rw [hst]
      exact ⟨StoreStep.miss hok hn hw hev hbuf, home_miss hh hset hr⟩
    · obtain rfl : w = w' := hw.symm
      obtain ⟨hi, hi'⟩ := hset.lookup_eq_some.mp hl
      have he : (a.store w).blocks (cfg.block req.addr) =
          some ((a.sets (cfg.set req.addr).toNat).lines i).entry := by
        rw [store_blocks_block, hset.content_of_holds hi hi']
      rw [store_hit hset hl]
      exact ⟨StoreStep.hit hok he rfl rfl, home_hit hh req hi⟩
  | probe addr =>
    obtain ⟨rfl, rfl, rfl⟩ := WayCache.step_probe hs
    exact ⟨StoreStep.probe addr _, hh⟩
  | flush now =>
    obtain ⟨rfl, rfl, rfl⟩ := WayCache.step_flush hs
    have hf := store_flush (E := E) hfit h hh now w
    exact ⟨StoreStep.flush hf.drops hf.empty, hf.home⟩
  | flushAddr addr now =>
    obtain ⟨rfl, rfl, rfl⟩ := WayCache.step_flushAddr hs
    obtain ⟨t, ht⟩ := store_flushAddr (E := E) (h _ (Config.set_lt addr)) now w
    rw [ht]
    exact ⟨StoreStep.flushAddr addr now _ t, home_flushAddr hh now w⟩

/-! ### New caches -/

theorem WayCache.home_create : (WayCache.create cfg).Home := fun _ _ _ _ hv =>
  absurd hv (by simp [WayCache.create, WaySet.create, default])

theorem WayCache.store_create_blocks (w : W) (b : cfg.Block) :
    ((WayCache.create cfg).store w).blocks b = none := by
  rw [store_blocks, WaySet.content_eq_none]
  exact fun j _ hh => absurd hh.2 (by simp [WayCache.create, WaySet.create, default])

/-! ### The cache of `cache.c` -/

/-- The cache `c` of `cache.c`, in the world `w`, holds the blocks of the store `s`. -/
def Stores (c : CacheT cfg) (w : W) (s : WriteBack cfg.Block cfg.Data W) : Prop :=
  ∃ a : WayCache cfg, Refines c a ∧ a.Home ∧ a.store w = s

namespace Stores

variable {c c' : CacheT cfg} {w w' : W} {s : WriteBack cfg.Block cfg.Data W}

theorem world (h : Stores c w s) : s.world = w := by
  obtain ⟨a, -, -, rfl⟩ := h
  rfl

theorem writebacks (h : Stores c w s) : c.regs.writebacks = s.writebacks := by
  obtain ⟨a, hr, -, rfl⟩ := h
  rw [hr.regs]
  rfl

/-- `cache_probe` finds the blocks that are held. -/
theorem probe (h : Stores c w s) (addr : MdAddr) :
    c.probe addr = (s.blocks (cfg.block addr)).isSome := by
  obtain ⟨a, hr, -, rfl⟩ := h
  rw [hr.probe, WayCache.store_blocks_block, WaySet.content, Option.isSome_map]
  rfl

/-- The world does not matter for what is held. -/
theorem with_world (h : Stores c w s) (w' : W) : Stores c w' { s with world := w' } := by
  obtain ⟨a, hr, hh, rfl⟩ := h
  exact ⟨a, hr, hh, rfl⟩

/-- **Calls of the cache** are calls of the store. -/
theorem step (hfit : cfg.nsets * cfg.bsize < 2 ^ 31) (h : Stores c w s) {op : Op}
    (hop : op.OutsideZero cfg) {ans : Answer}
    (hs : CacheT.step E (c, w) op = some (ans, (c', w'))) :
    ∃ s', StoreStep E s op ans s' ∧ Stores c' w' s' := by
  obtain ⟨a, hr, hh, rfl⟩ := h
  obtain ⟨⟨ans', a', w''⟩, ha, rfl, hr', rfl⟩ := rel_of_eq_some (hr.step E w hop) hs
  obtain ⟨hst, hh'⟩ := WayCache.storeStep hfit hr.inv hh ha
  exact ⟨_, hst, a', hr', hh', rfl⟩

/-- A new cache holds nothing. -/
theorem create (h : cacheCreate cfg = some c) (w : W) :
    ∃ s : WriteBack cfg.Block cfg.Data W, Stores c w s ∧ ∀ b, s.blocks b = none :=
  ⟨_, ⟨_, refines_create h, WayCache.home_create, rfl⟩, WayCache.store_create_blocks w⟩

end Stores

end AdvancedArchitecture.Cache
