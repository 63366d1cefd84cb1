import AdvancedArchitecture.Cache.Recency

/-!
# Inclusion

A set of an `LRU` cache, read as the list of the tags of its valid blocks in way order, is the
recency list of the library: a call of the cache uses a tag, takes one out or empties the lists
(`lruStep`, `WayCache.recency_step`). Of two `LRU` caches with the same sets and blocks the one
of the smaller associativity therefore holds a part of what the other holds, whatever the calls
(`lru_inclusion`).
-/

namespace AdvancedArchitecture.Cache

open CacheSet

variable {W : Type} {cfg : Config} {E : Extern W cfg}

/-! ### The recency list of a set -/

namespace WaySet

variable {t t' : WaySet cfg} {i : ℕ}

/-- The valid blocks, in way order. -/
def present (t : WaySet cfg) : List ℕ := t.order.filter fun i => (t.lines i).valid

/-- The tags of the valid blocks, in way order. -/
def recency (t : WaySet cfg) : List MdAddr := t.present.map fun i => (t.lines i).tag

/-- No two valid blocks change places, and none comes or goes: `Ranked` by nothing. -/
def Packed (t : WaySet cfg) : Prop := t.Ranked fun _ _ => True

theorem mem_present {j : ℕ} : j ∈ t.present ↔ j ∈ t.order ∧ (t.lines j).valid = true := by
  rw [present, List.mem_filter]

theorem mem_recency {tag : MdAddr} : tag ∈ t.recency ↔ ∃ i ∈ t.order, t.Holds tag i := by
  rw [recency, List.mem_map]
  refine exists_congr fun i => ?_
  rw [mem_present, Holds, and_assoc, and_comm (a := (t.lines i).valid = true)]

theorem isSome_lookup_iff {tag : MdAddr} : (t.lookup tag).isSome = true ↔ tag ∈ t.recency := by
  rw [mem_recency, ← not_iff_not, Bool.not_eq_true, Option.isSome_eq_false_iff,
    Option.isNone_iff_eq_none, lookup_eq_none]
  push Not
  exact Iff.rfl

theorem Inv.length_order (h : t.Inv) : t.order.length = cfg.assoc := by
  have hperm : t.order.Perm (List.range cfg.assoc) :=
    (List.perm_ext_iff_of_nodup h.nodup List.nodup_range).mpr fun i => by
      rw [h.mem, List.mem_range]
  rw [hperm.length_eq, List.length_range]

theorem Inv.length_recency_le (h : t.Inv) : t.recency.length ≤ cfg.assoc := by
  rw [recency, List.length_map, ← h.length_order]
  exact List.length_filter_le _ _

/-- A tag taken out of the list. -/
theorem Inv.erase_recency (h : t.Inv) (hi : i ∈ t.order) {tag : MdAddr} (hh : t.Holds tag i) :
    t.recency.erase tag = (t.present.erase i).map fun i => (t.lines i).tag := by
  have hnd : t.present.Nodup := h.nodup.filter _
  have hunique : ∀ j ∈ t.present, (t.lines j).tag = tag → j = i := fun j hj htag =>
    h.unique j (mem_present.mp hj).1 i hi (mem_present.mp hj).2 hh.2 (htag.trans hh.1.symm)
  obtain ⟨l₁, l₂, hl⟩ := List.append_of_mem (mem_present.mpr ⟨hi, hh.2⟩)
  rw [hl] at hnd hunique
  have hi₁ : i ∉ l₁ := fun hm => (List.nodup_append.mp hnd).2.2 i hm i List.mem_cons_self rfl
  have htag₁ : tag ∉ l₁.map fun i => (t.lines i).tag := by
    intro hm
    obtain ⟨j, hj, hjt⟩ := List.mem_map.mp hm
    exact hi₁ (hunique j (List.mem_append_left _ hj) hjt ▸ hj)
  rw [recency, hl, List.map_append, List.map_cons, List.erase_append_right _ hi₁,
    List.erase_append_right _ htag₁, List.erase_cons_head, List.map_append, hh.1,
    List.erase_cons_head]

theorem erase_recency_of_not (h : t.lookup tag = none) : t.recency.erase tag = t.recency := by
  refine List.erase_of_not_mem fun hm => ?_
  obtain ⟨i, hi, hh⟩ := mem_recency.mp hm
  exact lookup_eq_none.mp h i hi hh

/-- The valid blocks of a set whose block `i` is valid and first, and whose others are as they
were. -/
theorem recency_front (hnd : t.order.Nodup) (ho : t'.order = moveTo .head i t.order)
    {tag : MdAddr} (hi : t'.Holds tag i) (hne : ∀ j ≠ i, t'.lines j = t.lines j) :
    t'.recency = tag :: ((t.order.erase i).filter fun i => (t.lines i).valid).map
      fun i => (t.lines i).tag := by
  have hmem : ∀ j ∈ t.order.erase i, j ≠ i := fun j hj hji => hnd.not_mem_erase (hji ▸ hj)
  have hrest : (t.order.erase i).filter (fun i => (t'.lines i).valid) =
      (t.order.erase i).filter fun i => (t.lines i).valid :=
    List.filter_congr fun j hj => by rw [hne j (hmem j hj)]
  rw [recency, present, ho, moveTo, List.filter_cons_of_pos (by simpa using hi.2), List.map_cons,
    hrest, hi.1]
  refine congrArg _ (List.map_congr_left fun j hj => ?_)
  rw [hne j (hmem j (List.mem_of_mem_filter hj))]

/-- Taking a valid block out. -/
theorem present_erase (hnd : t.order.Nodup) (i : ℕ) :
    (t.order.erase i).filter (fun j => (t.lines j).valid) = t.present.erase i := by
  rw [present, (hnd.filter _).erase_eq_filter, hnd.erase_eq_filter, List.filter_filter,
    List.filter_filter]
  exact List.filter_congr fun j _ => Bool.and_comm _ _

/-- **A hit uses a tag.** -/
theorem Inv.recency_hit (h : t.Inv) (hp : cfg.policy = .lru) {req : Request} (hi : i ∈ t.order)
    (hh : t.Holds (cfg.tag req.addr) i) :
    (t.hit req i).recency = touch cfg.assoc (cfg.tag req.addr) t.recency := by
  have hm : cfg.tag req.addr ∈ t.recency := mem_recency.mpr ⟨i, hi, hh⟩
  rw [touch_of_mem hm h.length_recency_le, h.erase_recency hi hh, ← present_erase h.nodup,
    WaySet.hit, if_pos hp]
  refine recency_front h.nodup rfl ?_ fun j hji => ?_
  · rw [Holds, move_lines, setLine_lines, Function.update_self]
    exact hh
  · rw [move_lines, setLine_lines, Function.update_of_ne hji]

/-- **A miss uses a tag**, and the last one leaves if the set is full. -/
theorem Inv.recency_fill (h : t.Inv) (hpacked : t.Packed) {req : Request}
    (hl : t.lookup (cfg.tag req.addr) = none) (hi : t.order.getLast? = some i) (E : Extern W cfg)
    (regs : Regs) (w : W) : ((t.move .head i).fill E regs req i w).2.1.recency =
      touch cfg.assoc (cfg.tag req.addr) t.recency := by
  have hm : cfg.tag req.addr ∉ t.recency := by
    intro hm
    obtain ⟨j, hj, hh⟩ := mem_recency.mp hm
    exact lookup_eq_none.mp hl j hj hh
  obtain ⟨n, hn⟩ : ∃ n, cfg.assoc = n + 1 := ⟨cfg.assoc - 1, by have := cfg.assoc_ok.pos; omega⟩
  obtain ⟨ready, data, hfill⟩ := (t.move .head i).fill_line E regs req i w
  have hlast : t.order.erase i = t.order.dropLast := by
    obtain ⟨l, hl'⟩ := List.getLast?_eq_some_iff.mp hi
    have hnd := h.nodup
    rw [hl'] at hnd ⊢
    have hil : i ∉ l := fun hm =>
      (List.nodup_append.mp hnd).2.2 i hm i (List.mem_singleton_self i) rfl
    rw [List.erase_append_right _ hil, List.erase_cons_head, List.append_nil, List.dropLast_concat]
  have hdrop : t.order.dropLast.filter (fun j => (t.lines j).valid) = t.present.take n := by
    have hd := AdvancedArchitecture.Ranked.filter_dropLast
      (p := fun i => (t.lines i).valid = true) hpacked hi
    simp only [Bool.decide_eq_true] at hd
    rw [hd, h.length_order, hn]
    rfl
  have htake : t.recency.take n = ((t.order.erase i).filter fun j => (t.lines j).valid).map
      fun j => (t.lines j).tag := by
    rw [recency, ← List.map_take, ← hdrop, ← hlast]
  rw [hfill, hn, touch_of_not_mem hm, htake]
  refine recency_front (t := t) h.nodup rfl ?_ fun j hji => ?_
  · rw [Holds, setLine_lines, Function.update_self]
    exact ⟨rfl, rfl⟩
  · rw [setLine_lines, Function.update_of_ne hji, move_lines]

/-- **An invalidated block** at the back takes its tag out. -/
theorem Inv.recency_back (h : t.Inv) {tag : MdAddr} (hi : i ∈ t.order) (hh : t.Holds tag i)
    {line : Line cfg} (hv : line.valid = false) :
    ((t.setLine i line).move .tail i).recency = t.recency.erase tag := by
  have hmem : ∀ j ∈ t.order.erase i, j ≠ i := fun j hj hji => h.nodup.not_mem_erase (hji ▸ hj)
  have hline : ∀ j ∈ t.order.erase i, (t.setLine i line).lines j = t.lines j := by
    intro j hj
    rw [setLine_lines, Function.update_of_ne (hmem j hj)]
  have hself : (t.setLine i line).lines i = line := Function.update_self _ _ _
  have hrest : (t.order.erase i).filter (fun j => ((t.setLine i line).lines j).valid) =
      t.present.erase i := by
    rw [← present_erase h.nodup]
    exact List.filter_congr fun j hj => by rw [hline j hj]
  have hnil : [i].filter (fun j => ((t.setLine i line).lines j).valid) = [] := by
    rw [List.filter_singleton, hself, hv]
    rfl
  rw [h.erase_recency hi hh, recency, present, move_order, move_lines, moveTo, setLine_order,
    List.filter_append, hrest, hnil, List.append_nil]
  refine List.map_congr_left fun j hj => ?_
  rw [hline j (List.mem_of_mem_filter (present_erase h.nodup i ▸ hj))]

end WaySet

/-! ### `LRU` caches as recency lists -/

/-- What a call does to the recency lists of the sets. -/
def lruStep (cfg : Config) (s : ℕ → List MdAddr) : Op → ℕ → List MdAddr
  | .access req => Function.update s (cfg.set req.addr).toNat
      (touch cfg.assoc (cfg.tag req.addr) (s (cfg.set req.addr).toNat))
  | .probe _ => s
  | .flush _ => fun _ => []
  | .flushAddr addr _ => Function.update s (cfg.set addr).toNat
      ((s (cfg.set addr).toNat).erase (cfg.tag addr))

namespace WayCache

variable {a a' : WayCache cfg}

/-- The recency lists of the sets. -/
def recency (a : WayCache cfg) : ℕ → List MdAddr := fun i => (a.sets i).recency

/-- Every set is packed. -/
def Packed (a : WayCache cfg) : Prop := a.Ranked fun _ _ _ => True

theorem recency_update (i : ℕ) (t : WaySet cfg) (regs : Regs) :
    recency ⟨regs, Function.update a.sets i t⟩ = Function.update a.recency i t.recency := by
  funext j
  rw [recency]
  dsimp only
  by_cases hji : j = i
  · rw [hji, Function.update_self, Function.update_self]
  · rw [Function.update_of_ne hji, Function.update_of_ne hji]
    rfl

/-- **Calls of an `LRU` cache** are calls on its recency lists. -/
theorem recency_step (hp : cfg.policy = .lru) (h : ∀ i < cfg.nsets, (a.sets i).Inv)
    (hpacked : a.Packed) {op : Op} {w w' : W} {ans : Answer}
    (hs : step E (a, w) op = some (ans, (a', w'))) :
    (∀ i < cfg.nsets, a'.recency i = lruStep cfg a.recency op i) ∧ a'.Packed := by
  cases op with
  | access req =>
    have hlt : (cfg.set req.addr).toNat < cfg.nsets := Config.set_lt req.addr
    have hset := h _ hlt
    obtain ⟨r, -, hr⟩ := step_access hs
    obtain ⟨-, ⟨hl, hr⟩ | ⟨i, hl, -, rfl, -⟩⟩ := access_eq_some hr
    · -- a miss takes the last block, and the tag goes to the front
      obtain ⟨i, regs, w₁, hlast, rfl⟩ := miss_tail (Or.inl hp) hr
      refine ⟨fun j _ => ?_, hpacked.update ?_ (fun _ _ _ _ h => h) _⟩
      · rw [recency_update, hset.recency_fill (hpacked _ hlt) hl hlast]
        rfl
      · exact (hpacked _ hlt).fill hset.nodup E regs req w₁ (fun _ _ _ => trivial)
          fun _ _ _ _ _ => trivial
    · -- a hit moves the tag to the front
      obtain ⟨hi, hh⟩ := hset.lookup_eq_some.mp hl
      refine ⟨fun j _ => ?_, hpacked.update ?_ (fun _ _ _ _ h => h) _⟩
      · rw [hit, recency_update, hset.recency_hit hp hi hh]
        rfl
      · exact (hpacked _ hlt).hit hset.nodup hp hh.2 req (fun _ _ _ => trivial)
          fun _ _ _ _ _ => trivial
  | probe addr =>
    obtain ⟨-, rfl, -⟩ := step_probe hs
    exact ⟨fun _ _ => rfl, hpacked⟩
  | flush now =>
    obtain ⟨-, rfl, -⟩ := step_flush hs
    refine ⟨fun i hi => ?_, Ranked.flush E a now w⟩
    have he := a.flush_emptied E now w hi
    rw [lruStep, recency, WaySet.recency, WaySet.present, List.map_eq_nil_iff,
      List.filter_eq_nil_iff]
    intro j hj hv
    obtain ⟨data, hd⟩ := he.line j
    rw [he.order] at hj
    rw [hd, if_pos hj] at hv
    exact Bool.false_ne_true hv
  | flushAddr addr now =>
    obtain ⟨-, rfl, -⟩ := step_flushAddr hs
    have hset := h _ (Config.set_lt addr)
    refine ⟨fun j _ => ?_, hpacked.flushAddr hset now w⟩
    rw [flushAddr, lruStep]
    dsimp only
    rcases hl : (a.sets (cfg.set addr).toNat).lookup (cfg.tag addr) with _ | i
    · -- an address that is not held is in no list
      have herase : (a.recency (cfg.set addr).toNat).erase (cfg.tag addr) =
          a.recency (cfg.set addr).toNat := WaySet.erase_recency_of_not hl
      rw [herase, Function.update_eq_self]
    · obtain ⟨hi, hh⟩ := hset.lookup_eq_some.mp hl
      dsimp only
      rw [recency_update, hset.recency_back hi hh (by rw [invalidateLine_line])]
      rfl

end WayCache

/-! ### Two caches -/

section two

variable {W' : Type} {cfg' : Config} {E' : Extern W' cfg'}

/-- Two `LRU` caches that divide memory into the same sets and blocks. -/
structure Nested (cfg cfg' : Config) : Prop where
  nsets : cfg'.nsets = cfg.nsets
  bsize : cfg'.bsize = cfg.bsize
  assoc : cfg.assoc ≤ cfg'.assoc
  policy : cfg.policy = .lru
  policy' : cfg'.policy = .lru

namespace Nested

variable (h : Nested cfg cfg')

include h

theorem set_eq (addr : MdAddr) : cfg'.set addr = cfg.set addr := by
  rw [Config.set, Config.set, Config.setShift, Config.setShift, Config.setMask, Config.setMask,
    h.nsets, h.bsize]

theorem tag_eq (addr : MdAddr) : cfg'.tag addr = cfg.tag addr := by
  rw [Config.tag, Config.tag, Config.tagShift, Config.tagShift, Config.setShift, Config.setShift,
    h.nsets, h.bsize]

theorem baddr_eq (addr : MdAddr) : cfg'.baddr addr = cfg.baddr addr := by
  rw [Config.baddr, Config.baddr, Config.blkMask, Config.blkMask, h.bsize]

theorem ok_eq (req : Request) : req.ok cfg' = req.ok cfg := by
  rw [Request.ok, Request.ok, Config.blkMask, Config.blkMask, h.bsize]

/-- **A call keeps the lists of the smaller cache prefixes** of those of the larger one. -/
theorem lruStep_prefix {s s' : ℕ → List MdAddr} (op : Op) {i : ℕ} (hp : s i <+: s' i) :
    lruStep cfg s op i <+: lruStep cfg' s' op i := by
  cases op with
  | access req =>
    rw [lruStep, lruStep, h.set_eq, h.tag_eq]
    by_cases hi : i = (cfg.set req.addr).toNat
    · rw [← hi, Function.update_self, Function.update_self]
      exact touch_prefix hp h.assoc _
    · rw [Function.update_of_ne hi, Function.update_of_ne hi]
      exact hp
  | probe addr => exact hp
  | flush now => exact List.prefix_rfl
  | flushAddr addr now =>
    rw [lruStep, lruStep, h.set_eq, h.tag_eq]
    by_cases hi : i = (cfg.set addr).toNat
    · rw [← hi, Function.update_self, Function.update_self]
      exact erase_prefix hp _
    · rw [Function.update_of_ne hi, Function.update_of_ne hi]
      exact hp

end Nested

/-- Accesses of an `LRU` cache that pass the checks return. -/
theorem WayCache.step_returns {a : WayCache cfg} (hp : cfg.policy = .lru)
    (h : ∀ i < cfg.nsets, (a.sets i).Inv) {op : Op}
    (hok : ∀ req, op = .access req → req.ok cfg = true) (E : Extern W cfg) (w : W) :
    ∃ ans s', WayCache.step E (a, w) op = some (ans, s') := by
  cases op with
  | access req =>
    rw [WayCache.step, access, if_neg (not_not.mpr (hok req rfl))]
    rcases hl : (a.sets (cfg.set req.addr).toNat).lookup (cfg.tag req.addr) with _ | i
    · obtain ⟨i, hi⟩ : ∃ i, (a.sets (cfg.set req.addr).toNat).order.getLast? = some i :=
        ⟨_, List.getLast?_eq_some_getLast (h _ (Config.set_lt req.addr)).order_ne_nil⟩
      simp only [miss, WaySet.selectVictim, hp, hi, Option.map_some]
      exact ⟨_, _, rfl⟩
    · exact ⟨_, _, rfl⟩
  | probe addr => exact ⟨_, _, rfl⟩
  | flush now => exact ⟨_, _, rfl⟩
  | flushAddr addr now => exact ⟨_, _, rfl⟩

/-- The larger cache holds what the smaller one holds, and has had its hits. -/
def Includes (c : CacheT cfg) (c' : CacheT cfg') : Prop :=
  ∃ a a', Refines c a ∧ Refines c' a' ∧ a.Packed ∧ a'.Packed ∧
    (∀ i < cfg.nsets, a.recency i <+: a'.recency i) ∧ a.regs.hits ≤ a'.regs.hits

namespace Includes

variable {c c₁ : CacheT cfg} {c' : CacheT cfg'}

/-- What the smaller cache holds, the larger holds. -/
theorem probe (hn : Nested cfg cfg') (h : Includes c c') {addr : MdAddr}
    (hp : c.probe addr = true) : c'.probe addr = true := by
  obtain ⟨a, a', hr, hr', -, -, hpre, -⟩ := h
  rw [hr.probe, WayCache.probe, WaySet.isSome_lookup_iff] at hp
  rw [hr'.probe, WayCache.probe, WaySet.isSome_lookup_iff, hn.set_eq, hn.tag_eq]
  exact (hpre _ (Config.set_lt addr)).subset hp

/-- The larger cache has had the hits of the smaller one. -/
theorem hits (h : Includes c c') : c.regs.hits ≤ c'.regs.hits := by
  obtain ⟨a, a', hr, hr', -, -, -, hhits⟩ := h
  rw [hr.regs, hr'.regs]
  exact hhits

/-- **A call of the smaller cache is matched** by the larger one, and the inclusion is kept. -/
theorem step (hn : Nested cfg cfg') (h : Includes c c') {op : Op} (hop : op.OutsideZero cfg)
    {w w₁ : W} {ans : Answer} (hs : CacheT.step E (c, w) op = some (ans, (c₁, w₁)))
    (E' : Extern W' cfg') (w' : W') :
    ∃ ans' c₁' w₁', CacheT.step E' (c', w') op = some (ans', (c₁', w₁')) ∧ Includes c₁ c₁' := by
  have hprobe : ∀ addr, c.probe addr = true → c'.probe addr = true := fun _ => h.probe hn
  obtain ⟨a, a', hr, hr', hpacked, hpacked', hpre, hhits⟩ := h
  obtain ⟨a₁, ha, hr₁⟩ := hr.step_of_eq_some E hs
  -- the checks of a request depend on the block size alone
  have hok : ∀ req, op = .access req → req.ok cfg' = true := by
    rintro req rfl
    rw [hn.ok_eq]
    by_contra hok
    simp [CacheT.step, CacheT.access, hok] at hs
  have hop' : op.OutsideZero cfg' := by
    cases op with
    | access req =>
      rw [Op.OutsideZero, hn.baddr_eq]
      exact hop
    | _ => trivial
  obtain ⟨ans', ⟨a₁', w₁'⟩, ha'⟩ := WayCache.step_returns hn.policy' hr'.inv hok E' w'
  have hrel := hr'.step E' w' hop'
  rw [ha'] at hrel
  obtain ⟨⟨ans'', c₁', w₁''⟩, hs', rfl, hr₁', -⟩ := rel_of_some hrel
  obtain ⟨hrec, hpacked₁⟩ := WayCache.recency_step hn.policy hr.inv hpacked ha
  obtain ⟨hrec', hpacked₁'⟩ := WayCache.recency_step hn.policy' hr'.inv hpacked' ha'
  refine ⟨_, c₁', w₁'', hs', a₁, a₁', hr₁, hr₁', hpacked₁, hpacked₁', fun i hi => ?_, ?_⟩
  · rw [hrec i hi, hrec' i (by rw [hn.nsets]; exact hi)]
    exact hn.lruStep_prefix op (hpre i hi)
  · -- a hit of the smaller cache is one of the larger
    obtain ⟨hc, -, -⟩ := WayCache.tallied_step hr.inv ha
    obtain ⟨hc', -, -⟩ := WayCache.tallied_step hr'.inv ha'
    have hcount : a.hitCount op ≤ a'.hitCount op := by
      cases op with
      | access req =>
        have hp := hprobe req.addr
        rw [hr.probe, hr'.probe] at hp
        rw [WayCache.hitCount, WayCache.hitCount]
        split_ifs with h₁ h₂
        · exact le_refl 1
        · exact absurd (hp h₁) h₂
        · exact Nat.zero_le 1
        · exact le_refl 0
      | _ => exact le_refl 0
    rw [hc, hc']
    omega

end Includes

/-- **LRU inclusion.** Of two `LRU` caches with the same sets and blocks, run on the same calls,
the one of the larger associativity holds every block that the other holds, its accesses hit
wherever those of the other do, and it has at least as many hits. -/
theorem lru_inclusion (hn : Nested cfg cfg') {c₀ c : CacheT cfg} {c₀' : CacheT cfg'}
    (hc : cacheCreate cfg = some c₀) (hc' : cacheCreate cfg' = some c₀') (E : Extern W cfg)
    (E' : Extern W' cfg') {w₀ w : W} (w₀' : W') {ops : List Op}
    (hops : ∀ op ∈ ops, op.OutsideZero cfg) {answers : List Answer}
    (hr : run (CacheT.step E) (c₀, w₀) ops = some (answers, (c, w))) :
    ∃ answers' c' w', run (CacheT.step E') (c₀', w₀') ops = some (answers', (c', w')) ∧
      (∀ addr, c.probe addr = true → c'.probe addr = true) ∧
      c.regs.hits ≤ c'.regs.hits ∧
      ∀ req r c₁ w₁, cfg.baddr req.addr ≠ 0 → c.access E req w = some (r, c₁, w₁) →
        ∃ r' c₁' w₁', c'.access E' req w' = some (r', c₁', w₁') ∧
          (c₁.regs.hits = c.regs.hits + 1 → c₁'.regs.hits = c'.regs.hits + 1) := by
  -- both caches begin with empty lists
  have hempty : ∀ i < cfg.nsets, (WayCache.create cfg).recency i = [] := by
    intro i _
    rw [WayCache.recency, WaySet.recency, WaySet.present, List.map_eq_nil_iff,
      List.filter_eq_nil_iff]
    exact fun j _ hv => absurd hv (by simp [WayCache.create, WaySet.create, default])
  have hinit : Includes c₀ c₀' := by
    refine ⟨_, _, refines_create hc, refines_create hc', WayCache.ranked_create,
      WayCache.ranked_create, fun i hi => ?_, le_refl _⟩
    rw [hempty i hi]
    exact List.nil_prefix
  have hmatch : ∀ (s : CacheT cfg × W) (s' : CacheT cfg' × W') op ans s₁, Includes s.1 s'.1 →
      op.OutsideZero cfg → CacheT.step E s op = some (ans, s₁) →
      ∃ ans' s₁', CacheT.step E' s' op = some (ans', s₁') ∧ True ∧ Includes s₁.1 s₁'.1 := by
    intro s s' op ans s₁ hincl hop hs
    obtain ⟨ans', c₁', w₁', hs', hincl'⟩ := hincl.step hn hop hs E' s'.2
    exact ⟨ans', (c₁', w₁'), hs', trivial, hincl'⟩
  obtain ⟨answers', ⟨c', w'⟩, hrun, -, hincl⟩ :=
    run_match (Q := fun _ _ => True) (t := (c₀', w₀')) hmatch hops hinit hr
  refine ⟨answers', c', w', hrun, fun addr => hincl.probe hn, hincl.hits, ?_⟩
  intro req r c₁ w₁ hz hacc
  have hs : CacheT.step E (c, w) (.access req) = some (.reply r, (c₁, w₁)) := by
    rw [CacheT.step, hacc]
    rfl
  have hop : (Op.access req).OutsideZero cfg := hz
  obtain ⟨ans', c₁', w₁', hs', -⟩ := hincl.step hn hop hs E' w'
  obtain ⟨⟨r', p⟩, hacc', heq⟩ := Option.map_eq_some_iff.mp hs'
  simp only [Prod.mk.injEq] at heq
  obtain ⟨-, rfl⟩ := heq
  refine ⟨r', c₁', w₁', hacc', fun hhit => ?_⟩
  have hheld : c.probe req.addr = true → c'.probe req.addr = true := hincl.probe hn
  obtain ⟨a, a', ha, ha', -⟩ := hincl
  have hcount := (ha.access_counts hacc).1
  have hcount' := (ha'.access_counts hacc').1
  dsimp only at hcount hcount'
  have hprobe : c.probe req.addr = true := by
    by_contra hp
    rw [if_neg hp] at hcount
    omega
  rw [hcount', if_pos (hheld hprobe)]

end two

/-- Two sets of eight blocks of eight bytes. -/
def wideConfig : Config := Config.ofWordLogs 1 3 .lru

/-- The sample run, in sets of two blocks and in sets of eight, which have hash chains. -/
theorem lru_inclusion_sample : ∃ c₀ c₀' answers c w, cacheCreate sampleConfig = some c₀ ∧
    cacheCreate wideConfig = some c₀' ∧
    run (CacheT.step (journal _)) (c₀, []) sampleOps = some (answers, (c, w)) ∧
    ∃ answers' c' w', run (CacheT.step (journal _)) (c₀', []) sampleOps =
        some (answers', (c', w')) ∧
      (∀ addr, c.probe addr = true → c'.probe addr = true) ∧ c.regs.hits ≤ c'.regs.hits := by
  let c₀ := (cacheCreate sampleConfig).get (by decide)
  have hc : cacheCreate sampleConfig = some c₀ := (Option.some_get _).symm
  obtain ⟨c₀', hc'⟩ : ∃ c, cacheCreate wideConfig = some c := by
    rw [cacheCreate, if_neg (by decide)]
    exact ⟨_, rfl⟩
  have hn : Nested sampleConfig wideConfig := ⟨rfl, rfl, by decide, rfl, rfl⟩
  have hs : (run (CacheT.step (journal _)) (c₀, []) sampleOps).isSome = true := by decide +kernel
  obtain ⟨⟨answers, c, w⟩, hr⟩ := Option.isSome_iff_exists.mp hs
  obtain ⟨answers', c', w', hr', hprobe, hhits, -⟩ :=
    lru_inclusion hn hc hc' (journal _) (journal _) [] (by decide) hr
  exact ⟨c₀, c₀', answers, c, w, hc, hc', hr, answers', c', w', hr', hprobe, hhits⟩

end AdvancedArchitecture.Cache
