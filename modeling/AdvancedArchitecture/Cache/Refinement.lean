import AdvancedArchitecture.Cache.WayInvariant
import AdvancedArchitecture.Lib.Run

/-!
# The cache of `cache.c` is a set-associative cache

`Refines c a` says that the sets of `c` list the blocks of the sets of `a`, and that the block
of the last hit, if there is one, is a block that a lookup would find and that a hit would
neither move nor promote. Each call keeps the relation and answers the same on both sides
(`Refines.step`), as long as no access goes to block 0, whose address is the `last_tagset` of
a cache without a last block.
-/

namespace AdvancedArchitecture.Cache

open CacheSet

variable {W : Type} {cfg : Config} {E : Extern W cfg}

/-! ### Calls on one set -/

section

variable {live : ℕ → Prop} {s : CacheSet cfg} {t : WaySet cfg} {i : ℕ}

theorem WaySet.setLine_move (t : WaySet cfg) (i j : ℕ) (line : Line cfg) (loc : ListLoc) :
    (t.setLine i line).move loc j = (t.move loc j).setLine i line := rfl

/-- A line rewritten on both sides. -/
theorem SetRel.modifyLine (h : SetRel live s t) (hi : i ∈ t.order) (f : Line cfg → Line cfg)
    (htag : live i → (f (t.lines i)).tag = (t.lines i).tag) :
    SetRel live (s.modifyLine i f) (t.setLine i (f (t.lines i))) := by
  have heq : s.modifyLine i f = s.modifyLine i fun _ => f (t.lines i) := by
    rw [← h.line i hi]
    rfl
  rw [heq]
  exact h.setLine hi _ htag

/-- A block without a predecessor is the first. -/
theorem SetRel.head?_of_wayPrev (h : SetRel live s t) (hi : i ∈ t.order)
    (hp : s.wayPrev i = none) : t.order.head? = some i := by
  obtain ⟨l₁, l₂, ho⟩ := List.append_of_mem hi
  have hways := h.ways
  rw [ho] at hways ⊢
  have hprev : s.wayPrev i = l₁.getLast? := hways.prev_eq
  rw [hp, eq_comm, List.getLast?_eq_none_iff] at hprev
  rw [hprev]
  rfl

/-- The first block is not moved to the front. -/
theorem moveTo_head_of_head? {l : List ℕ} (h : l.head? = some i) : moveTo .head i l = l := by
  cases l with
  | nil => exact absurd h (by simp)
  | cons x l =>
    obtain rfl := Option.some.inj h
    simp [moveTo]

theorem WaySet.move_head_of_head? (h : t.order.head? = some i) : t.move .head i = t := by
  rw [WaySet.move, moveTo_head_of_head? h]

/-- The block at the tail of the way list. -/
theorem SetRefines.tailVictim (h : SetRefines s t) (hi : t.Inv) (regs : Regs) (w : W) :
    Option.Rel (fun p q => p.1 = q.1 ∧ SetRefines p.2.1 q.2.1 ∧ p.2.2 = q.2.2)
      (do
        let repl ← s.wayTail
        let s ← s.updateWayList repl .head
        return (repl, s, regs, w))
      (t.order.getLast?.map fun i => (i, t.move .head i, regs, w)) := by
  obtain ⟨i, hl, hm⟩ : ∃ i, t.order.getLast? = some i ∧ i ∈ t.order :=
    ⟨_, List.getLast?_eq_some_getLast hi.order_ne_nil, List.getLast_mem _⟩
  obtain ⟨s', hs', hr⟩ := SetRel.updateWayList h hm .head
  have ht : s.wayTail = some i := (SetRel.wayTail h).trans hl
  simp only [hl, ht, hs', Option.bind_eq_bind, Option.bind_some, Option.map_some]
  exact Option.Rel.some ⟨rfl, hr, rfl⟩

/-- The block that the search of `NRU` finds: renewed bits end the search with its first
round. -/
theorem SetRefines.nruVictim (h : SetRefines s t) :
    Option.Rel (fun p q => p.1 = q.1 ∧ SetRefines p.2 q.2) s.nruVictim
      ((t.search (fun l => l.nruBit) fun l => { l with nruBit := true }).map fun r =>
        (r.1, r.2.setLine r.1 { r.2.lines r.1 with nruBit := false })) := by
  have hv := SetRefines.victimLoop_rel (fun l => l.nruBit) h
    (f := fun l => { l with nruBit := true }) (fun l => rfl) fun n r => nru_bound
  rw [CacheSet.nruVictim, Option.bind_eq_bind]
  rcases hs : t.search (fun l => l.nruBit) fun l => { l with nruBit := true } with _ | ⟨j, t'⟩
  · rw [hs] at hv
    rw [rel_of_none hv]
    exact Option.Rel.none
  · rw [hs] at hv
    obtain ⟨⟨k, s'⟩, hk, rfl, hr⟩ := rel_of_some hv
    obtain ⟨hm, ho, -⟩ := search_mem hs
    rw [hk]
    exact Option.Rel.some ⟨rfl, SetRel.modifyLine hr (ho ▸ hm)
      (fun l => { l with nruBit := false }) fun _ => rfl⟩

/-- The block that the search of `DRRIP` finds: values that are not negative reach the bound in
as many rounds. -/
theorem SetRefines.drripVictim (h : SetRefines s t) (hi : t.Inv) (regs : Regs) :
    Option.Rel (fun p q => p.1 = q.1 ∧ SetRefines p.2.1 q.2.1 ∧ p.2.2 = q.2.2)
      (s.drripVictim regs)
      ((t.search (fun l => l.rrpv = rrpvMax) fun l => { l with rrpv := l.rrpv + 1 }).map fun r =>
        (r.1, r.2.setLine r.1 { r.2.lines r.1 with rrpv := (drripInsert t.setType regs).1 },
          (drripInsert t.setType regs).2)) := by
  have hv := SetRefines.victimLoop_rel (fun l => l.rrpv = rrpvMax) h
    (f := fun l => { l with rrpv := l.rrpv + 1 }) (fun l => rfl)
    fun n r => drrip_bound (k := rrpvMax.toNat) fun i him => by
      have hnn := hi.rrpv_nonneg i him
      exact le_trans (by decide) hnn
  rw [CacheSet.drripVictim, Option.bind_eq_bind]
  rcases hs : t.search (fun l => l.rrpv = rrpvMax) fun l => { l with rrpv := l.rrpv + 1 }
    with _ | ⟨j, t'⟩
  · rw [hs] at hv
    rw [rel_of_none hv]
    exact Option.Rel.none
  · rw [hs] at hv
    obtain ⟨⟨k, s'⟩, hk, rfl, hr⟩ := rel_of_some hv
    obtain ⟨hm, ho, hty⟩ := search_mem hs
    have hty' : s'.setType = t.setType := (SetRel.setType hr).trans hty
    rw [hk]
    dsimp only at hr hty' ⊢
    rw [Option.bind_some, Option.map_some]
    dsimp only
    rw [hty']
    exact Option.Rel.some ⟨rfl, SetRel.modifyLine hr (ho ▸ hm)
      (fun l => { l with rrpv := (drripInsert t.setType regs).1 }) fun _ => rfl, rfl⟩

/-- **Victims agree.** -/
theorem SetRefines.selectVictim (E : Extern W cfg) (h : SetRefines s t) (hi : t.Inv)
    (regs : Regs) (w : W) :
    Option.Rel (fun p q => p.1 = q.1 ∧ SetRefines p.2.1 q.2.1 ∧ p.2.2 = q.2.2)
      (s.selectVictim E regs w) (t.selectVictim E regs w) := by
  rw [CacheSet.selectVictim, WaySet.selectVictim]
  rcases hp : cfg.policy <;> dsimp only
  case lru => exact h.tailVictim hi regs w
  case fifo => exact h.tailVictim hi regs w
  case random => exact Option.Rel.some ⟨rfl, h, rfl⟩
  case nru =>
    have hv : Option.Rel (fun p q => p.1 = q.1 ∧ SetRefines p.2.1 q.2.1 ∧ p.2.2 = q.2.2)
        (s.nruVictim.map fun p => (p.1, p.2, regs, w))
        (Option.map (fun q : ℕ × WaySet cfg => (q.1, q.2, regs, w)) _) :=
      rel_map h.nruVictim fun _ _ hpq => ⟨hpq.1, hpq.2, rfl⟩
    rw [Option.map_map, Option.map_eq_bind] at hv
    exact hv
  case drrip =>
    have hv : Option.Rel (fun p q => p.1 = q.1 ∧ SetRefines p.2.1 q.2.1 ∧ p.2.2 = q.2.2)
        ((s.drripVictim regs).map fun p => (p.1, p.2.1, p.2.2, w))
        (Option.map (fun q : ℕ × WaySet cfg × Regs => (q.1, q.2.1, q.2.2, w)) _) :=
      rel_map (h.drripVictim hi regs) fun _ _ hpq =>
        ⟨hpq.1, hpq.2.1, congrArg (fun regs => (regs, w)) hpq.2.2⟩
    rw [Option.map_map, Option.map_eq_bind] at hv
    exact hv

/-- **Slow hits agree**: under `LRU` the block is moved to the front, where it may be. -/
theorem SetRefines.hit (h : SetRefines s t) (hi : i ∈ t.order) (req : Request) :
    ∃ s', (s.modifyLine i fun _ => (hitLine (s.line i) req).2).reorder i = some s' ∧
      SetRefines (s'.modifyLine i promote) (t.hit req i) := by
  have hline := h.line i hi
  have hr : SetRefines (s.modifyLine i fun _ => (hitLine (s.line i) req).2)
      (t.setLine i (hitLine (t.lines i) req).2) := by
    rw [hline]
    exact SetRel.setLine h hi _ fun _ => rfl
  have hpromote : ∀ {s' : CacheSet cfg} {t' : WaySet cfg}, SetRefines s' t' → i ∈ t'.order →
      t'.lines i = (hitLine (t.lines i) req).2 →
      SetRefines (s'.modifyLine i promote)
        (t'.setLine i (promote (hitLine (t.lines i) req).2)) := by
    intro s' t' hr' hi' hl
    rw [← hl]
    exact SetRel.modifyLine hr' hi' promote fun _ => rfl
  rw [WaySet.hit, reorder]
  by_cases hp : cfg.policy = .lru
  · rw [if_pos hp]
    by_cases hprev : (s.modifyLine i fun _ => (hitLine (s.line i) req).2).wayPrev i = none
    · -- the block is the first already
      rw [if_neg fun h => h.1 hprev]
      have hhead := SetRel.head?_of_wayPrev hr hi hprev
      refine ⟨_, rfl, ?_⟩
      have hfirst : (t.setLine i (promote (hitLine (t.lines i) req).2)).order.head? = some i :=
        hhead
      rw [WaySet.move_head_of_head? hfirst,
        ← WaySet.setLine_setLine t i (hitLine (t.lines i) req).2]
      exact hpromote hr hi (Function.update_self _ _ _)
    · rw [if_pos ⟨hprev, hp⟩]
      obtain ⟨s', hs', hr'⟩ := SetRel.updateWayList hr hi .head
      refine ⟨s', hs', ?_⟩
      rw [WaySet.setLine_move, ← WaySet.setLine_setLine _ i (hitLine (t.lines i) req).2]
      exact hpromote hr' ((mem_moveTo .head hi i).mpr hi) (Function.update_self _ _ _)
  · rw [if_neg hp, if_neg fun h => hp h.2]
    refine ⟨_, rfl, ?_⟩
    rw [← WaySet.setLine_setLine t i (hitLine (t.lines i) req).2]
    exact hpromote hr hi (Function.update_self _ _ _)

/-- A set with other hash chains. -/
theorem SetRel.of_sameWays {live' : ℕ → Prop} {s' : CacheSet cfg} (h : SetRel live s t)
    (hs : SameWays s s') (hc : cfg.hsize ≠ 0 → s'.Chains live') : SetRel live' s' t where
  ways := by
    rw [hs.ways]
    exact h.ways
  line j hj := by
    rw [hs.line]
    exact h.line j hj
  setType := hs.setType.trans h.setType
  mem := h.mem
  chains := hc

/-- **Replacing agrees**: the block is off the hash chains while its tag changes. -/
theorem SetRefines.replace (h : SetRefines s t) (hi : i ∈ t.order) :
    ∃ s', s.unhash i = some s' ∧ s'.line i = t.lines i ∧ ∀ line,
      SetRefines ((s'.modifyLine i fun _ => line).rehash i) (t.setLine i line) := by
  have hlt := (h.mem i).mp hi
  by_cases hh : cfg.hsize ≠ 0
  · obtain ⟨s', hs', hsame, hc⟩ := unlinkHtabEnt_spec (h.chains hh) hh (fun j hj => hj) hlt
    have hr : SetRel (fun j => j < cfg.assoc ∧ j ≠ i) s' t := h.of_sameWays hsame fun _ => hc
    refine ⟨s', by rw [unhash, if_pos hh, hs'], hr.line i hi, fun line => ?_⟩
    have hline : SetRel (fun j => j < cfg.assoc ∧ j ≠ i) (s'.modifyLine i fun _ => line)
        (t.setLine i line) := hr.setLine hi line fun hl => absurd rfl hl.2
    obtain ⟨hsame', hc'⟩ := linkHtabEnt_spec (hline.chains hh) hh hlt fun hl => hl.2 rfl
    rw [rehash, if_pos hh]
    refine hline.of_sameWays hsame' fun _ => ?_
    have hlive : (fun j => (j < cfg.assoc ∧ j ≠ i) ∨ j = i) = fun j => j < cfg.assoc := by
      funext j
      by_cases hj : j = i <;> simp [hj, hlt]
    rwa [hlive] at hc'
  · refine ⟨s, by rw [unhash, if_neg hh], h.line i hi, fun line => ?_⟩
    rw [rehash, if_neg hh]
    have hnone : SetRel (fun _ => False) s t :=
      h.of_sameWays ⟨rfl, rfl, rfl⟩ fun hh' => absurd hh' hh
    exact (hnone.setLine hi line False.elim).of_sameWays ⟨rfl, rfl, rfl⟩ fun hh' => absurd hh' hh

/-- A hit of a promoted block at the place that its policy gives it changes its line only. -/
theorem WaySet.hit_of_promoted (hp : promote (t.lines i) = t.lines i)
    (hf : cfg.policy = .lru → t.order.head? = some i) (req : Request) :
    t.hit req i = t.setLine i (hitLine (t.lines i) req).2 := by
  have hline : promote (hitLine (t.lines i) req).2 = (hitLine (t.lines i) req).2 := by
    have hn := congrArg Line.nruBit hp
    have hr := congrArg Line.rrpv hp
    simp only [promote, hitLine] at hn hr ⊢
    rw [hn, hr]
  rw [WaySet.hit, hline]
  split_ifs with hl
  · exact WaySet.move_head_of_head? (hf hl)
  · rfl

end

/-! ### Calls on the cache -/

/-- `blk` is the block of `addr`, and a hit would neither move nor promote it. -/
structure Remembered (a : WayCache cfg) (addr : MdAddr) (blk : ℕ) : Prop where
  mem : blk ∈ (a.sets (cfg.set addr).toNat).order
  holds : (a.sets (cfg.set addr).toNat).Holds (cfg.tag addr) blk
  promoted : promote ((a.sets (cfg.set addr).toNat).lines blk) =
    (a.sets (cfg.set addr).toNat).lines blk
  first : cfg.policy = .lru → (a.sets (cfg.set addr).toNat).order.head? = some blk

/-- The sets of `c` list the blocks of the sets of `a`. -/
structure Refines (c : CacheT cfg) (a : WayCache cfg) : Prop where
  regs : c.regs = a.regs
  sets : ∀ i < cfg.nsets, SetRefines (c.sets.get i) (a.sets i)
  inv : ∀ i < cfg.nsets, (a.sets i).Inv
  last : c.lastBlk = none ∧ c.lastTagset = 0 ∨ ∃ addr blk,
    c.lastBlk = some ((cfg.set addr).toNat, blk) ∧ c.lastTagset = cfg.tagset addr ∧
      Remembered a addr blk

section

variable {c c' : CacheT cfg} {a : WayCache cfg} {i : ℕ}

/-- The sets after one of them is rewritten on both sides. -/
theorem Refines.sets_set (h : Refines c a) {s : CacheSet cfg} {t : WaySet cfg}
    (hr : SetRefines s t) : ∀ j < cfg.nsets,
      SetRefines ((c.sets.set i s).get j) (Function.update a.sets i t j) := by
  intro j hj
  by_cases hji : j = i
  · subst hji
    rw [Table.get_set_self _ hj, Function.update_self]
    exact hr
  · rw [Table.get_set_ne _ hji, Function.update_of_ne hji]
    exact h.sets j hj

theorem Refines.inv_update (h : Refines c a) {t : WaySet cfg} (ht : t.Inv) :
    ∀ j < cfg.nsets, (Function.update a.sets i t j).Inv := by
  intro j hj
  by_cases hji : j = i
  · subst hji
    rw [Function.update_self]
    exact ht
  · rw [Function.update_of_ne hji]
    exact h.inv j hj

/-- The block of a hit is remembered. -/
theorem remembered_hit (req : Request)
    (hi : i ∈ (a.sets (cfg.set req.addr).toNat).order)
    (hh : (a.sets (cfg.set req.addr).toNat).Holds (cfg.tag req.addr) i) :
    Remembered (a.hit req i).2 req.addr i := by
  have hset : (a.hit req i).2.sets (cfg.set req.addr).toNat =
      (a.sets (cfg.set req.addr).toNat).hit req i := Function.update_self _ _ _
  have hline : ((a.sets (cfg.set req.addr).toNat).hit req i).lines i =
      promote (hitLine ((a.sets (cfg.set req.addr).toNat).lines i) req).2 := by
    rw [WaySet.hit]
    split_ifs <;> exact Function.update_self _ _ _
  refine ⟨?_, ?_, ?_, fun hp => ?_⟩
  · rw [hset, WaySet.hit]
    split_ifs
    · exact (mem_moveTo .head hi i).mpr hi
    · exact hi
  · rw [hset, WaySet.Holds, hline]
    exact hh
  · rw [hset, hline]
    simp only [promote]
    split_ifs <;> rfl
  · rw [hset, WaySet.hit, if_pos hp]
    rfl

theorem Refines.lookup (h : Refines c a) (addr : MdAddr) :
    (c.sets.get (cfg.set addr).toNat).lookup (cfg.tag addr) =
      (a.sets (cfg.set addr).toNat).lookup (cfg.tag addr) :=
  (h.sets _ (Config.set_lt addr)).lookup (h.inv _ (Config.set_lt addr)).unique _

/-- The caches after a hit, slow or fast. -/
theorem Refines.after_hit (h : Refines c a) {req : Request}
    (hl : (a.sets (cfg.set req.addr).toNat).lookup (cfg.tag req.addr) = some i)
    {s : CacheSet cfg} (hr : SetRefines s ((a.sets (cfg.set req.addr).toNat).hit req i)) :
    Refines
      { regs := { c.regs with hits := c.regs.hits + 1 }
        lastTagset := cfg.tagset req.addr
        lastBlk := some ((cfg.set req.addr).toNat, i)
        sets := c.sets.set (cfg.set req.addr).toNat s } (a.hit req i).2 := by
  have hinv := h.inv _ (Config.set_lt req.addr)
  obtain ⟨hi, hh⟩ := hinv.lookup_eq_some.mp hl
  refine ⟨?_, h.sets_set hr, h.inv_update (hinv.hit hi req),
    Or.inr ⟨req.addr, i, rfl, rfl, remembered_hit req hi hh⟩⟩
  rw [h.regs]
  rfl

theorem Refines.cacheHit (h : Refines c a) {req : Request}
    (hl : (a.sets (cfg.set req.addr).toNat).lookup (cfg.tag req.addr) = some i) :
    ∃ c', c.cacheHit req i = some ((a.hit req i).1, c') ∧ Refines c' (a.hit req i).2 := by
  have hs := h.sets _ (Config.set_lt req.addr)
  obtain ⟨hi, -⟩ := (h.inv _ (Config.set_lt req.addr)).lookup_eq_some.mp hl
  obtain ⟨s', hs', hr⟩ := hs.hit hi req
  refine ⟨_, ?_, h.after_hit hl hr⟩
  rw [CacheT.cacheHit]
  dsimp only
  rw [hs', hs.line i hi]
  rfl

/-- **Fast hits agree**: the remembered block is the one that a lookup finds, and a hit only
changes its line. -/
theorem Refines.cacheFastHit (h : Refines c a) {req : Request} {addr : MdAddr}
    (hrem : Remembered a addr i) (ht : cfg.tagset req.addr = cfg.tagset addr) :
    (a.sets (cfg.set req.addr).toNat).lookup (cfg.tag req.addr) = some i ∧
      (c.cacheFastHit req (cfg.set addr).toNat i).1 = (a.hit req i).1 ∧
      Refines (c.cacheFastHit req (cfg.set addr).toNat i).2 (a.hit req i).2 := by
  obtain ⟨htag, hset⟩ := Config.tag_set_eq_iff.mpr (Config.baddr_eq_iff.mp ht)
  rw [← hset]
  have hs := h.sets _ (Config.set_lt req.addr)
  obtain ⟨hi, hh, hp, hf⟩ := hrem
  rw [← hset] at hi hh hp hf
  rw [← htag] at hh
  have hl := (h.inv _ (Config.set_lt req.addr)).lookup_eq_some.mpr ⟨hi, hh⟩
  have hline := hs.line i hi
  refine ⟨hl, ?_, h.after_hit hl ?_⟩
  · rw [CacheT.cacheFastHit]
    dsimp only
    rw [hline]
    rfl
  · rw [WaySet.hit_of_promoted hp hf, hline]
    exact SetRel.setLine hs hi _ fun _ => rfl

/-- **Misses agree.** -/
theorem Refines.miss (E : Extern W cfg) (h : Refines c a) {req : Request}
    (hl : (a.sets (cfg.set req.addr).toNat).lookup (cfg.tag req.addr) = none) (w : W) :
    Option.Rel (fun p q => p.1 = q.1 ∧ Refines p.2.1 q.2.1 ∧ p.2.2 = q.2.2)
      (c.miss E req w) (a.miss E req w) := by
  have hs := h.sets _ (Config.set_lt req.addr)
  have hinv := h.inv _ (Config.set_lt req.addr)
  have hv := hs.selectVictim E hinv { a.regs with misses := a.regs.misses + 1 } w
  rw [CacheT.miss, WayCache.miss, h.regs]
  dsimp only
  rcases hsel : (a.sets (cfg.set req.addr).toNat).selectVictim E
      { a.regs with misses := a.regs.misses + 1 } w with _ | ⟨i, t, regs, w'⟩
  · rw [hsel] at hv
    rw [rel_of_none hv]
    exact Option.Rel.none
  · rw [hsel] at hv
    obtain ⟨⟨j, s, rest⟩, hj, hij, hr, hrest⟩ := rel_of_some hv
    obtain rfl : i = j := hij.symm
    obtain rfl : (regs, w') = rest := hrest.symm
    obtain ⟨hselected, -, -⟩ := selectVictim_spec hinv hsel
    obtain ⟨s', hs', hline, hfill⟩ := SetRefines.replace hr hselected.mem_order
    have hnone := hselected.lookup_eq_none.mpr hl
    have hinv' := (hselected.inv hinv).fill hselected.mem_order hnone (E := E) regs w'
    rw [hj, Option.bind_eq_bind, Option.bind_some]
    dsimp only
    rw [hs', Option.bind_eq_bind, Option.bind_some, hline]
    exact Option.Rel.some
      ⟨rfl, ⟨rfl, h.sets_set (hfill _), h.inv_update hinv', Or.inl ⟨rfl, rfl⟩⟩, rfl⟩

/-- Accesses agree, unless a null pointer is dereferenced for block 0. -/
theorem Refines.access (E : Extern W cfg) (h : Refines c a) {req : Request}
    (hb : cfg.baddr req.addr = 0 → ∃ addr i, c.lastBlk = some ((cfg.set addr).toNat, i) ∧
      c.lastTagset = cfg.tagset addr ∧ Remembered a addr i) (w : W) :
    Option.Rel (fun p q => p.1 = q.1 ∧ Refines p.2.1 q.2.1 ∧ p.2.2 = q.2.2)
      (c.access E req w) (a.access E req w) := by
  rw [CacheT.access, WayCache.access]
  split_ifs with hok hlast
  · have hrem : ∃ addr i, c.lastBlk = some ((cfg.set addr).toNat, i) ∧
        c.lastTagset = cfg.tagset addr ∧ Remembered a addr i :=
      h.last.elim (fun hn => hb (hlast.trans hn.2)) id
    obtain ⟨addr, i, hblk, ht, hrem⟩ := hrem
    obtain ⟨hl, hreply, hr⟩ := h.cacheFastHit hrem (hlast.trans ht)
    rw [hblk, hl]
    exact Option.Rel.some ⟨hreply, hr, rfl⟩
  · rw [h.lookup]
    rcases hl : (a.sets (cfg.set req.addr).toNat).lookup (cfg.tag req.addr) with _ | i
    · exact h.miss E hl w
    · obtain ⟨c', hc', hr⟩ := h.cacheHit hl
      dsimp only
      rw [hc']
      exact Option.Rel.some ⟨rfl, hr, rfl⟩
  · exact Option.Rel.none

/-- Accesses that return agree, those to block 0 too: while nothing is remembered they are
dereferences of a null pointer. -/
theorem Refines.access_of_eq_some (E : Extern W cfg) (h : Refines c a) {req : Request} {w w' : W}
    {r : Reply} (hr : c.access E req w = some (r, c', w')) :
    ∃ a', a.access E req w = some (r, a', w') ∧ Refines c' a' := by
  by_cases hb : cfg.baddr req.addr = 0 ∧ c.lastBlk = none ∧ c.lastTagset = 0
  · obtain ⟨hz, hblk, ht⟩ := hb
    rw [CacheT.access, ht, hblk, if_pos (show cfg.tagset req.addr = 0 from hz)] at hr
    split_ifs at hr
  · have hlast : cfg.baddr req.addr = 0 → ∃ addr i,
        c.lastBlk = some ((cfg.set addr).toNat, i) ∧ c.lastTagset = cfg.tagset addr ∧
          Remembered a addr i := fun hz =>
      h.last.resolve_left fun hn => hb ⟨hz, hn⟩
    obtain ⟨⟨r', a', w''⟩, ha, rfl, hr', rfl⟩ := rel_of_eq_some (h.access E hlast w) hr
    exact ⟨a', ha, hr'⟩

theorem Refines.probe (h : Refines c a) (addr : MdAddr) : c.probe addr = a.probe addr := by
  rw [CacheT.probe, WayCache.probe, h.lookup]

theorem Refines.probe_of_lookup (h : Refines c a) {addr : MdAddr} {blk : Option ℕ}
    (hl : (a.sets (cfg.set addr).toNat).lookup (cfg.tag addr) = blk) :
    c.probe addr = blk.isSome := by
  rw [h.probe, WayCache.probe, hl]

/-- Flushes of one address agree. -/
theorem Refines.flushAddr (E : Extern W cfg) (h : Refines c a) (addr : MdAddr) (now : ℤ) (w : W) :
    ∃ c', c.flushAddr E addr now w = some
        ((a.flushAddr E addr now w).1, c', (a.flushAddr E addr now w).2.2) ∧
      Refines c' (a.flushAddr E addr now w).2.1 := by
  have hs := h.sets _ (Config.set_lt addr)
  have hinv := h.inv _ (Config.set_lt addr)
  rw [CacheT.flushAddr, WayCache.flushAddr]
  dsimp only
  rw [h.lookup]
  rcases hl : (a.sets (cfg.set addr).toNat).lookup (cfg.tag addr) with _ | i
  · exact ⟨c, rfl, h⟩
  · obtain ⟨hi, -⟩ := hinv.lookup_eq_some.mp hl
    dsimp only
    rw [hs.line i hi, h.regs]
    have hline := SetRel.setLine hs hi (invalidateLine E cfg.hitLatency a.regs
      ((a.sets (cfg.set addr).toNat).lines i)
      (cfg.mkBaddr ((a.sets (cfg.set addr).toNat).lines i).tag (cfg.set addr)) now w).2.1
      fun _ => by rw [invalidateLine_line]
    obtain ⟨s', hs', hr⟩ := SetRel.updateWayList hline hi .tail
    rw [hs']
    exact ⟨_, rfl, rfl, h.sets_set hr, h.inv_update ((hinv.invalidate hi _ _ _ _ _).move hi _),
      Or.inl ⟨rfl, rfl⟩⟩

/-- A flush of one block on both sides. -/
structure FlushRel (t : WaySet cfg) (f : FlushState W cfg) (g : WayCache.FlushState W cfg) :
    Prop where
  lat : f.lat = g.lat
  set : SetRefines f.set g.set
  inv : g.set.Inv
  order : g.set.order = t.order
  regs : f.regs = g.regs
  world : f.world = g.world

theorem FlushRel.flushBlk {t : WaySet cfg} {f : FlushState W cfg} {g : WayCache.FlushState W cfg}
    (E : Extern W cfg) (h : FlushRel t f g) {blk : ℕ} (hb : blk ∈ t.order) (now : ℤ) (i : ℕ) :
    FlushRel t (flushBlk E now i f blk) (WayCache.flushBlk E now i g blk) := by
  have hmem : blk ∈ g.set.order := h.order ▸ hb
  rw [Cache.flushBlk, WayCache.flushBlk]
  dsimp only
  rw [SetRel.line h.set blk hmem, h.lat, h.regs, h.world]
  split_ifs
  · refine ⟨rfl, SetRel.setLine h.set hmem _ fun _ => ?_, h.inv.invalidate hmem _ _ _ _ _,
      h.order, rfl, rfl⟩
    rw [invalidateLine_line]
  · exact h

/-- Flushes of a set agree. -/
theorem Refines.flushSet (E : Extern W cfg) (h : Refines c a) (hl : c.lastBlk = none)
    (hi : i < cfg.nsets) (now lat : ℤ) (w : W) :
    (CacheT.flushSet E now (lat, c, w) i).1 = (WayCache.flushSet E now (lat, a, w) i).1 ∧
      Refines (CacheT.flushSet E now (lat, c, w) i).2.1
        (WayCache.flushSet E now (lat, a, w) i).2.1 ∧
      (CacheT.flushSet E now (lat, c, w) i).2.1.lastBlk = none ∧
      (CacheT.flushSet E now (lat, c, w) i).2.2 = (WayCache.flushSet E now (lat, a, w) i).2.2 := by
  have hs := h.sets i hi
  -- flushing a block does not change the links along which the loop goes
  have hnext : ∀ (f : FlushState W cfg) (j k : ℕ),
      (flushBlk E now i f j).set.wayNext k = f.set.wayNext k := by
    intro f j k
    rw [flushBlk]
    dsimp only
    split_ifs
    · simp
    · rfl
  have hfold : foldFrom (fun f j => f.set.wayNext j) (flushBlk E now i) cfg.assoc
      (c.sets.get i).wayHead { lat, set := c.sets.get i, regs := c.regs, world := w } =
      (a.sets i).order.foldl (flushBlk E now i)
        { lat, set := c.sets.get i, regs := c.regs, world := w } :=
    foldFrom_eq (fun f j => f.set.wayNext j) (flushBlk E now i)
      (a := { lat, set := c.sets.get i, regs := c.regs, world := w }) hnext hs.ways.fwd hs.length_le
  have hrel : FlushRel (a.sets i)
      ((a.sets i).order.foldl (flushBlk E now i)
        { lat, set := c.sets.get i, regs := c.regs, world := w })
      ((a.sets i).order.foldl (WayCache.flushBlk E now i)
        { lat, set := a.sets i, regs := a.regs, world := w }) :=
    List.foldl_rel ⟨rfl, hs, h.inv i hi, rfl, h.regs, rfl⟩
      fun blk hb f g hfg => hfg.flushBlk E hb now i
  rw [CacheT.flushSet, WayCache.flushSet]
  dsimp only
  rw [hfold]
  refine ⟨hrel.lat, ⟨hrel.regs, h.sets_set hrel.set, h.inv_update hrel.inv, Or.inl ⟨hl, ?_⟩⟩, hl,
    hrel.world⟩
  rcases h.last with hlast | ⟨addr, blk, hlast, -⟩
  · exact hlast.2
  · exact absurd (hl.symm.trans hlast) (by simp)

/-- **Flushes agree.** -/
theorem Refines.flush (E : Extern W cfg) (h : Refines c a) (now : ℤ) (w : W) :
    (c.flush E now w).1 = (a.flush E now w).1 ∧
      Refines (c.flush E now w).2.1 (a.flush E now w).2.1 ∧
      (c.flush E now w).2.2 = (a.flush E now w).2.2 := by
  have hstep : ∀ i < cfg.nsets, ∀ p q,
      (p.1 = q.1 ∧ Refines p.2.1 q.2.1 ∧ p.2.1.lastBlk = none ∧ p.2.2 = q.2.2) →
      (fun p q => p.1 = q.1 ∧ Refines p.2.1 q.2.1 ∧ p.2.1.lastBlk = none ∧ p.2.2 = q.2.2)
        (CacheT.flushSet E now p i) (WayCache.flushSet E now q i) := by
    rintro i hi ⟨lat, c', w'⟩ ⟨-, a', -⟩ ⟨rfl, hr, hl, rfl⟩
    exact hr.flushSet E hl hi now lat w'
  have hrel := forRange_rel
    (s := ((cfg.hitLatency : ℤ), { c with lastTagset := 0, lastBlk := none }, w))
    (t := ((cfg.hitLatency : ℤ), a, w))
    (r := fun p q => p.1 = q.1 ∧ Refines p.2.1 q.2.1 ∧ p.2.1.lastBlk = none ∧ p.2.2 = q.2.2)
    ⟨rfl, ⟨h.regs, h.sets, h.inv, Or.inl ⟨rfl, rfl⟩⟩, rfl, rfl⟩ hstep
  exact ⟨hrel.1, hrel.2.1, hrel.2.2.2⟩

/-- A call whose access, if it is one, is not to block 0. -/
def Op.OutsideZero (cfg : Config) : Op → Prop
  | .access req => cfg.baddr req.addr ≠ 0
  | _ => True

instance (cfg : Config) : ∀ op : Op, Decidable (op.OutsideZero cfg)
  | .access _ => inferInstanceAs (Decidable (_ ≠ _))
  | .probe _ | .flush _ | .flushAddr _ _ => isTrue trivial

/-- **Calls agree**: they answer the same, leave the same world, and keep the relation. -/
theorem Refines.step (E : Extern W cfg) (h : Refines c a) (w : W) {op : Op}
    (hop : op.OutsideZero cfg) :
    Option.Rel (fun p q => p.1 = q.1 ∧ Refines p.2.1 q.2.1 ∧ p.2.2 = q.2.2)
      (CacheT.step E (c, w) op) (WayCache.step E (a, w) op) := by
  cases op with
  | access req =>
    refine rel_map (h.access E (fun hz => absurd hz hop) w) ?_
    rintro ⟨r, p⟩ ⟨r', q⟩ ⟨rfl, hpq⟩
    exact ⟨rfl, hpq⟩
  | probe addr => exact Option.Rel.some ⟨congrArg Answer.found (h.probe addr), h, rfl⟩
  | flush now =>
    obtain ⟨hlat, hr, hw⟩ := h.flush E now w
    exact Option.Rel.some ⟨congrArg Answer.latency hlat, hr, hw⟩
  | flushAddr addr now =>
    obtain ⟨c', hc', hr⟩ := h.flushAddr E addr now w
    rw [CacheT.step, WayCache.step]
    dsimp only
    rw [hc']
    exact Option.Rel.some ⟨rfl, hr, rfl⟩

theorem CacheT.step_access {req : Request} {w w' : W} {ans : Answer}
    (hs : CacheT.step E (c, w) (.access req) = some (ans, (c', w'))) :
    ∃ r, .reply r = ans ∧ c.access E req w = some (r, c', w') := by
  obtain ⟨⟨r, p⟩, hr, heq⟩ := Option.map_eq_some_iff.mp hs
  obtain ⟨hans, rfl⟩ := Prod.mk.inj heq
  exact ⟨r, hans, hr⟩

/-- Calls that return agree, also those on block 0. -/
theorem Refines.step_of_eq_some (E : Extern W cfg) (h : Refines c a) {op : Op} {w w' : W}
    {ans : Answer} (hs : CacheT.step E (c, w) op = some (ans, (c', w'))) :
    ∃ a', WayCache.step E (a, w) op = some (ans, (a', w')) ∧ Refines c' a' := by
  have hother : op.OutsideZero cfg → ∃ a', WayCache.step E (a, w) op = some (ans, (a', w')) ∧
      Refines c' a' := by
    intro hop
    obtain ⟨⟨ans', a', w''⟩, ha, rfl, hr', rfl⟩ := rel_of_eq_some (h.step E w hop) hs
    exact ⟨a', ha, hr'⟩
  cases op with
  | access req =>
    obtain ⟨r, rfl, hr⟩ := CacheT.step_access hs
    obtain ⟨a', ha, hr'⟩ := h.access_of_eq_some E hr
    exact ⟨a', by rw [WayCache.step, ha]; rfl, hr'⟩
  | probe addr => exact hother trivial
  | flush now => exact hother trivial
  | flushAddr addr now => exact hother trivial

end

/-! ### New caches -/

section create

variable {s : CacheSet cfg} {i j : ℕ}

/-- The set of `cache_create` after `j` blocks. -/
structure Created (i j : ℕ) (s : CacheSet cfg) : Prop where
  ways : s.ways.Represents (List.range j).reverse
  line : ∀ k < j, s.line k = (WaySet.create cfg i).lines k
  rest : ∀ k, j ≤ k → s.line k = default
  setType : s.setType = cfg.setType i
  chains : cfg.hsize ≠ 0 → s.Chains (· < j)

/-- The hash chains take the new block when its tag is set. -/
theorem Created.rehash (h : Created i j s) (hj : j < cfg.assoc) (f : Line cfg → Line cfg) :
    SameWays (s.modifyLine j f) ((s.modifyLine j f).rehash j) ∧
      (cfg.hsize ≠ 0 → ((s.modifyLine j f).rehash j).Chains (· < j + 1)) := by
  rw [CacheSet.rehash]
  split_ifs with hh
  · have hc : (s.modifyLine j f).Chains (· < j) := by
      intro k hk
      obtain ⟨l, hseg, hnd, hmem⟩ := h.chains hh k hk
      refine ⟨l, by simpa using hseg, hnd, fun m => ?_⟩
      rw [hmem, line_modifyLine _ _ hj]
      refine and_congr_right fun hm => ?_
      rw [Function.update_of_ne (by omega)]
    obtain ⟨hsame, hc'⟩ := linkHtabEnt_spec hc hh hj (lt_irrefl j)
    have hlive : (fun k => k < j ∨ k = j) = fun k => k < j + 1 := by
      funext k
      exact propext (by omega)
    rw [hlive] at hc'
    exact ⟨hsame, fun _ => hc'⟩
  · exact ⟨⟨rfl, rfl, rfl⟩, fun hh' => absurd hh' hh⟩

theorem Created.addBlk (h : Created i j s) (hj : j < cfg.assoc) :
    Created i (j + 1) (s.addBlk i j) := by
  have hne : ∀ k ∈ (List.range j).reverse, k < cfg.assoc := by
    intro k hk
    have := List.mem_range.mp (List.mem_reverse.mp hk)
    omega
  have hjn : j ∉ (List.range j).reverse := by simp
  set f : Line cfg → Line cfg := fun l =>
    { l with
      valid := false, dirty := false, tag := 0, ready := 0
      userData := if cfg.usize ≠ 0 then some (i * cfg.assoc + j) else none }
  obtain ⟨hsame, hchains⟩ := h.rehash hj f
  -- `rehash` leaves the way list alone, and the block is put at its head
  have hways : ((s.modifyLine j f).rehash j).ways.Represents (List.range j).reverse := by
    rw [hsame.ways, ways_modifyLine]
    exact h.ways
  obtain ⟨hlines, hrep⟩ := addWay_spec hways hne hj hjn
  have hadd : s.addBlk i j = (((s.modifyLine j f).rehash j).addWay j).modifyLine j fun l =>
      { l with nruBit := true, rrpv := rrpvMax - 1 } := rfl
  have hline : (s.addBlk i j).line =
      Function.update s.line j { f (s.line j) with nruBit := true, rrpv := rrpvMax - 1 } := by
    rw [hadd, line_modifyLine _ _ hj, hlines.line, hsame.line, line_modifyLine _ _ hj,
      Function.update_self, Function.update_idem]
  refine ⟨?_, fun k hk => ?_, fun k hk => ?_, ?_, fun hh k hk => ?_⟩
  · rw [hadd, ways_modifyLine, List.range_succ, List.reverse_append, List.reverse_singleton,
      List.singleton_append]
    exact hrep
  · rw [hline]
    by_cases hkj : k = j
    · rw [hkj, Function.update_self, h.rest j le_rfl]
      rfl
    · rw [Function.update_of_ne hkj]
      exact h.line k (by omega)
  · rw [hline, Function.update_of_ne (by omega)]
    exact h.rest k (by omega)
  · exact (hlines.setType.trans hsame.setType).trans h.setType
  · -- `nru_bit` and `rrpv` are written last and are in no chain
    obtain ⟨l, hseg, hnd, hmem⟩ := hchains hh k hk
    have hhash : (s.addBlk i j).hash = ((s.modifyLine j f).rehash j).hash := hlines.hash
    have hnext : (s.addBlk i j).hashNext = ((s.modifyLine j f).rehash j).hashNext := by
      rw [hadd, hashNext_modifyLine, hlines.hashNext]
    refine ⟨l, by rw [hhash, hnext]; exact hseg, hnd, fun m => ?_⟩
    rw [hmem, hsame.line, line_modifyLine _ _ hj, hline]
    by_cases hmj : m = j
    · rw [hmj, Function.update_self, Function.update_self]
    · rw [Function.update_of_ne hmj, Function.update_of_ne hmj]

/-- A set of `cache_create`. -/
theorem created_create (i : ℕ) : Created i cfg.assoc (CacheSet.create cfg i) := by
  refine forRange_induction (CacheSet.addBlk i) (fun j s => Created i j s) ?_
    fun j s hj hs => hs.addBlk hj
  have hzero : ∀ k, (default : CacheSet cfg).blks.get k = default :=
    fun k => Table.get_replicate_default k
  refine ⟨⟨rfl, rfl, List.nodup_nil⟩, fun k hk => absurd hk (Nat.not_lt_zero k), fun k _ => ?_,
    rfl, fun _ k hk => ⟨[], ?_, List.nodup_nil, fun m => by simp⟩⟩
  · exact congrArg CacheBlk.toLine (hzero k)
  · exact Table.get_replicate hk none

theorem WaySet.create_inv (cfg : Config) (i : ℕ) : (WaySet.create cfg i).Inv where
  nodup := List.nodup_reverse.mpr List.nodup_range
  mem k := by simp [WaySet.create]
  unique k _ l _ hk := absurd hk (by simp [WaySet.create, default])
  rrpv_nonneg k _ := by
    have h : (0 : ℤ) ≤ rrpvMax - 1 := by decide
    exact h

/-- **A new cache** is a new set-associative cache. -/
theorem refines_create {c : CacheT cfg} (h : cacheCreate cfg = some c) :
    Refines c (WayCache.create cfg) := by
  rw [cacheCreate] at h
  split_ifs at h
  obtain rfl := Option.some.inj h
  refine ⟨rfl, fun i hi => ?_, fun i _ => WaySet.create_inv cfg i, Or.inl ⟨rfl, rfl⟩⟩
  have hc : Created i cfg.assoc (CacheSet.create cfg i) := created_create i
  rw [Table.get_ofFn hi]
  exact ⟨hc.ways, fun k hk => hc.line k (by simpa [WayCache.create, WaySet.create] using hk),
    hc.setType, (WaySet.create_inv cfg i).mem, hc.chains⟩

end create

end AdvancedArchitecture.Cache
