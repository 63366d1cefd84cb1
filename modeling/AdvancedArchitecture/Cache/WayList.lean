import AdvancedArchitecture.Cache.Victims

/-!
# The way list

The blocks of a set are linked in both directions, and `update_way_list` relinks them by hand, in
five positions for each of the two ends. In every state that the calls of a cache reach, the two
directions list the same blocks (`CacheSet.WayListed`): all blocks of the set, each once, from
`way_head` to `way_tail`. On such a set `update_way_list` returns for every block and either end,
moves the block there and keeps the order of the others (`WayListed.updateWayList`); done twice it
is done once, because a block that is at its end already is left alone.
-/

namespace AdvancedArchitecture.Cache

open CacheSet

variable {W : Type} {cfg : Config} {E : Extern W cfg}

namespace CacheSet

variable {s : CacheSet cfg} {l : List ℕ} {blk : ℕ}

/-- **The way list of a set**: from `way_head` along `way_next`, and from `way_tail` along
`way_prev`, the blocks of the set are visited in opposite orders, each block once, up to `NULL`;
and a block points to another exactly if that one points back. -/
structure WayListed (s : CacheSet cfg) : Prop where
  perm : s.wayList.Perm (List.range cfg.assoc)
  represents : s.ways.Represents s.wayList
  inverse : ∀ i j, s.wayNext i = some j ↔ s.wayPrev j = some i
  head : s.wayHead = s.wayList.head?
  tail : s.wayTail = s.wayList.getLast?

theorem wayListed_of_represents (h : s.ways.Represents l) (hmem : ∀ i, i ∈ l ↔ i < cfg.assoc) :
    s.WayListed ∧ s.wayList = l := by
  have hl : s.wayList = l :=
    wayList_eq h (length_le_of_nodup h.nodup fun i hi => (hmem i).mp hi)
  refine ⟨⟨?_, ?_, fun i j => ⟨fun hj => ?_, fun hi => ?_⟩, ?_, ?_⟩, hl⟩
  · rw [hl, List.perm_ext_iff_of_nodup h.nodup List.nodup_range]
    exact fun i => (hmem i).trans List.mem_range.symm
  · rw [hl]
    exact h
  · by_cases hi : i < cfg.assoc
    · exact (h.prev_of_next ((hmem i).mpr hi) hj).2
    · -- there is no such block
      rw [wayNext, Table.get_of_le _ (by omega)] at hj
      cases hj
  · by_cases hj : j < cfg.assoc
    · exact (h.next_of_prev ((hmem j).mpr hj) hi).2
    · rw [wayPrev, Table.get_of_le _ (by omega)] at hi
      cases hi
  · rw [hl]
    exact h.head_eq
  · rw [hl]
    exact h.tail_eq

theorem WayListed.mem_iff (h : s.WayListed) (i : ℕ) : i ∈ s.wayList ↔ i < cfg.assoc := by
  rw [h.perm.mem_iff, List.mem_range]

/-! ### Moving a block -/

/-- What `update_way_list` leaves: the set with `blk` moved to an end of its way list. -/
structure Moved (s s' : CacheSet cfg) (blk : ℕ) (loc : ListLoc) : Prop where
  listed : s'.WayListed
  order : s'.wayList = moveTo loc blk s.wayList
  sameLines : SameLines s s'
  again : s'.updateWayList blk loc = some s'

/-- **`update_way_list`** on a block of a set. -/
theorem WayListed.updateWayList (h : s.WayListed) (hb : blk < cfg.assoc) (loc : ListLoc) :
    ∃ s', s.updateWayList blk loc = some s' ∧ Moved s s' blk loc := by
  have hmem := (h.mem_iff blk).mpr hb
  obtain ⟨s', hs', hsame, hrep⟩ :=
    updateWayList_spec h.represents (fun j hj => (h.mem_iff j).mp hj) hmem loc
  have hmoved : ∀ j, j ∈ moveTo loc blk s.wayList ↔ j < cfg.assoc := by
    intro j
    rw [← h.mem_iff]
    cases loc <;> by_cases hj : j = blk <;> simp [moveTo, hj, hmem]
  obtain ⟨hlisted, horder⟩ := wayListed_of_represents hrep hmoved
  exact ⟨s', hs', hlisted, horder, hsame, updateWayList_of_moved hrep⟩

end CacheSet

/-! ### Runs -/

theorem Refines.wayListed {c : CacheT cfg} {a : WayCache cfg} (h : Refines c a) {i : ℕ}
    (hi : i < cfg.nsets) : (c.sets.get i).WayListed :=
  (wayListed_of_represents (h.sets i hi).ways (h.sets i hi).mem).1

/-- **The way lists of a cache.** After any calls that return, every set is listed, and
`update_way_list` returns for every block of it and either end and moves the block there. -/
theorem wayListed_run {c₀ c : CacheT cfg} (hc : cacheCreate cfg = some c₀) (E : Extern W cfg)
    {w₀ w : W} {ops : List Op} {answers : List Answer}
    (hr : run (CacheT.step E) (c₀, w₀) ops = some (answers, (c, w))) :
    ∀ i < cfg.nsets, (c.sets.get i).WayListed ∧ ∀ blk < cfg.assoc, ∀ loc,
      ∃ s', (c.sets.get i).updateWayList blk loc = some s' ∧
        Moved (c.sets.get i) s' blk loc := by
  intro i hi
  obtain ⟨a, ha⟩ := (refines_create hc).of_run hr
  have hlisted := ha.wayListed hi
  exact ⟨hlisted, fun blk hb loc => hlisted.updateWayList hb loc⟩

/-- One set of four blocks. -/
def fourWayConfig : Config := Config.ofWordLogs 0 2 .lru

/-- Three misses, a hit and a flush, and then a move of a block in the middle. -/
theorem wayListed_sample : ∃ c₀ answers c w, cacheCreate fourWayConfig = some c₀ ∧
    run (CacheT.step (journal _)) (c₀, []) [.access (readAt 8), .access (readAt 16),
      .access (readAt 32), .access (readAt 8), .flushAddr 16 5] = some (answers, (c, w)) ∧
    (c.sets.get 0).WayListed ∧ ∃ s', (c.sets.get 0).updateWayList 2 .tail = some s' ∧
      Moved (c.sets.get 0) s' 2 .tail := by
  let c₀ := (cacheCreate fourWayConfig).get (by decide)
  have hc : cacheCreate fourWayConfig = some c₀ := (Option.some_get _).symm
  have hs : (run (CacheT.step (journal _)) (c₀, []) [.access (readAt 8), .access (readAt 16),
      .access (readAt 32), .access (readAt 8), .flushAddr 16 5]).isSome = true := by
    decide +kernel
  obtain ⟨⟨answers, c, w⟩, hr⟩ := Option.isSome_iff_exists.mp hs
  obtain ⟨hlisted, hmove⟩ := wayListed_run hc (journal _) hr 0 (by decide)
  exact ⟨c₀, answers, c, w, hc, hr, hlisted, hmove 2 (by decide) .tail⟩

end AdvancedArchitecture.Cache
