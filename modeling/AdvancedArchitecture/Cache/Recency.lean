import AdvancedArchitecture.Cache.Victims
import AdvancedArchitecture.Lib.Recency

/-!
# The way list as a recency list

Under `LRU` and `FIFO` the valid blocks of a set come first in its way list, the last accessed
or the last filled in front (`WaySet.Ranked`): fast hits do not touch the list, and need not; a
flush of the cache empties the blocks where they are; a flush of one address moves its block to
the back. So the tail of the list is an invalid block if there is one, and otherwise the block
that has gone longest without an access or since its fill (`victims_exact`).
-/

namespace AdvancedArchitecture.Cache

open CacheSet

variable {W : Type} {cfg : Config} {E : Extern W cfg}

/-! ### Ranked sets -/

namespace WaySet

variable {t t' : WaySet cfg} {r r' : ℕ → ℕ → Prop} {i : ℕ}

/-- The valid blocks of a set come first in its way order, ranked by `r`. -/
def Ranked (t : WaySet cfg) (r : ℕ → ℕ → Prop) : Prop :=
  AdvancedArchitecture.Ranked t.order (fun i => (t.lines i).valid = true) r

/-- A block moved to the front and valid there. -/
theorem Ranked.front (h : t.Ranked r) (hnd : t.order.Nodup) (ho : t'.order = moveTo .head i t.order)
    (hi : (t'.lines i).valid = true)
    (hv : ∀ j ≠ i, (t'.lines j).valid = (t.lines j).valid)
    (hri : ∀ j ∈ t.order, j ≠ i → r' i j) (hr : ∀ j k, j ≠ i → k ≠ i → r j k → r' j k) :
    t'.Ranked r' := by
  rw [Ranked, ho]
  refine AdvancedArchitecture.Ranked.front h hnd hi (fun j _ hji => ?_) hri
    fun j _ k _ hji hki => hr j k hji hki
  rw [hv j hji]

/-- Sets with the same order and the same valid blocks. -/
theorem Ranked.congr (h : t.Ranked r) (ho : t'.order = t.order)
    (hv : ∀ j ∈ t.order, (t'.lines j).valid = (t.lines j).valid)
    (hr : ∀ j ∈ t.order, ∀ k ∈ t.order, r j k → r' j k) : t'.Ranked r' := by
  rw [Ranked, ho]
  exact AdvancedArchitecture.Ranked.mono h (fun j hj => by rw [hv j hj]) hr

theorem setLine_valid_of_ne {line : Line cfg} {j : ℕ} (hji : j ≠ i) :
    ((t.setLine i line).lines j).valid = (t.lines j).valid := by
  rw [setLine_lines, Function.update_of_ne hji]

/-- **A hit under `LRU`** makes its block the first. -/
theorem Ranked.hit (h : t.Ranked r) (hnd : t.order.Nodup) (hp : cfg.policy = .lru)
    (hi : (t.lines i).valid = true) (req : Request) (hri : ∀ j ∈ t.order, j ≠ i → r' i j)
    (hr : ∀ j k, j ≠ i → k ≠ i → r j k → r' j k) : (t.hit req i).Ranked r' := by
  rw [WaySet.hit, if_pos hp]
  refine h.front hnd rfl ?_ (fun j hji => ?_) hri hr
  · rw [move_lines, setLine_lines, Function.update_self]
    exact hi
  · exact setLine_valid_of_ne hji

/-- A hit under another policy. -/
theorem Ranked.hit_of_ne (h : t.Ranked r) (hp : cfg.policy ≠ .lru) (hi : (t.lines i).valid = true)
    (req : Request) : (t.hit req i).Ranked r := by
  rw [WaySet.hit, if_neg hp]
  refine h.congr rfl (fun j _ => ?_) fun _ _ _ _ hjk => hjk
  by_cases hji : j = i
  · rw [hji, setLine_lines, Function.update_self]
    exact hi.symm ▸ hi
  · exact setLine_valid_of_ne hji

/-- What a miss chooses under `LRU` and `FIFO`. -/
theorem selectVictim_tail (hp : cfg.policy = .lru ∨ cfg.policy = .fifo) {regs regs' : Regs}
    {w w' : W} (h : t.selectVictim E regs w = some (i, t', regs', w')) :
    t.order.getLast? = some i ∧ t' = t.move .head i := by
  rcases hp with hp | hp <;>
  · simp only [selectVictim, hp] at h
    obtain ⟨j, hj, heq⟩ := Option.map_eq_some_iff.mp h
    simp only [Prod.mk.injEq] at heq
    obtain ⟨rfl, rfl, -, -⟩ := heq
    exact ⟨hj, rfl⟩

/-- **A fill** of a block that has been moved to the front. -/
theorem Ranked.fill (h : t.Ranked r) (hnd : t.order.Nodup) (E : Extern W cfg) (regs : Regs)
    (req : Request) (w : W) (hri : ∀ j ∈ t.order, j ≠ i → r' i j)
    (hr : ∀ j k, j ≠ i → k ≠ i → r j k → r' j k) :
    ((t.move .head i).fill E regs req i w).2.1.Ranked r' := by
  obtain ⟨ready, data, hfill⟩ := (t.move .head i).fill_line E regs req i w
  rw [hfill]
  refine h.front hnd rfl ?_ (fun j hji => setLine_valid_of_ne hji) hri hr
  rw [setLine_lines, Function.update_self]

/-- **The tail of the way list** is an invalid block if there is one, and otherwise the one of
lowest rank. -/
theorem Ranked.tail (h : t.Ranked r) (hi : t.order.getLast? = some i) :
    ((∃ j ∈ t.order, (t.lines j).valid = false) → (t.lines i).valid = false) ∧
      ((∀ j ∈ t.order, (t.lines j).valid = true) → ∀ j ∈ t.order, j ≠ i → r j i) := by
  refine ⟨?_, fun hall j hj hji => ?_⟩
  · rintro ⟨j, hj, hv⟩
    have hnot : ¬ (t.lines j).valid = true := by simp [hv]
    have hlast : ¬ (t.lines i).valid = true :=
      AdvancedArchitecture.Ranked.getLast_empty (p := fun i => (t.lines i).valid = true) h hi hj
        hnot
    simpa using hlast
  · exact (AdvancedArchitecture.Ranked.getLast h hi hj hji (hall i (List.mem_of_getLast? hi))).2

end WaySet

namespace WayCache

/-- Every set is ranked. -/
def Ranked (a : WayCache cfg) (r : ℕ → ℕ → ℕ → Prop) : Prop :=
  ∀ i < cfg.nsets, (a.sets i).Ranked (r i)

variable {a a' : WayCache cfg} {r r' : ℕ → ℕ → ℕ → Prop}

theorem ranked_create : (WayCache.create cfg).Ranked r := fun _ _ =>
  ranked_of_empty fun _ _ hv => absurd hv (by simp [WayCache.create, WaySet.create, default])

/-- One set rewritten. -/
theorem Ranked.update (h : a.Ranked r) {i : ℕ} {t : WaySet cfg} (ht : t.Ranked (r' i))
    (hr : ∀ k ≠ i, ∀ x y, r k x y → r' k x y) (regs : Regs) :
    Ranked ⟨regs, Function.update a.sets i t⟩ r' := by
  intro k hk
  dsimp only
  by_cases hki : k = i
  · rw [hki, Function.update_self]
    exact ht
  · rw [Function.update_of_ne hki]
    exact (h k hk).congr rfl (fun _ _ => rfl) fun x _ y _ => hr k hki x y

/-- A flush empties the blocks where they are. -/
theorem Ranked.flush (E : Extern W cfg) (a : WayCache cfg) (now : ℤ) (w : W) :
    (a.flush E now w).2.1.Ranked r := by
  intro i hi
  have he := a.flush_emptied E now w hi
  refine ranked_of_empty fun j hj hv => ?_
  obtain ⟨data, hd⟩ := he.line j
  rw [he.order] at hj
  rw [hd, if_pos hj] at hv
  exact Bool.false_ne_true hv

/-- A flush of one address moves its block to the back. -/
theorem Ranked.flushAddr (h : a.Ranked r) {addr : MdAddr} (hinv : (a.sets (cfg.set addr).toNat).Inv)
    (now : ℤ) (w : W) : (a.flushAddr E addr now w).2.1.Ranked r := by
  rw [WayCache.flushAddr]
  dsimp only
  rcases hl : (a.sets (cfg.set addr).toNat).lookup (cfg.tag addr) with _ | i
  · exact h
  · refine h.update ?_ (fun _ _ _ _ hxy => hxy) _
    refine AdvancedArchitecture.Ranked.back (h _ (Config.set_lt addr)) hinv.nodup ?_
      fun j _ hji => ?_
    · rw [WaySet.move_lines, WaySet.setLine_lines, Function.update_self, invalidateLine_line]
      exact Bool.false_ne_true
    · rw [WaySet.move_lines, WaySet.setLine_valid_of_ne hji]

end WayCache

/-! ### Times of accesses and fills -/

/-- A cache observed with a clock: the time of the last access to each block of each set, and of
its last fill. -/
structure Timed (W : Type) (cfg : Config) where
  cache : CacheT cfg
  world : W
  clock : ℕ
  accessed : ℕ → ℕ → ℕ
  filled : ℕ → ℕ → ℕ

/-- The time at a block of a set, if there is one, rewritten. -/
def stampAt (times : ℕ → ℕ → ℕ) (set : ℕ) (blk : Option ℕ) (time : ℕ) : ℕ → ℕ → ℕ :=
  match blk with
  | some i => Function.update times set (Function.update (times set) i time)
  | none => times

/-- The cache after an access at the time of the clock: it is to the block that holds its address
when it is over, and a fill if the address was not held before. -/
def Timed.afterAccess (s : Timed W cfg) (req : Request) (c' : CacheT cfg) (w' : W) : Timed W cfg :=
  let set := (cfg.set req.addr).toNat
  let blk := (c'.sets.get set).lookup (cfg.tag req.addr)
  { cache := c'
    world := w'
    clock := s.clock + 1
    accessed := stampAt s.accessed set blk s.clock
    filled := if s.cache.probe req.addr then s.filled else stampAt s.filled set blk s.clock }

/-- One call at the time of the clock. -/
def timedStep (E : Extern W cfg) (s : Timed W cfg) (op : Op) : Option (Answer × Timed W cfg) :=
  (CacheT.step E (s.cache, s.world) op).map fun r =>
    (r.1, match op with
      | .access req => s.afterAccess req r.2.1 r.2.2
      | _ => { s with cache := r.2.1, world := r.2.2, clock := s.clock + 1 })

/-- The times that count under a policy. -/
def Timed.times (s : Timed W cfg) : ℕ → ℕ → ℕ := if cfg.policy = .lru then s.accessed else s.filled

/-- **The victim of a miss**, which the address of the access has when it is over: an invalid block
of the set if there is one, and otherwise the one whose time is the earliest. -/
def VictimExact (E : Extern W cfg) (s s' : Timed W cfg) : Op → Prop
  | .access req => s.cache.probe req.addr = false →
    let set := (cfg.set req.addr).toNat
    ∃ v < cfg.assoc, s.cache.victim E req s.world = some v ∧
      (s'.cache.sets.get set).lookup (cfg.tag req.addr) = some v ∧
      ((∃ j < cfg.assoc, ((s.cache.sets.get set).line j).valid = false) →
        ((s.cache.sets.get set).line v).valid = false) ∧
      ((∀ j < cfg.assoc, ((s.cache.sets.get set).line j).valid = true) →
        ∀ j < cfg.assoc, j ≠ v → s.times set v < s.times set j)
  | _ => True

/-- The way lists are the recency lists: the times rank the blocks, and lie in the past. -/
structure Timed.Rel (s : Timed W cfg) (a : WayCache cfg) : Prop where
  refines : Refines s.cache a
  ranked : a.Ranked fun i j k => s.times i k < s.times i j
  past : ∀ i j, s.times i j < s.clock

theorem stampAt_lt {times : ℕ → ℕ → ℕ} {clock : ℕ} (h : ∀ i j, times i j < clock) (set : ℕ)
    (blk : Option ℕ) (i j : ℕ) : stampAt times set blk clock i j < clock + 1 := by
  have hlt := Nat.lt_succ_of_lt (h i j)
  rcases blk with _ | b
  · exact hlt
  · rw [stampAt]
    by_cases hi : i = set
    · rw [hi, Function.update_self]
      by_cases hj : j = b
      · rw [hj, Function.update_self]
        exact Nat.lt_succ_self clock
      · rw [Function.update_of_ne hj]
        exact Nat.lt_succ_of_lt (h set j)
    · rw [Function.update_of_ne hi]
      exact hlt

section stamp

variable {times : ℕ → ℕ → ℕ} {clock set i : ℕ}

/-- The block that is stamped is the latest. -/
theorem stampAt_latest (h : ∀ i j, times i j < clock) {j : ℕ} (hj : j ≠ i) :
    stampAt times set (some i) clock set j < stampAt times set (some i) clock set i := by
  rw [stampAt, Function.update_self, Function.update_self, Function.update_of_ne hj]
  exact h set j

theorem stampAt_of_ne {j : ℕ} (hj : j ≠ i) (k : ℕ) :
    stampAt times set (some i) clock k j = times k j := by
  rw [stampAt]
  by_cases hk : k = set
  · rw [hk, Function.update_self, Function.update_of_ne hj]
  · rw [Function.update_of_ne hk]

theorem stampAt_of_set_ne {k : ℕ} (hk : k ≠ set) (b : Option ℕ) :
    stampAt times set b clock k = times k := by
  rcases b with _ | i
  · rfl
  · exact Function.update_of_ne hk _ _

end stamp

/-- The block of an access is held when it is over. -/
theorem Refines.lookup_hit {c' : CacheT cfg} {a : WayCache cfg} {req : Request} {i : ℕ}
    (h' : Refines c' (a.hit req i).2) (hinv : (a.sets (cfg.set req.addr).toNat).Inv)
    (hl : (a.sets (cfg.set req.addr).toNat).lookup (cfg.tag req.addr) = some i) :
    (c'.sets.get (cfg.set req.addr).toNat).lookup (cfg.tag req.addr) = some i := by
  obtain ⟨hi, hh⟩ := hinv.lookup_eq_some.mp hl
  have hrem := remembered_hit req hi hh
  rw [h'.lookup]
  exact (h'.inv _ (Config.set_lt req.addr)).lookup_eq_some.mpr ⟨hrem.mem, hrem.holds⟩

/-- What a miss does under `LRU` and `FIFO`: the tail of the way list is moved to the front and
filled. -/
theorem WayCache.miss_tail {a a' : WayCache cfg} {req : Request} {w w' : W} {r : Reply}
    (hp : cfg.policy = .lru ∨ cfg.policy = .fifo) (hm : a.miss E req w = some (r, a', w')) :
    ∃ i regs w₁, (a.sets (cfg.set req.addr).toNat).order.getLast? = some i ∧
      a' = ⟨(((a.sets (cfg.set req.addr).toNat).move .head i).fill E regs req i w₁).2.2.1,
        Function.update a.sets (cfg.set req.addr).toNat
          (((a.sets (cfg.set req.addr).toNat).move .head i).fill E regs req i w₁).2.1⟩ := by
  obtain ⟨i, t, regs, w₁, hsel, -, rfl, -⟩ := miss_eq_some hm
  obtain ⟨hlast, rfl⟩ := WaySet.selectVictim_tail hp hsel
  exact ⟨i, regs, w₁, hlast, rfl⟩

/-- The filled block is held when the access is over. -/
theorem Refines.lookup_fill {c' : CacheT cfg} {a : WayCache cfg} {req : Request} {i : ℕ}
    {t : WaySet cfg} {regs regs' : Regs} {w : W} (hi : i ∈ t.order)
    (h' : Refines c' ⟨regs', Function.update a.sets (cfg.set req.addr).toNat
      (t.fill E regs req i w).2.1⟩) :
    (c'.sets.get (cfg.set req.addr).toNat).lookup (cfg.tag req.addr) = some i := by
  have hinv := h'.inv _ (Config.set_lt req.addr)
  rw [h'.lookup]
  dsimp only at hinv ⊢
  rw [Function.update_self] at hinv ⊢
  obtain ⟨ready, data, hfill⟩ := t.fill_line E regs req i w
  rw [hinv.lookup_eq_some, hfill]
  refine ⟨hi, ?_⟩
  rw [WaySet.Holds, WaySet.setLine_lines, Function.update_self]
  exact ⟨rfl, rfl⟩

namespace Timed

variable {s s' : Timed W cfg} {a : WayCache cfg}

/-- The times after a miss. -/
theorem times_of_miss (s : Timed W cfg) {req : Request} {c' : CacheT cfg} (w' : W) {i : ℕ}
    (hprobe : s.cache.probe req.addr = false)
    (hblk : (c'.sets.get (cfg.set req.addr).toNat).lookup (cfg.tag req.addr) = some i) :
    (s.afterAccess req c' w').times =
      stampAt s.times (cfg.set req.addr).toNat (some i) s.clock := by
  rw [times, times, afterAccess]
  simp only [hblk, hprobe, Bool.false_eq_true, if_false]
  split_ifs <;> rfl

/-- The times after a hit. -/
theorem times_of_hit (s : Timed W cfg) {req : Request} {c' : CacheT cfg} (w' : W) {i : ℕ}
    (hprobe : s.cache.probe req.addr = true)
    (hblk : (c'.sets.get (cfg.set req.addr).toNat).lookup (cfg.tag req.addr) = some i) :
    (s.afterAccess req c' w').times = if cfg.policy = .lru then
      stampAt s.times (cfg.set req.addr).toNat (some i) s.clock else s.times := by
  rw [times, times, afterAccess]
  simp only [hblk, hprobe, if_true]
  split_ifs <;> rfl

/-- **The victim of a miss** is the tail of the way list, which the times make the one to
replace. -/
theorem Rel.victimExact (h : s.Rel a) (hp : cfg.policy = .lru ∨ cfg.policy = .fifo)
    {req : Request} {r : Reply} {c' : CacheT cfg} {w' : W}
    (hacc : s.cache.access E req s.world = some (r, c', w'))
    (hfill : ∀ v, (a.sets (cfg.set req.addr).toNat).order.getLast? = some v →
      (c'.sets.get (cfg.set req.addr).toNat).lookup (cfg.tag req.addr) = some v) :
    VictimExact E s (s.afterAccess req c' w') (.access req) := by
  intro hprobe
  obtain ⟨v, t, regs, w₁, hch⟩ := h.refines.chosen hacc hprobe
  obtain ⟨hlast, -⟩ := WaySet.selectVictim_tail hp hch.select
  have hlt : (cfg.set req.addr).toNat < cfg.nsets := Config.set_lt req.addr
  have hinv := h.refines.inv _ hlt
  have hline : ∀ j < cfg.assoc, (s.cache.sets.get (cfg.set req.addr).toNat).line j =
      (a.sets (cfg.set req.addr).toNat).lines j := fun j hj =>
    (h.refines.sets _ hlt).line j ((hinv.mem j).mpr hj)
  obtain ⟨hempty, hleast⟩ := (h.ranked _ hlt).tail hlast
  have hv := (hinv.mem v).mp (List.mem_of_getLast? hlast)
  refine ⟨v, hv, hch.victim, hfill v hlast, ?_, fun hall j hj hjv => ?_⟩
  · rintro ⟨j, hj, hinvalid⟩
    rw [hline v hv]
    rw [hline j hj] at hinvalid
    exact hempty ⟨j, (hinv.mem j).mpr hj, hinvalid⟩
  · refine hleast (fun k hk => ?_) j ((hinv.mem j).mpr hj) hjv
    rw [← hline k ((hinv.mem k).mp hk)]
    exact hall k ((hinv.mem k).mp hk)

/-- A stamp of one block keeps the order of the others. -/
theorem lt_of_stampAt {times : ℕ → ℕ → ℕ} {set i j k clock : ℕ} (hj : j ≠ i) (hk : k ≠ i)
    (hjk : times set k < times set j) :
    stampAt times set (some i) clock set k < stampAt times set (some i) clock set j := by
  rwa [stampAt_of_ne hj, stampAt_of_ne hk]

/-- **A miss** fills the tail of the list, which becomes the first. -/
theorem Rel.miss (h : s.Rel a) {req : Request} {c' : CacheT cfg} (w' : W)
    {i : ℕ} {regs : Regs} {w₁ : W} (hprobe : s.cache.probe req.addr = false)
    (hlast : (a.sets (cfg.set req.addr).toNat).order.getLast? = some i)
    (hr' : Refines c' ⟨(((a.sets (cfg.set req.addr).toNat).move .head i).fill E regs req i
        w₁).2.2.1, Function.update a.sets (cfg.set req.addr).toNat
      (((a.sets (cfg.set req.addr).toNat).move .head i).fill E regs req i w₁).2.1⟩) :
    ∃ a', (s.afterAccess req c' w').Rel a' := by
  have hlt : (cfg.set req.addr).toNat < cfg.nsets := Config.set_lt req.addr
  have hi := List.mem_of_getLast? hlast
  have hblk := hr'.lookup_fill ((mem_moveTo .head hi i).mpr hi)
  have htimes := s.times_of_miss w' hprobe hblk
  refine ⟨_, hr', ?_, ?_⟩
  · rw [htimes]
    refine h.ranked.update ?_ (fun k hk x y hxy => ?_) _
    · exact (h.ranked _ hlt).fill (h.refines.inv _ hlt).nodup E regs req w₁
        (fun j _ hji => stampAt_latest h.past hji) fun j k hji hki hjk => lt_of_stampAt hji hki hjk
    · rw [stampAt_of_set_ne hk]
      exact hxy
  · rw [htimes]
    exact stampAt_lt h.past _ _

/-- **A hit** makes its block the first under `LRU`. -/
theorem Rel.hit (h : s.Rel a) {req : Request} {c' : CacheT cfg} (w' : W) {i : ℕ}
    (hprobe : s.cache.probe req.addr = true)
    (hl : (a.sets (cfg.set req.addr).toNat).lookup (cfg.tag req.addr) = some i)
    (hr' : Refines c' (a.hit req i).2) : ∃ a', (s.afterAccess req c' w').Rel a' := by
  have hlt : (cfg.set req.addr).toNat < cfg.nsets := Config.set_lt req.addr
  have hinv := h.refines.inv _ hlt
  have hblk := hr'.lookup_hit hinv hl
  obtain ⟨hi, hh⟩ := hinv.lookup_eq_some.mp hl
  have htimes := s.times_of_hit w' hprobe hblk
  refine ⟨_, hr', ?_, ?_⟩
  · rw [htimes]
    refine h.ranked.update ?_ (fun k hk x y hxy => ?_) _
    · split_ifs with hlru
      · exact (h.ranked _ hlt).hit hinv.nodup hlru hh.2 req
          (fun j _ hji => stampAt_latest h.past hji) fun j k hji hki hjk =>
          lt_of_stampAt hji hki hjk
      · exact (h.ranked _ hlt).hit_of_ne hlru hh.2 req
    · split_ifs
      · rw [stampAt_of_set_ne hk]
        exact hxy
      · exact hxy
  · rw [htimes]
    intro j k
    split_ifs
    · exact stampAt_lt h.past _ _ j k
    · exact Nat.lt_succ_of_lt (h.past j k)

/-- **An access** keeps the way lists in the order of the times. -/
theorem Rel.access (h : s.Rel a) (hp : cfg.policy = .lru ∨ cfg.policy = .fifo) {req : Request}
    {ans : Answer} (hs : timedStep E s (.access req) = some (ans, s')) :
    VictimExact E s s' (.access req) ∧ ∃ a', s'.Rel a' := by
  obtain ⟨⟨ans', c', w'⟩, hstep, heq⟩ := Option.map_eq_some_iff.mp hs
  obtain ⟨-, rfl⟩ := Prod.mk.inj heq
  obtain ⟨r, -, hacc⟩ := CacheT.step_access hstep
  obtain ⟨a', ha, hr'⟩ := h.refines.access_of_eq_some E hacc
  obtain ⟨-, ⟨hl, hm⟩ | ⟨i, hl, -, rfl, -⟩⟩ := WayCache.access_eq_some ha
  · obtain ⟨i, regs, w₁, hlast, rfl⟩ := WayCache.miss_tail hp hm
    refine ⟨h.victimExact hp hacc fun v hv => ?_,
      h.miss w' (h.refines.probe_of_lookup hl) hlast hr'⟩
    obtain rfl : i = v := Option.some.inj (hlast.symm.trans hv)
    exact hr'.lookup_fill ((mem_moveTo .head (List.mem_of_getLast? hlast) i).mpr
      (List.mem_of_getLast? hlast))
  · have hprobe := h.refines.probe_of_lookup hl
    exact ⟨fun hmiss => absurd (hprobe.symm.trans hmiss) (by simp), h.hit w' hprobe hl hr'⟩

/-- **Every call** keeps the way lists in the order of the times, and its victim is exact. -/
theorem Rel.step (h : s.Rel a) (hp : cfg.policy = .lru ∨ cfg.policy = .fifo) {op : Op}
    {ans : Answer} (hs : timedStep E s op = some (ans, s')) :
    VictimExact E s s' op ∧ ∃ a', s'.Rel a' := by
  cases op with
  | access req => exact h.access hp hs
  | probe addr =>
    obtain ⟨⟨ans', c', w'⟩, hstep, heq⟩ := Option.map_eq_some_iff.mp hs
    obtain ⟨-, rfl⟩ := Prod.mk.inj heq
    obtain ⟨a', ha, hr'⟩ := h.refines.step_of_eq_some E hstep
    obtain ⟨-, rfl, -⟩ := WayCache.step_probe ha
    exact ⟨trivial, _, hr', h.ranked, fun i j => Nat.lt_succ_of_lt (h.past i j)⟩
  | flush now =>
    obtain ⟨⟨ans', c', w'⟩, hstep, heq⟩ := Option.map_eq_some_iff.mp hs
    obtain ⟨-, rfl⟩ := Prod.mk.inj heq
    obtain ⟨a', ha, hr'⟩ := h.refines.step_of_eq_some E hstep
    obtain ⟨-, rfl, -⟩ := WayCache.step_flush ha
    exact ⟨trivial, _, hr', WayCache.Ranked.flush E a now s.world,
      fun i j => Nat.lt_succ_of_lt (h.past i j)⟩
  | flushAddr addr now =>
    obtain ⟨⟨ans', c', w'⟩, hstep, heq⟩ := Option.map_eq_some_iff.mp hs
    obtain ⟨-, rfl⟩ := Prod.mk.inj heq
    obtain ⟨a', ha, hr'⟩ := h.refines.step_of_eq_some E hstep
    obtain ⟨-, rfl, -⟩ := WayCache.step_flushAddr ha
    exact ⟨trivial, _, hr', h.ranked.flushAddr (h.refines.inv _ (Config.set_lt addr)) now s.world,
      fun i j => Nat.lt_succ_of_lt (h.past i j)⟩

end Timed

/-- **`LRU` and `FIFO` victims are exact**: at every miss of a run the block that is filled is an
invalid block of the set if there is one, and otherwise the one whose last access, or fill, is the
oldest. -/
theorem victims_exact (hp : cfg.policy = .lru ∨ cfg.policy = .fifo) {c : CacheT cfg}
    (hc : cacheCreate cfg = some c) (E : Extern W cfg) (w : W) (ops : List Op) :
    EveryStep (timedStep E) (fun s op _ s' => VictimExact E s s' op)
      ⟨c, w, 1, fun _ _ => 0, fun _ _ => 0⟩ ops := by
  refine EveryStep.of_invariant (I := fun s => ∃ a, s.Rel a) (C := fun _ => True) ?_
    (fun _ _ => trivial) ⟨_, refines_create hc, WayCache.ranked_create, fun i j => ?_⟩
  · rintro s op ans s' ⟨a, h⟩ - hs
    exact h.step hp hs
  · have hzero : Timed.times (⟨c, w, 1, fun _ _ => 0, fun _ _ => 0⟩ : Timed W cfg) =
        fun _ _ => 0 := by
      rw [Timed.times]
      split_ifs <;> rfl
    rw [hzero]
    exact Nat.zero_lt_one

/-- In the sample run the fourth call, the read of byte 40, replaces block 8: byte 24 was accessed
later. -/
theorem victims_exact_sample : ∃ c, cacheCreate sampleConfig = some c ∧
    (run (timedStep (journal _)) ⟨c, [], 1, fun _ _ => 0, fun _ _ => 0⟩ sampleOps).isSome = true ∧
    ((run (timedStep (journal _)) ⟨c, [], 1, fun _ _ => 0, fun _ _ => 0⟩ (sampleOps.take 4)).map
      fun r => (r.2.cache.probe 8, r.2.cache.probe 24, r.2.cache.probe 40)) =
        some (false, true, true) ∧
    EveryStep (timedStep (journal _)) (fun s op _ s' => VictimExact (journal _) s s' op)
      ⟨c, [], 1, fun _ _ => 0, fun _ _ => 0⟩ sampleOps := by
  let c := (cacheCreate sampleConfig).get (by decide)
  have hc : cacheCreate sampleConfig = some c := (Option.some_get _).symm
  exact ⟨c, hc, by decide +kernel, by decide +kernel,
    victims_exact (Or.inl rfl) hc (journal _) [] sampleOps⟩

end AdvancedArchitecture.Cache
