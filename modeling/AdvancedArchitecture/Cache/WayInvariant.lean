import AdvancedArchitecture.Cache.Geometry
import AdvancedArchitecture.Cache.SetRefinement

/-!
# Invariants of the sets

The blocks of a set are each in the way order once, no two valid blocks have the same tag, and
the prediction values are not negative (`WaySet.Inv`). What each operation does to a set is
stated once (`selectVictim_spec`), and the invariant is preserved because of it.
-/

namespace AdvancedArchitecture.Cache

open CacheSet

variable {W : Type} {cfg : Config} {E : Extern W cfg} {t t' : WaySet cfg} {i : ℕ}

/-- The invariant of a set. -/
structure WaySet.Inv (t : WaySet cfg) : Prop where
  nodup : t.order.Nodup
  mem : ∀ i, i ∈ t.order ↔ i < cfg.assoc
  unique : t.Unique
  rrpv_nonneg : ∀ i ∈ t.order, 0 ≤ (t.lines i).rrpv

/-- Moving a block keeps the blocks of a list. -/
theorem mem_moveTo {l : List ℕ} (loc : ListLoc) (hi : i ∈ l) (j : ℕ) :
    j ∈ moveTo loc i l ↔ j ∈ l := by
  cases loc <;> by_cases hji : j = i <;> simp [moveTo, hji, hi]

theorem nodup_moveTo {l : List ℕ} (hnd : l.Nodup) (loc : ListLoc) : (moveTo loc i l).Nodup := by
  have hn : i ∉ l.erase i := hnd.not_mem_erase
  cases loc with
  | head => exact List.nodup_cons.mpr ⟨hn, hnd.erase i⟩
  | tail =>
    refine List.nodup_append.mpr ⟨hnd.erase i, by simp, fun a ha b hb => ?_⟩
    rintro rfl
    exact hn (by simpa using List.mem_singleton.mp hb ▸ ha)

namespace WaySet.Inv

theorem order_ne_nil (h : t.Inv) : t.order ≠ [] :=
  List.ne_nil_of_mem ((h.mem 0).mpr cfg.assoc_ok.pos)

theorem move (h : t.Inv) (hi : i ∈ t.order) (loc : ListLoc) : (t.move loc i).Inv where
  nodup := nodup_moveTo h.nodup loc
  mem j := (mem_moveTo _ hi j).trans (h.mem j)
  unique j hj k hk := h.unique j ((mem_moveTo _ hi j).mp hj) k ((mem_moveTo _ hi k).mp hk)
  rrpv_nonneg j hj := h.rrpv_nonneg j ((mem_moveTo _ hi j).mp hj)

/-- A line replaced by one that is valid only where no other valid block has its tag. -/
theorem setLine (h : t.Inv) (line : Line cfg) (hr : 0 ≤ line.rrpv)
    (hu : line.valid = true → ∀ j ∈ t.order, j ≠ i → (t.lines j).valid = true →
      (t.lines j).tag ≠ line.tag) : (t.setLine i line).Inv where
  nodup := h.nodup
  mem := h.mem
  unique j hj k hk hvj hvk htag := by
    rw [setLine_lines] at hvj hvk htag
    by_cases hji : j = i <;> by_cases hki : k = i
    · rw [hji, hki]
    · rw [hji, Function.update_self] at hvj htag
      rw [Function.update_of_ne hki] at hvk htag
      exact absurd htag.symm (hu hvj k hk hki hvk)
    · rw [hki, Function.update_self] at hvk htag
      rw [Function.update_of_ne hji] at hvj htag
      exact absurd htag (hu hvk j hj hji hvj)
    · rw [Function.update_of_ne hji] at hvj htag
      rw [Function.update_of_ne hki] at hvk htag
      exact h.unique j hj k hk hvj hvk htag
  rrpv_nonneg j hj := by
    rw [setLine_lines]
    by_cases hji : j = i
    · rw [hji, Function.update_self]
      exact hr
    · rw [Function.update_of_ne hji]
      exact h.rrpv_nonneg j hj

/-- A line replaced by one with the same tag, valid only if it was. -/
theorem setLine_of_tag (h : t.Inv) (hi : i ∈ t.order) (line : Line cfg) (hr : 0 ≤ line.rrpv)
    (htag : line.tag = (t.lines i).tag) (hv : line.valid = true → (t.lines i).valid = true) :
    (t.setLine i line).Inv :=
  h.setLine line hr fun hvl j hj hji hvj htj =>
    hji (h.unique j hj i hi hvj (hv hvl) (htj.trans htag))

/-- The block that a lookup finds. -/
theorem lookup_eq_some (h : t.Inv) {tag : MdAddr} :
    t.lookup tag = some i ↔ i ∈ t.order ∧ t.Holds tag i := by
  refine ⟨fun hl => ⟨List.mem_of_find?_eq_some hl, by simpa using List.find?_some hl⟩, ?_⟩
  rintro ⟨hi, hh⟩
  rcases hl : t.lookup tag with _ | j
  · exact absurd hh (by simpa using List.find?_eq_none.mp hl i hi)
  · have hj : t.Holds tag j := by simpa using List.find?_some hl
    rw [h.unique j (List.mem_of_find?_eq_some hl) i hi hj.2 hh.2 (hj.1.trans hh.1.symm)]

end WaySet.Inv

theorem WaySet.lookup_eq_none {tag : MdAddr} :
    t.lookup tag = none ↔ ∀ i ∈ t.order, ¬ t.Holds tag i := by
  rw [WaySet.lookup, List.find?_eq_none]
  simp

/-! ### Victims -/

/-- What choosing a victim does to a line: at most the replacement bits change. -/
structure SameContents (l l' : Line cfg) : Prop where
  tag : l'.tag = l.tag
  valid : l'.valid = l.valid
  dirty : l'.dirty = l.dirty
  ready : l'.ready = l.ready
  userData : l'.userData = l.userData
  data : l'.data = l.data

theorem SameContents.refl (l : Line cfg) : SameContents l l := ⟨rfl, rfl, rfl, rfl, rfl, rfl⟩

/-- What choosing victim `i` does to a set: it may be moved to the front, and the replacement
bits of all lines may change. -/
structure Selected (t : WaySet cfg) (i : ℕ) (t' : WaySet cfg) : Prop where
  mem : i ∈ t.order
  order : t'.order = t.order ∨ t'.order = moveTo .head i t.order
  setType : t'.setType = t.setType
  contents : ∀ j, SameContents (t.lines j) (t'.lines j)
  rrpv_nonneg : ∀ j ∈ t.order, 0 ≤ (t'.lines j).rrpv

theorem SameContents.trans {l l' l'' : Line cfg} (h : SameContents l l')
    (h' : SameContents l' l'') : SameContents l l'' :=
  ⟨h'.tag.trans h.tag, h'.valid.trans h.valid, h'.dirty.trans h.dirty, h'.ready.trans h.ready,
    h'.userData.trans h.userData, h'.data.trans h.data⟩

/-- A search changes the replacement bits that its renewal changes. -/
theorem search_sameContents {found : Line cfg → Bool} {f : Line cfg → Line cfg}
    (hf : ∀ l, SameContents l (f l)) (h : t.search found f = some (i, t')) (j : ℕ) :
    SameContents (t.lines j) (t'.lines j) :=
  search_induction (P := fun l => SameContents (t.lines j) l)
    (fun l hl => hl.trans (hf l)) h (SameContents.refl _)

/-- A filled block is given one of two insertion values. -/
theorem drripInsert_cases (ty : SetType) (regs : Regs) :
    (drripInsert ty regs).1 = rrpvMax - 1 ∨ (drripInsert ty regs).1 = rrpvMax := by
  have hb : (brripInsert regs).1 = rrpvMax - 1 ∨ (brripInsert regs).1 = rrpvMax :=
    ite_eq_or_eq ..
  rcases ty
  case srrip => exact .inl rfl
  case brrip => exact hb
  -- the others follow the duel of the two
  all_goals
    change (ite _ _ _ : ℤ × Regs).1 = _ ∨ (ite _ _ _ : ℤ × Regs).1 = _
    split_ifs
    · exact .inl rfl
    · exact hb

theorem drripInsert_nonneg (ty : SetType) (regs : Regs) : 0 ≤ (drripInsert ty regs).1 := by
  rcases drripInsert_cases ty regs with h | h
  all_goals
    rw [h]
    decide

/-- Counters that choosing a victim does not change. -/
structure SameStats (regs regs' : Regs) : Prop where
  hits : regs'.hits = regs.hits
  misses : regs'.misses = regs.misses
  replacements : regs'.replacements = regs.replacements
  writebacks : regs'.writebacks = regs.writebacks
  invalidations : regs'.invalidations = regs.invalidations
  busFree : regs'.busFree = regs.busFree

theorem drripInsert_sameStats (ty : SetType) (regs : Regs) :
    SameStats regs (drripInsert ty regs).2 := by
  have hrefl : SameStats regs regs := ⟨rfl, rfl, rfl, rfl, rfl, rfl⟩
  cases ty <;> simp only [drripInsert, brripInsert]
  case srrip => exact ⟨rfl, rfl, rfl, rfl, rfl, rfl⟩
  case brrip => exact ⟨rfl, rfl, rfl, rfl, rfl, rfl⟩
  all_goals
    split_ifs
    · exact hrefl
    all_goals exact ⟨rfl, rfl, rfl, rfl, rfl, rfl⟩

/-- The replacement bits of the victim set after a search. -/
theorem selected_of_search {found : Line cfg → Bool} {f : Line cfg → Line cfg}
    (hf : ∀ l, SameContents l (f l)) (hr : ∀ l, 0 ≤ l.rrpv → 0 ≤ (f l).rrpv) (hi : t.Inv)
    (h : t.search found f = some (i, t')) {line : Line cfg}
    (hline : SameContents (t'.lines i) line) (hlr : (0 ≤ (t'.lines i).rrpv) → 0 ≤ line.rrpv) :
    Selected t i (t'.setLine i line) := by
  obtain ⟨hm, ho, hty⟩ := search_mem h
  have hcont := search_sameContents hf h
  have hnn : ∀ j ∈ t.order, 0 ≤ (t'.lines j).rrpv := fun j hj =>
    search_induction (P := fun l => 0 ≤ l.rrpv) hr h (hi.rrpv_nonneg j hj)
  refine ⟨hm, Or.inl ho, hty, fun j => ?_, fun j hj => ?_⟩
  · rw [WaySet.setLine_lines]
    by_cases hji : j = i
    · rw [hji, Function.update_self]
      exact (hcont i).trans hline
    · rw [Function.update_of_ne hji]
      exact hcont j
  · rw [WaySet.setLine_lines]
    by_cases hji : j = i
    · rw [hji, Function.update_self]
      exact hlr (hnn i hm)
    · rw [Function.update_of_ne hji]
      exact hnn j hj

/-- **What choosing a victim does**, for every policy. -/
theorem selectVictim_spec (hi : t.Inv) {regs regs' : Regs} {w w' : W}
    (h : t.selectVictim E regs w = some (i, t', regs', w')) :
    Selected t i t' ∧ SameStats regs regs' ∧ (w' = w ∨ w' = (E.myrand w).2) := by
  have hrefl : SameStats regs regs := ⟨rfl, rfl, rfl, rfl, rfl, rfl⟩
  have hlast : ∀ {j}, t.order.getLast? = some j → Selected t j (t.move .head j) := fun hj =>
    ⟨List.mem_of_getLast? hj, Or.inr rfl, rfl, fun _ => SameContents.refl _, hi.rrpv_nonneg⟩
  rw [WaySet.selectVictim] at h
  split at h
  · obtain ⟨j, hj, heq⟩ := Option.map_eq_some_iff.mp h
    simp only [Prod.mk.injEq] at heq
    obtain ⟨rfl, rfl, rfl, rfl⟩ := heq
    exact ⟨hlast hj, hrefl, Or.inl rfl⟩
  · obtain ⟨j, hj, heq⟩ := Option.map_eq_some_iff.mp h
    simp only [Prod.mk.injEq] at heq
    obtain ⟨rfl, rfl, rfl, rfl⟩ := heq
    exact ⟨hlast hj, hrefl, Or.inl rfl⟩
  · simp only [Option.some.injEq, Prod.mk.injEq] at h
    obtain ⟨rfl, rfl, rfl, rfl⟩ := h
    refine ⟨⟨(hi.mem _).mpr ?_, Or.inl rfl, rfl, fun _ => SameContents.refl _, hi.rrpv_nonneg⟩,
      hrefl, Or.inr rfl⟩
    have hpos := cfg.assoc_ok.pos
    have hle : (E.myrand w).1 &&& (cfg.assoc - 1) ≤ cfg.assoc - 1 := Nat.and_le_right
    omega
  · obtain ⟨⟨j, t₁⟩, hs, heq⟩ := Option.map_eq_some_iff.mp h
    simp only [Prod.mk.injEq] at heq
    obtain ⟨rfl, rfl, rfl, rfl⟩ := heq
    refine ⟨selected_of_search ?_ ?_ hi hs ⟨rfl, rfl, rfl, rfl, rfl, rfl⟩ id, hrefl, Or.inl rfl⟩
    · exact fun l => ⟨rfl, rfl, rfl, rfl, rfl, rfl⟩
    · exact fun l hl => hl
  · obtain ⟨⟨j, t₁⟩, hs, heq⟩ := Option.map_eq_some_iff.mp h
    simp only [Prod.mk.injEq] at heq
    obtain ⟨rfl, rfl, rfl, rfl⟩ := heq
    refine ⟨selected_of_search ?_ ?_ hi hs ⟨rfl, rfl, rfl, rfl, rfl, rfl⟩
      fun _ => drripInsert_nonneg _ _, drripInsert_sameStats _ _, Or.inl rfl⟩
    · exact fun l => ⟨rfl, rfl, rfl, rfl, rfl, rfl⟩
    · exact fun l hl => by
        dsimp only
        omega

/-- Choosing a victim does not change what the set holds. -/
theorem Selected.holds (h : Selected t i t') {tag : MdAddr} {j : ℕ} :
    t'.Holds tag j ↔ t.Holds tag j := by
  rw [WaySet.Holds, WaySet.Holds, (h.contents j).tag, (h.contents j).valid]

theorem Selected.mem_iff (h : Selected t i t') (j : ℕ) : j ∈ t'.order ↔ j ∈ t.order := by
  rcases h.order with ho | ho <;> rw [ho]
  exact mem_moveTo _ h.mem j

theorem Selected.lookup_eq_none (h : Selected t i t') {tag : MdAddr} :
    t'.lookup tag = none ↔ t.lookup tag = none := by
  rw [WaySet.lookup_eq_none, WaySet.lookup_eq_none]
  refine forall_congr' fun j => ?_
  rw [h.mem_iff, h.holds]

theorem Selected.mem_order (h : Selected t i t') : i ∈ t'.order := (h.mem_iff i).mpr h.mem

/-- A set after its victim is chosen. -/
theorem Selected.inv (h : Selected t i t') (hi : t.Inv) : t'.Inv := by
  refine ⟨?_, fun j => (h.mem_iff j).trans (hi.mem j), fun j hj k hk hvj hvk htag => ?_,
    fun j hj => h.rrpv_nonneg j ((h.mem_iff j).mp hj)⟩
  · rcases h.order with ho | ho <;> rw [ho]
    · exact hi.nodup
    · exact nodup_moveTo hi.nodup _
  · rw [(h.contents j).valid] at hvj
    rw [(h.contents k).valid] at hvk
    rw [(h.contents j).tag, (h.contents k).tag] at htag
    exact hi.unique j ((h.mem_iff j).mp hj) k ((h.mem_iff k).mp hk) hvj hvk htag

/-! ### What the calls do to a line -/

section

variable (E : Extern W cfg) (regs : Regs) (line : Line cfg) (set : MdAddr) (now lat : ℤ)
  (req : Request) (w : W)

/-- The line of an evicted block: at most its data is changed. -/
theorem evictLine_line : (evictLine E regs line set now w).2.2.1 =
    { line with data := (evictLine E regs line set now w).2.2.1.data } := by
  simp only [evictLine]
  split_ifs <;> rfl

/-- The eviction of a valid block: its write, if it is dirty, is to its address. -/
theorem evictLine_of_valid (hv : line.valid = true) : ∃ t,
    (evictLine E regs line set now w).2.1 = cfg.mkBaddr line.tag set ∧
      (evictLine E regs line set now w).2.2.2.1.writebacks =
        (if line.dirty then regs.writebacks + 1 else regs.writebacks) ∧
      (evictLine E regs line set now w).2.2.2.2 =
        if line.dirty then (E.blkAccessFn .write (cfg.mkBaddr line.tag set) line.data t w).2.2
        else w := by
  refine ⟨now + (boundPos (line.ready - now) +
    boundPos (regs.busFree - (now + boundPos (line.ready - now)))), ?_⟩
  simp only [evictLine, if_pos hv]
  split_ifs <;> exact ⟨rfl, rfl, rfl⟩

/-- The line of a filled block. -/
theorem fillLine_line : (fillLine E line req lat w).2.2.1 =
    { line with
      tag := cfg.tag req.addr, valid := true, dirty := req.cmd = .write
      ready := (fillLine E line req lat w).2.2.1.ready
      data := (fillLine E line req lat w).2.2.1.data } := rfl

/-- The invalidation of a block: its write, if it is dirty, is to the given address. -/
theorem invalidateLine_call (baddr : MdAddr) :
    (invalidateLine E lat regs line baddr now w).2.2.1.writebacks =
        (if line.dirty then regs.writebacks + 1 else regs.writebacks) ∧
      (invalidateLine E lat regs line baddr now w).2.2.2 =
        if line.dirty then (E.blkAccessFn .write baddr line.data (now + lat) w).2.2 else w := by
  simp only [invalidateLine]
  split_ifs <;> exact ⟨rfl, rfl⟩

/-- The line of an invalidated block. -/
theorem invalidateLine_line : (invalidateLine E lat regs line set now w).2.1 =
    { line with
      valid := false, data := (invalidateLine E lat regs line set now w).2.1.data } := by
  simp only [invalidateLine]
  split_ifs <;> rfl

end

/-! ### The invariant is preserved -/

theorem WaySet.Inv.setLine_hit (h : t.Inv) (hi : i ∈ t.order) (req : Request) :
    (t.setLine i (promote (hitLine (t.lines i) req).2)).Inv := by
  have hr := h.rrpv_nonneg i hi
  refine h.setLine_of_tag hi _ ?_ rfl id
  simp only [promote]
  split_ifs
  · exact le_refl 0
  · exact hr

theorem WaySet.Inv.hit (h : t.Inv) (hi : i ∈ t.order) (req : Request) : (t.hit req i).Inv := by
  rw [WaySet.hit]
  split_ifs
  · exact (h.setLine_hit hi req).move hi _
  · exact h.setLine_hit hi req

/-- The line of a replaced block. -/
theorem WaySet.fill_line (E : Extern W cfg) (t : WaySet cfg) (regs : Regs) (req : Request)
    (i : ℕ) (w : W) : ∃ ready data, (t.fill E regs req i w).2.1 = t.setLine i
      { t.lines i with
        tag := cfg.tag req.addr, valid := true, dirty := req.cmd = .write, ready, data } := by
  refine ⟨((t.fill E regs req i w).2.1.lines i).ready,
    ((t.fill E regs req i w).2.1.lines i).data, ?_⟩
  simp only [WaySet.fill, WaySet.setLine_lines, Function.update_self]
  rw [fillLine_line, evictLine_line]

theorem WaySet.Inv.fill (h : t.Inv) (hi : i ∈ t.order) {req : Request}
    (hnone : t.lookup (cfg.tag req.addr) = none) (regs : Regs) (w : W) :
    (t.fill E regs req i w).2.1.Inv := by
  obtain ⟨ready, data, heq⟩ := t.fill_line E regs req i w
  rw [heq]
  refine h.setLine _ (h.rrpv_nonneg i hi) fun _ j hj _ hv htag => ?_
  exact WaySet.lookup_eq_none.mp hnone j hj ⟨htag, hv⟩

/-- An invalidated block. -/
theorem WaySet.Inv.invalidate (h : t.Inv) (hi : i ∈ t.order) (lat : ℤ) (regs : Regs)
    (baddr : MdAddr) (now : ℤ) (w : W) :
    (t.setLine i (invalidateLine E lat regs (t.lines i) baddr now w).2.1).Inv := by
  rw [invalidateLine_line]
  exact h.setLine_of_tag hi _ (h.rrpv_nonneg i hi) rfl (by simp)

/-! ### Flushed sets -/

/-- What a flush does to a set: the blocks `l` are made invalid. -/
structure Emptied (t : WaySet cfg) (l : List ℕ) (t' : WaySet cfg) : Prop where
  order : t'.order = t.order
  setType : t'.setType = t.setType
  line : ∀ j, ∃ data, t'.lines j =
    { t.lines j with valid := if j ∈ l then false else (t.lines j).valid, data }

theorem Emptied.refl (t : WaySet cfg) : Emptied t [] t :=
  ⟨rfl, rfl, fun j => ⟨(t.lines j).data, by simp⟩⟩

theorem Emptied.flushBlk {l : List ℕ} {f : WayCache.FlushState W cfg} (h : Emptied t l f.set)
    (now : ℤ) (n blk : ℕ) : Emptied t (blk :: l) (WayCache.flushBlk E now n f blk).set := by
  rw [WayCache.flushBlk]
  dsimp only
  split_ifs with hv
  · refine ⟨h.order, h.setType, fun j => ?_⟩
    obtain ⟨data, hd⟩ := h.line j
    obtain ⟨d, hinvalid⟩ : ∃ d, (invalidateLine E f.lat f.regs (f.set.lines blk)
        (cfg.mkBaddrInt (f.set.lines blk).tag n) now f.world).2.1 =
        { f.set.lines blk with valid := false, data := d } := ⟨_, invalidateLine_line E _ _ _ _ _ _⟩
    dsimp only
    rw [WaySet.setLine_lines, hinvalid]
    by_cases hj : j = blk
    · subst hj
      rw [Function.update_self, hd]
      exact ⟨d, by simp⟩
    · rw [Function.update_of_ne hj, hd]
      exact ⟨data, by simp [hj]⟩
  · refine ⟨h.order, h.setType, fun j => ?_⟩
    obtain ⟨data, hd⟩ := h.line j
    refine ⟨data, ?_⟩
    by_cases hj : j = blk
    · -- the block is invalid already
      subst hj
      rw [hd] at hv ⊢
      simpa using hv
    · rw [hd]
      simp [hj]

/-- **A flush** makes every block invalid, and changes nothing else but the data. -/
theorem WayCache.flush_emptied (E : Extern W cfg) (a : WayCache cfg) (now : ℤ) (w : W) {i : ℕ}
    (hi : i < cfg.nsets) :
    Emptied (a.sets i) (a.sets i).order ((a.flush E now w).2.1.sets i) := by
  -- along the way order of one set
  have hfold : ∀ (t : WaySet cfg) (n : ℕ) (l l' : List ℕ) (f : FlushState W cfg),
      Emptied t l' f.set →
      Emptied t (l.reverse ++ l') (l.foldl (flushBlk E now n) f).set := by
    intro t n l
    induction l with
    | nil => exact fun _ _ h => h
    | cons j l ih =>
      intro l' f h
      have hrest := ih (j :: l') _ (h.flushBlk (E := E) now n j)
      rwa [List.reverse_cons, List.append_assoc]
  have hset : ∀ (a' : WayCache cfg) (lat : ℤ) (w' : W) (n : ℕ),
      Emptied (a'.sets n) (a'.sets n).order ((flushSet E now (lat, a', w') n).2.1.sets n) := by
    intro a' lat w' n
    have h := hfold (a'.sets n) n (a'.sets n).order [] ⟨lat, a'.sets n, a'.regs, w'⟩
      (Emptied.refl _)
    rw [List.append_nil] at h
    rw [flushSet]
    dsimp only
    rw [Function.update_self]
    refine ⟨h.order, h.setType, fun j => ?_⟩
    obtain ⟨data, hd⟩ := h.line j
    exact ⟨data, by simpa using hd⟩
  -- the sets below `k` are flushed, the others as they were
  have hloop := forRange_induction (n := cfg.nsets) (s := ((cfg.hitLatency : ℤ), a, w))
    (flushSet E now) (fun k p => (∀ j < k, Emptied (a.sets j) (a.sets j).order (p.2.1.sets j)) ∧
      ∀ j, k ≤ j → p.2.1.sets j = a.sets j)
    ⟨fun j hj => absurd hj (Nat.not_lt_zero j), fun _ _ => rfl⟩ ?_
  · exact hloop.1 i hi
  · rintro k ⟨lat, a', w'⟩ hk ⟨hdone, hrest⟩
    refine ⟨fun j hj => ?_, fun j hj => ?_⟩
    · by_cases hjk : j = k
      · subst hjk
        have h := hset a' lat w' j
        rwa [hrest j le_rfl] at h
      · have hother := hdone j (by omega)
        rw [flushSet]
        dsimp only
        rwa [Function.update_of_ne hjk]
    · have hjk : j ≠ k := by omega
      exact (Function.update_of_ne hjk _ _).trans (hrest j (by omega))

end AdvancedArchitecture.Cache
