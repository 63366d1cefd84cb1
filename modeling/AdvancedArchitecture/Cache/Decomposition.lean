import AdvancedArchitecture.Cache.Outcomes

/-!
# Set decomposition

Under `LRU`, `FIFO` and `NRU`, and in the `SRRIP` leader sets of `DRRIP`, what an access does to
its set depends on the order of its blocks and on their tags and bits alone: not on the data, the
statistics, `PSEL`, `BIPCTR` or the block of the last hit. Two sets that agree on these
(`WaySet.Alike`) show the same outcome and go on agreeing, so the accesses to the other sets can
be left out of a run (`set_decomposition`).
-/

namespace AdvancedArchitecture.Cache

open CacheSet

variable {W : Type} {cfg : Config} {E : Extern W cfg}

/-- The sets whose outcomes depend on the accesses to them alone. -/
def Config.Decomposes (cfg : Config) (set : ℕ) : Prop :=
  match cfg.policy with
  | .lru | .fifo => True
  | .nru => 2 ≤ cfg.assoc
  | .drrip => 2 ≤ cfg.assoc ∧ cfg.setType set = .srrip
  | .random => False

/-- The outcomes of the accesses to one set. -/
def outcomesOf (cfg : Config) (set : ℕ) (reqs : List Request) (outs : List Outcome) :
    List Outcome :=
  ((reqs.zip outs).filter fun p => (cfg.set p.1.addr).toNat = set).map Prod.snd

/-! ### Searches that end -/

section returns

variable {t : WaySet cfg}

/-- No block but the first is past the bound of the prediction values. -/
def WaySet.Searchable (t : WaySet cfg) : Prop :=
  ∀ j ∈ t.order.tail, (t.lines j).rrpv ≤ rrpvMax

/-- **A victim is found** in a set of two blocks or more: a search that renews all blocks goes on
with the second. -/
theorem selectVictim_returns (hi : t.Inv)
    (hassoc : cfg.policy = .nru ∨ cfg.policy = .drrip → 2 ≤ cfg.assoc)
    (hs : cfg.policy = .drrip → t.Searchable) (regs : Regs) (w : W) :
    ∃ r, t.selectVictim E regs w = some r := by
  have hsecond : 2 ≤ cfg.assoc → ∃ j, j ∈ t.order.tail := by
    intro h
    rw [← hi.length_order] at h
    exact List.exists_mem_of_length_pos (by rw [List.length_tail]; omega)
  rw [← Option.isSome_iff_exists, WaySet.selectVictim]
  rcases hp : cfg.policy <;> dsimp only
  case lru | fifo => rw [List.getLast?_eq_some_getLast hi.order_ne_nil]; rfl
  case random => rfl
  case nru =>
    obtain ⟨j, hj⟩ := hsecond (hassoc (Or.inl hp))
    rw [Option.isSome_map, WaySet.search]
    split
    · rfl
    · exact searchRounds_isSome (k := 0) (by decide) hj rfl
  case drrip =>
    obtain ⟨j, hj⟩ := hsecond (hassoc (Or.inr hp))
    have hle := hs hp j hj
    have hnn := hi.rrpv_nonneg j (List.mem_of_mem_tail hj)
    rw [Option.isSome_map, WaySet.search]
    split
    · rfl
    · -- aging brings the second block to the bound, if no other block gets there first
      next hnone =>
      have hne : (t.lines j).rrpv ≠ rrpvMax := by
        simpa using List.find?_eq_none.mp hnone j (List.mem_of_mem_tail hj)
      have hmax : rrpvMax = 7 := rfl
      refine searchRounds_isSome (k := (rrpvMax - (t.lines j).rrpv - 1).toNat) (by omega) hj ?_
      simp only [rrpv_iterate, decide_eq_true_eq]
      omega

/-- Aging stops where the first of the blocks past the first reaches the bound. -/
theorem Aged.tail_le {l : List ℕ} {v : ℕ → ℤ} {i k : ℕ} (h : Aged l v i k)
    (hle : ∀ j ∈ l.tail, v j ≤ rrpvMax) : ∀ j ∈ l.tail, v j + k ≤ rrpvMax := by
  intro j hj
  have hj' := hle j hj
  rcases Nat.eq_zero_or_pos k with hk | hk
  · omega
  · have hne := h.none hk j (List.mem_of_mem_tail hj)
    by_contra hlt
    exact h.before (rrpvMax - v j).toNat (by omega) (by omega) j hj (by omega)

/-- The choice of a `DRRIP` victim and the fill keep a set searchable. -/
theorem WaySet.Searchable.miss (h : t.Searchable) (hp : cfg.policy = .drrip) {t' : WaySet cfg}
    {i : ℕ} {regs regs' : Regs} {w w' : W}
    (hsel : t.selectVictim E regs w = some (i, t', regs', w')) {line : Line cfg}
    (hline : line.rrpv = (t'.lines i).rrpv) : (t'.setLine i line).Searchable := by
  obtain ⟨k, haged, hbits⟩ := selectVictim_drrip hp hsel
  have horder : t'.order = t.order := by
    simp only [WaySet.selectVictim, hp] at hsel
    obtain ⟨⟨j, t₁⟩, hs, heq⟩ := Option.map_eq_some_iff.mp hsel
    simp only [Prod.mk.injEq] at heq
    obtain ⟨-, rfl, -⟩ := heq
    exact (search_mem hs).2.1
  intro j hj
  rw [setLine_order, horder] at hj
  have hval : ((t'.setLine i line).lines j).rrpv = (t'.lines j).rrpv := by
    rw [setLine_lines]
    by_cases hji : j = i
    · rw [hji, Function.update_self, hline]
    · rw [Function.update_of_ne hji]
  rw [hval, hbits]
  split_ifs
  · exact drripInsert_le _ _
  · exact haged.tail_le h j hj

/-- A hit keeps a set of `DRRIP` searchable. -/
theorem WaySet.Searchable.hit (h : t.Searchable) (hp : cfg.policy = .drrip) (req : Request)
    (i : ℕ) : (t.hit req i).Searchable := by
  rw [WaySet.hit, if_neg (by simp [hp])]
  intro j hj
  rw [setLine_lines]
  by_cases hji : j = i
  · rw [hji, Function.update_self, promote]
    dsimp only
    rw [if_pos hp]
    decide
  · rw [Function.update_of_ne hji]
    exact h j hj

/-- Every set is searchable, under `DRRIP`. -/
def WayCache.Searchable (a : WayCache cfg) : Prop :=
  cfg.policy = .drrip → ∀ i < cfg.nsets, (a.sets i).Searchable

theorem WayCache.Searchable.update {a : WayCache cfg} (h : a.Searchable) {i : ℕ} {t : WaySet cfg}
    (ht : cfg.policy = .drrip → t.Searchable) (regs : Regs) :
    Searchable ⟨regs, Function.update a.sets i t⟩ := by
  intro hp
  exact (Function.forall_update_iff a.sets (p := fun j s => j < cfg.nsets → s.Searchable)).mpr
    ⟨fun _ => ht hp, fun j _ => h hp j⟩

/-- **Accesses return** where victims are found. -/
theorem WayCache.observe_returns {a : WayCache cfg} (h : ∀ i < cfg.nsets, (a.sets i).Inv)
    (hassoc : cfg.policy = .nru ∨ cfg.policy = .drrip → 2 ≤ cfg.assoc) (hs : a.Searchable)
    {req : Request} (hok : req.ok cfg = true) (E : Extern W cfg) (w : W) :
    ∃ out a' w', observe E (a, w) req = some (out, (a', w')) ∧ a'.Searchable := by
  have hlt : (cfg.set req.addr).toNat < cfg.nsets := Config.set_lt req.addr
  rcases hl : (a.sets (cfg.set req.addr).toNat).lookup (cfg.tag req.addr) with _ | i
  · obtain ⟨⟨i, t, regs, w₁⟩, hsel⟩ := selectVictim_returns (h _ hlt) hassoc
      (fun hp => hs hp _ hlt) (E := E.logged) { a.regs with misses := a.regs.misses + 1 } (w, [])
    obtain ⟨regs', ready, data, w', hobs⟩ := observe_miss hok (h _ hlt) hl hsel
    refine ⟨_, _, w', hobs, hs.update (fun hp => ?_) _⟩
    exact (hs hp _ hlt).miss hp hsel rfl
  · exact ⟨_, _, _, observe_hit hok hl, hs.update (fun hp => (hs hp _ hlt).hit hp req i) _⟩

end returns

/-! ### Sets that cannot be told apart -/

/-- Lines with the same tag and bits. -/
structure SameControl (l l' : Line cfg) : Prop where
  tag : l.tag = l'.tag
  valid : l.valid = l'.valid
  dirty : l.dirty = l'.dirty
  nruBit : l.nruBit = l'.nruBit
  rrpv : l.rrpv = l'.rrpv

namespace WaySet

/-- Sets with the same blocks in the same order, with the same tags and bits. -/
structure Alike (t t' : WaySet cfg) : Prop where
  order : t.order = t'.order
  setType : t.setType = t'.setType
  line : ∀ j, SameControl (t.lines j) (t'.lines j)

variable {t t' : WaySet cfg} {i : ℕ}

theorem Alike.refl (t : WaySet cfg) : Alike t t := ⟨rfl, rfl, fun _ => ⟨rfl, rfl, rfl, rfl, rfl⟩⟩

theorem Alike.lookup (h : Alike t t') (tag : MdAddr) : t.lookup tag = t'.lookup tag := by
  rw [WaySet.lookup, WaySet.lookup, h.order]
  refine List.find?_congr fun j _ => decide_eq_decide.mpr ?_
  rw [Holds, Holds, (h.line j).tag, (h.line j).valid]

theorem Alike.setLine (h : Alike t t') {line line' : Line cfg} (hline : SameControl line line')
    (i : ℕ) : Alike (t.setLine i line) (t'.setLine i line') where
  order := h.order
  setType := h.setType
  line j := by
    rw [setLine_lines, setLine_lines]
    by_cases hji : j = i
    · rw [hji, Function.update_self, Function.update_self]
      exact hline
    · rw [Function.update_of_ne hji, Function.update_of_ne hji]
      exact h.line j

theorem Alike.move (h : Alike t t') (loc : ListLoc) (i : ℕ) :
    Alike (t.move loc i) (t'.move loc i) where
  order := congrArg (moveTo loc i) h.order
  setType := h.setType
  line := h.line

theorem Alike.renew (h : Alike t t') {f : Line cfg → Line cfg}
    (hf : ∀ l l', SameControl l l' → SameControl (f l) (f l')) :
    Alike (t.renew f) (t'.renew f) where
  order := h.order
  setType := h.setType
  line j := hf _ _ (h.line j)

/-- **Searches find the same block** of sets that cannot be told apart. -/
theorem Alike.search (h : Alike t t') {found : Line cfg → Bool} {f : Line cfg → Line cfg}
    (hfound : ∀ l l', SameControl l l' → found l = found l')
    (hf : ∀ l l', SameControl l l' → SameControl (f l) (f l')) :
    Option.Rel (fun p q => p.1 = q.1 ∧ Alike p.2 q.2) (t.search found f) (t'.search found f) := by
  have hrounds : ∀ (n : ℕ) (t t' : WaySet cfg), Alike t t' →
      Option.Rel (fun p q => p.1 = q.1 ∧ Alike p.2 q.2) (t.searchRounds found f n)
        (t'.searchRounds found f n) := by
    intro n
    induction n with
    | zero => exact fun _ _ _ => Option.Rel.none
    | succ n ih =>
      intro t t' h
      have hfind : t.order.tail.find? (fun i => found (f (t.lines i))) =
          t'.order.tail.find? fun i => found (f (t'.lines i)) := by
        rw [h.order]
        exact List.find?_congr fun i _ => hfound _ _ (hf _ _ (h.line i))
      rw [searchRounds, searchRounds, hfind]
      split
      · exact Option.Rel.some ⟨rfl, h.renew hf⟩
      · exact ih _ _ (h.renew hf)
  have hfind : t.order.find? (fun i => found (t.lines i)) =
      t'.order.find? fun i => found (t'.lines i) := by
    rw [h.order]
    exact List.find?_congr fun i _ => hfound _ _ (h.line i)
  rw [WaySet.search, WaySet.search, hfind]
  split
  · exact Option.Rel.some ⟨rfl, h⟩
  · exact hrounds _ _ _ h

/-- **Victims agree**: under the policies that decompose, the choice does not depend on what the
sets share. -/
theorem Alike.selectVictim (h : Alike t t') (hd : cfg.Decomposes i)
    (hty : t.setType = cfg.setType i) (regs regs' : Regs) (w w' : W) :
    Option.Rel (fun p q => p.1 = q.1 ∧ Alike p.2.1 q.2.1) (t.selectVictim E regs w)
      (t'.selectVictim E regs' w') := by
  have hlast : Option.Rel (fun p q => p.1 = q.1 ∧ Alike p.2.1 q.2.1)
      (t.order.getLast?.map fun i => (i, t.move .head i, regs, w))
      (t'.order.getLast?.map fun i => (i, t'.move .head i, regs', w')) := by
    rw [← h.order]
    rcases t.order.getLast? with _ | j
    · exact Option.Rel.none
    · exact Option.Rel.some ⟨rfl, h.move .head j⟩
  rw [Config.Decomposes] at hd
  rw [WaySet.selectVictim, WaySet.selectVictim]
  rcases hp : cfg.policy <;> rw [hp] at hd <;> dsimp only
  case lru | fifo => exact hlast
  case random => exact hd.elim
  case nru =>
    refine rel_map (h.search (fun l l' hl => hl.nruBit) fun l l' hl => ?_) ?_
    · exact ⟨hl.tag, hl.valid, hl.dirty, rfl, hl.rrpv⟩
    · rintro ⟨j, t₁⟩ ⟨j', t₁'⟩ ⟨hj, h₁⟩
      obtain rfl : j = j' := hj
      refine ⟨rfl, WaySet.Alike.setLine h₁ ?_ j⟩
      obtain ⟨htag, hv, hdirty, -, hr⟩ := h₁.line j
      exact ⟨htag, hv, hdirty, rfl, hr⟩
  case drrip =>
    have hfound : ∀ l l' : Line cfg, SameControl l l' →
        decide (l.rrpv = rrpvMax) = decide (l'.rrpv = rrpvMax) := by
      intro l l' hl
      rw [hl.rrpv]
    have hsearch := h.search (f := fun l => { l with rrpv := l.rrpv + 1 }) hfound
      fun l l' hl => ⟨hl.tag, hl.valid, hl.dirty, hl.nruBit, by dsimp only; rw [hl.rrpv]⟩
    refine rel_map hsearch ?_
    rintro ⟨j, t₁⟩ ⟨j', t₁'⟩ ⟨hj, h₁⟩
    obtain rfl : j = j' := hj
    refine ⟨rfl, WaySet.Alike.setLine h₁ ?_ j⟩
    -- a leader set inserts the same value always
    have hinsert : ∀ regs, (drripInsert (cfg.setType i) regs).1 = rrpvMax - 1 := by
      intro regs
      rw [hd.2]
      rfl
    obtain ⟨htag, hv, hdirty, hn, -⟩ := h₁.line j
    refine ⟨htag, hv, hdirty, hn, ?_⟩
    rw [← h.setType, hty, hinsert, hinsert]

/-- Hits of sets that cannot be told apart. -/
theorem Alike.hit (h : Alike t t') (req : Request) (i : ℕ) :
    Alike (t.hit req i) (t'.hit req i) := by
  have hl := h.line i
  have hline : SameControl (promote (hitLine (t.lines i) req).2)
      (promote (hitLine (t'.lines i) req).2) := by
    refine ⟨hl.tag, hl.valid, ?_, ?_, ?_⟩ <;> simp only [promote, hitLine]
    · rw [hl.dirty]
    · rw [hl.nruBit]
    · rw [hl.rrpv]
  rw [WaySet.hit, WaySet.hit]
  split_ifs
  · exact (h.setLine hline i).move .head i
  · exact h.setLine hline i

end WaySet

/-! ### Runs -/

/-- **An access to one set** is matched by an access to a set that is like it. -/
theorem WayCache.observe_alike {a a₁ a' : WayCache cfg} {req : Request} {set : ℕ}
    (hset : (cfg.set req.addr).toNat = set) (hinv : (a.sets set).Inv) (hinv' : (a'.sets set).Inv)
    (hd : cfg.Decomposes set) (hty : (a.sets set).setType = cfg.setType set)
    (h : (a.sets set).Alike (a'.sets set)) {out : Outcome} {w w₁ : W}
    (hs : observe E (a, w) req = some (out, (a₁, w₁))) (w' : W) :
    ∃ a₁' w₁', observe E (a', w') req = some (out, (a₁', w₁')) ∧
      (a₁.sets set).Alike (a₁'.sets set) ∧ (a₁.sets set).setType = cfg.setType set := by
  subst hset
  have hok := ok_of_observe hs
  have hl' := h.lookup (cfg.tag req.addr)
  rcases hl : (a.sets (cfg.set req.addr).toNat).lookup (cfg.tag req.addr) with _ | i
  · rw [hl] at hl'
    -- a miss: sets that are alike choose the same block, or neither finds one
    have hv := h.selectVictim (E := E.logged) hd hty
      { a.regs with misses := a.regs.misses + 1 } { a'.regs with misses := a'.regs.misses + 1 }
      (w, []) (w', [])
    rcases hsel : (a.sets (cfg.set req.addr).toNat).selectVictim E.logged
        { a.regs with misses := a.regs.misses + 1 } (w, []) with _ | ⟨i, t, regs, w₂⟩
    · rw [observe_none hl hsel] at hs
      exact absurd hs (by simp)
    · obtain ⟨⟨i', t', regs', w₂'⟩, hsel', hi, ht⟩ := rel_of_eq_some hv hsel
      obtain rfl : i = i' := hi
      obtain ⟨regs₁, ready, data, w₃, hobs⟩ := observe_miss hok hinv hl hsel
      obtain ⟨regs₁', ready', data', w₁', hobs'⟩ := observe_miss hok hinv' hl'.symm hsel'
      rw [hobs] at hs
      simp only [Option.some.injEq, Prod.mk.injEq] at hs
      obtain ⟨rfl, rfl, -⟩ := hs
      have hline : SameControl (t.lines i) (t'.lines i) := ht.line i
      have hout : (t.lines i).replaced (cfg.set req.addr) i =
          (t'.lines i).replaced (cfg.set req.addr) i := by
        rw [Line.replaced, Line.replaced, hline.tag, hline.valid, hline.dirty]
      refine ⟨_, w₁', hout ▸ hobs', ?_, ?_⟩ <;> dsimp only <;> rw [Function.update_self]
      · rw [Function.update_self]
        refine WaySet.Alike.setLine ht ?_ i
        exact ⟨rfl, rfl, rfl, hline.nruBit, hline.rrpv⟩
      · exact (selectVictim_spec hinv hsel).1.setType.trans hty
  · rw [hl] at hl'
    rw [observe_hit hok hl] at hs
    simp only [Option.some.injEq, Prod.mk.injEq] at hs
    obtain ⟨rfl, rfl, -⟩ := hs
    refine ⟨_, w', observe_hit hok hl'.symm, ?_, ?_⟩ <;> rw [hit] <;> dsimp only <;>
      rw [Function.update_self]
    · rw [hit]
      dsimp only
      rw [Function.update_self]
      exact h.hit req i
    · rw [WaySet.hit]
      split_ifs <;> exact hty

/-- Two caches whose sets with the index `set` cannot be told apart. -/
def Parallel (set : ℕ) (c c' : CacheT cfg) : Prop :=
  ∃ a a' : WayCache cfg, Refines c a ∧ Refines c' a' ∧ (a.sets set).Alike (a'.sets set) ∧
    (a.sets set).setType = cfg.setType set

namespace Parallel

variable {set : ℕ} {c c₁ c' : CacheT cfg} {req : Request} {out : Outcome} {w w₁ : W}

/-- An access to the set is matched. -/
theorem observe (h : Parallel set c c') (hd : cfg.Decomposes set)
    (hset : (cfg.set req.addr).toNat = set) (hz : cfg.baddr req.addr ≠ 0)
    (hs : CacheT.observe E (c, w) req = some (out, (c₁, w₁))) (w' : W) :
    ∃ c₁' w₁', CacheT.observe E (c', w') req = some (out, (c₁', w₁')) ∧
      Parallel set c₁ c₁' := by
  obtain ⟨a, a', hr, hr', halike, hty⟩ := h
  have hlt : set < cfg.nsets := by
    rw [← hset]
    exact Config.set_lt req.addr
  obtain ⟨⟨out', a₁, w₁'⟩, ha, rfl, hr₁, -⟩ := rel_of_eq_some (hr.observe hz E w) hs
  obtain ⟨a₁', w₂, ha', halike₁, hty₁⟩ :=
    WayCache.observe_alike hset (hr.inv set hlt) (hr'.inv set hlt) hd hty halike ha w'
  have hrel := hr'.observe hz E w'
  rw [ha'] at hrel
  obtain ⟨⟨out'', c₁', w₂'⟩, hc', rfl, hr₁', -⟩ := rel_of_some hrel
  exact ⟨c₁', w₂', hc', a₁, a₁', hr₁, hr₁', halike₁, hty₁⟩

/-- An access to another set is not seen. -/
theorem skip (h : Parallel set c c') (hset : (cfg.set req.addr).toNat ≠ set)
    (hz : cfg.baddr req.addr ≠ 0)
    (hs : CacheT.observe E (c, w) req = some (out, (c₁, w₁))) : Parallel set c₁ c' := by
  obtain ⟨a, a', hr, hr', halike, hty⟩ := h
  obtain ⟨⟨out', a₁, w₁'⟩, ha, -, hr₁, -⟩ := rel_of_eq_some (hr.observe hz E w) hs
  have hsame : a₁.sets set = a.sets set := WayCache.observe_frame ha hset
  refine ⟨a₁, a', hr₁, hr', ?_, ?_⟩
  · rw [hsame]
    exact halike
  · rw [hsame]
    exact hty

end Parallel

/-- Accesses return where victims are found. -/
theorem Refines.observe_returns {c : CacheT cfg} {a : WayCache cfg} (h : Refines c a)
    (hassoc : cfg.policy = .nru ∨ cfg.policy = .drrip → 2 ≤ cfg.assoc) (hs : a.Searchable)
    {req : Request} (hok : req.ok cfg = true) (hz : cfg.baddr req.addr ≠ 0) (E : Extern W cfg)
    (w : W) : ∃ out c' w' a', CacheT.observe E (c, w) req = some (out, (c', w')) ∧
      Refines c' a' ∧ a'.Searchable := by
  obtain ⟨out, a', w', ha, hs'⟩ := WayCache.observe_returns h.inv hassoc hs hok E w
  have hrel := h.observe hz E w
  rw [ha] at hrel
  obtain ⟨⟨out', c', w''⟩, hc, -, hr, -⟩ := rel_of_some hrel
  exact ⟨out', c', w'', a', hc, hr, hs'⟩

theorem Config.Decomposes.assoc {set : ℕ} (h : cfg.Decomposes set)
    (hp : cfg.policy = .nru ∨ cfg.policy = .drrip) : 2 ≤ cfg.assoc := by
  rw [Decomposes] at h
  rcases hp with hp | hp <;> rw [hp] at h
  · exact h
  · exact h.1

theorem WayCache.searchable_create : (WayCache.create cfg).Searchable := by
  intro _ _ _ _ _
  show rrpvMax - 1 ≤ rrpvMax
  decide

/-- **Set decomposition.** Under `LRU` and `FIFO`, under `NRU` with two blocks or more to a set,
and in the `SRRIP` leader sets of such a `DRRIP` cache, the outcomes of the accesses to a set are
those of the run that makes only these accesses. -/
theorem set_decomposition {c₀ : CacheT cfg} (hc : cacheCreate cfg = some c₀) {set : ℕ}
    (hd : cfg.Decomposes set) (E : Extern W cfg) (w₀ : W) {reqs : List Request}
    (hreqs : ∀ req ∈ reqs, req.ok cfg = true ∧ cfg.baddr req.addr ≠ 0) :
    ∃ outs c w c' w', run (CacheT.observe E) (c₀, w₀) reqs = some (outs, (c, w)) ∧
      run (CacheT.observe E) (c₀, w₀) (reqs.filter fun req => (cfg.set req.addr).toNat = set) =
        some (outcomesOf cfg set reqs outs, (c', w')) := by
  have hrefines := refines_create hc
  obtain ⟨outs, ⟨c, w⟩, hr, -⟩ := run_returns (CacheT.observe E)
    (I := fun s => ∃ a, Refines s.1 a ∧ a.Searchable) (s := (c₀, w₀))
    (fun s req ⟨a, ha, hs⟩ ⟨hok, hz⟩ => by
      obtain ⟨out, c', w', a', hobs, ha', hs'⟩ := ha.observe_returns hd.assoc hs hok hz E s.2
      exact ⟨out, (c', w'), hobs, a', ha', hs'⟩)
    hreqs ⟨_, hrefines, WayCache.searchable_create⟩
  obtain ⟨⟨c', w'⟩, hr', -⟩ := run_filter
    (R := fun (s t : CacheT cfg × W) => Parallel set s.1 t.1)
    (p := fun req => decide ((cfg.set req.addr).toNat = set)) (t := (c₀, w₀))
    (fun s t req out s' h ⟨_, hz⟩ hp hs => by
      obtain ⟨c₁', w₁', hc', h'⟩ := h.observe hd (of_decide_eq_true hp) hz hs t.2
      exact ⟨(c₁', w₁'), hc', h'⟩)
    (fun s t req out s' h ⟨_, hz⟩ hp hs => h.skip (of_decide_eq_false hp) hz hs)
    hreqs ⟨_, _, hrefines, hrefines, WaySet.Alike.refl _, rfl⟩ hr
  exact ⟨outs, c, w, c', w', hr, hr'⟩

/-- Sixty-four sets of two blocks of eight bytes, replaced by `DRRIP`: every other set is an
`SRRIP` leader. -/
def duelConfig : Config := Config.ofWordLogs 6 1 .drrip

/-- Misses in two sets, and a hit in the first of them. -/
theorem set_decomposition_sample : ∃ c₀ outs c w c' w', cacheCreate duelConfig = some c₀ ∧
    run (CacheT.observe (journal _)) (c₀, [])
      [readAt 16, readAt 8, readAt 16, readAt 520, readAt 528] = some (outs, (c, w)) ∧
    run (CacheT.observe (journal _)) (c₀, []) [readAt 16, readAt 16, readAt 528] =
      some (outcomesOf duelConfig 2 [readAt 16, readAt 8, readAt 16, readAt 520, readAt 528] outs,
        (c', w')) := by
  let c₀ := (cacheCreate duelConfig).get (by decide)
  have hc : cacheCreate duelConfig = some c₀ := (Option.some_get _).symm
  have hd : duelConfig.Decomposes 2 := ⟨by decide, by decide⟩
  have hreqs : ∀ req ∈ [readAt 16, readAt 8, readAt 16, readAt 520, readAt 528],
      req.ok duelConfig = true ∧ duelConfig.baddr req.addr ≠ 0 := by decide
  obtain ⟨outs, c, w, c', w', hr, hr'⟩ := set_decomposition hc hd (journal _) [] hreqs
  exact ⟨c₀, outs, c, w, c', w', hc, hr, hr'⟩

end AdvancedArchitecture.Cache
