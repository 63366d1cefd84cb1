import AdvancedArchitecture.Cache.Recency
import AdvancedArchitecture.Cache.Search

/-!
# Empty ways

The searches of `NRU` and `DRRIP` look at the replacement bits alone, and a flush leaves the bits
of the blocks that it empties. Blocks that no flush has emptied are the blocks that were never
filled, and of these the bits are known: under `NRU` they are the only ones that are set, and
under `DRRIP` they have reached the bound as soon as one block of the set is filled. They are
filled first, but for the blocks that a bimodal insertion leaves at the bound
(`empty_ways_first`).
-/

namespace AdvancedArchitecture.Cache

variable {W : Type} {cfg : Config} {E : Extern W cfg}

/-! ### The history of the blocks -/

/-- A cache with the history of its blocks: whether a flush has emptied a block, and whether the
last access to it left it at the bound. -/
structure Traced (W : Type) (cfg : Config) where
  cache : CacheT cfg
  world : W
  emptied : ℕ → ℕ → Bool
  distant : ℕ → ℕ → Bool

/-- The history after an access to the block that holds its address when it is over. -/
def Traced.afterAccess (s : Traced W cfg) (req : Request) (c' : CacheT cfg) (w' : W) :
    Traced W cfg :=
  let set := (cfg.set req.addr).toNat
  { s with
    cache := c'
    world := w'
    distant := fun i j =>
      if i = set ∧ (c'.sets.get set).lookup (cfg.tag req.addr) = some j then
        ((c'.sets.get set).line j).rrpv = rrpvMax
      else s.distant i j }

/-- One call, with the history of the blocks. -/
def traceStep (E : Extern W cfg) (s : Traced W cfg) (op : Op) : Option (Answer × Traced W cfg) :=
  (CacheT.step E (s.cache, s.world) op).map fun r =>
    (r.1, match op with
      | .access req => s.afterAccess req r.2.1 r.2.2
      | .flush _ =>
        { s with
          cache := r.2.1
          world := r.2.2
          emptied := fun i j => s.emptied i j || ((s.cache.sets.get i).line j).valid }
      | _ => { s with cache := r.2.1, world := r.2.2 })

/-- **The victim of a miss** is invalid, or every block of its set is valid or has been emptied by
a flush, or it was left at the bound under `DRRIP`. -/
def EmptyFirst (E : Extern W cfg) (s : Traced W cfg) : Op → Prop
  | .access req => s.cache.probe req.addr = false →
    let set := (cfg.set req.addr).toNat
    ∀ v, s.cache.victim E req s.world = some v → ((s.cache.sets.get set).line v).valid = true →
      (∀ j < cfg.assoc, ((s.cache.sets.get set).line j).valid = true ∨ s.emptied set j = true) ∨
        cfg.policy = .drrip ∧ s.distant set v = true
  | _ => True

/-! ### The bits of the blocks that were never filled -/

/-- A block that was never filled. -/
def WaySet.Fresh (t : WaySet cfg) (e : ℕ → Bool) (j : ℕ) : Prop :=
  (t.lines j).valid = false ∧ e j = false

/-- The bits of a set, as long as one of its blocks was never filled. -/
def Filling (t : WaySet cfg) (e d : ℕ → Bool) : Prop :=
  (∃ j ∈ t.order, t.Fresh e j) →
    (cfg.policy = .nru → ∀ j ∈ t.order, (t.lines j).nruBit = true ↔ t.Fresh e j) ∧
    (cfg.policy = .drrip →
      (∀ j ∈ t.order, t.Fresh e j ∧ (t.lines j).rrpv = rrpvMax - 1) ∨
      ∀ j ∈ t.order, (t.Fresh e j → (t.lines j).rrpv = rrpvMax) ∧
        (¬ t.Fresh e j → (t.lines j).rrpv = rrpvMax → d j = true))

section

variable {t t' : WaySet cfg} {e d d' : ℕ → Bool} {i : ℕ} {regs regs' : Regs} {w w' : W}

/-- A new set. -/
theorem filling_create (i : ℕ) (e d : ℕ → Bool) (he : ∀ j, e j = false) :
    Filling (WaySet.create cfg i) e d := by
  intro _
  refine ⟨fun _ j _ => iff_of_true rfl ⟨rfl, he j⟩, fun _ => Or.inl fun j _ => ⟨⟨rfl, he j⟩, rfl⟩⟩

/-- The victim while a block was never filled. -/
theorem Filling.victim (h : Filling t e d) (hp : cfg.policy = .nru ∨ cfg.policy = .drrip)
    (hsel : t.selectVictim E regs w = some (i, t', regs', w')) (hi : i ∈ t.order)
    (hv : (t.lines i).valid = true) :
    (∀ j ∈ t.order, (t.lines j).valid = true ∨ e j = true) ∨ cfg.policy = .drrip ∧ d i = true := by
  by_cases hfresh : ∃ j ∈ t.order, t.Fresh e j
  · right
    have hnot : ¬ t.Fresh e i := fun hf => Bool.false_ne_true (hf.1.symm.trans hv)
    obtain ⟨j, hj, hjf⟩ := hfresh
    obtain ⟨hnru, hdrrip⟩ := h ⟨j, hj, hjf⟩
    rcases hp with hp | hp
    · -- a block that was never filled has its bit set, and only such a block does
      rcases selectVictim_nru hp hsel with ⟨hfind, -⟩ | ⟨hnone, -⟩
      · exact absurd ((hnru hp i hi).mp (by simpa using List.find?_some hfind)) hnot
      · exact absurd ((hnru hp j hj).mpr hjf) (by simpa using List.find?_eq_none.mp hnone j hj)
    · obtain ⟨k, haged, -⟩ := selectVictim_drrip hp hsel
      rcases hdrrip hp with hall | hall
      · exact absurd (hall i hi).1 hnot
      · have hk : k = 0 := Nat.eq_zero_of_not_pos fun hk => haged.none hk j hj ((hall j hj).1 hjf)
        have hval := haged.value
        rw [hk, Nat.cast_zero, add_zero] at hval
        exact ⟨hp, (hall i hi).2 hnot hval⟩
  · left
    -- no fresh block is left
    intro j hj
    by_contra hnot
    push Not at hnot
    exact hfresh ⟨j, hj, by simpa using hnot.1, by simpa using hnot.2⟩

/-- A miss fills the victim and no other block. -/
theorem fresh_fill (hinv : t.Inv) (hsel : t.selectVictim E regs w = some (i, t', regs', w'))
    (req : Request) (j : ℕ) :
    (t'.fill E regs' req i w').2.1.Fresh e j ↔ j ≠ i ∧ t.Fresh e j := by
  obtain ⟨ready, data, hfill⟩ := t'.fill_line E regs' req i w'
  rw [WaySet.Fresh, WaySet.Fresh, hfill, WaySet.setLine_lines]
  by_cases hji : j = i
  · rw [hji, Function.update_self]
    simp
  · rw [Function.update_of_ne hji, ((selectVictim_spec hinv hsel).1.contents j).valid]
    simp [hji]

/-- A miss. -/
theorem Filling.miss (h : Filling t e d) (hinv : t.Inv)
    (hsel : t.selectVictim E regs w = some (i, t', regs', w')) (req : Request)
    (hd : ∀ j, d' j = if j = i then decide ((t'.lines i).rrpv = rrpvMax) else d j) :
    Filling (t'.fill E regs' req i w').2.1 e d' := by
  have hs := (selectVictim_spec hinv hsel).1
  obtain ⟨ready, data, hfill⟩ := t'.fill_line E regs' req i w'
  have hbits := t'.fill_bits E regs' req i w'
  have hmem : ∀ j, j ∈ (t'.fill E regs' req i w').2.1.order ↔ j ∈ t.order := by
    intro j
    rw [hfill]
    exact hs.mem_iff j
  have hfresh := fresh_fill (e := e) hinv hsel req
  -- a block that is fresh afterwards was so before, and shows where the victim came from
  rintro ⟨j₀, hj₀, hf₀⟩
  obtain ⟨-, hf₀⟩ := (hfresh j₀).mp hf₀
  rw [hmem] at hj₀
  obtain ⟨hnru, hdrrip⟩ := h ⟨j₀, hj₀, hf₀⟩
  constructor
  · intro hp j hj
    rw [hmem] at hj
    rw [(hbits j).1, hfresh]
    -- the search does not run through, since the bit of a fresh block is set
    rcases selectVictim_nru hp hsel with ⟨-, hbit⟩ | ⟨hnone, -⟩
    · rw [hbit]
      by_cases hji : j = i
      · simp [hji]
      · rw [if_neg hji, hnru hp j hj]
        simp [hji]
    · exact absurd ((hnru hp j₀ hj₀).mpr hf₀) (by simpa using List.find?_eq_none.mp hnone j₀ hj₀)
  · intro hp
    right
    obtain ⟨k, haged, hval⟩ := selectVictim_drrip hp hsel
    have hi := hs.mem
    intro j hj
    rw [hmem] at hj
    rw [(hbits j).2, hfresh, hd]
    by_cases hji : j = i
    · rw [if_pos hji, hji]
      exact ⟨fun hf => absurd rfl hf.1, fun _ hmax => decide_eq_true hmax⟩
    · rw [if_neg hji, hval, if_neg hji]
      rcases hdrrip hp with hall | hall
      · -- the first miss of the set ages all blocks by one
        have hvi := haged.value
        rw [(hall i hi).2] at hvi
        rw [(hall j hj).2]
        exact ⟨fun _ => by omega, fun hf => absurd ⟨hji, (hall j hj).1⟩ hf⟩
      · -- later misses find a fresh block without ageing
        have hk : k = 0 := Nat.eq_zero_of_not_pos fun hk =>
          haged.none hk j₀ hj₀ ((hall j₀ hj₀).1 hf₀)
        rw [hk, Nat.cast_zero, add_zero]
        exact ⟨fun hf => (hall j hj).1 hf.2, fun hf => (hall j hj).2 fun hf' => hf ⟨hji, hf'⟩⟩

/-- A hit. -/
theorem Filling.hit (h : Filling t e d) (hp : cfg.policy ≠ .lru) (hv : (t.lines i).valid = true)
    (req : Request)
    (hd : ∀ j, d' j = if j = i then decide (((t.hit req i).lines i).rrpv = rrpvMax) else d j) :
    Filling (t.hit req i) e d' := by
  have horder : (t.hit req i).order = t.order := by
    rw [WaySet.hit, if_neg hp, WaySet.setLine_order]
  have hlines : (t.hit req i).lines =
      Function.update t.lines i (promote (hitLine (t.lines i) req).2) := by
    rw [WaySet.hit, if_neg hp, WaySet.setLine_lines]
  have hline : ∀ j, j ≠ i → (t.hit req i).lines j = t.lines j := fun j hji => by
    rw [hlines, Function.update_of_ne hji]
  have hself : (t.hit req i).lines i = promote (hitLine (t.lines i) req).2 := by
    rw [hlines, Function.update_self]
  have hfresh : ∀ j, (t.hit req i).Fresh e j ↔ t.Fresh e j := by
    intro j
    rw [WaySet.Fresh, WaySet.Fresh]
    by_cases hji : j = i
    · rw [hji, hself]
      exact Iff.rfl
    · rw [hline j hji]
  -- the block that is hit is valid, so no fresh block changes
  have hnot : ¬ t.Fresh e i := fun hf => Bool.false_ne_true (hf.1.symm.trans hv)
  rintro ⟨j₀, hj₀, hf₀⟩
  rw [horder] at hj₀
  obtain ⟨hnru, hdrrip⟩ := h ⟨j₀, hj₀, (hfresh j₀).mp hf₀⟩
  rw [horder]
  constructor
  · intro hp j hj
    rw [hfresh]
    by_cases hji : j = i
    · rw [hji, hself]
      simp [promote, hp, hnot]
    · rw [hline j hji]
      exact hnru hp j hj
  · intro hp
    rcases hdrrip hp with hall | hall
    · -- where all blocks are fresh, the one that is hit is none of them
      left
      intro j hj
      have hji : j ≠ i := fun hji => hnot (hji ▸ (hall j hj).1)
      rw [hfresh, hline j hji]
      exact hall j hj
    · right
      intro j hj
      rw [hfresh, hd]
      by_cases hji : j = i
      · rw [if_pos hji, hji]
        exact ⟨fun hf => absurd hf hnot, fun _ hmax => decide_eq_true hmax⟩
      · rw [if_neg hji, hline j hji]
        exact hall j hj

/-- A flush. -/
theorem Filling.flush (h : Filling t e d) {e' : ℕ → Bool} (ht : Emptied t t.order t')
    (he : ∀ j ∈ t.order, e' j = (e j || (t.lines j).valid)) : Filling t' e' d := by
  have hline : ∀ j ∈ t.order, (t'.lines j).valid = false ∧
      (t'.lines j).nruBit = (t.lines j).nruBit ∧ (t'.lines j).rrpv = (t.lines j).rrpv := by
    intro j hj
    obtain ⟨data, hd⟩ := ht.line j
    rw [hd, if_pos hj]
    exact ⟨rfl, rfl, rfl⟩
  have hfresh : ∀ j ∈ t.order, (t'.Fresh e' j ↔ t.Fresh e j) := by
    intro j hj
    rw [WaySet.Fresh, WaySet.Fresh, (hline j hj).1, he j hj]
    simp [and_comm]
  rintro ⟨j₀, hj₀, hf₀⟩
  rw [ht.order] at hj₀
  obtain ⟨hnru, hdrrip⟩ := h ⟨j₀, hj₀, (hfresh j₀ hj₀).mp hf₀⟩
  rw [ht.order]
  constructor
  · intro hp j hj
    rw [hfresh j hj, (hline j hj).2.1]
    exact hnru hp j hj
  · intro hp
    refine (hdrrip hp).imp (fun hall j hj => ?_) fun hall j hj => ?_
    all_goals
      rw [hfresh j hj, (hline j hj).2.2]
      exact hall j hj

end

/-! ### Runs -/

/-- The set-associative cache of a cache with a history. -/
structure Traced.Rel (s : Traced W cfg) (a : WayCache cfg) : Prop where
  refines : Refines s.cache a
  filling : ∀ i < cfg.nsets, Filling (a.sets i) (s.emptied i) (s.distant i)

namespace Traced

variable {s s' : Traced W cfg} {a : WayCache cfg}

/-- An access rewrites one set, and the history of the block that it leaves there. -/
theorem Rel.update (h : s.Rel a) {req : Request} {c' : CacheT cfg} (w' : W) {regs : Regs}
    {t : WaySet cfg} {i : ℕ} (hi : i ∈ t.order)
    (h' : Refines c' ⟨regs, Function.update a.sets (cfg.set req.addr).toNat t⟩)
    (hblk : (c'.sets.get (cfg.set req.addr).toNat).lookup (cfg.tag req.addr) = some i)
    (ht : ∀ d, (∀ j, d j = if j = i then decide ((t.lines i).rrpv = rrpvMax) else
      s.distant (cfg.set req.addr).toNat j) → Filling t (s.emptied (cfg.set req.addr).toNat) d) :
    (s.afterAccess req c' w').Rel
      ⟨regs, Function.update a.sets (cfg.set req.addr).toNat t⟩ := by
  have hset := h'.sets _ (Config.set_lt req.addr)
  dsimp only at hset
  rw [Function.update_self] at hset
  refine ⟨h', fun k hk => ?_⟩
  rw [afterAccess]
  dsimp only
  by_cases hks : k = (cfg.set req.addr).toNat
  · rw [hks, Function.update_self]
    refine ht _ fun j => ?_
    rw [hblk, ← hset.line i hi]
    by_cases hji : j = i
    · simp [hji]
    · simp [hji, Ne.symm hji]
  · rw [Function.update_of_ne hks]
    simpa [hks] using h.filling k hk

/-- An access: its victim, and the history that it leaves. -/
theorem Rel.access (h : s.Rel a) (hp : cfg.policy = .nru ∨ cfg.policy = .drrip) {req : Request}
    {c' : CacheT cfg} {w' : W} {r : Reply}
    (hs : s.cache.access E req s.world = some (r, c', w')) :
    EmptyFirst E s (.access req) ∧ ∃ a', (s.afterAccess req c' w').Rel a' := by
  have hlt : (cfg.set req.addr).toNat < cfg.nsets := Config.set_lt req.addr
  have hinv := h.refines.inv _ hlt
  have hset := h.refines.sets _ hlt
  have hfill := h.filling _ hlt
  have hlru : cfg.policy ≠ .lru := by
    rcases hp with hp | hp <;> simp [hp]
  rcases h.refines.access_cases hs with
    ⟨-, i, t, regs, w₁, hch, h'⟩ | ⟨hprobe, i, hl, h'⟩
  · have hsel := (selectVictim_spec hinv hch.select).1
    refine ⟨fun _ v hv hvalid => ?_, _, h.update w' ?_ h' (h'.lookup_fill hsel.mem_order) ?_⟩
    · obtain rfl : v = i := Option.some.inj (hv.symm.trans hch.victim)
      rw [hset.line v hsel.mem] at hvalid
      refine (hfill.victim hp hch.select hsel.mem hvalid).imp_left fun hall j hj => ?_
      have hm := (hinv.mem j).mpr hj
      rw [hset.line j hm]
      exact hall j hm
    · obtain ⟨ready, data, hline⟩ := t.fill_line E regs req i w₁
      rw [hline]
      exact hsel.mem_order
    · intro d hd
      refine hfill.miss hinv hch.select req fun j => ?_
      rw [hd, (t.fill_bits E regs req i w₁ i).2]
  · obtain ⟨hi, hh⟩ := hinv.lookup_eq_some.mp hl
    refine ⟨fun hmiss => absurd (hprobe.symm.trans hmiss) (by decide), _,
      h.update w' ?_ h' (h'.lookup_hit hinv hl) fun d hd => hfill.hit hlru hh.2 req hd⟩
    rw [WaySet.hit, if_neg hlru]
    exact hi

/-- **Every call** but the flush of an address. -/
theorem Rel.step (h : s.Rel a) (hp : cfg.policy = .nru ∨ cfg.policy = .drrip) {op : Op}
    (hop : op.KeepsWays) {ans : Answer} (hs : traceStep E s op = some (ans, s')) :
    EmptyFirst E s op ∧ ∃ a', s'.Rel a' := by
  obtain ⟨⟨ans', c', w'⟩, hstep, heq⟩ := Option.map_eq_some_iff.mp hs
  obtain ⟨-, rfl⟩ := Prod.mk.inj heq
  cases op with
  | access req =>
    obtain ⟨r, -, hacc⟩ := CacheT.step_access hstep
    exact h.access hp hacc
  | probe addr =>
    obtain ⟨a', ha, h'⟩ := h.refines.step_of_eq_some E hstep
    obtain ⟨-, rfl, -⟩ := WayCache.step_probe ha
    exact ⟨trivial, _, h', h.filling⟩
  | flush now =>
    obtain ⟨a', ha, h'⟩ := h.refines.step_of_eq_some E hstep
    obtain ⟨-, rfl, -⟩ := WayCache.step_flush ha
    refine ⟨trivial, _, h', fun i hi => ?_⟩
    refine (h.filling i hi).flush (a.flush_emptied E now s.world hi) fun j hj => ?_
    dsimp only
    rw [(h.refines.sets i hi).line j hj]
  | flushAddr addr now => exact hop.elim

end Traced

/-- **Empty ways first**, under `NRU` and `DRRIP`: a miss replaces a valid block only if every
block of its set is valid or has been emptied by a flush, or if the last access to the block it
replaces was a `DRRIP` insertion at the bound. -/
theorem empty_ways_first (hp : cfg.policy = .nru ∨ cfg.policy = .drrip) {c : CacheT cfg}
    (hc : cacheCreate cfg = some c) (E : Extern W cfg) (w : W) {ops : List Op}
    (hops : ∀ op ∈ ops, op.KeepsWays) :
    EveryStep (traceStep E) (fun s op _ _ => EmptyFirst E s op)
      ⟨c, w, fun _ _ => false, fun _ _ => false⟩ ops := by
  refine EveryStep.of_invariant (I := fun s => ∃ a, s.Rel a) ?_ hops
    ⟨_, refines_create hc, fun i _ => filling_create i _ _ fun _ => rfl⟩
  rintro s op ans s' ⟨a, h⟩ hop hs
  exact h.step hp hop hs

/-- Sixty-four sets of four blocks of eight bytes, replaced by `DRRIP`. -/
def bimodalConfig : Config := Config.ofWordLogs 6 2 .drrip

/-- Three misses with a flush between them. -/
theorem empty_ways_first_sample : ∃ c, cacheCreate bimodalConfig = some c ∧
    (run (traceStep (journal _)) ⟨c, [], fun _ _ => false, fun _ _ => false⟩
      [.access (readAt 8), .flush 1, .access (readAt 520), .access (readAt 8)]).isSome = true ∧
    EveryStep (traceStep (journal _)) (fun s op _ _ => EmptyFirst (journal _) s op)
      ⟨c, [], fun _ _ => false, fun _ _ => false⟩
      [.access (readAt 8), .flush 1, .access (readAt 520), .access (readAt 8)] := by
  let c := (cacheCreate bimodalConfig).get (by decide)
  have hc : cacheCreate bimodalConfig = some c := (Option.some_get _).symm
  exact ⟨c, hc, by decide +kernel,
    empty_ways_first (Or.inr rfl) hc (journal _) [] (by decide)⟩

/-- Under `NRU` a flush leaves the bit of a block that was not filled, and the second miss after
it replaces the first. Under `DRRIP` the third miss of a bimodal set replaces the second. Either
leaves an empty block of the set alone. -/
theorem valid_replaced_first :
    (∃ c₀ answers c w v, cacheCreate nruConfig = some c₀ ∧
      run (CacheT.step (journal _)) (c₀, []) [.access (readAt 8), .flush 1, .access (readAt 16)] =
        some (answers, (c, w)) ∧ c.probe 24 = false ∧
      c.victim (journal _) (readAt 24) w = some v ∧ ((c.sets.get 0).line v).valid = true ∧
      ∃ j < 2, ((c.sets.get 0).line j).valid = false) ∧
    ∃ c₀ answers c w v, cacheCreate bimodalConfig = some c₀ ∧
      run (CacheT.step (journal _)) (c₀, []) [.access (readAt 8), .access (readAt 520)] =
        some (answers, (c, w)) ∧ c.probe 1032 = false ∧
      c.victim (journal _) (readAt 1032) w = some v ∧ ((c.sets.get 1).line v).valid = true ∧
      ∃ j < 4, ((c.sets.get 1).line j).valid = false := by
  constructor
  · let c₀ := (cacheCreate nruConfig).get (by decide)
    have hc : cacheCreate nruConfig = some c₀ := (Option.some_get _).symm
    have hs : (run (CacheT.step (journal _)) (c₀, [])
        [.access (readAt 8), .flush 1, .access (readAt 16)]).map (fun r =>
          (r.2.1.probe 24, r.2.1.victim (journal _) (readAt 24) r.2.2,
            ((r.2.1.sets.get 0).line 0).valid, ((r.2.1.sets.get 0).line 1).valid)) =
        some (false, some 0, true, false) := by decide +kernel
    obtain ⟨⟨answers, c, w⟩, hr, heq⟩ := Option.map_eq_some_iff.mp hs
    simp only [Prod.mk.injEq] at heq
    obtain ⟨hprobe, hvictim, hvalid, hempty⟩ := heq
    exact ⟨c₀, answers, c, w, 0, hc, hr, hprobe, hvictim, hvalid, 1, by decide, hempty⟩
  · let c₀ := (cacheCreate bimodalConfig).get (by decide)
    have hc : cacheCreate bimodalConfig = some c₀ := (Option.some_get _).symm
    have hs : (run (CacheT.step (journal _)) (c₀, [])
        [.access (readAt 8), .access (readAt 520)]).map (fun r =>
          (r.2.1.probe 1032, r.2.1.victim (journal _) (readAt 1032) r.2.2,
            ((r.2.1.sets.get 1).line 3).valid, ((r.2.1.sets.get 1).line 0).valid)) =
        some (false, some 3, true, false) := by decide +kernel
    obtain ⟨⟨answers, c, w⟩, hr, heq⟩ := Option.map_eq_some_iff.mp hs
    simp only [Prod.mk.injEq] at heq
    obtain ⟨hprobe, hvictim, hvalid, hempty⟩ := heq
    exact ⟨c₀, answers, c, w, 3, hc, hr, hprobe, hvictim, hvalid, 0, by decide, hempty⟩

end AdvancedArchitecture.Cache
