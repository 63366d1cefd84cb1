import AdvancedArchitecture.Cache.Links

/-!
# The set-associative cache

The cache without its links and shortcuts: a set is the list of its blocks in way order with
their lines, a block is looked up by its tag along the list, and there is no last block. This
is what `cache.c` implements; the two are compared in `Cache/Refinement.lean`. What happens to
the line of a block (`hitLine`, `evictLine`, `fillLine`, `invalidateLine`) is the same
definition on both sides.
-/

namespace AdvancedArchitecture.Cache

variable {W : Type} {cfg : Config}

/-- A set: its blocks in way order, and the line of each block. -/
structure WaySet (cfg : Config) where
  order : List ℕ
  lines : ℕ → Line cfg
  setType : SetType

/-- A set-associative cache. -/
structure WayCache (cfg : Config) where
  regs : Regs
  sets : ℕ → WaySet cfg

namespace WaySet

/-- The line of a block replaced. -/
def setLine (t : WaySet cfg) (i : ℕ) (line : Line cfg) : WaySet cfg :=
  { t with lines := Function.update t.lines i line }

/-- A block moved to an end of the way order. -/
def move (t : WaySet cfg) (loc : CacheSet.ListLoc) (i : ℕ) : WaySet cfg :=
  { t with order := CacheSet.moveTo loc i t.order }

/-- Every line renewed. -/
def renew (t : WaySet cfg) (f : Line cfg → Line cfg) : WaySet cfg :=
  { t with lines := fun i => f (t.lines i) }

section

variable (t : WaySet cfg) (i : ℕ) (line : Line cfg) (f : Line cfg → Line cfg)
  (loc : CacheSet.ListLoc)

@[simp] theorem setLine_order : (t.setLine i line).order = t.order := rfl
@[simp] theorem setLine_setType : (t.setLine i line).setType = t.setType := rfl

@[simp]
theorem setLine_lines : (t.setLine i line).lines = Function.update t.lines i line := rfl

@[simp] theorem move_order : (t.move loc i).order = CacheSet.moveTo loc i t.order := rfl
@[simp] theorem move_lines : (t.move loc i).lines = t.lines := rfl
@[simp] theorem move_setType : (t.move loc i).setType = t.setType := rfl
@[simp] theorem renew_order : (t.renew f).order = t.order := rfl
@[simp] theorem renew_lines : (t.renew f).lines i = f (t.lines i) := rfl
@[simp] theorem renew_setType : (t.renew f).setType = t.setType := rfl

@[simp]
theorem setLine_setLine (line' : Line cfg) :
    (t.setLine i line).setLine i line' = t.setLine i line' := by
  simp [setLine]

end

/-- `i` is valid and has the tag `tag`. -/
def Holds (t : WaySet cfg) (tag : MdAddr) (i : ℕ) : Prop :=
  (t.lines i).tag = tag ∧ (t.lines i).valid = true

instance (t : WaySet cfg) (tag : MdAddr) (i : ℕ) : Decidable (t.Holds tag i) :=
  inferInstanceAs (Decidable (_ ∧ _))

/-- The block of a tag. -/
def lookup (t : WaySet cfg) (tag : MdAddr) : Option ℕ := t.order.find? fun i => t.Holds tag i

/-- The rounds of a victim search that renew all blocks: each looks at all blocks but the
first. -/
def searchRounds (found : Line cfg → Bool) (f : Line cfg → Line cfg) :
    ℕ → WaySet cfg → Option (ℕ × WaySet cfg)
  | 0, _ => none
  | n + 1, t =>
    match t.order.tail.find? fun i => found (f (t.lines i)) with
    | some i => some (i, t.renew f)
    | none => searchRounds found f n (t.renew f)

/-- A victim search: along the whole list first, then in up to `RRPV_MAX` rounds. -/
def search (found : Line cfg → Bool) (f : Line cfg → Line cfg) (t : WaySet cfg) :
    Option (ℕ × WaySet cfg) :=
  match t.order.find? fun i => found (t.lines i) with
  | some i => some (i, t)
  | none => searchRounds found f rrpvMax.toNat t

/-- The block to replace on a miss. -/
def selectVictim (E : Extern W cfg) (t : WaySet cfg) (regs : Regs) (w : W) :
    Option (ℕ × WaySet cfg × Regs × W) :=
  match cfg.policy with
  | .lru | .fifo => t.order.getLast?.map fun i => (i, t.move .head i, regs, w)
  | .random => some ((E.myrand w).1 &&& (cfg.assoc - 1), t, regs, (E.myrand w).2)
  | .nru =>
    (t.search (fun l => l.nruBit) fun l => { l with nruBit := true }).map fun r =>
      (r.1, r.2.setLine r.1 { r.2.lines r.1 with nruBit := false }, regs, w)
  | .drrip =>
    (t.search (fun l => l.rrpv = rrpvMax) fun l => { l with rrpv := l.rrpv + 1 }).map fun r =>
      (r.1, r.2.setLine r.1 { r.2.lines r.1 with rrpv := (drripInsert t.setType regs).1 },
        (drripInsert t.setType regs).2, w)

/-- The replacement of block `i` by that of the request. -/
def fill (E : Extern W cfg) (t : WaySet cfg) (regs : Regs) (req : Request) (i : ℕ) (w : W) :
    Reply × WaySet cfg × Regs × W :=
  let (lat, replAddr, line, regs, w) :=
    evictLine E regs (t.lines i) (cfg.set req.addr) req.now w
  let (lat, buf, line, w) := fillLine E line req lat w
  ({ lat, buf, udata := line.userData, replAddr }, t.setLine i line, regs, w)

/-- A hit of block `i`: its line, and under `LRU` its place. -/
def hit (t : WaySet cfg) (req : Request) (i : ℕ) : WaySet cfg :=
  let t := t.setLine i (promote (hitLine (t.lines i) req).2)
  if cfg.policy = .lru then t.move .head i else t

end WaySet

namespace WayCache

/-- An access that misses. -/
def miss (E : Extern W cfg) (c : WayCache cfg) (req : Request) (w : W) :
    Option (Reply × WayCache cfg × W) :=
  let set := (cfg.set req.addr).toNat
  (c.sets set).selectVictim E { c.regs with misses := c.regs.misses + 1 } w |>.map
    fun (i, t, regs, w) =>
      let (reply, t, regs, w) := t.fill E regs req i w
      (reply, { regs, sets := Function.update c.sets set t }, w)

/-- An access that hits block `i`. -/
def hit (c : WayCache cfg) (req : Request) (i : ℕ) : Reply × WayCache cfg :=
  let set := (cfg.set req.addr).toNat
  let line := (c.sets set).lines i
  ({ lat := hitLatency line req.now, buf := (hitLine line req).1
     udata := line.userData, replAddr := 0 },
    { regs := { c.regs with hits := c.regs.hits + 1 }
      sets := Function.update c.sets set ((c.sets set).hit req i) })

/-- An access. -/
def access (E : Extern W cfg) (c : WayCache cfg) (req : Request) (w : W) :
    Option (Reply × WayCache cfg × W) :=
  if ¬ req.ok cfg then none
  else
    match (c.sets (cfg.set req.addr).toNat).lookup (cfg.tag req.addr) with
    | some i => some ((c.hit req i).1, (c.hit req i).2, w)
    | none => c.miss E req w

/-- Whether an address is held. -/
def probe (c : WayCache cfg) (addr : MdAddr) : Bool :=
  ((c.sets (cfg.set addr).toNat).lookup (cfg.tag addr)).isSome

/-- The state of a flush of one set. -/
structure FlushState (W : Type) (cfg : Config) where
  lat : ℤ
  set : WaySet cfg
  regs : Regs
  world : W

/-- The flush of one block. -/
def flushBlk (E : Extern W cfg) (now : ℤ) (i : ℕ) (f : FlushState W cfg) (blk : ℕ) :
    FlushState W cfg :=
  let line := f.set.lines blk
  if line.valid then
    let (lat, line, regs, w) :=
      invalidateLine E f.lat f.regs line (cfg.mkBaddrInt line.tag i) now f.world
    { lat, set := f.set.setLine blk line, regs, world := w }
  else f

/-- The flush of one set, along its way order. -/
def flushSet (E : Extern W cfg) (now : ℤ) (a : ℤ × WayCache cfg × W) (i : ℕ) :
    ℤ × WayCache cfg × W :=
  let t := a.2.1.sets i
  let f := t.order.foldl (flushBlk E now i)
    { lat := a.1, set := t, regs := a.2.1.regs, world := a.2.2 }
  (f.lat, { regs := f.regs, sets := Function.update a.2.1.sets i f.set }, f.world)

/-- The flush of the cache. -/
def flush (E : Extern W cfg) (c : WayCache cfg) (now : ℤ) (w : W) : ℤ × WayCache cfg × W :=
  forRange cfg.nsets (flushSet E now) ((cfg.hitLatency : ℤ), c, w)

/-- The flush of one address. -/
def flushAddr (E : Extern W cfg) (c : WayCache cfg) (addr : MdAddr) (now : ℤ) (w : W) :
    ℤ × WayCache cfg × W :=
  let set := (cfg.set addr).toNat
  let t := c.sets set
  match t.lookup (cfg.tag addr) with
  | none => ((cfg.hitLatency : ℤ), c, w)
  | some i =>
    let (lat, line, regs, w) := invalidateLine E cfg.hitLatency c.regs (t.lines i)
      (cfg.mkBaddr (t.lines i).tag (cfg.set addr)) now w
    (lat, { regs, sets := Function.update c.sets set ((t.setLine i line).move .tail i) }, w)

/-- One call. -/
def step (E : Extern W cfg) (s : WayCache cfg × W) (op : Op) :
    Option (Answer × (WayCache cfg × W)) :=
  match op with
  | .access req => (s.1.access E req s.2).map fun r => (.reply r.1, r.2)
  | .probe addr => some (.found (s.1.probe addr), s)
  | .flush now =>
    let r := s.1.flush E now s.2
    some (.latency r.1, r.2)
  | .flushAddr addr now =>
    let r := s.1.flushAddr E addr now s.2
    some (.latency r.1, r.2)

/-! ### Accesses that return -/

variable {E : Extern W cfg} {a a' : WayCache cfg} {req : Request} {w w' : W} {r : Reply}

/-- An access that returns misses, or hits a block. -/
theorem access_eq_some (h : a.access E req w = some (r, a', w')) :
    req.ok cfg = true ∧
      ((a.sets (cfg.set req.addr).toNat).lookup (cfg.tag req.addr) = none ∧
          a.miss E req w = some (r, a', w') ∨
        ∃ i, (a.sets (cfg.set req.addr).toNat).lookup (cfg.tag req.addr) = some i ∧
          r = (a.hit req i).1 ∧ a' = (a.hit req i).2 ∧ w' = w) := by
  rw [access] at h
  split_ifs at h with hok
  refine ⟨hok, ?_⟩
  rcases hl : (a.sets (cfg.set req.addr).toNat).lookup (cfg.tag req.addr) with _ | i
  · rw [hl] at h
    exact Or.inl ⟨rfl, h⟩
  · rw [hl] at h
    simp only [Option.some.injEq, Prod.mk.injEq] at h
    obtain ⟨rfl, rfl, rfl⟩ := h
    exact Or.inr ⟨i, rfl, rfl, rfl, rfl⟩

/-- A miss that returns chooses a block and fills it. -/
theorem miss_eq_some (h : a.miss E req w = some (r, a', w')) :
    ∃ i t regs w₁, (a.sets (cfg.set req.addr).toNat).selectVictim E
        { a.regs with misses := a.regs.misses + 1 } w = some (i, t, regs, w₁) ∧
      r = (t.fill E regs req i w₁).1 ∧
      a' = ⟨(t.fill E regs req i w₁).2.2.1,
        Function.update a.sets (cfg.set req.addr).toNat (t.fill E regs req i w₁).2.1⟩ ∧
      w' = (t.fill E regs req i w₁).2.2.2 := by
  rw [miss] at h
  obtain ⟨⟨i, t, regs, w₁⟩, hsel, heq⟩ := Option.map_eq_some_iff.mp h
  simp only [Prod.mk.injEq] at heq
  obtain ⟨rfl, rfl, rfl⟩ := heq
  exact ⟨i, t, regs, w₁, hsel, rfl, rfl, rfl⟩

/-! ### Calls that return -/

variable {ans : Answer} {addr : MdAddr} {now : ℤ}

theorem step_access (h : step E (a, w) (.access req) = some (ans, (a', w'))) :
    ∃ r, .reply r = ans ∧ a.access E req w = some (r, a', w') := by
  obtain ⟨⟨r, p⟩, hr, heq⟩ := Option.map_eq_some_iff.mp h
  obtain ⟨hans, rfl⟩ := Prod.mk.inj heq
  exact ⟨r, hans, hr⟩

theorem step_probe (h : step E (a, w) (.probe addr) = some (ans, (a', w'))) :
    .found (a.probe addr) = ans ∧ a = a' ∧ w = w' := by
  simpa only [step, Option.some.injEq, Prod.mk.injEq] using h

theorem step_flush (h : step E (a, w) (.flush now) = some (ans, (a', w'))) :
    .latency (a.flush E now w).1 = ans ∧ (a.flush E now w).2.1 = a' ∧
      (a.flush E now w).2.2 = w' := by
  obtain ⟨hans, heq⟩ := Prod.mk.inj (Option.some.inj h)
  exact ⟨hans, Prod.mk.inj heq⟩

theorem step_flushAddr (h : step E (a, w) (.flushAddr addr now) = some (ans, (a', w'))) :
    .latency (a.flushAddr E addr now w).1 = ans ∧ (a.flushAddr E addr now w).2.1 = a' ∧
      (a.flushAddr E addr now w).2.2 = w' := by
  obtain ⟨hans, heq⟩ := Prod.mk.inj (Option.some.inj h)
  exact ⟨hans, Prod.mk.inj heq⟩

end WayCache

/-! ### New caches -/

/-- Set `i` of a new cache: the blocks in the reverse of the order in which they were added. -/
def WaySet.create (cfg : Config) (i : ℕ) : WaySet cfg where
  order := (List.range cfg.assoc).reverse
  lines j :=
    { (default : Line cfg) with
      userData := if cfg.usize ≠ 0 then some (i * cfg.assoc + j) else none
      nruBit := true
      rrpv := rrpvMax - 1 }
  setType := cfg.setType i

/-- A new cache. -/
def WayCache.create (cfg : Config) : WayCache cfg := ⟨{}, WaySet.create cfg⟩

end AdvancedArchitecture.Cache
