import Mathlib.Data.List.Basic
import Mathlib.Data.Nat.Notation
import AdvancedArchitecture.Lib.Outcome

/-!
# Functional units

The resource pool of `resource.c` and the configuration `fu_config` of `sim-outorder.c`. A
template (`struct res_template`) says that a unit can execute the operations of a class, and with
which latencies; `master` is the index of the unit, whose `busy` counter all its templates share.

`Halt` is what stops the simulator: `panic` reports a broken invariant of the simulator itself,
`fatal` a condition of the simulated program or of the configuration.
-/

namespace AdvancedArchitecture.Outorder

/-- What stops the simulator in the middle of a function. -/
inductive Halt
  | panic (msg : String)
  | fatal (msg : String)
  | assertion (msg : String)
  deriving DecidableEq, Repr

/-- `enum md_fu_class`, less the class of the operations that need no unit. -/
inductive FuClass
  | intALU | intMULT | intDIV
  | floatADD | floatCMP | floatCVT | floatMULT | floatDIV | floatSQRT
  | rdPort | wrPort
  deriving DecidableEq, Repr

/-- `struct res_template`. -/
structure ResTemplate where
  cls : FuClass
  oplat : ℕ
  issuelat : ℕ
  master : ℕ := 0
  deriving DecidableEq, Repr

/-- `struct res_desc`, as far as `fu_config` sets it. -/
structure ResDesc where
  quantity : ℕ
  x : List ResTemplate

/-- `MAX_INSTS_PER_CLASS`. -/
def maxInstsPerClass : ℕ := 8

/-- The quantities of `sim_check_options`, which checks them. -/
structure FuQuantities where
  ialu : ℕ
  imult : ℕ
  memport : ℕ
  fpalu : ℕ
  fpmult : ℕ
  ialu_ok : 1 ≤ ialu ∧ ialu ≤ maxInstsPerClass
  imult_ok : 1 ≤ imult ∧ imult ≤ maxInstsPerClass
  memport_ok : 1 ≤ memport ∧ memport ≤ maxInstsPerClass
  fpalu_ok : 1 ≤ fpalu ∧ fpalu ≤ maxInstsPerClass
  fpmult_ok : 1 ≤ fpmult ∧ fpmult ≤ maxInstsPerClass

/-- `fu_config`. -/
def fuConfig (q : FuQuantities) : List ResDesc :=
  [⟨q.ialu, [{ cls := .intALU, oplat := 1, issuelat := 1 }]⟩,
   ⟨q.imult, [{ cls := .intMULT, oplat := 3, issuelat := 1 },
      { cls := .intDIV, oplat := 20, issuelat := 19 }]⟩,
   ⟨q.memport, [{ cls := .rdPort, oplat := 1, issuelat := 1 },
      { cls := .wrPort, oplat := 1, issuelat := 1 }]⟩,
   ⟨q.fpalu, [{ cls := .floatADD, oplat := 2, issuelat := 1 },
      { cls := .floatCMP, oplat := 2, issuelat := 1 },
      { cls := .floatCVT, oplat := 2, issuelat := 1 }]⟩,
   ⟨q.fpmult, [{ cls := .floatMULT, oplat := 4, issuelat := 1 },
      { cls := .floatDIV, oplat := 12, issuelat := 12 },
      { cls := .floatSQRT, oplat := 24, issuelat := 24 }]⟩]

/-- `struct res_pool`: the number of units, and for each class the templates of the units that
execute it. -/
structure ResPool where
  numResources : ℕ
  table : FuClass → List ResTemplate

/-- The instance table of `res_create_pool`: the templates of each unit, in order. -/
def instances (pool : List ResDesc) : List (List ResTemplate) :=
  pool.flatMap fun d => List.replicate d.quantity d.x

/-- The templates of all units, with the index of their unit as master. -/
def templates (pool : List ResDesc) : List ResTemplate :=
  (instances pool).zipIdx.flatMap fun u => u.1.map fun t => { t with master := u.2 }

/-- `res_create_pool`. -/
def resCreatePool (pool : List ResDesc) : Except Halt ResPool :=
  if pool.any fun d => decide (maxInstsPerClass < d.quantity) then
    .error (.fatal "too many functional units, increase MAX_INSTS_PER_CLASS")
  else
    .ok
      { numResources := (instances pool).length
        table := fun c => (templates pool).filter fun t => decide (t.cls = c) }

/-- `res_get`: the first unit of the class that is not busy. -/
def resGet (pool : ResPool) (busy : ℕ → ℕ) (c : FuClass) : Except Halt (Option ResTemplate) :=
  if (pool.table c).isEmpty then .error (.assertion "pool->table[class][0]")
  else .ok ((pool.table c).find? fun t => busy t.master = 0)

/-- `ruu_release_fu`. -/
def ruuReleaseFu (pool : ResPool) (busy : ℕ → ℕ) : ℕ → ℕ :=
  fun i => if i < pool.numResources then busy i - 1 else busy i

/-- The number of units that serve a class. -/
def FuQuantities.units (q : FuQuantities) : FuClass → ℕ
  | .intALU => q.ialu
  | .intMULT | .intDIV => q.imult
  | .rdPort | .wrPort => q.memport
  | .floatADD | .floatCMP | .floatCVT => q.fpalu
  | .floatMULT | .floatDIV | .floatSQRT => q.fpmult

/-- A pool that can serve any operation, with latencies of at least a cycle. -/
structure ResPool.Complete (pool : ResPool) : Prop where
  nonempty : ∀ c, pool.table c ≠ []
  oplat_pos : ∀ c, ∀ t ∈ pool.table c, 0 < t.oplat

section

variable {pool : List ResDesc} {t : ResTemplate} {c : FuClass} {busy : ℕ → ℕ}

theorem mem_templates :
    t ∈ templates pool ↔
      ∃ x, (x, t.master) ∈ (instances pool).zipIdx ∧
        ∃ t' ∈ x, t = { t' with master := t.master } := by
  simp only [templates, List.mem_flatMap, List.mem_map, Prod.exists]
  constructor
  · rintro ⟨x, i, hx, t', ht', rfl⟩
    exact ⟨x, hx, t', ht', rfl⟩
  · rintro ⟨x, hx, t', ht', heq⟩
    exact ⟨x, t.master, hx, t', ht', heq.symm⟩

/-- Each unit of a description has its templates in the pool. -/
theorem exists_mem_templates {d : ResDesc} (hd : d ∈ pool) (hq : 1 ≤ d.quantity) {t' : ResTemplate}
    (ht : t' ∈ d.x) : ∃ t ∈ templates pool, t.cls = t'.cls := by
  have hx : d.x ∈ instances pool :=
    List.mem_flatMap.mpr ⟨d, hd, List.mem_replicate.mpr ⟨by omega, rfl⟩⟩
  obtain ⟨i, hi, hget⟩ := List.getElem_of_mem hx
  have hmem : (d.x, i) ∈ (instances pool).zipIdx := by
    rw [List.mem_zipIdx_iff_getElem?, List.getElem?_eq_getElem hi, hget]
  exact ⟨{ t' with master := i }, mem_templates.mpr ⟨d.x, hmem, t', ht, rfl⟩, rfl⟩

/-- A template of the pool is one of a description, up to its master. -/
theorem exists_of_mem_templates (ht : t ∈ templates pool) :
    ∃ d ∈ pool, ∃ t' ∈ d.x, t.cls = t'.cls ∧ t.oplat = t'.oplat ∧ t.issuelat = t'.issuelat := by
  obtain ⟨x, hx, t', ht', heq⟩ := mem_templates.mp ht
  obtain ⟨d, hd, hrep⟩ := List.mem_flatMap.mp (List.fst_mem_of_mem_zipIdx hx)
  obtain rfl := List.eq_of_mem_replicate hrep
  exact ⟨d, hd, t', ht', by rw [heq], by rw [heq], by rw [heq]⟩

theorem resCreatePool_eq_ok {p : ResPool} (h : resCreatePool pool = .ok p) :
    p.table = fun c => (templates pool).filter fun t => decide (t.cls = c) := by
  rw [resCreatePool] at h
  split at h
  · exact absurd h (by simp)
  · obtain rfl := Except.ok.inj h
    rfl

/-- The units of `fu_config` serve every class. -/
theorem complete_of_fuConfig {q : FuQuantities} {p : ResPool}
    (h : resCreatePool (fuConfig q) = .ok p) : p.Complete where
  nonempty c := by
    have hex : ∃ d ∈ fuConfig q, 1 ≤ d.quantity ∧ ∃ t' ∈ d.x, t'.cls = c := by
      have := q.ialu_ok
      have := q.imult_ok
      have := q.memport_ok
      have := q.fpalu_ok
      have := q.fpmult_ok
      cases c <;> simp [fuConfig] <;> omega
    obtain ⟨d, hd, hq, t', ht', rfl⟩ := hex
    obtain ⟨t, ht, hcls⟩ := exists_mem_templates hd hq ht'
    rw [resCreatePool_eq_ok h]
    exact List.ne_nil_of_mem (List.mem_filter.mpr ⟨ht, decide_eq_true hcls⟩)
  oplat_pos c t ht := by
    rw [resCreatePool_eq_ok h] at ht
    obtain ⟨d, hd, t', ht', -, hlat, -⟩ := exists_of_mem_templates (List.mem_filter.mp ht).1
    rw [hlat]
    have hall : ∀ d ∈ fuConfig q, ∀ t' ∈ d.x, 0 < t'.oplat := by simp [fuConfig]
    exact hall d hd t' ht'

/-- The checked quantities are within the limit of `res_create_pool`. -/
theorem exists_resCreatePool (q : FuQuantities) : ∃ p, resCreatePool (fuConfig q) = .ok p := by
  refine ⟨_, if_neg ?_⟩
  have := q.ialu_ok
  have := q.imult_ok
  have := q.memport_ok
  have := q.fpalu_ok
  have := q.fpmult_ok
  simp [fuConfig]
  omega

/-- The templates of a class are counted unit by unit. -/
theorem countP_templates (pool : List ResDesc) (c : FuClass) :
    (templates pool).countP (fun t => decide (t.cls = c)) =
      pool.foldr (fun d n => d.quantity * d.x.countP (fun t => decide (t.cls = c)) + n) 0 := by
  have hunits : (instances pool).zipIdx.map ((List.countP fun t => decide (t.cls = c)) ∘
      fun u => u.1.map fun t => { t with master := u.2 }) =
      (instances pool).map (List.countP fun t => decide (t.cls = c)) := by
    rw [← List.zipIdx_map_fst 0 (instances pool), List.map_map, List.zipIdx_map_fst]
    refine List.map_congr_left fun u _ => ?_
    exact List.countP_map
  rw [templates, List.countP_flatMap, hunits, instances, List.map_flatMap]
  clear hunits
  induction pool with
  | nil => rfl
  | cons d pool ih =>
    rw [List.flatMap_cons, List.sum_append, List.foldr_cons, ← ih, List.map_replicate,
      List.sum_replicate_nat]

/-- A unit has one template of a class, so the templates of a class are of different units. -/
theorem nodup_masters (hx : ∀ d ∈ pool, (d.x.map ResTemplate.cls).Nodup) (c : FuClass) :
    (((templates pool).filter fun t => decide (t.cls = c)).map ResTemplate.master).Nodup := by
  have hpair : (templates pool).Pairwise fun t t' => t.cls = t'.cls → t.master ≠ t'.master := by
    rw [templates, List.pairwise_flatMap]
    refine ⟨fun u hu => ?_, ?_⟩
    · obtain ⟨d, hd, hrep⟩ := List.mem_flatMap.mp (List.fst_mem_of_mem_zipIdx hu)
      rw [List.eq_of_mem_replicate hrep, List.pairwise_map]
      exact (List.pairwise_map.mp (hx d hd)).imp fun hne heq => absurd heq hne
    · have hidx : (instances pool).zipIdx.Pairwise fun u v => u.2 ≠ v.2 := by
        rw [← List.pairwise_map (f := Prod.snd) (R := (· ≠ ·)), List.zipIdx_map_snd]
        exact List.nodup_range'
      refine hidx.imp fun hne t ht t' ht' _ => ?_
      obtain ⟨_, -, rfl⟩ := List.mem_map.mp ht
      obtain ⟨_, -, rfl⟩ := List.mem_map.mp ht'
      exact hne
  rw [List.Nodup, List.pairwise_map]
  refine (hpair.filter _).imp_of_mem fun ht ht' hne => hne ?_
  rw [of_decide_eq_true (List.mem_filter.mp ht).2, of_decide_eq_true (List.mem_filter.mp ht').2]

theorem resCreatePool_numResources {p : ResPool} (h : resCreatePool pool = .ok p) :
    p.numResources = (instances pool).length := by
  rw [resCreatePool] at h
  split at h
  · exact absurd h (by simp)
  · obtain rfl := Except.ok.inj h
    rfl

end

namespace ResPool

variable {p : ResPool} {busy : ℕ → ℕ} {c : FuClass}

/-- What `res_get` returns is a free unit of the class. -/
theorem Complete.resGet (h : p.Complete) (E : Halt → Prop) :
    Meets E (fun fu => ∀ t, fu = some t → t ∈ p.table c ∧ busy t.master = 0)
      (resGet p busy c) := by
  have hne : ¬(p.table c).isEmpty = true := by
    rw [List.isEmpty_iff]
    exact h.nonempty c
  refine Meets.guard hne fun t ht => ⟨List.mem_of_find?_eq_some ht, ?_⟩
  simpa using List.find?_some ht

end ResPool

/-- With the quantities that `sim_check_options` admits the pool is created, each class has as many
units as are configured for it, and `res_get` does not fail its assertion: it returns a unit of the
class that is not busy, if there is one. -/
theorem resGet_exact (q : FuQuantities) : ∃ p, resCreatePool (fuConfig q) = .ok p ∧ ∀ c,
    (p.table c).length = q.units c ∧ ((p.table c).map ResTemplate.master).Nodup ∧
      (∀ t ∈ p.table c, t.cls = c ∧ t.master < p.numResources) ∧ ∀ busy, ∃ r,
        resGet p busy c = .ok r ∧ (∀ t, r = some t → t ∈ p.table c ∧ busy t.master = 0) ∧
          (r = none → ∀ t ∈ p.table c, busy t.master ≠ 0) := by
  obtain ⟨p, hp⟩ := exists_resCreatePool q
  refine ⟨p, hp, fun c => ?_⟩
  have htable := resCreatePool_eq_ok hp
  refine ⟨?_, ?_, fun t ht => ?_, fun busy => ?_⟩
  · rw [htable, ← List.countP_eq_length_filter, countP_templates]
    cases c <;> simp [fuConfig, FuQuantities.units]
  · rw [htable]
    refine nodup_masters (fun d hd => ?_) c
    have hall : ∀ d ∈ fuConfig q, (d.x.map ResTemplate.cls).Nodup := by simp [fuConfig]
    exact hall d hd
  · rw [htable] at ht
    obtain ⟨ht, hcls⟩ := List.mem_filter.mp ht
    obtain ⟨x, hx, -⟩ := mem_templates.mp ht
    obtain ⟨hlt, -⟩ := List.getElem?_eq_some_iff.mp (List.mem_zipIdx_iff_getElem?.mp hx)
    rw [resCreatePool_numResources hp]
    exact ⟨of_decide_eq_true hcls, hlt⟩
  · have hne : ¬(p.table c).isEmpty = true := by
      rw [List.isEmpty_iff]
      exact (complete_of_fuConfig hp).nonempty c
    refine ⟨_, if_neg hne, fun t ht => ?_, fun hnone t ht => ?_⟩
    · exact ⟨List.mem_of_find?_eq_some ht, by simpa using List.find?_some ht⟩
    · simpa using List.find?_eq_none.mp hnone t ht

end AdvancedArchitecture.Outorder
