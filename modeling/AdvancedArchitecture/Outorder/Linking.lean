import Mathlib.Tactic.IntervalCases
import AdvancedArchitecture.Outorder.Dependence
import AdvancedArchitecture.Outorder.Machine

/-!
# Linking a station at dispatch

What `ruu_link_idep` and `ruu_install_odep` do, field by field, and from that what the five calls
of `linkStation` do together. An operand without a pending creator is ready, any other is put in
front of its creator's list. Of two outputs with the same name the second stays in the create
vector.
-/

namespace AdvancedArchitecture.Outorder

variable {U : Type}

namespace Core

/-- The creator of an operand, if its value is still to come. -/
def source (s : Core U) (n : ℕ) : Option CvLink :=
  if n = NA then none else s.readCreateVector n

variable {s s' : Core U} {p q : RsPtr} {i j k n : ℕ}

/-! ### Assignments to one entry -/

theorem idepReady_modify {b : Bool} :
    ((s.modify p (Station.setIdepReady k b)).station q).idepReady j =
      if q = p ∧ j = k then b else (s.station q).idepReady j := by
  rw [station_modify]
  by_cases hq : q = p
  · subst hq
    by_cases hj : j = k <;> simp [Station.setIdepReady, hj]
  · simp [hq]

theorem odepList_modify {f : Station U → List RsLink} :
    ((s.modify p fun st => st.setOdepList i (f st)).station q).odepList j =
      if q = p ∧ j = i then f (s.station p) else (s.station q).odepList j := by
  rw [station_modify]
  by_cases hq : q = p
  · subst hq
    by_cases hj : j = i <;> simp [Station.setOdepList, hj]
  · simp [hq]

/-! ### `ruu_link_idep` -/

theorem ruuLinkIdep_of_none (h : s.source n = none) :
    s.ruuLinkIdep p k n = s.modify p (Station.setIdepReady k true) := by
  rw [source] at h
  rw [ruuLinkIdep]
  split_ifs at h ⊢ with hn
  · rfl
  · rw [h]

theorem ruuLinkIdep_of_some {head : CvLink} (h : s.source n = some head) :
    s.ruuLinkIdep p k n =
      (s.modify p (Station.setIdepReady k false)).modify head.rs fun st =>
        st.setOdepList head.odepNum (s.link p k :: st.odepList head.odepNum) := by
  have htag : ((s.modify p (Station.setIdepReady k false)).station p).tag = (s.station p).tag :=
    get_modify Station.tag fun _ => rfl
  have hlink := link_congr htag k
  rw [source] at h
  rw [ruuLinkIdep, ← hlink]
  split_ifs at h ⊢ with hn
  rw [h]

/-- Only operand flags and output lists change. -/
theorem get_ruuLinkIdep {β : Type*} (g : Station U → β)
    (hi : ∀ (st : Station U) k b, g (st.setIdepReady k b) = g st)
    (ho : ∀ (st : Station U) i l, g (st.setOdepList i l) = g st) :
    g ((s.ruuLinkIdep p k n).station q) = g (s.station q) := by
  rcases h : s.source n with _ | head
  · rw [ruuLinkIdep_of_none h]
    exact get_modify g fun st => hi st k true
  · rw [ruuLinkIdep_of_some h, get_modify g fun st => ho st _ _]
    exact get_modify g fun st => hi st k false

theorem idepReady_ruuLinkIdep :
    ((s.ruuLinkIdep p k n).station q).idepReady j =
      if q = p ∧ j = k then (s.source n).isNone else (s.station q).idepReady j := by
  rcases h : s.source n with _ | head
  · rw [ruuLinkIdep_of_none h]
    exact idepReady_modify
  · rw [ruuLinkIdep_of_some h]
    refine Eq.trans ?_ idepReady_modify
    exact get_modify (fun st => st.idepReady j) fun _ => rfl

theorem odepList_ruuLinkIdep :
    ((s.ruuLinkIdep p k n).station q).odepList j =
      (if s.source n = some ⟨q, j⟩ then [s.link p k] else []) ++ (s.station q).odepList j := by
  have hold : ∀ b q, ((s.modify p (Station.setIdepReady k b)).station q).odepList =
      (s.station q).odepList := fun _ _ => get_modify Station.odepList fun _ => rfl
  rcases h : s.source n with _ | ⟨rs, odepNum⟩
  · rw [ruuLinkIdep_of_none h, hold, if_neg (by simp), List.nil_append]
  · rw [ruuLinkIdep_of_some h, odepList_modify, hold, hold]
    by_cases heq : q = rs ∧ j = odepNum
    · obtain ⟨rfl, rfl⟩ := heq
      simp
    · rw [if_neg heq, if_neg fun h => heq ?_, List.nil_append]
      obtain ⟨hrs, hnum⟩ := CvLink.mk.inj (Option.some.inj h)
      exact ⟨hrs.symm, hnum.symm⟩

/-- The rest of the state is unchanged. -/
theorem ruuLinkIdep_rest (s : Core U) (p : RsPtr) (k n : ℕ) :
    s.ruuLinkIdep p k n = { s with station := (s.ruuLinkIdep p k n).station } := by
  rcases h : s.source n with _ | head
  · rw [ruuLinkIdep_of_none h]
    rfl
  · rw [ruuLinkIdep_of_some h]
    rfl

/-! ### `ruu_install_odep` -/

/-- What an output puts into a create vector. -/
def install (p : RsPtr) (i name n : ℕ) (old : Option CvLink) : Option CvLink :=
  if name ≠ NA ∧ n = name then some ⟨p, i⟩ else old

/-- The create vector of the mode gets the output. -/
theorem setCreateVector_eq (s : Core U) (name : ℕ) (l : CvLink) :
    s.setCreateVector name l =
      { s with
        createVector := fun n =>
          if s.specMode = false ∧ n = name then some l else s.createVector n
        specCreateVector := fun n =>
          if s.specMode = true ∧ n = name then some l else s.specCreateVector n
        useSpecCv := fun n => s.useSpecCv n || decide (s.specMode = true ∧ n = name) } := by
  rw [setCreateVector]
  cases hmode : s.specMode
  · simp only [Bool.false_eq_true, if_false, true_and, false_and, decide_false, Bool.or_false]
    congr 1
    funext n
    exact Function.update_apply ..
  · simp only [if_true, true_and, reduceCtorEq, false_and, if_false]
    congr 1
    · funext n
      exact Function.update_apply ..
    · funext n
      by_cases hn : n = name <;> simp [hn]

theorem ruuInstallOdep_na : s.ruuInstallOdep p i NA = s.modify p (Station.setOname i NA) :=
  if_pos rfl

theorem ruuInstallOdep_of_ne (h : n ≠ NA) :
    s.ruuInstallOdep p i n =
      (s.modify p fun st => (st.setOname i n).setOdepList i []).setCreateVector n ⟨p, i⟩ :=
  if_neg h

theorem get_ruuInstallOdep {β : Type*} (g : Station U → β)
    (hn : ∀ (st : Station U) i n, g (st.setOname i n) = g st)
    (ho : ∀ (st : Station U) i l, g (st.setOdepList i l) = g st) :
    g ((s.ruuInstallOdep p i n).station q) = g (s.station q) := by
  by_cases hna : n = NA
  · rw [hna, ruuInstallOdep_na]
    exact get_modify g fun st => hn st i NA
  · rw [ruuInstallOdep_of_ne hna, setCreateVector_eq]
    exact get_modify g fun st => (ho _ _ _).trans (hn st i n)

theorem onames_ruuInstallOdep :
    ((s.ruuInstallOdep p i n).station q).onames j =
      if q = p ∧ j = i then n else (s.station q).onames j := by
  have hset : ((s.modify p (Station.setOname i n)).station q).onames j =
      if q = p ∧ j = i then n else (s.station q).onames j := by
    rw [station_modify]
    by_cases hq : q = p
    · subst hq
      by_cases hj : j = i <;> simp [Station.setOname, hj]
    · simp [hq]
  by_cases hna : n = NA
  · subst hna
    rw [ruuInstallOdep_na]
    exact hset
  · rw [ruuInstallOdep_of_ne hna, setCreateVector_eq, ← hset]
    rw [station_modify, station_modify]
    split <;> rfl

theorem odepList_ruuInstallOdep :
    ((s.ruuInstallOdep p i n).station q).odepList j =
      if n ≠ NA ∧ q = p ∧ j = i then [] else (s.station q).odepList j := by
  by_cases hna : n = NA
  · subst hna
    rw [ruuInstallOdep_na, if_neg fun h => h.1 rfl]
    exact get_modify (fun st => st.odepList j) fun _ => rfl
  · rw [ruuInstallOdep_of_ne hna, setCreateVector_eq]
    change ((s.modify p fun st => (st.setOname i n).setOdepList i []).station q).odepList j = _
    rw [station_modify]
    by_cases hq : q = p
    · subst hq
      by_cases hj : j = i <;> simp [Station.setOdepList, Station.setOname, hna, hj]
    · simp [hq]

theorem ruuInstallOdep_rest (s : Core U) (p : RsPtr) (i name : ℕ) :
    s.ruuInstallOdep p i name =
      { s with
        station := (s.ruuInstallOdep p i name).station
        createVector := fun n =>
          if s.specMode then s.createVector n else install p i name n (s.createVector n)
        specCreateVector := fun n =>
          if s.specMode then install p i name n (s.specCreateVector n) else s.specCreateVector n
        useSpecCv := fun n => s.useSpecCv n || (s.specMode && decide (name ≠ NA ∧ n = name)) } := by
  by_cases hna : name = NA
  · subst hna
    simp [ruuInstallOdep_na, install, Core.modify]
  · rw [ruuInstallOdep_of_ne hna, setCreateVector_eq]
    cases hmode : s.specMode <;> simp [install, hna, hmode]

/-! ### `linkStation` -/

/-- The links that the operands of `p` put in front of the list of the output `j` of `q`. -/
def newLinks (s : Core U) (p : RsPtr) (names : Names) (q : RsPtr) (j : ℕ) : List RsLink :=
  ([2, 1, 0].filter fun k => s.source (names.input k) = some ⟨q, j⟩).map (s.link p)

theorem mem_newLinks {names : Names} {ℓ : RsLink} :
    ℓ ∈ s.newLinks p names q j ↔
      ∃ k < maxIdeps, s.source (names.input k) = some ⟨q, j⟩ ∧ s.link p k = ℓ := by
  have hmem : ∀ k, k ∈ [2, 1, 0] ↔ k < maxIdeps := by
    intro k
    simp only [List.mem_cons, List.not_mem_nil, or_false, maxIdeps]
    omega
  simp only [newLinks, List.mem_map, List.mem_filter, hmem, decide_eq_true_eq, and_assoc]

theorem nodup_newLinks (names : Names) : (s.newLinks p names q j).Nodup := by
  have hnodup : [2, 1, 0].Nodup := by simp
  exact (hnodup.filter _).map fun a b hab => (RsLink.mk.inj hab).2.2

theorem source_ruuLinkIdep (m : ℕ) : (s.ruuLinkIdep p k n).source m = s.source m := by
  rw [ruuLinkIdep_rest]
  rfl

theorem link_ruuLinkIdep (m : ℕ) : (s.ruuLinkIdep p k n).link q m = s.link q m :=
  link_congr (get_ruuLinkIdep Station.tag (fun _ _ _ => rfl) fun _ _ _ => rfl) m

open Machine (linkStation)

/-- The state after the three inputs have been linked. -/
def inputsLinked (s : Core U) (p : RsPtr) (names : Names) : Core U :=
  ((s.ruuLinkIdep p 0 names.in1).ruuLinkIdep p 1 names.in2).ruuLinkIdep p 2 names.in3

variable {names : Names}

theorem idepReady_inputsLinked (hk : k < maxIdeps) :
    ((s.inputsLinked p names).station p).idepReady k = (s.source (names.input k)).isNone := by
  rw [maxIdeps] at hk
  simp only [inputsLinked, idepReady_ruuLinkIdep, source_ruuLinkIdep]
  interval_cases k <;> simp [Names.input]

theorem idepReady_inputsLinked_ne (hq : q ≠ p) :
    ((s.inputsLinked p names).station q).idepReady k = (s.station q).idepReady k := by
  simp [inputsLinked, idepReady_ruuLinkIdep, hq]

theorem odepList_inputsLinked :
    ((s.inputsLinked p names).station q).odepList j =
      s.newLinks p names q j ++ (s.station q).odepList j := by
  simp only [inputsLinked, odepList_ruuLinkIdep, source_ruuLinkIdep, link_ruuLinkIdep, newLinks,
    List.filter_cons, List.filter_nil, Names.input, decide_eq_true_eq]
  split_ifs <;> simp

theorem linkStation_eq (s : Core U) (p : RsPtr) (names : Names) :
    linkStation s p names =
      ((s.inputsLinked p names).ruuInstallOdep p 0 names.out1).ruuInstallOdep p 1 names.out2 := rfl

/-- Only operand flags, output lists and output names change. -/
theorem get_linkStation {β : Type*} (g : Station U → β)
    (hi : ∀ (st : Station U) k b, g (st.setIdepReady k b) = g st)
    (ho : ∀ (st : Station U) i l, g (st.setOdepList i l) = g st)
    (hn : ∀ (st : Station U) i n, g (st.setOname i n) = g st) :
    g ((linkStation s p names).station q) = g (s.station q) := by
  rw [linkStation_eq, get_ruuInstallOdep g hn ho, get_ruuInstallOdep g hn ho, inputsLinked,
    get_ruuLinkIdep g hi ho, get_ruuLinkIdep g hi ho, get_ruuLinkIdep g hi ho]

theorem idepReady_linkStation :
    ((linkStation s p names).station q).idepReady =
      ((s.inputsLinked p names).station q).idepReady := by
  rw [linkStation_eq, get_ruuInstallOdep Station.idepReady (fun _ _ _ => rfl) fun _ _ _ => rfl,
    get_ruuInstallOdep Station.idepReady (fun _ _ _ => rfl) fun _ _ _ => rfl]

theorem onames_inputsLinked :
    ((s.inputsLinked p names).station q).onames = (s.station q).onames := by
  have hget : ∀ (s : Core U) k n, ((s.ruuLinkIdep p k n).station q).onames = (s.station q).onames :=
    fun _ _ _ => get_ruuLinkIdep Station.onames (fun _ _ _ => rfl) fun _ _ _ => rfl
  rw [inputsLinked, hget, hget, hget]

theorem onames_linkStation (hj : j < maxOdeps) :
    ((linkStation s p names).station p).onames j = names.output j := by
  rw [maxOdeps] at hj
  rw [linkStation_eq, onames_ruuInstallOdep, onames_ruuInstallOdep]
  interval_cases j <;> simp [Names.output]

theorem onames_linkStation_ne (hq : q ≠ p) :
    ((linkStation s p names).station q).onames = (s.station q).onames := by
  funext j
  simp [linkStation_eq, onames_ruuInstallOdep, hq, onames_inputsLinked]

theorem odepList_linkStation_ne (hq : q ≠ p) :
    ((linkStation s p names).station q).odepList j =
      s.newLinks p names q j ++ (s.station q).odepList j := by
  simp [linkStation_eq, odepList_ruuInstallOdep, hq, odepList_inputsLinked]

/-- The lists of the station itself stay empty. -/
theorem odepList_linkStation_self (hnew : s.newLinks p names p j = [])
    (hold : (s.station p).odepList j = []) :
    ((linkStation s p names).station p).odepList j = [] := by
  simp [linkStation_eq, odepList_ruuInstallOdep, odepList_inputsLinked, hnew, hold]

theorem inputsLinked_rest (s : Core U) (p : RsPtr) (names : Names) :
    ∃ f, s.inputsLinked p names = { s with station := f } := by
  have hrest : ∀ (s : Core U) k n, ∃ f, s.ruuLinkIdep p k n = { s with station := f } :=
    fun s k n => ⟨_, ruuLinkIdep_rest s p k n⟩
  obtain ⟨f₀, h₀⟩ := hrest s 0 names.in1
  obtain ⟨f₁, h₁⟩ := hrest { s with station := f₀ } 1 names.in2
  rw [inputsLinked, h₀, h₁]
  exact hrest { s with station := f₁ } 2 names.in3

/-- What the two outputs put into a create vector: of two outputs with one name the second
stays. -/
def installs (p : RsPtr) (names : Names) (n : ℕ) (old : Option CvLink) : Option CvLink :=
  install p 1 names.out2 n (install p 0 names.out1 n old)

/-- The rest of the state. -/
theorem linkStation_rest (s : Core U) (p : RsPtr) (names : Names) :
    linkStation s p names =
      { s with
        station := (linkStation s p names).station
        createVector := fun n =>
          if s.specMode then s.createVector n else installs p names n (s.createVector n)
        specCreateVector := fun n =>
          if s.specMode then installs p names n (s.specCreateVector n) else s.specCreateVector n
        useSpecCv := fun n => s.useSpecCv n ||
          (s.specMode && decide (n ≠ NA ∧ (n = names.out1 ∨ n = names.out2))) } := by
  obtain ⟨f, hf⟩ := inputsLinked_rest s p names
  rw [linkStation_eq, hf, ruuInstallOdep_rest (Core.ruuInstallOdep _ _ _ _),
    ruuInstallOdep_rest { s with station := f }]
  cases hmode : s.specMode
  · simp [installs]
  · simp only [installs, Bool.true_and, if_true]
    congr 1
    funext n
    rw [Bool.or_assoc, ← Bool.decide_or]
    congr 2
    grind

end Core

end AdvancedArchitecture.Outorder
