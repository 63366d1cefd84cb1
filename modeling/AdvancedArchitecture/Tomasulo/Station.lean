import AdvancedArchitecture.Tomasulo.Pipeline

/-!
# A uniform view of the stations

The simulator keeps four station arrays of two record types. Here a `Slot` names one of the
twelve stations, `Machine.entry` reads what the phases look at in it, and
`Machine.modifyRs` rewrites it. Each loop of the simulator is restated as a fold along
`slots` of one operation on a slot, and each operation is described by the entries it
leaves; nothing later looks inside a station array.

There are two kinds of loop. The decrement and the start tests treat each station by itself,
and a lemma such as `entry_start` says what becomes of every entry at once. Write-back,
completion and the dependency pass see what the rounds before them did, and become folds
(`writeback_eq_foldl`, `complete_eq_foldl`, `depend_eq_foldl`), in the order of the four
loops: load stations, store stations, add/sub stations, mul/div stations.
-/

namespace AdvancedArchitecture.Tomasulo

/-! ### Register tables -/

/-- The register numbers in `fp_reg`. -/
theorem findRegIndex_ne_valueEmpty {t : DataRegTag} (h : t ≠ .noReg) :
    findRegIndex t ≠ valueEmpty := by
  cases t <;> first | exact absurd rfl h | decide

/-- Distinct register tags have distinct indices; `NO_REG` has `VALUE_EMPTY`. -/
theorem findRegIndex_injective : Function.Injective findRegIndex := by
  intro s t h
  cases s <;> cases t <;> first | rfl | exact absurd h (by decide)

/-- A write to one register is not seen in another. The register written has to exist: for `NO_REG`
the write goes nowhere. -/
theorem readReg_writeReg {reg : Table DataReg numReg} {s t : DataRegTag} {r : DataReg}
    (hs : s ≠ .noReg) :
    readReg (writeReg reg (findRegIndex s) r) (findRegIndex t) =
      if t = s then r else readReg reg (findRegIndex t) := by
  have hidx : findRegIndex s ≠ valueEmpty := findRegIndex_ne_valueEmpty hs
  by_cases hts : t = s
  · subst hts
    have hlt : (findRegIndex t).toNat < numReg := by
      cases t <;> first | exact absurd rfl hs | decide
    rw [if_pos rfl, readReg, if_neg hidx, writeReg, if_neg hidx, Table.get_set_self _ hlt]
  · rw [if_neg hts]
    by_cases htn : findRegIndex t = valueEmpty
    · rw [readReg, readReg, if_pos htn, if_pos htn]
    · have hne : (findRegIndex t).toNat ≠ (findRegIndex s).toNat := by
        cases s <;> cases t <;>
          first | exact absurd rfl hts | exact absurd rfl hs | exact absurd rfl htn | decide
      rw [readReg, readReg, if_neg htn, if_neg htn, writeReg, if_neg hidx,
        Table.get_set_ne _ hne]

/-! ### Slots and entries -/

/-- A station array and an index in it. -/
abbrev Slot := RsClass × ℕ

/-- The stations in the order of the loops. -/
def slots : List Slot :=
  [(.load, 0), (.load, 1), (.load, 2), (.store, 0), (.store, 1), (.store, 2),
    (.addSub, 0), (.addSub, 1), (.addSub, 2), (.mulDiv, 0), (.mulDiv, 1), (.mulDiv, 2)]

/-- `slots` lists the three stations of each of the four arrays. -/
theorem mem_slots {s : Slot} : s ∈ slots ↔ s.2 < stationsPerClass := by
  obtain ⟨c, i⟩ := s
  constructor
  · intro h
    simp only [slots, List.mem_cons, Prod.mk.injEq, List.not_mem_nil, or_false] at h
    simp only [stationsPerClass]
    omega
  · intro h
    have hi : i = 0 ∨ i = 1 ∨ i = 2 := by
      simp only [stationsPerClass] at h
      omega
    rcases hi with rfl | rfl | rfl <;> cases c <;> simp [slots]

theorem slots_nodup : slots.Nodup := by decide

/-- What the phases read in a station. A load or store station has no operands. -/
structure Entry where
  state : RsState
  instPtr : Option ℕ
  op : InstOp
  destTag : DataRegTag
  vj : ℤ
  vk : ℤ
  qj : ℤ
  qk : ℤ
  cycleLast : ℤ

/-- An `RS_LS` as an entry. -/
def RsLs.toEntry (rs : RsLs) : Entry where
  state := rs.state
  instPtr := rs.instPtr
  op := rs.op
  destTag := rs.destTag
  vj := valueEmpty
  vk := valueEmpty
  qj := valueEmpty
  qk := valueEmpty
  cycleLast := rs.cycleLast

/-- An `RS` as an entry. -/
def RS.toEntry (rs : RS) : Entry where
  state := rs.state
  instPtr := rs.instPtr
  op := rs.op
  destTag := rs.destTag
  vj := rs.vj
  vk := rs.vk
  qj := rs.qj
  qk := rs.qk
  cycleLast := rs.cycleLast

/-- The unused entry. -/
def Entry.unused : Entry := resetRs.toEntry

/-- Change the state of a station. -/
def RsLs.setState (st : RsState) (rs : RsLs) : RsLs := { rs with state := st }

/-- Change the state of a station. -/
def RS.setState (st : RsState) (rs : RS) : RS := { rs with state := st }

/-- Change the state of an entry. -/
def Entry.setState (st : RsState) (e : Entry) : Entry := { e with state := st }

namespace Machine

/-- The entry at a slot. -/
def entry (m : Machine) : Slot → Entry
  | (.load, i) => (m.rsLoad.get i).toEntry
  | (.store, i) => (m.rsStore.get i).toEntry
  | (.addSub, i) => (m.rsAddSub.get i).toEntry
  | (.mulDiv, i) => (m.rsMulDiv.get i).toEntry

/-- The instruction at a slot. -/
def ptr (m : Machine) (s : Slot) : Option ℕ := (m.entry s).instPtr

/-- Rewrite the station at a slot, by `f` or by `g` according to its record type. -/
def modifyRs (m : Machine) (s : Slot) (f : RsLs → RsLs) (g : RS → RS) : Machine :=
  match s with
  | (.load, i) => { m with rsLoad := m.rsLoad.set i (f (m.rsLoad.get i)) }
  | (.store, i) => { m with rsStore := m.rsStore.set i (f (m.rsStore.get i)) }
  | (.addSub, i) => { m with rsAddSub := m.rsAddSub.set i (g (m.rsAddSub.get i)) }
  | (.mulDiv, i) => { m with rsMulDiv := m.rsMulDiv.set i (g (m.rsMulDiv.get i)) }

/-- Replace the instruction array. -/
def withInst (m : Machine) (inst : Table InstReg maxInstNum) : Machine :=
  { m with inst := inst }

/-- Replace the registers. -/
def withReg (m : Machine) (reg : Table DataReg numReg) : Machine :=
  { m with fpReg := reg }

/-- The stations do not depend on the instruction records. -/
theorem entry_withInst (m : Machine) (inst : Table InstReg maxInstNum) :
    (m.withInst inst).entry = m.entry := by
  funext ⟨c, i⟩
  cases c <;> rfl

theorem entry_withReg (m : Machine) (reg : Table DataReg numReg) :
    (m.withReg reg).entry = m.entry := by
  funext ⟨c, i⟩
  cases c <;> rfl

/-- Everything but the stations is equal. -/
structure SameCore (m m' : Machine) : Prop where
  instCount : m'.instCount = m.instCount
  cycleCounter : m'.cycleCounter = m.cycleCounter
  programCounter : m'.programCounter = m.programCounter
  commitCount : m'.commitCount = m.commitCount
  inst : m'.inst = m.inst
  fpReg : m'.fpReg = m.fpReg

/-- Rewriting a station leaves everything outside the station arrays as it is. -/
theorem sameCore_modifyRs (m : Machine) (s : Slot) (f : RsLs → RsLs) (g : RS → RS) :
    m.SameCore (m.modifyRs s f g) := by
  obtain ⟨c, i⟩ := s
  cases c <;> exact ⟨rfl, rfl, rfl, rfl, rfl, rfl⟩

/-- **Rewriting a station.** When the rewriting of its record type is the function `h` of the
entry, the slot holds the rewritten entry and the other slots are unchanged. -/
theorem entry_modifyRs {m : Machine} {s : Slot} (hs : s.2 < stationsPerClass)
    {f : RsLs → RsLs} {g : RS → RS} {h : Entry → Entry}
    (hf : s.1 = .load ∨ s.1 = .store → ∀ rs, (f rs).toEntry = h rs.toEntry)
    (hg : s.1 = .addSub ∨ s.1 = .mulDiv → ∀ rs, (g rs).toEntry = h rs.toEntry)
    (s' : Slot) :
    (m.modifyRs s f g).entry s' = if s' = s then h (m.entry s) else m.entry s' := by
  obtain ⟨c, i⟩ := s
  obtain ⟨c', i'⟩ := s'
  by_cases hc : c' = c
  · subst hc
    by_cases hi : i' = i
    · subst hi
      rw [if_pos rfl]
      cases c' <;> simp only [entry, modifyRs]
      · rw [Table.get_set_self _ (show i' < numLoadRs from hs), hf (.inl rfl)]
      · rw [Table.get_set_self _ (show i' < numStoreRs from hs), hf (.inr rfl)]
      · rw [Table.get_set_self _ (show i' < numAddSubRs from hs), hg (.inl rfl)]
      · rw [Table.get_set_self _ (show i' < numMulDivRs from hs), hg (.inr rfl)]
    · rw [if_neg fun he => hi (congrArg Prod.snd he)]
      cases c' <;> simp only [entry, modifyRs] <;> rw [Table.get_set_ne _ hi]
  · rw [if_neg fun he => hc (congrArg Prod.fst he)]
    cases c <;> cases c' <;> first | exact absurd rfl hc | rfl

end Machine

/-! ### The pointwise loops -/

/-- A loop that rewrites each entry from itself leaves an initial entry alone, so that it is
the pointwise map at every index. -/
theorem Table.get_mapRange_of_default {α : Type} {n : ℕ} [Inhabited α] {f : α → α}
    (hf : f default = default) (t : Table α n) (k : ℕ) :
    (t.mapRange f).get k = f (t.get k) := by
  by_cases hk : k < n
  · exact Table.get_mapRange f t hk
  · rw [Table.get_of_le _ (by omega), Table.get_of_le _ (by omega), hf]

/-- The decrement of an entry. -/
def Entry.tick (e : Entry) : Entry :=
  if e.state = .exec then { e with cycleLast := e.cycleLast - 1 } else e

theorem RsLs.toEntry_tick (rs : RsLs) : rs.tick.toEntry = rs.toEntry.tick := by
  unfold RsLs.tick Entry.tick RsLs.toEntry
  by_cases h : rs.state = .exec <;> simp [h]

theorem RS.toEntry_tick (rs : RS) : rs.tick.toEntry = rs.toEntry.tick := by
  unfold RS.tick Entry.tick RS.toEntry
  by_cases h : rs.state = .exec <;> simp [h]

/-- The first loop of the body takes one cycle off each station that executes. -/
theorem entry_decrement (m : Machine) (s : Slot) :
    (decrement m).entry s = (m.entry s).tick := by
  obtain ⟨c, i⟩ := s
  cases c <;> simp only [Machine.entry, decrement]
  · rw [Table.get_mapRange_of_default rfl, RsLs.toEntry_tick]
  · rw [Table.get_mapRange_of_default rfl, RsLs.toEntry_tick]
  · rw [Table.get_mapRange_of_default rfl, RS.toEntry_tick]
  · rw [Table.get_mapRange_of_default rfl, RS.toEntry_tick]

/-- The test that lets a station enter `exec`. -/
def Entry.CanStart (m : Machine) (c : RsClass) (e : Entry) : Prop :=
  e.instPtr ≠ none ∧ e.state = .issued ∧ e.qj = valueEmpty ∧ e.qk = valueEmpty ∧
    if c = .store then (readReg m.fpReg (findRegIndex e.destTag)).waiting = false
    else allowExec m e.instPtr e.destTag = true

instance (m : Machine) (c : RsClass) (e : Entry) : Decidable (e.CanStart m c) := by
  unfold Entry.CanStart; infer_instance

/-- The start test applied to an entry. -/
def Entry.start (m : Machine) (c : RsClass) (e : Entry) : Entry :=
  if e.CanStart m c then e.setState .exec else e

/-- The start test of a load station, as a map on its entry. -/
theorem startLoad_toEntry (m : Machine) (rs : RsLs) :
    (startLoad m rs).toEntry = rs.toEntry.start m .load := by
  unfold startLoad Entry.start Entry.CanStart RsLs.toEntry
  simp only [true_and, reduceCtorEq, if_false]
  split_ifs <;> rfl

theorem startStore_toEntry (m : Machine) (rs : RsLs) :
    (startStore m rs).toEntry = rs.toEntry.start m .store := by
  unfold startStore Entry.start Entry.CanStart RsLs.toEntry
  simp only [true_and, if_true]
  split_ifs <;> rfl

/-- The start test of an arithmetic station, the same for both arrays. -/
theorem startRs_toEntry (m : Machine) {c : RsClass} (hc : c ≠ .store) (rs : RS) :
    (startRs m rs).toEntry = rs.toEntry.start m c := by
  unfold startRs Entry.start Entry.CanStart RS.toEntry
  simp only [hc, if_false]
  split_ifs <;> rfl

/-- The start tests treat each station on its own: no test sees what another one has started. -/
theorem entry_start (m : Machine) (s : Slot) :
    (start m).entry s = (m.entry s).start m s.1 := by
  have hls : ∀ f : RsLs → RsLs, f = startLoad m ∨ f = startStore m → f default = default := by
    rintro f (rfl | rfl) <;> exact if_neg fun h => h.1 rfl
  have hrs : startRs m default = default := if_neg fun h => h.1 rfl
  obtain ⟨c, i⟩ := s
  cases c <;> simp only [Machine.entry, Tomasulo.start]
  · rw [Table.get_mapRange_of_default (hls _ (.inl rfl)), startLoad_toEntry]
  · rw [Table.get_mapRange_of_default (hls _ (.inr rfl)), startStore_toEntry]
  · rw [Table.get_mapRange_of_default hrs, startRs_toEntry m (by decide : RsClass.addSub ≠ _)]
  · rw [Table.get_mapRange_of_default hrs, startRs_toEntry m (by decide : RsClass.mulDiv ≠ _)]

/-! ### The loops along the stations -/

/-- The completion loops at a slot. -/
def completeSlot (m : Machine) : Slot → Machine
  | (.load, i) => completeLoad m i
  | (.store, i) => completeStore m i
  | (.addSub, i) => completeAddSub m i
  | (.mulDiv, i) => completeMulDiv m i

/-- The loops of `writeback` at a slot. -/
def writebackSlot (m : Machine) : Slot → Machine
  | (.load, i) => writebackLoad m i
  | (.store, i) => writebackStore m i
  | (.addSub, i) => writebackAddSub m i
  | (.mulDiv, i) => writebackMulDiv m i

/-- The dependency loops at a slot. -/
def dependSlot (m : Machine) : Slot → Machine
  | (.load, i) => dependLoad m i
  | (.store, i) => dependStore m i
  | (.addSub, i) => dependAddSub m i
  | (.mulDiv, i) => dependMulDiv m i

theorem forRange_three {σ : Type} (body : σ → ℕ → σ) (s : σ) :
    forRange 3 body s = body (body (body s 0) 1) 2 := rfl

/-- The four loops that end execution are one loop along the stations, load stations first. -/
theorem complete_eq_foldl (m : Machine) : complete m = slots.foldl completeSlot m := by
  simp only [complete, slots, numLoadRs, numStoreRs, numAddSubRs, numMulDivRs, forRange_three,
    List.foldl_cons, List.foldl_nil, completeSlot]

/-- So are the four write-back loops; the order of `slots` is the order of the loops. -/
theorem writeback_eq_foldl (m : Machine) : writeback m = slots.foldl writebackSlot m := by
  simp only [writeback, slots, numLoadRs, numStoreRs, numAddSubRs, numMulDivRs, forRange_three,
    List.foldl_cons, List.foldl_nil, writebackSlot]

/-- So are the four loops of the dependency pass. -/
theorem depend_eq_foldl (m : Machine) : depend m = slots.foldl dependSlot m := by
  simp only [depend, slots, numLoadRs, numStoreRs, numAddSubRs, numMulDivRs, forRange_three,
    List.foldl_cons, List.foldl_nil, dependSlot]

/-- A station in `exec` with no cycle left is done, and its instruction records the cycle. -/
theorem completeSlot_eq (m : Machine) (s : Slot) :
    completeSlot m s =
      if (m.entry s).cycleLast = 0 ∧ (m.entry s).state = .exec then
        (m.modifyRs s (.setState .done) (.setState .done)).withInst (setExecute m (m.ptr s))
      else m := by
  obtain ⟨c, i⟩ := s
  cases c <;> rfl

/-- The station that `update_RS` leaves. -/
def Entry.receive (regIndex : ℤ) (e : Entry) : Entry :=
  if e.state = .issued then
    { e with
      vj := if e.qj = regIndex then regIndex else e.vj
      qj := if e.qj = regIndex then valueEmpty else e.qj
      vk := if e.qk = regIndex then regIndex else e.vk
      qk := if e.qk = regIndex then valueEmpty else e.qk }
  else e

/-- `update_RS` on one arithmetic station moves the tags that match to the values. -/
theorem RS.toEntry_updateRsEntry (regIndex : ℤ) (rs : RS) :
    (updateRsEntry regIndex rs).toEntry = rs.toEntry.receive regIndex := by
  unfold updateRsEntry Entry.receive RS.toEntry
  by_cases hst : rs.state = .issued
  · by_cases hj : rs.qj = regIndex <;> by_cases hk : rs.qk = regIndex <;> simp [hst, hj, hk]
  · simp [hst]

/-- A broadcast does not concern a load or store station, whose tags are `VALUE_EMPTY`. -/
theorem RsLs.receive_toEntry {regIndex : ℤ} (h : regIndex ≠ valueEmpty) (rs : RsLs) :
    rs.toEntry.receive regIndex = rs.toEntry := by
  have hne : valueEmpty ≠ regIndex := Ne.symm h
  simp [Entry.receive, RsLs.toEntry, hne]

/-- A broadcast reaches every station, each on its own. -/
theorem entry_updateRs {regIndex : ℤ} (h : regIndex ≠ valueEmpty) (m : Machine) (s : Slot) :
    (updateRs m regIndex).entry s = (m.entry s).receive regIndex := by
  have hd : updateRsEntry regIndex default = default := by
    simp [updateRsEntry, show (default : RS) = resetRs from rfl, resetRs]
  obtain ⟨c, i⟩ := s
  cases c <;> simp only [Machine.entry, updateRs]
  · rw [RsLs.receive_toEntry h]
  · rw [RsLs.receive_toEntry h]
  · rw [Table.get_mapRange_of_default hd, RS.toEntry_updateRsEntry]
  · rw [Table.get_mapRange_of_default hd, RS.toEntry_updateRsEntry]

/-- A station that is done records the write-back, broadcasts its register unless it is a store
station, is reset, and takes down the flag of its register. -/
theorem writebackSlot_eq (m : Machine) (s : Slot) :
    writebackSlot m s =
      if (m.entry s).state = .done then
        clearReg
          ((if s.1 = .store then m.withInst (setWriteback m (m.ptr s))
            else broadcast m (m.ptr s) (findRegIndex (m.entry s).destTag)).modifyRs s
              (fun _ => resetRsLs) (fun _ => resetRs))
          (findRegIndex (m.entry s).destTag)
      else m := by
  obtain ⟨c, i⟩ := s
  cases c <;> rfl

theorem dependSlot_eq (m : Machine) (s : Slot) :
    dependSlot m s =
      if (m.entry s).state = .exec ∨ (m.entry s).state = .issued ∧ s.1 ≠ .load then
        if s.1 = .store then
          m.withReg (writeReg m.fpReg (findRegIndex (m.entry s).destTag)
            { readReg m.fpReg (findRegIndex (m.entry s).destTag) with
              valid := true, instPtr := m.ptr s })
        else markReg m (m.entry s).destTag (m.ptr s)
      else m := by
  obtain ⟨c, i⟩ := s
  cases c <;> simp only [dependSlot, dependLoad, dependStore, dependAddSub, dependMulDiv,
    Machine.entry, Machine.ptr, ne_eq, not_true_eq_false, and_false, or_false, reduceCtorEq,
    not_false_eq_true, and_true, if_true, if_false]
  · rfl
  all_goals
    refine if_congr or_comm ?_ rfl
    rfl

end AdvancedArchitecture.Tomasulo
