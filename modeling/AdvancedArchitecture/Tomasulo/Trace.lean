import Mathlib.Data.Int.Notation
import Mathlib.Data.List.Basic
import Mathlib.Tactic.SplitIfs

/-!
# Instructions and traces

The input of the Tomasulo simulator: the operation and register enumerations of
`tomasulo.h`, the lines of `inst.trace` as `read_inst` scans them, and the parsed
instruction. Each parsed instruction carries the facts `read_inst` establishes about it (an
operation other than `NOP`, registers other than `NO_REG`), and a `Trace` carries the bound
`MAX_INST_NUM`, so that every value of type `Trace` is one `read_inst` can produce
(`readInst_surjective`) and a statement about all traces is one about all inputs.

`read_inst` does not reject anything. An operation name it does not know is a `DIV` and a
register name it does not know is `F14`; `parseType` and `reg_to_reg_tag` are written as the
chains of comparisons they are, with the last alternative for everything else.
-/

namespace AdvancedArchitecture.Tomasulo

/-- `INST_OP`. -/
inductive InstOp
  | nop | lw | sw | mul | sub | div | add
  deriving DecidableEq, Repr

/-- `DATA_REG_TAG`. -/
inductive DataRegTag
  | f0 | f2 | f4 | f6 | f8 | f10 | f12 | f14 | noReg
  deriving DecidableEq, Repr

/-- The sentinel `VALUE_EMPTY`. -/
def valueEmpty : ℤ := -1

/-- `MAX_INST_NUM`, which is also the literal bound of the loop of `read_inst`. -/
def maxInstNum : ℕ := 15

/-- `LW` and `SW`, which `read_inst` scans with an offset and a base register. -/
def InstOp.isMem : InstOp → Bool
  | .lw | .sw => true
  | _ => false

/-- The fields of `INST_REG` that `read_inst` fills. The strings `dest`, `src_1` and `src_2`
are only printed and have no counterpart here. -/
structure Instr where
  type : InstOp
  destTag : DataRegTag
  src1Tag : DataRegTag
  src2Tag : DataRegTag
  offset : ℤ
  deriving DecidableEq, Repr

/-- What `read_inst` establishes: an operation, a destination and a first source always; a
second source exactly for the three-register operations, and an offset only for the others.
(`src_2_tag` of an `LW` or `SW` is never written and never read; `NO_REG` stands for it.) -/
structure Instr.WellFormed (i : Instr) : Prop where
  type_ne : i.type ≠ .nop
  dest_ne : i.destTag ≠ .noReg
  src1_ne : i.src1Tag ≠ .noReg
  src2_iff : i.src2Tag = .noReg ↔ i.type.isMem = true
  offset_eq : i.type.isMem = false → i.offset = valueEmpty

instance (i : Instr) : Decidable i.WellFormed :=
  decidable_of_iff (i.type ≠ .nop ∧ i.destTag ≠ .noReg ∧ i.src1Tag ≠ .noReg ∧
      (i.src2Tag = .noReg ↔ i.type.isMem = true) ∧
      (i.type.isMem = false → i.offset = valueEmpty))
    ⟨fun ⟨h1, h2, h3, h4, h5⟩ => ⟨h1, h2, h3, h4, h5⟩,
      fun ⟨h1, h2, h3, h4, h5⟩ => ⟨h1, h2, h3, h4, h5⟩⟩

/-- A trace the simulator can run: at most `MAX_INST_NUM` well-formed instructions. -/
structure Trace where
  insts : List Instr
  length_le : insts.length ≤ maxInstNum
  wellFormed : ∀ i ∈ insts, i.WellFormed

/-! ### Reading a trace -/

/-- One line of the trace file, as the tokens `read_inst` scans: for `LW` and `SW` an offset
and the base register between the parentheses (`source1`), otherwise two sources. -/
structure TraceLine where
  type : String
  dest : String
  offset : ℤ
  source1 : String
  source2 : String

/-- `reg_to_reg_tag`: every name that is not one of the first seven is `F14`. -/
def regToRegTag (input : String) : DataRegTag :=
  if input = "F0" then .f0
  else if input = "F2" then .f2
  else if input = "F4" then .f4
  else if input = "F6" then .f6
  else if input = "F8" then .f8
  else if input = "F10" then .f10
  else if input = "F12" then .f12
  else .f14

/-- The comparison chain of `read_inst`: every other operation name is `DIV`. -/
def parseType (type : String) : InstOp :=
  if type = "LW" then .lw
  else if type = "SW" then .sw
  else if type = "MUL" then .mul
  else if type = "ADD" then .add
  else if type = "SUB" then .sub
  else .div

/-- One iteration of the loop of `read_inst`. -/
def parseLine (l : TraceLine) : Instr :=
  if l.type = "LW" ∨ l.type = "SW" then
    { type := parseType l.type, destTag := regToRegTag l.dest, offset := l.offset
      src1Tag := regToRegTag l.source1, src2Tag := .noReg }
  else
    { type := parseType l.type, destTag := regToRegTag l.dest, offset := valueEmpty
      src1Tag := regToRegTag l.source1, src2Tag := regToRegTag l.source2 }

/-- `reg_to_reg_tag` never answers `NO_REG`: a string that names no register is read as `F14`. -/
theorem regToRegTag_ne_noReg (s : String) : regToRegTag s ≠ .noReg := by
  rw [regToRegTag]
  split_ifs <;> simp

/-- What `read_inst` makes of a line is well formed, whatever its strings are. -/
theorem parseLine_wellFormed (l : TraceLine) : (parseLine l).WellFormed := by
  have htype : parseType l.type ≠ .nop := by
    rw [parseType]
    split_ifs <;> simp
  by_cases hmem : l.type = "LW" ∨ l.type = "SW"
  · have hm : (parseType l.type).isMem = true := by
      rcases hmem with h | h <;> simp [parseType, h, InstOp.isMem]
    rw [parseLine, if_pos hmem]
    exact ⟨htype, regToRegTag_ne_noReg _, regToRegTag_ne_noReg _, by simp [hm], by simp [hm]⟩
  · have hm : (parseType l.type).isMem = false := by
      obtain ⟨h1, h2⟩ := not_or.mp hmem
      rw [parseType]
      split_ifs <;> rfl
    rw [parseLine, if_neg hmem]
    exact ⟨htype, regToRegTag_ne_noReg _, regToRegTag_ne_noReg _,
      by simp [hm, regToRegTag_ne_noReg], fun _ => rfl⟩

/-- `read_inst`: the first `MAX_INST_NUM` lines, parsed. -/
def readInst (lines : List TraceLine) : Trace where
  insts := (lines.take maxInstNum).map parseLine
  length_le := by simp only [List.length_map, List.length_take]; omega
  wellFormed := by
    intro i hi
    obtain ⟨l, -, rfl⟩ := List.mem_map.mp hi
    exact parseLine_wellFormed l

/-- A name `reg_to_reg_tag` maps to each register. -/
def DataRegTag.name : DataRegTag → String
  | .f0 => "F0" | .f2 => "F2" | .f4 => "F4" | .f6 => "F6"
  | .f8 => "F8" | .f10 => "F10" | .f12 => "F12" | .f14 | .noReg => "F14"

/-- A name the comparison chain maps to each operation. -/
def InstOp.name : InstOp → String
  | .lw => "LW" | .sw => "SW" | .mul => "MUL" | .add => "ADD" | .sub => "SUB"
  | .div | .nop => "DIV"

/-- A register is read back from its name. -/
theorem regToRegTag_name {t : DataRegTag} (h : t ≠ .noReg) : regToRegTag t.name = t := by
  cases t <;> first | rfl | exact absurd rfl h

/-- An operation is read back from its name; `DIV` is what the comparisons leave. -/
theorem parseType_name {op : InstOp} (h : op ≠ .nop) : parseType op.name = op := by
  cases op <;> first | rfl | exact absurd rfl h

/-- Every well-formed instruction is the parse of some line. -/
theorem exists_parseLine {i : Instr} (h : i.WellFormed) : ∃ l, parseLine l = i := by
  obtain ⟨type, dest, src1, src2, offset⟩ := i
  obtain ⟨htype, hdest, hsrc1, hsrc2, hoff⟩ := h
  simp only at htype hdest hsrc1 hsrc2 hoff
  have hname : (type.name = "LW" ∨ type.name = "SW") ↔ type.isMem = true := by
    cases type <;> simp [InstOp.name, InstOp.isMem]
  refine ⟨⟨type.name, dest.name, offset, src1.name, src2.name⟩, ?_⟩
  by_cases hmem : type.isMem = true
  · rw [parseLine, if_pos (hname.mpr hmem), parseType_name htype, regToRegTag_name hdest,
      regToRegTag_name hsrc1, ← hsrc2.mpr hmem]
  · rw [parseLine, if_neg (mt hname.mp hmem), parseType_name htype, regToRegTag_name hdest,
      regToRegTag_name hsrc1, regToRegTag_name (mt hsrc2.mp hmem),
      ← hoff (by simpa using hmem)]

/-- **The traces are exactly what `read_inst` produces.** -/
theorem readInst_surjective (P : Trace) : ∃ lines, (readInst lines).insts = P.insts := by
  have hall : ∀ l : List Instr, (∀ i ∈ l, i.WellFormed) →
      ∃ lines : List TraceLine, lines.map parseLine = l := by
    intro l
    induction l with
    | nil => exact fun _ => ⟨[], rfl⟩
    | cons i l ih =>
      intro hwf
      obtain ⟨line, hline⟩ := exists_parseLine (hwf i (by simp))
      obtain ⟨lines, hlines⟩ := ih fun j hj => hwf j (by simp [hj])
      exact ⟨line :: lines, by rw [List.map_cons, hline, hlines]⟩
  obtain ⟨lines, hlines⟩ := hall P.insts P.wellFormed
  refine ⟨lines, ?_⟩
  have hlen : lines.length ≤ maxInstNum := by
    rw [← List.length_map (f := parseLine), hlines]
    exact P.length_le
  change (lines.take maxInstNum).map parseLine = P.insts
  rw [List.take_of_length_le hlen, hlines]

end AdvancedArchitecture.Tomasulo
