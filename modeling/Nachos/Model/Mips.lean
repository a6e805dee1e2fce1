import Nachos.Model.Machine

/-! # The instruction set

Decoding and execution of one user instruction, as in `mipssim.cc`. Sums, differences and
shifts of registers wrap. -/

namespace Nachos

abbrev HiReg : Fin NumTotalRegs := 32

abbrev LoReg : Fin NumTotalRegs := 33

abbrev PrevPCReg : Fin NumTotalRegs := 36

abbrev R31 : Fin NumGPRegs := 31

/-- The opcodes that the tables contain. -/
inductive OpCode where
  | add | addi | addiu | addu | and | andi
  | beq | bgez | bgezal | bgtz | blez | bltz | bltzal | bne
  | div | divu | j | jal | jalr | jr
  | lb | lbu | lh | lhu | lui | lw | lwl | lwr
  | mfhi | mflo | mthi | mtlo | mult | multu | nor | or | ori
  | sb | sh | sll | sllv | slt | slti | sltiu | sltu | sra | srav | srl | srlv | sub | subu
  | sw | swl | swr | xor | xori | syscall | unimp | res
  deriving DecidableEq, Repr

inductive Format where
  | ifmt
  | jfmt
  | rfmt
  deriving DecidableEq, Repr

/-- What bits 31 to 26 stand for. -/
inductive Major where
  | op (o : OpCode)
  | special
  | bcond
  deriving DecidableEq, Repr

def opTable : List (Major × Format) :=
  ([(.special, .rfmt), (.bcond, .ifmt), (.op .j, .jfmt), (.op .jal, .jfmt),
    (.op .beq, .ifmt), (.op .bne, .ifmt), (.op .blez, .ifmt), (.op .bgtz, .ifmt),
    (.op .addi, .ifmt), (.op .addiu, .ifmt), (.op .slti, .ifmt), (.op .sltiu, .ifmt),
    (.op .andi, .ifmt), (.op .ori, .ifmt), (.op .xori, .ifmt), (.op .lui, .ifmt)] :
      List (Major × Format)) ++
  List.replicate 4 (Major.op .unimp, Format.ifmt) ++
  List.replicate 12 (Major.op .res, Format.ifmt) ++
  ([(.op .lb, .ifmt), (.op .lh, .ifmt), (.op .lwl, .ifmt), (.op .lw, .ifmt),
    (.op .lbu, .ifmt), (.op .lhu, .ifmt), (.op .lwr, .ifmt), (.op .res, .ifmt),
    (.op .sb, .ifmt), (.op .sh, .ifmt), (.op .swl, .ifmt), (.op .sw, .ifmt),
    (.op .res, .ifmt), (.op .res, .ifmt), (.op .swr, .ifmt), (.op .res, .ifmt)] :
      List (Major × Format)) ++
  List.replicate 4 (Major.op .unimp, Format.ifmt) ++
  List.replicate 4 (Major.op .res, Format.ifmt) ++
  List.replicate 4 (Major.op .unimp, Format.ifmt) ++
  List.replicate 4 (Major.op .res, Format.ifmt)

def specialTable : List OpCode :=
  ([.sll, .res, .srl, .sra, .sllv, .res, .srlv, .srav,
    .jr, .jalr, .res, .res, .syscall, .unimp, .res, .res,
    .mfhi, .mthi, .mflo, .mtlo, .res, .res, .res, .res,
    .mult, .multu, .div, .divu, .res, .res, .res, .res,
    .add, .addu, .sub, .subu, .and, .or, .xor, .nor,
    .res, .res, .slt, .sltu, .res, .res, .res, .res] : List OpCode) ++ List.replicate 16 .res

structure Instruction where
  opCode : OpCode
  rs : Fin NumGPRegs
  rt : Fin NumGPRegs
  rd : Fin NumGPRegs
  extra : Word
  deriving DecidableEq, Repr

namespace Instruction

/-- Five bits of an instruction. -/
def field (value : Word) (low : ℕ) : Fin NumGPRegs := (value.extractLsb' low 5).toFin

def bcondTable (value : Word) : OpCode :=
  if value &&& 0x1f0000 = 0 then .bltz
  else if value &&& 0x1f0000 = 0x10000 then .bgez
  else if value &&& 0x1f0000 = 0x100000 then .bltzal
  else if value &&& 0x1f0000 = 0x110000 then .bgezal
  else .unimp

def decode (value : Word) : Instruction :=
  let opPtr := opTable.getD (value.extractLsb' 26 6).toNat (.op .res, .ifmt)
  { opCode := match opPtr.1 with
      | .op o => o
      | .special => specialTable.getD (value.extractLsb' 0 6).toNat .res
      | .bcond => bcondTable value
    rs := field value 21
    rt := field value 16
    rd := field value 11
    extra := match opPtr.2 with
      | .ifmt => (value.extractLsb' 0 16).signExtend 32
      | .rfmt => (value.extractLsb' 6 5).setWidth 32
      | .jfmt => value &&& 0x3ffffff }

end Instruction

/-! ## Multiplication -/

/-- The loop of `Mult`; `a` is shifted as a signed value. -/
def multLoop : ℕ → Word → Word → Word → Word → Word → Word × Word
  | 0, _, _, _, lo, hi => (hi, lo)
  | n + 1, a, bLo, bHi, lo, hi =>
      let next (lo hi : Word) : Word × Word :=
        multLoop n (a.sshiftRight 1) (bLo <<< 1)
          (if bLo &&& 0x80000000 ≠ 0 then bHi <<< 1 ||| 1 else bHi <<< 1) lo hi
      if a &&& 1 ≠ 0 then
        let lo := lo + bLo
        let hi := (if lo < bLo then hi + 1 else hi) + bHi
        if a &&& 0xfffffffe = 0 then (hi, lo) else next lo hi
      else next lo hi

/-- The values for `HiReg` and `LoReg`. -/
def mult (a b : Word) (signedArith : Bool) : Word × Word :=
  if a = 0 ∨ b = 0 then (0, 0)
  else
    let negA := signedArith && decide (a.toInt < 0)
    let negB := signedArith && decide (b.toInt < 0)
    let (hi, lo) := multLoop 32 (if negA then -a else a) (if negB then -b else b) 0 0 0
    if negA ≠ negB then (if ~~~lo + 1 = 0 then ~~~hi + 1 else ~~~hi, ~~~lo + 1) else (hi, lo)

/-! ## Execution -/

/-- What an instruction does, as far as the registers determine it. -/
inductive Operation where
  /-- registers are written one after the other, and `pcAfter` follows the delay slot -/
  | write (writes : List (Fin NumTotalRegs × Word)) (pcAfter : Word)
  | trap (which : ExceptionType) (badVAddr : Word)
  | load (addr : Word)
  | store (addr : Word) (size : ℤ) (value : Word)
  /-- `SWL` and `SWR` -/
  | storePart (addr : Word)
  | fault (f : Fault)

namespace Instruction

def gpr (r : Fin NumGPRegs) : Fin NumTotalRegs := Fin.castLE (by decide) r

/-- The bit `SIGN_BIT` is set. -/
def signBit (w : Word) : Bool := w.msb

/-- The switch of `OneInstruction`, up to the access to memory. `OR` has the operand `rs`
twice; `SRL` and `SRLV` shift a signed variable. -/
def operation (i : Instruction) (reg : Fin NumTotalRegs → Word) : Operation :=
  let rs := reg (gpr i.rs)
  let rt := reg (gpr i.rt)
  let next := reg NextPCReg
  let pcAfter := next + 4
  let branch (taken : Bool) : Word := if taken then next + i.extra <<< 2 else pcAfter
  let setRd (value : Word) : Operation := .write [(gpr i.rd, value)] pcAfter
  let setRt (value : Word) : Operation := .write [(gpr i.rt, value)] pcAfter
  -- the link register is written before the condition is tested
  let linked : Word := if i.rs = R31 then next + 4 else rs
  let tmp := rs + i.extra
  match i.opCode with
  | .add =>
      if !(signBit (rs ^^^ rt)) && signBit (rs ^^^ (rs + rt)) then .trap .overflowException 0
      else setRd (rs + rt)
  | .addi =>
      if !(signBit (rs ^^^ i.extra)) && signBit (i.extra ^^^ tmp) then .trap .overflowException 0
      else setRt tmp
  | .addiu => setRt tmp
  | .addu => setRd (rs + rt)
  | .and => setRd (rs &&& rt)
  | .andi => setRt (rs &&& (i.extra &&& 0xffff))
  | .beq => .write [] (branch (rs = rt))
  | .bgezal => .write [(gpr R31, next + 4)] (branch (!signBit linked))
  | .bgez => .write [] (branch (!signBit rs))
  | .bgtz => .write [] (branch (rs.toInt > 0))
  | .blez => .write [] (branch (rs.toInt ≤ 0))
  | .bltzal => .write [(gpr R31, next + 4)] (branch (signBit linked))
  | .bltz => .write [] (branch (signBit rs))
  | .bne => .write [] (branch (rs ≠ rt))
  | .div =>
      if rt = 0 then .write [(LoReg, 0), (HiReg, 0)] pcAfter
      -- INT_MIN / -1
      else if rs = 0x80000000 ∧ rt = 0xffffffff then .fault .overflow
      else .write [(LoReg, rs.sdiv rt), (HiReg, rs.srem rt)] pcAfter
  | .divu =>
      if rt = 0 then .write [(LoReg, 0), (HiReg, 0)] pcAfter
      else .write [(LoReg, rs / rt), (HiReg, rs % rt)] pcAfter
  | .jal => .write [(gpr R31, next + 4)] (pcAfter &&& 0xf0000000 ||| i.extra <<< 2)
  | .j => .write [] (pcAfter &&& 0xf0000000 ||| i.extra <<< 2)
  | .jalr => .write [(gpr i.rd, next + 4)] (if i.rs = i.rd then next + 4 else rs)
  | .jr => .write [] rs
  | .lb | .lbu => .load tmp
  | .lh | .lhu => if tmp &&& 1 ≠ 0 then .trap .addressErrorException tmp else .load tmp
  | .lui => setRt (i.extra <<< 16)
  | .lw => if tmp &&& 3 ≠ 0 then .trap .addressErrorException tmp else .load tmp
  | .lwl | .lwr => if tmp &&& 3 = 0 then .load tmp else .fault .assertion
  | .mfhi => setRd (reg HiReg)
  | .mflo => setRd (reg LoReg)
  | .mthi => .write [(HiReg, rs)] pcAfter
  | .mtlo => .write [(LoReg, rs)] pcAfter
  | .mult => .write [(HiReg, (mult rs rt true).1), (LoReg, (mult rs rt true).2)] pcAfter
  | .multu => .write [(HiReg, (mult rs rt false).1), (LoReg, (mult rs rt false).2)] pcAfter
  | .nor => setRd (~~~(rs ||| rt))
  | .or => setRd (rs ||| rs)
  | .ori => setRt (rs ||| (i.extra &&& 0xffff))
  | .sb => .store tmp 1 rt
  | .sh => .store tmp 2 rt
  | .sll => setRd (rt <<< i.extra.toNat)
  | .sllv => setRd (rt <<< (rs &&& 0x1f).toNat)
  | .slt => setRd (if rs.toInt < rt.toInt then 1 else 0)
  | .slti => setRt (if rs.toInt < i.extra.toInt then 1 else 0)
  | .sltiu => setRt (if rs.toNat < i.extra.toNat then 1 else 0)
  | .sltu => setRd (if rs.toNat < rt.toNat then 1 else 0)
  | .sra => setRd (rt.sshiftRight i.extra.toNat)
  | .srav => setRd (rt.sshiftRight (rs &&& 0x1f).toNat)
  | .srl => setRd (rt.sshiftRight i.extra.toNat)
  | .srlv => setRd (rt.sshiftRight (rs &&& 0x1f).toNat)
  | .sub =>
      if signBit (rs ^^^ rt) && signBit (rs ^^^ (rs - rt)) then .trap .overflowException 0
      else setRd (rs - rt)
  | .subu => setRd (rs - rt)
  | .sw => .store tmp 4 rt
  | .swl | .swr => if tmp &&& 3 = 0 then .storePart tmp else .fault .assertion
  | .syscall => .trap .syscallException 0
  | .xor => setRd (rs ^^^ rt)
  | .xori => setRt (rs ^^^ (i.extra &&& 0xffff))
  | .res | .unimp => .trap .illegalInstrException 0

/-- How many bytes a load reads. -/
def loadSize (i : Instruction) : ℤ :=
  match i.opCode with
  | .lb | .lbu => 1
  | .lh | .lhu => 2
  | _ => 4

/-- The value for the target of a load: `value` is what has been read, `old` what the target
holds. `LWL` and `LWR` are executed for aligned addresses only. -/
def loaded (i : Instruction) (value old : Word) : Word :=
  match i.opCode with
  | .lb => if value &&& 0x80 ≠ 0 then value ||| 0xffffff00 else value &&& 0xff
  | .lbu => value &&& 0xff
  | .lh => if value &&& 0x8000 ≠ 0 then value ||| 0xffff0000 else value &&& 0xffff
  | .lhu => value &&& 0xffff
  | .lwr => (old &&& 0xffffff00) ||| ((value.sshiftRight 24) &&& 0xff)
  | _ => value

/-- The word that `SWL` and `SWR` write, for an aligned address. -/
def merged (i : Instruction) (value rt : Word) : Word :=
  match i.opCode with
  | .swr => (value &&& 0xffffff) ||| (rt <<< 24)
  | _ => rt

end Instruction

/-- How the results of loads get into the registers. -/
structure LoadUnit where
  /-- what a register holds for `LWL` and `LWR` -/
  old : (Fin NumTotalRegs → Word) → Fin NumGPRegs → Word
  /-- the end of an instruction that loads the given value; R0 stays zero -/
  complete : Machine → Word → Word → Exec Machine

/-- Loads go through `LoadReg` and `LoadValueReg`. -/
def delayed : LoadUnit where
  old reg rt := if reg LoadReg = BitVec.ofNat 32 rt then reg LoadValueReg
    else reg (Instruction.gpr rt)
  complete m nextReg nextVal := m.delayedLoad nextReg nextVal

namespace Machine

/-- One register after the other. -/
def setRegisters (m : Machine) (writes : List (Fin NumTotalRegs × Word)) : Machine :=
  writes.foldl (fun m w => m.setRegister w.1 w.2) m

/-- The end of `OneInstruction`. -/
def retire (unit : LoadUnit) (m : Machine) (nextReg nextVal pcAfter : Word) : Exec Machine := do
  let m ← unit.complete m nextReg nextVal
  let m := m.setRegister PrevPCReg (m.registers PCReg)
  let m := m.setRegister PCReg (m.registers NextPCReg)
  return m.setRegister NextPCReg pcAfter

/-- How `OneInstruction` returns: at its end, or before. -/
inductive Ending where
  | completed
  | stopped (control : Control)
  deriving DecidableEq, Repr

def Ending.control : Ending → Control
  | .completed => .resume
  | .stopped control => control

/-- The instruction `i`, after it has been fetched, under any exception handler. `uninit` is
what `physicalAddress` holds in the calls of `ReadMem` and `WriteMem`. -/
def executeTo (handler : Handler) (unit : LoadUnit) (uninit : ℕ → ℤ) (i : Instruction)
    (m : Machine) : Exec (Ending × Machine) :=
  let pcAfter := m.registers NextPCReg + 4
  match i.operation m.registers with
  | .write writes pcAfter => do
      return (.completed, ← (m.setRegisters writes).retire unit 0 0 pcAfter)
  | .trap which badVAddr => do
      let (control, m) ← m.raiseTo handler which badVAddr
      return (.stopped control, m)
  | .load addr => do
      match ← m.readMemTo handler addr i.loadSize (uninit 1) with
      | (none, m) => return (.stopped .resume, m)
      | (some value, m) =>
          return (.completed, ← m.retire unit (BitVec.ofNat 32 i.rt)
            (i.loaded value (unit.old m.registers i.rt)) pcAfter)
  | .store addr size value => do
      match ← m.writeMemTo handler addr size value (uninit 1) with
      | (false, m) => return (.stopped .resume, m)
      | (true, m) => return (.completed, ← m.retire unit 0 0 pcAfter)
  | .storePart addr => do
      match ← m.readMemTo handler addr 4 (uninit 1) with
      | (none, m) => return (.stopped .resume, m)
      | (some value, m) => do
          match ← m.writeMemTo handler addr 4
            (i.merged value (m.registers (Instruction.gpr i.rt))) (uninit 2) with
          | (false, m) => return (.stopped .resume, m)
          | (true, m) => return (.completed, ← m.retire unit 0 0 pcAfter)
  | .fault f => .error f

def oneInstructionTo (handler : Handler) (unit : LoadUnit) (uninit : ℕ → ℤ) (m : Machine) :
    Exec (Ending × Machine) := do
  match ← m.readMemTo handler (m.registers PCReg) 4 (uninit 0) with
  | (none, m) => return (.stopped .resume, m)
  | (some raw, m) => m.executeTo handler unit uninit (.decode raw)

/-- `OneInstruction` under the kernel of the source -/
def oneInstruction (unit : LoadUnit) (build : Build) (uninit : ℕ → ℤ) (m : Machine) :
    Exec (Control × Machine) := do
  let (ending, m) ← m.oneInstructionTo (kernel build) unit uninit
  return (ending.control, m)

end Machine

end Nachos
