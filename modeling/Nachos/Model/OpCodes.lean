import Nachos.Model.Mips

/-! # Decoding to numbers

`Instruction::Decode` as the source has it: operation codes and registers are numbers, and
the switch of `OneInstruction` has a case for some of them. -/

namespace Nachos

/-- The define of an operation code. -/
def OpCode.number : OpCode → ℕ
  | .add => 1
  | .addi => 2
  | .addiu => 3
  | .addu => 4
  | .and => 5
  | .andi => 6
  | .beq => 7
  | .bgez => 8
  | .bgezal => 9
  | .bgtz => 10
  | .blez => 11
  | .bltz => 12
  | .bltzal => 13
  | .bne => 14
  | .div => 16
  | .divu => 17
  | .j => 18
  | .jal => 19
  | .jalr => 20
  | .jr => 21
  | .lb => 22
  | .lbu => 23
  | .lh => 24
  | .lhu => 25
  | .lui => 26
  | .lw => 27
  | .lwl => 28
  | .lwr => 29
  | .mfhi => 31
  | .mflo => 32
  | .mthi => 34
  | .mtlo => 35
  | .mult => 36
  | .multu => 37
  | .nor => 38
  | .or => 39
  | .ori => 40
  | .sb => 42
  | .sh => 43
  | .sll => 44
  | .sllv => 45
  | .slt => 46
  | .slti => 47
  | .sltiu => 48
  | .sltu => 49
  | .sra => 50
  | .srav => 51
  | .srl => 52
  | .srlv => 53
  | .sub => 54
  | .subu => 55
  | .sw => 56
  | .swl => 57
  | .swr => 58
  | .xor => 59
  | .xori => 60
  | .syscall => 61
  | .unimp => 62
  | .res => 63

abbrev SPECIAL : ℕ := 100

abbrev BCOND : ℕ := 101

def Major.number : Major → ℕ
  | .op o => o.number
  | .special => SPECIAL
  | .bcond => BCOND

/-- The cases of the switch, in their order. -/
def switchCases : List OpCode :=
  [.add, .addi, .addiu, .addu, .and, .andi, .beq, .bgezal, .bgez, .bgtz, .blez, .bltzal, .bltz,
    .bne, .div, .divu, .jal, .j, .jalr, .jr, .lb, .lbu, .lh, .lhu, .lui, .lw, .lwl, .lwr, .mfhi,
    .mflo, .mthi, .mtlo, .mult, .multu, .nor, .or, .ori, .sb, .sh, .sll, .sllv, .slt, .slti,
    .sltiu, .sltu, .sra, .srav, .srl, .srlv, .sub, .subu, .sw, .swl, .swr, .syscall, .xor, .xori,
    .res, .unimp]

/-- The case that the switch takes, or `none` for `default`. -/
def caseOf (opCode : ℕ) : Option OpCode := switchCases.find? fun o => o.number == opCode

/-- The fields of the class `Instruction`. -/
structure Fields where
  opCode : ℕ
  rs : ℕ
  rt : ℕ
  rd : ℕ
  extra : Word
  deriving DecidableEq, Repr

/-- The field `extra` for a format. -/
def extraOf (value : Word) : Format → Word
  | .ifmt =>
      if value &&& 0xffff &&& 0x8000 ≠ 0 then (value &&& 0xffff) ||| 0xffff0000
      else value &&& 0xffff
  | .rfmt => value >>> 6 &&& 0x1f
  | .jfmt => value &&& 0x3ffffff

/-- The field `opCode`, from what `opTable` has. -/
def opCodeOf (value : Word) (opCode : ℕ) : Exec ℕ :=
  if opCode = SPECIAL then
    match specialTable[(value &&& 0x3f).toNat]? with
    | some o => .ok o.number
    | none => .error .bounds
  else if opCode = BCOND then
    .ok (if value &&& 0x1f0000 = 0 then OpCode.bltz.number
      else if value &&& 0x1f0000 = 0x10000 then OpCode.bgez.number
      else if value &&& 0x1f0000 = 0x100000 then OpCode.bltzal.number
      else if value &&& 0x1f0000 = 0x110000 then OpCode.bgezal.number
      else OpCode.unimp.number)
  else .ok opCode

/-- `Instruction::Decode` -/
def decodeFields (value : Word) : Exec Fields :=
  match opTable[(value >>> 26 &&& 0x3f).toNat]? with
  | none => .error .bounds
  | some opPtr => do
      return {
        rs := (value >>> 21 &&& 0x1f).toNat
        rt := (value >>> 16 &&& 0x1f).toNat
        rd := (value >>> 11 &&& 0x1f).toNat
        opCode := ← opCodeOf value opPtr.1.number
        extra := extraOf value opPtr.2 }

end Nachos
