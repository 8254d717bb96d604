import StackCompiler.Machine.Bytes
import StackCompiler.Register
import StackCompiler.Text.Layout

/-!
# Machine instructions

The x86-64 instructions that the compiler uses.  `Instruction.encode` gives the bytes
of an instruction: an optional REX byte, the opcode, the ModR/M byte, and then the
displacement or the immediate.  A memory operand always has a 32-bit displacement, so
that every access has the same length whatever it reaches.
-/

namespace StackCompiler.Machine

/-! ### Extension and operand bytes -/

/-- The REX byte: a 64-bit operand, and the extension bits of the two register fields. -/
structure Rex where
  w : Bool := false
  r : Bool := false
  b : Bool := false
  deriving DecidableEq, Repr

namespace Rex

/-- Whether any bit is set. -/
def isNeeded (x : Rex) : Bool := x.w || x.r || x.b

/-- The value of the byte. -/
def byte (x : Rex) : UInt8 :=
  0x40 ||| (if x.w then 8 else 0) ||| (if x.r then 4 else 0) ||| (if x.b then 1 else 0)

/-- The byte of a 64-bit operation on a register field and an operand field. -/
def wide (reg rm : Register) : Rex := ⟨true, reg.isExtended, rm.isExtended⟩

/-- The byte of a 64-bit operation on an operand field alone. -/
def wideOperand (rm : Register) : Rex := ⟨true, false, rm.isExtended⟩

/-- The byte before a short instruction, present only for an extended register. -/
def ifExtended (rm : Register) : List UInt8 :=
  if rm.isExtended then [byte ⟨false, false, true⟩] else []

end Rex

/-- The ModR/M byte: the addressing mode and two fields of three bits. -/
def modRM (mode reg rm : UInt8) : UInt8 := (mode <<< 6) ||| ((reg &&& 7) <<< 3) ||| (rm &&& 7)

/-- The ModR/M byte of a register operand. -/
def modRMRegister (reg rm : UInt8) : UInt8 := modRM 0b11 reg rm

/-- The ModR/M byte of a memory operand with a 32-bit displacement. -/
def modRMMemory (reg rm : UInt8) : UInt8 := modRM 0b10 reg rm

/-! ### Instructions -/

/-- A condition of a conditional move. -/
inductive Condition where
  | equal
  | greater
  | greaterEqual
  deriving DecidableEq, Repr

/-- The suffix of a condition in mnemonics. -/
def Condition.suffix : Condition → String
  | equal => "e"
  | greater => "g"
  | greaterEqual => "ge"

/-- The second opcode byte of a conditional move. -/
def Condition.opcode : Condition → UInt8
  | equal => 0x44
  | greater => 0x4F
  | greaterEqual => 0x4D

/-- An operation on two registers that changes the first, or compares them. -/
inductive RegisterOp where
  | add | or | and | sub | cmp
  deriving DecidableEq, Repr

/-- The mnemonic of an operation on two registers. -/
def RegisterOp.name : RegisterOp → String
  | add => "add"
  | or => "or"
  | and => "and"
  | sub => "sub"
  | cmp => "cmp"

/-- The opcode of an operation on two registers. -/
def RegisterOp.opcode : RegisterOp → UInt8
  | add => 0x01
  | or => 0x09
  | and => 0x21
  | sub => 0x29
  | cmp => 0x39

/-- An operation on a register and a number. -/
inductive ImmediateOp where
  | add | sub | xor | cmp
  deriving DecidableEq, Repr

/-- The mnemonic of an operation on a register and a number. -/
def ImmediateOp.name : ImmediateOp → String
  | add => "add"
  | sub => "sub"
  | xor => "xor"
  | cmp => "cmp"

/-- What the register field of the ModR/M byte holds for an operation with a number. -/
def ImmediateOp.extension : ImmediateOp → UInt8
  | add => 0
  | sub => 5
  | xor => 6
  | cmp => 7

/-- A shift by a fixed amount. -/
inductive ShiftOp where
  /-- To the left. -/
  | shl
  /-- To the right, keeping the sign. -/
  | sar
  deriving DecidableEq, Repr

/-- The mnemonic of a shift. -/
def ShiftOp.name : ShiftOp → String
  | shl => "shl"
  | sar => "sar"

/-- What the register field of the ModR/M byte holds for a shift. -/
def ShiftOp.extension : ShiftOp → UInt8
  | shl => 4
  | sar => 7

/-- A machine instruction.  Where there are two operands the first is changed. -/
inductive Instruction where
  | mov (dst src : Register)
  /-- Reads memory at a register and a displacement. -/
  | load (dst base : Register) (disp : Int32)
  /-- Writes memory at a register and a displacement. -/
  | store (base : Register) (disp : Int32) (src : Register)
  /-- Sets a register to a number, sign-extended to 64 bits. -/
  | movSmall (dst : Register) (imm : Int32)
  /-- Sets a register to a 64-bit number. -/
  | movWide (dst : Register) (imm : UInt64)
  | cmov (cond : Condition) (dst src : Register)
  | binary (op : RegisterOp) (dst src : Register)
  | binaryImm (op : ImmediateOp) (dst : Register) (imm : Int32)
  | imul (dst src : Register)
  /-- Extends the sign of `rax` into `rdx`. -/
  | cqo
  /-- Divides `rdx` and `rax` together, leaving the quotient in `rax` and the remainder
  in `rdx`. -/
  | idiv (divisor : Register)
  | neg (dst : Register)
  | shift (op : ShiftOp) (dst : Register) (amount : UInt8)
  | push (src : Register)
  | pop (dst : Register)
  /-- Sets `rsp` to `rbp` and pops `rbp`. -/
  | leave
  | ret
  | call (target : Register)
  /-- Jumps, by a distance from the end of the instruction. -/
  | jmp (disp : Int32)
  /-- Jumps by a short distance. -/
  | jmpShort (disp : Int8)
  /-- Jumps if the last comparison found equality. -/
  | je (disp : Int32)
  deriving DecidableEq, Repr

namespace Instruction

/-! ### Encoding -/

/-- The bytes of an opcode with two register operands, one in each field. -/
def encodeRegisters (opcode : List UInt8) (reg rm : Register) : List UInt8 :=
  (Rex.wide reg rm).byte :: opcode ++ [modRMRegister reg.field rm.field]

/-- The bytes of an opcode with one register operand and a fixed register field. -/
def encodeExtension (opcode extension : UInt8) (rm : Register) : List UInt8 :=
  [(Rex.wideOperand rm).byte, opcode, modRMRegister extension rm.field]

/-- The bytes of an opcode with a register and a memory operand.  The operand field of
`rsp` and `r12` announces one more byte, here without an index register. -/
def encodeMemory (opcode : UInt8) (reg base : Register) (disp : Int32) : List UInt8 :=
  [(Rex.wide reg base).byte, opcode, modRMMemory reg.field base.field]
    ++ (if base.field = 0b100 then [0x24] else []) ++ bytes32 disp.toUInt32

/-- The bytes of an instruction. -/
def encode : Instruction → List UInt8
  | mov dst src => encodeRegisters [0x89] src dst
  | load dst base disp => encodeMemory 0x8B dst base disp
  | store base disp src => encodeMemory 0x89 src base disp
  | movSmall dst imm => encodeExtension 0xC7 0 dst ++ bytes32 imm.toUInt32
  | movWide dst imm => (Rex.wideOperand dst).byte :: (0xB8 + dst.field) :: bytes64 imm
  | cmov cond dst src => encodeRegisters [0x0F, cond.opcode] dst src
  | binary op dst src => encodeRegisters [op.opcode] src dst
  | binaryImm op dst imm => encodeExtension 0x81 op.extension dst ++ bytes32 imm.toUInt32
  | imul dst src => encodeRegisters [0x0F, 0xAF] dst src
  | cqo => [(⟨true, false, false⟩ : Rex).byte, 0x99]
  | idiv divisor => encodeExtension 0xF7 7 divisor
  | neg dst => encodeExtension 0xF7 3 dst
  | shift op dst amount => encodeExtension 0xC1 op.extension dst ++ [amount]
  | push src => Rex.ifExtended src ++ [0x50 + src.field]
  | pop dst => Rex.ifExtended dst ++ [0x58 + dst.field]
  | leave => [0xC9]
  | ret => [0xC3]
  | call target => Rex.ifExtended target ++ [0xFF, modRMRegister 2 target.field]
  | jmp disp => 0xE9 :: bytes32 disp.toUInt32
  | jmpShort disp => [0xEB, disp.toUInt8]
  | je disp => 0x0F :: 0x84 :: bytes32 disp.toUInt32

/-- The number of bytes of an instruction. -/
def size (i : Instruction) : Nat := i.encode.length

/-- The number of bytes of the field at the end of an instruction that is filled in
once addresses are known. -/
def fieldSize : Instruction → Nat
  | movWide _ _ => 8
  | jmp _ | je _ => 4
  | jmpShort _ => 1
  | _ => 0

/-- Where that field starts. -/
def fieldOffset (i : Instruction) : Nat := i.size - i.fieldSize

/-! ### Text -/

/-- A number with its hexadecimal mark. -/
def hexText (n : Nat) : String := "0x" ++ Text.hex n

/-- The text of a memory operand. -/
def memoryText (base : Register) (disp : Int32) : String :=
  let n := disp.toInt
  if n = 0 then s!"[{base.name}]"
  else if n < 0 then s!"[{base.name} - {-n}]"
  else s!"[{base.name} + {n}]"

/-- The text of the number in an operation: sums show it in decimal, the others show
its bits. -/
def immediateText (imm : Int32) : ImmediateOp → String
  | .add | .sub => toString imm.toInt
  | .xor | .cmp => hexText imm.toUInt32.toNat

/-- The text of an instruction. -/
def text : Instruction → String
  | mov dst src => s!"mov {dst.name}, {src.name}"
  | load dst base disp => s!"mov {dst.name}, {memoryText base disp}"
  | store base disp src => s!"mov {memoryText base disp}, {src.name}"
  | movSmall dst imm => s!"mov {dst.name}, {hexText imm.toInt64.toUInt64.toNat}"
  | movWide dst imm => s!"movabs {dst.name}, {hexText imm.toNat}"
  | cmov cond dst src => s!"cmov{cond.suffix} {dst.name}, {src.name}"
  | binary op dst src => s!"{op.name} {dst.name}, {src.name}"
  | binaryImm op dst imm => s!"{op.name} {dst.name}, {immediateText imm op}"
  | imul dst src => s!"imul {dst.name}, {src.name}"
  | cqo => "cqo"
  | idiv divisor => s!"idiv {divisor.name}"
  | neg dst => s!"neg {dst.name}"
  | shift op dst amount => s!"{op.name} {dst.name}, {amount.toNat}"
  | push src => s!"push {src.name}"
  | pop dst => s!"pop {dst.name}"
  | leave => "leave"
  | ret => "ret"
  | call target => s!"call {target.name}"
  | jmp disp => s!"jmp {disp.toInt}"
  | jmpShort disp => s!"jmp short {disp.toInt}"
  | je disp => s!"je {disp.toInt}"

/-! ### Short forms -/

/-- Sets a register to a 64-bit number, in the short form if the number allows. -/
def setTo (dst : Register) (n : UInt64) : Instruction :=
  let signed := n.toInt64.toInt
  if -0x80000000 ≤ signed ∧ signed ≤ 0x7FFFFFFF then .movSmall dst (Int32.ofInt signed)
  else .movWide dst n

end Instruction

end StackCompiler.Machine
