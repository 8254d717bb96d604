import StackCompiler.Machine.Instruction

/-!
# Reading machine code back

`decode?` reads one instruction from the start of machine code, part by part in the order of the
x86-64 format: an optional REX byte, one or two bytes of opcode, the ModR/M byte with what it
announces, and an immediate.  `disassemble` reads a whole buffer that way.  What a sequence of
instructions emits reads back as that sequence, each instruction where it was put.
-/

namespace StackCompiler

/-- The register that an extension bit and a field of three bits stand for. -/
def Register.ofField (extended : Bool) (field : UInt8) : Register :=
  Register.all.getD (field.toNat % 8 + if extended then 8 else 0) .rax

@[simp]
theorem Register.ofField_field (r : Register) :
  Register.ofField r.isExtended r.field = r
  := by
  cases r <;> rfl

theorem Register.field_lt (r : Register) :
  r.field < 8
  := by
  cases r <;> decide

namespace Machine

/-! ### Numbers -/

/-- The number that bytes spell, the lowest byte first. -/
def ofBytes : List UInt8 → Nat
  | [] => 0
  | byte :: bytes => byte.toNat + 256 * ofBytes bytes

/-- The four bytes of a number spell the number. -/
@[simp]
theorem ofBytes_bytes32 (n : UInt32) :
  ofBytes (bytes32 n) = n.toNat
  := by
  have hlt : n.toNat < 2 ^ 32 := n.toNat_lt
  simp only [bytes32, ofBytes, UInt32.toNat_toUInt8, UInt32.toNat_shiftRight, UInt32.reduceToNat,
    Nat.reduceMod, Nat.shiftRight_eq_div_pow]
  omega

/-- The eight bytes of a number spell the number. -/
@[simp]
theorem ofBytes_bytes64 (n : UInt64) :
  ofBytes (bytes64 n) = n.toNat
  := by
  have hlt : n.toNat < 2 ^ 64 := n.toNat_lt
  simp only [bytes64, ofBytes, UInt64.toNat_toUInt8, UInt64.toNat_shiftRight, UInt64.reduceToNat,
    Nat.reduceMod, Nat.shiftRight_eq_div_pow]
  omega

/-- Reads a part of an instruction from the start of bytes, and gives the bytes after it. -/
abbrev Reader (α : Type) := List UInt8 → Option (α × List UInt8)

/-- Reads a number of the given number of bytes. -/
def readNumber (width : Nat) : Reader Nat := fun bytes =>
  if width ≤ bytes.length then some (ofBytes (bytes.take width), bytes.drop width) else none

/-- Reads a 32-bit number with a sign. -/
def readInt32 : Reader Int32 := fun bytes =>
  (readNumber 4 bytes).map fun (n, rest) => (Int32.ofNat n, rest)

/-- Reads a 64-bit number. -/
def readWord : Reader UInt64 := fun bytes =>
  (readNumber 8 bytes).map fun (n, rest) => (UInt64.ofNat n, rest)

theorem readNumber_append (bytes rest : List UInt8) :
  readNumber bytes.length (bytes ++ rest) = some (ofBytes bytes, rest)
  := by
  simp [readNumber]

/-- A 32-bit number in front of other bytes is read back, and the others are left. -/
@[simp]
theorem readInt32_append (n : Int32) (rest : List UInt8) :
  readInt32 (bytes32 n.toUInt32 ++ rest) = some (n, rest)
  := by
  have h := readNumber_append (bytes32 n.toUInt32) rest
  rw [length_bytes32, ofBytes_bytes32] at h
  have hn : Int32.ofNat n.toUInt32.toNat = n := by
    rw [← UInt32.toInt32_ofNat', UInt32.ofNat_toNat, Int32.toInt32_toUInt32]
  simp [readInt32, h, hn]

@[simp]
theorem readWord_append (n : UInt64) (rest : List UInt8) :
  readWord (bytes64 n ++ rest) = some (n, rest)
  := by
  have h := readNumber_append (bytes64 n) rest
  rw [length_bytes64, ofBytes_bytes64] at h
  simp [readWord, h]

/-! ### Operands -/

/-- What the REX byte before an opcode says: that the operands have 64 bits, and the extension
bits of the register field, of the index and of the operand field. -/
structure Extension where
  w : Bool := false
  r : Bool := false
  x : Bool := false
  b : Bool := false

/-- Reads the REX byte if there is one. -/
def readExtension : List UInt8 → Extension × List UInt8
  | [] => ({}, [])
  | byte :: rest =>
    if byte &&& 0xF0 = 0x40 then
      (⟨byte &&& 8 ≠ 0, byte &&& 4 ≠ 0, byte &&& 2 ≠ 0, byte &&& 1 ≠ 0⟩, rest)
    else ({}, byte :: rest)

/-- The REX byte is read back as what it says. -/
@[simp]
theorem readExtension_byte (x : Rex) (rest : List UInt8) :
  readExtension (x.byte :: rest) = (⟨x.w, x.r, false, x.b⟩, rest)
  := by
  obtain ⟨w, r, b⟩ := x
  cases w <;> cases r <;> cases b <;> rfl

/-- What the operand field of a ModR/M byte names. -/
inductive Place where
  | register (r : Register)
  | memory (base : Register) (disp : Int32)

/-- The two fields of a ModR/M byte: the bits of the first, which some opcodes extend and others
take for their own, and what the second names. -/
structure Operands where
  field : UInt8
  place : Place

/-- Reads the base of a memory operand.  The field `100` announces one more byte, with an index
and a base; the only index read is the field that stands for none. -/
def readBase (e : Extension) (rm : UInt8) : Reader Register := fun bytes =>
  if rm = 0b100 then
    match bytes with
    | [] => none
    | sib :: rest =>
      if sib >>> 3 &&& 7 = 0b100 ∧ e.x = false then some (.ofField e.b (sib &&& 7), rest) else none
  else some (.ofField e.b rm, bytes)

/-- The three fields of a ModR/M byte: the addressing mode, the register field and the operand
field. -/
def modRMFields (byte : UInt8) : UInt8 × UInt8 × UInt8 := (byte >>> 6, byte >>> 3 &&& 7, byte &&& 7)

/-- Reads the ModR/M byte and what it announces.  Memory operands are read with a 32-bit
displacement only. -/
def readOperands (e : Extension) : Reader Operands
  | [] => none
  | byte :: rest =>
    match modRMFields byte with
    | (mode, field, rm) =>
      if mode = 0b11 then some (⟨field, .register (.ofField e.b rm)⟩, rest)
      else if mode = 0b10 then do
        let (base, rest) ← readBase e rm rest
        let (disp, rest) ← readInt32 rest
        return (⟨field, .memory base disp⟩, rest)
      else none

/-- The fields of a ModR/M byte are those that it was made of. -/
theorem modRMFields_modRM {mode reg rm : UInt8} (hmode : mode < 4) (hreg : reg < 8) (hrm : rm < 8) :
  modRMFields (modRM mode reg rm) = (mode, reg, rm)
  := by
  have h : ∀ m < 4, ∀ r < 8, ∀ n < 8,
      modRMFields (modRM (UInt8.ofNat m) (UInt8.ofNat r) (UInt8.ofNat n))
        = (UInt8.ofNat m, UInt8.ofNat r, UInt8.ofNat n) := by
    decide +kernel
  have h' := h mode.toNat hmode reg.toNat hreg rm.toNat hrm
  rw [UInt8.ofNat_toNat, UInt8.ofNat_toNat, UInt8.ofNat_toNat] at h'
  apply h'

theorem readOperands_register (e : Extension) {reg : UInt8} (hreg : reg < 8) (rm : Register)
    (he : e.b = rm.isExtended) (rest : List UInt8) :
  readOperands e (modRMRegister reg rm.field :: rest) = some (⟨reg, .register rm⟩, rest)
  := by
  simp [readOperands, modRMRegister, modRMFields_modRM _ hreg rm.field_lt, he]

/-- The base of a memory operand is read back, with the byte for an index where its field asks for
one. -/
theorem readBase_field (e : Extension) (base : Register) (he : e.b = base.isExtended)
    (hx : e.x = false) (rest : List UInt8) :
  readBase e base.field ((if base.field = 0b100 then [0x24] else []) ++ rest) = some (base, rest)
  := by
  by_cases hfield : base.field = 0b100
  · have hsib : (0x24 : UInt8) >>> 3 &&& 7 = 0b100 := by decide
    have hbase : (0x24 : UInt8) &&& 7 = base.field := by rw [hfield]; rfl
    simp only [readBase, if_pos hfield, List.singleton_append, if_pos (And.intro hsib hx), hbase, he,
      Register.ofField_field]
  · simp [readBase, hfield, he]

/-- A ModR/M byte with a memory operand is read back, with its base and its displacement. -/
theorem readOperands_memory (e : Extension) (reg base : Register) (he : e.b = base.isExtended)
    (hx : e.x = false) (disp : Int32) (rest : List UInt8) :
  readOperands e (modRMMemory reg.field base.field
      :: ((if base.field = 0b100 then [0x24] else []) ++ (bytes32 disp.toUInt32 ++ rest)))
    = some (⟨reg.field, .memory base disp⟩, rest)
  := by
  simp [readOperands, modRMMemory, modRMFields_modRM _ reg.field_lt base.field_lt,
    readBase_field e base he hx]

/-! ### Instructions -/

/-- The operation on two registers that an opcode stands for. -/
def RegisterOp.ofOpcode? : UInt8 → Option RegisterOp
  | 0x01 => some .add
  | 0x09 => some .or
  | 0x21 => some .and
  | 0x29 => some .sub
  | 0x39 => some .cmp
  | _ => none

/-- The operation with a number that a register field stands for. -/
def ImmediateOp.ofExtension? : UInt8 → Option ImmediateOp
  | 0 => some .add
  | 5 => some .sub
  | 6 => some .xor
  | 7 => some .cmp
  | _ => none

/-- The shift that a register field stands for. -/
def ShiftOp.ofExtension? : UInt8 → Option ShiftOp
  | 4 => some .shl
  | 7 => some .sar
  | _ => none

/-- The condition of a conditional move by its second opcode byte. -/
def Condition.ofOpcode? : UInt8 → Option Condition
  | 0x44 => some .equal
  | 0x4D => some .greaterEqual
  | 0x4F => some .greater
  | _ => none

/-- Reads one byte. -/
def readByte : Reader UInt8
  | [] => none
  | byte :: rest => some (byte, rest)

/-- Reads the rest of an instruction of one opcode byte with 64-bit operands. -/
def decodeWide (e : Extension) (opcode : UInt8) : Reader Instruction := fun bytes => do
  let (operands, rest) ← readOperands e bytes
  let reg := Register.ofField e.r operands.field
  match operands.place with
  | .memory base disp =>
    if opcode = 0x89 then some (.store base disp reg, rest)
    else if opcode = 0x8B then some (.load reg base disp, rest)
    else none
  | .register rm =>
    if opcode = 0x89 then some (.mov rm reg, rest)
    else if opcode = 0x8B then some (.mov reg rm, rest)
    else if opcode = 0xC7 ∧ operands.field = 0 then do
      let (imm, rest) ← readInt32 rest
      return (.movSmall rm imm, rest)
    else if opcode = 0x81 then do
      let op ← ImmediateOp.ofExtension? operands.field
      let (imm, rest) ← readInt32 rest
      return (.binaryImm op rm imm, rest)
    else if opcode = 0xC1 then do
      let op ← ShiftOp.ofExtension? operands.field
      let (amount, rest) ← readByte rest
      return (.shift op rm amount, rest)
    else if opcode = 0xF7 ∧ operands.field = 3 then some (.neg rm, rest)
    else if opcode = 0xF7 ∧ operands.field = 7 then some (.idiv rm, rest)
    else do
      let op ← RegisterOp.ofOpcode? opcode
      return (.binary op rm reg, rest)

/-- Reads the rest of an instruction of two opcode bytes. -/
def decodeEscaped (e : Extension) (opcode : UInt8) : Reader Instruction := fun bytes =>
  if opcode = 0x84 then do
    let (disp, rest) ← readInt32 bytes
    return (.je disp, rest)
  else if e.w then do
    let (operands, rest) ← readOperands e bytes
    let reg := Register.ofField e.r operands.field
    match operands.place with
    | .memory _ _ => none
    | .register rm =>
      if opcode = 0xAF then some (.imul reg rm, rest)
      else do
        let cond ← Condition.ofOpcode? opcode
        return (.cmov cond reg rm, rest)
  else none

/-- The register in the low bits of an opcode, the first of eight that differ in it alone. -/
def registerIn (e : Extension) (first opcode : UInt8) : Option Register :=
  if first ≤ opcode ∧ opcode < first + 8 then some (.ofField e.b (opcode - first)) else none

/-- Reads the rest of an instruction of one opcode byte. -/
def decodeOpcode (e : Extension) (opcode : UInt8) : Reader Instruction := fun bytes =>
  if opcode = 0xC9 then some (.leave, bytes)
  else if opcode = 0xC3 then some (.ret, bytes)
  else if opcode = 0xE9 then do
    let (disp, rest) ← readInt32 bytes
    return (.jmp disp, rest)
  else if opcode = 0xEB then do
    let (disp, rest) ← readByte bytes
    return (.jmpShort disp.toInt8, rest)
  else if opcode = 0xFF then do
    let (operands, rest) ← readOperands e bytes
    match operands.place with
    | .register rm => if operands.field = 2 then some (.call rm, rest) else none
    | .memory _ _ => none
  else
    match registerIn e 0x50 opcode, registerIn e 0x58 opcode, registerIn e 0xB8 opcode with
    | some r, _, _ => some (.push r, bytes)
    | _, some r, _ => some (.pop r, bytes)
    | _, _, some r =>
      if e.w then do
        let (imm, rest) ← readWord bytes
        return (.movWide r imm, rest)
      else none
    | _, _, _ =>
      if e.w then if opcode = 0x99 then some (.cqo, bytes) else decodeWide e opcode bytes
      else none

/-- Reads the opcode and the rest of an instruction. -/
def decodeAfter (e : Extension) : Reader Instruction
  | [] => none
  | opcode :: rest =>
    if opcode = 0x0F then do
      let (second, rest) ← readByte rest
      decodeEscaped e second rest
    else decodeOpcode e opcode rest

/-- Reads an instruction. -/
def decode? : Reader Instruction := fun bytes =>
  match readExtension bytes with
  | (e, rest) => decodeAfter e rest

/-! ### What is encoded reads back -/

@[simp]
theorem ImmediateOp.ofExtension?_extension (op : ImmediateOp) :
  ofExtension? op.extension = some op
  := by
  cases op <;> rfl

@[simp]
theorem ShiftOp.ofExtension?_extension (op : ShiftOp) :
  ofExtension? op.extension = some op
  := by
  cases op <;> rfl

@[simp]
theorem Condition.ofOpcode?_opcode (cond : Condition) :
  ofOpcode? cond.opcode = some cond
  := by
  cases cond <;> rfl

/-- The opcodes of one byte that `decodeWide` reads. -/
def wideOpcodes : List UInt8 :=
  [0x01, 0x09, 0x21, 0x29, 0x39, 0x81, 0x89, 0x8B, 0xC1, 0xC7, 0xF7]

/-- An opcode with 64-bit operands behind a REX byte is read by `decodeWide`. -/
theorem decode?_wide {opcode : UInt8} (h : opcode ∈ wideOpcodes) (r b : Bool) (rest : List UInt8) :
  decode? ((⟨true, r, b⟩ : Rex).byte :: opcode :: rest) = decodeWide ⟨true, r, false, b⟩ opcode rest
  := by
  simp only [decode?, readExtension_byte, decodeAfter]
  simp only [wideOpcodes, List.mem_cons, List.not_mem_nil, or_false] at h
  rcases h with rfl | rfl | rfl | rfl | rfl | rfl | rfl | rfl | rfl | rfl | rfl <;>
    simp [decodeOpcode, registerIn]

theorem decode?_escaped (r b : Bool) (second : UInt8) (rest : List UInt8) :
  decode? ((⟨true, r, b⟩ : Rex).byte :: 0x0F :: second :: rest)
    = decodeEscaped ⟨true, r, false, b⟩ second rest
  := by
  simp [decode?, decodeAfter, readByte]

namespace Instruction

/-- An instruction in front of other bytes is read back, and the others are left. -/
theorem decode?_encode (i : Instruction) (rest : List UInt8) :
  decode? (i.encode ++ rest) = some (i, rest)
  := by
  cases i with
  | mov dst src =>
    apply Eq.trans (decode?_wide (by decide) src.isExtended dst.isExtended (_ :: rest))
    simp [decodeWide, readOperands_register, src.field_lt]
  | load dst base disp =>
    apply Eq.trans (decode?_wide (by decide) dst.isExtended base.isExtended _)
    simp [decodeWide, readOperands_memory]
  | store base disp src =>
    apply Eq.trans (decode?_wide (by decide) src.isExtended base.isExtended _)
    simp [decodeWide, readOperands_memory]
  | movSmall dst imm =>
    apply Eq.trans (decode?_wide (by decide) false dst.isExtended (_ :: (bytes32 _ ++ rest)))
    simp [decodeWide, readOperands_register]
  | movWide dst imm =>
    have h : decode? ((movWide dst imm).encode ++ rest)
        = (readWord (bytes64 imm ++ rest)).bind fun (imm, rest) => some (movWide dst imm, rest) := by
      cases dst <;> rfl
    simp [h]
  | cmov cond dst src =>
    apply Eq.trans (decode?_escaped dst.isExtended src.isExtended _ (_ :: rest))
    have hje : cond.opcode ≠ 0x84 := by cases cond <;> decide
    have himul : cond.opcode ≠ 0xAF := by cases cond <;> decide
    simp [decodeEscaped, readOperands_register, dst.field_lt, hje, himul]
  | binary op dst src =>
    apply Eq.trans (decode?_wide (by cases op <;> decide) src.isExtended dst.isExtended (_ :: rest))
    cases op <;>
      simp [decodeWide, readOperands_register, src.field_lt, RegisterOp.opcode, RegisterOp.ofOpcode?]
  | binaryImm op dst imm =>
    apply Eq.trans (decode?_wide (by decide) false dst.isExtended (_ :: (bytes32 _ ++ rest)))
    have hextension : op.extension < 8 := by cases op <;> decide
    simp [decodeWide, readOperands_register, hextension]
  | imul dst src =>
    apply Eq.trans (decode?_escaped dst.isExtended src.isExtended _ (_ :: rest))
    simp [decodeEscaped, readOperands_register, dst.field_lt]
  | cqo => rfl
  | idiv divisor =>
    apply Eq.trans (decode?_wide (by decide) false divisor.isExtended (_ :: rest))
    simp [decodeWide, readOperands_register]
  | neg dst =>
    apply Eq.trans (decode?_wide (by decide) false dst.isExtended (_ :: rest))
    simp [decodeWide, readOperands_register]
  | shift op dst amount =>
    apply Eq.trans (decode?_wide (by decide) false dst.isExtended (_ :: amount :: rest))
    have hextension : op.extension < 8 := by cases op <;> decide
    simp [decodeWide, readOperands_register, hextension, readByte]
  | push src => cases src <;> rfl
  | pop dst => cases dst <;> rfl
  | leave => rfl
  | ret => rfl
  | call target => cases target <;> rfl
  | jmp disp =>
    have h : decode? ((jmp disp).encode ++ rest)
        = (readInt32 (bytes32 disp.toUInt32 ++ rest)).bind fun (disp, rest) => some (jmp disp, rest) :=
      rfl
    simp [h]
  | jmpShort disp =>
    have h : decode? ((jmpShort disp).encode ++ rest) = some (jmpShort disp.toUInt8.toInt8, rest) :=
      rfl
    simp [h]
  | je disp =>
    have h : decode? ((je disp).encode ++ rest)
        = (readInt32 (bytes32 disp.toUInt32 ++ rest)).bind fun (disp, rest) => some (je disp, rest) :=
      rfl
    simp [h]

theorem size_pos (i : Instruction) :
  0 < i.size
  := by
  cases i with
  | push r => cases r <;> decide
  | pop r => cases r <;> decide
  | call r => cases r <;> decide
  | _ => exact Nat.succ_pos _

end Instruction

/-! ### Buffers -/

/-- An instruction in a buffer, with the offsets at which it starts and ends. -/
structure Located where
  start : Nat
  inst : Instruction
  stop : Nat

/-- Appends instructions to a buffer one after the other.  Gives the buffer that comes out, and
where each instruction was put. -/
def emitSequence (buffer : List UInt8) : List Instruction → List UInt8 × List Located
  | [] => (buffer, [])
  | i :: is =>
    let next := buffer ++ i.encode
    let (final, located) := emitSequence next is
    (final, ⟨buffer.length, i, next.length⟩ :: located)

/-- Reads bytes to their end as instructions, the first one at an offset.  There are at most as
many instructions as bytes. -/
def disassembleFrom : Nat → Nat → List UInt8 → Option (List Located)
  | _, _, [] => some []
  | 0, _, _ :: _ => none
  | fuel + 1, offset, bytes => do
    let (inst, rest) ← decode? bytes
    let stop := offset + (bytes.length - rest.length)
    return ⟨offset, inst, stop⟩ :: (← disassembleFrom fuel stop rest)

/-- The instructions of a buffer. -/
def disassemble (code : List UInt8) : Option (List Located) := disassembleFrom code.length 0 code

theorem fst_emitSequence (buffer : List UInt8) (insts : List Instruction) :
  (emitSequence buffer insts).1 = buffer ++ insts.flatMap Instruction.encode
  := by
  induction insts generalizing buffer with
  | nil => simp [emitSequence]
  | cons i is ih => simp [emitSequence, ih]

/-- The instructions that were put into a buffer are those given, in their order. -/
theorem map_inst_emitSequence (buffer : List UInt8) (insts : List Instruction) :
  (emitSequence buffer insts).2.map Located.inst = insts
  := by
  induction insts generalizing buffer with
  | nil => rfl
  | cons i is ih =>
    simp only [emitSequence, List.map_cons]
    rw [ih]

/-- The last instruction ends with the buffer. -/
theorem last_stop_emitSequence (buffer : List UInt8) (insts : List Instruction) :
  ((emitSequence buffer insts).2.map Located.stop).getLastD buffer.length = (emitSequence buffer insts).1.length
  := by
  induction insts generalizing buffer with
  | nil => rfl
  | cons i is ih =>
    simp only [emitSequence, List.map_cons, List.getLastD_cons]
    apply ih

/-- The bytes of instructions are read as these instructions, each at the offset where it was put.
-/
theorem disassembleFrom_emitSequence (buffer : List UInt8) (insts : List Instruction) {fuel : Nat}
    (hfuel : (insts.flatMap Instruction.encode).length ≤ fuel) :
  disassembleFrom fuel buffer.length (insts.flatMap Instruction.encode)
    = some (emitSequence buffer insts).2
  := by
  induction insts generalizing buffer fuel with
  | nil => cases fuel <;> rfl
  | cons i is ih =>
    have hpos : 0 < i.encode.length := i.size_pos
    rw [List.flatMap_cons] at hfuel ⊢
    rw [List.length_append] at hfuel
    obtain ⟨fuel, rfl⟩ := Nat.exists_eq_add_one.mpr (show 0 < fuel by omega)
    obtain ⟨byte, bytes, hbytes⟩ := List.exists_cons_of_length_pos hpos
    have hrest : disassembleFrom fuel (buffer ++ i.encode).length (is.flatMap Instruction.encode)
        = some (emitSequence (buffer ++ i.encode) is).2 := by
      apply ih
      omega
    rw [List.length_append] at hrest
    have hdecode := i.decode?_encode (is.flatMap Instruction.encode)
    rw [hbytes, List.cons_append] at hdecode ⊢
    simp only [disassembleFrom, hdecode, emitSequence, List.length_append]
    rw [← List.cons_append, ← hbytes]
    simp [hrest]

/-- What a sequence of instructions emits reads back as that sequence, each instruction between
the offsets at which it was emitted and the last one up to the end of the buffer.  So different
sequences never give the same code. -/
theorem disassemble_emitSequence (insts : List Instruction) :
  disassemble (emitSequence [] insts).1 = some (emitSequence [] insts).2 ∧
  (emitSequence [] insts).2.map Located.inst = insts ∧
  ((emitSequence [] insts).2.map Located.stop).getLastD 0 = (emitSequence [] insts).1.length ∧
  Function.Injective fun insts => (emitSequence [] insts).1
  := by
  have hread : ∀ insts, disassemble (emitSequence [] insts).1 = some (emitSequence [] insts).2 := by
    intro insts
    rw [fst_emitSequence, List.nil_append]
    apply disassembleFrom_emitSequence [] insts (Nat.le_refl _)
  refine ⟨hread insts, map_inst_emitSequence [] insts, last_stop_emitSequence [] insts, ?_⟩
  intro insts insts' heq
  have hsame := hread insts
  rw [show (emitSequence [] insts).1 = (emitSequence [] insts').1 from heq, hread insts'] at hsame
  rw [← map_inst_emitSequence [] insts, ← map_inst_emitSequence [] insts', Option.some.inj hsame]

end Machine

end StackCompiler
