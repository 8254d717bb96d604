import StackCompiler.Error
import StackCompiler.IR.Inst
import StackCompiler.Machine.Instruction
import StackCompiler.Table

/-!
# Assembly

A program of instructions, jumps to labels, labels and comments.  `Assembler.emit` puts
the bytes of an item at the end of a buffer.  A jump is emitted with an empty field, since
its label may come later, and a fixup remembers the field.  When all labels have their
offsets, `Assembler.finish` fills in each field the distance from its end to the label.
-/

namespace StackCompiler.Machine

open IR (Label labelName)

/-- The form of a jump to a label. -/
inductive JumpForm where
  | near
  | short
  /-- Taken if the last comparison found equality. -/
  | equal
  deriving DecidableEq, Repr

namespace JumpForm

/-- The mnemonic of a jump. -/
def name : JumpForm → String
  | near => "jmp"
  | short => "jmp short"
  | equal => "je"

/-- The number of bits of the distance. -/
def width : JumpForm → Nat
  | short => 8
  | near | equal => 32

/-- The jump by a distance. -/
def instruction (distance : Int) : JumpForm → Instruction
  | near => .jmp (Int32.ofInt distance)
  | short => .jmpShort (Int8.ofInt distance)
  | equal => .je (Int32.ofInt distance)

end JumpForm

/-- A line of assembly. -/
inductive Item where
  | comment (text : String)
  /-- An instruction, with the name of what it refers to. -/
  | code (inst : Instruction) (symbol : Option String := none)
  | label (l : Label)
  | jump (form : JumpForm) (target : Label)
  deriving DecidableEq, Repr

namespace Item

/-- The number of bytes that an item takes. -/
def size : Item → Nat
  | comment _ | label _ => 0
  | code inst _ => inst.size
  | jump form _ => (form.instruction 0).size

/-- The text of an item at an offset. -/
def line (offset : Nat) : Item → String
  | comment text => "        ; " ++ text
  | label l => labelName l ++ ":"
  | code inst none => atOffset inst.text
  | code inst (some symbol) => atOffset (inst.text ++ " <" ++ symbol ++ ">")
  | jump form target => atOffset (form.name ++ " " ++ labelName target)
where
  /-- A text after the offset. -/
  atOffset (text : String) : String := Text.padLeft 6 (Text.hex offset) ++ ":  " ++ text

end Item

/-- The number of bytes of a program. -/
def programSize (items : List Item) : Nat := items.foldr (fun item n => item.size + n) 0

/-- The field of a jump that has to be filled in. -/
structure Fixup where
  /-- Where the field starts. -/
  offset : Nat
  target : Label
  /-- The number of bits of the field. -/
  width : Nat
  deriving DecidableEq, Repr

namespace Fixup

/-- Where the field ends. -/
def stop (fixup : Fixup) : Nat := fixup.offset + fixup.width / 8

/-- Whether a distance fits into the field. -/
def fits (fixup : Fixup) (distance : Int) : Bool :=
  -(1 <<< (fixup.width - 1) : Nat) ≤ distance && distance < (1 <<< (fixup.width - 1) : Nat)

/-- The bytes of the field with a distance in it. -/
def bytes (fixup : Fixup) (distance : Int) : List UInt8 :=
  if fixup.width = 8 then [(Int8.ofInt distance).toUInt8]
  else bytes32 (Int32.ofInt distance).toUInt32

end Fixup

/-- Machine code and its listing. -/
structure Assembled where
  code : List UInt8
  listing : List String
  deriving DecidableEq, Repr

/-- Machine code that is being emitted. -/
structure Assembler where
  code : Array UInt8 := #[]
  listing : Array String := #[]
  /-- The offsets of the labels; a label bound twice has its last offset. -/
  labels : Table Label Nat := []
  fixups : Array Fixup := #[]

namespace Assembler

/-- Emits an item.  The field of a jump is left zero. -/
def emit (a : Assembler) (item : Item) : Assembler :=
  let noted := { a with listing := a.listing.push (item.line a.code.size) }
  match item with
  | .comment _ => noted
  | .code inst _ => { noted with code := a.code ++ inst.encode }
  | .label l => { noted with labels := a.labels.put l a.code.size }
  | .jump form target =>
    let code := a.code ++ (form.instruction 0).encode
    { noted with
      code
      fixups := a.fixups.push
        { offset := code.size - form.width / 8, target, width := form.width } }

/-- Fills in the field of a jump. -/
def fill (labels : Table Label Nat) (code : Array UInt8) (fixup : Fixup) :
    Except CompileError (Array UInt8) :=
  match labels.at? fixup.target with
  | none => .error (.unknownLabel fixup.target)
  | some destination =>
    let distance : Int := destination - fixup.stop
    if fixup.fits distance then .ok (overwrite code fixup.offset (fixup.bytes distance))
    else .error (.jumpOutOfRange (labelName fixup.target) fixup.width)

/-- Fills in all fields, in the order in which they were emitted. -/
def finish (a : Assembler) : Except CompileError Assembled := do
  let code ← a.fixups.foldlM (fill a.labels) a.code
  return { code := code.toList, listing := a.listing.toList }

end Assembler

/-- Assembles a program. -/
def assemble (items : List Item) : Except CompileError Assembled :=
  (items.foldl Assembler.emit {}).finish

end StackCompiler.Machine
