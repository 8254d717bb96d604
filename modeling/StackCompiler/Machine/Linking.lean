import StackCompiler.Machine.Assembly
import StackCompiler.Machine.Helper

/-!
# Linking

Code refers to things whose addresses are known only when it is loaded: helpers of the
runtime and string literals on the heap.  A `Fragment` is an item of assembly or such a
reference.  `link` turns references into loads of 64-bit numbers, lists the strings in
the order of their first use, and records as a `Relocation` where each number stands.
-/

namespace StackCompiler.Machine

/-- A place in the code for the loader to fill in with eight bytes. -/
inductive Relocation where
  /-- The address of a helper. -/
  | helper (offset : Nat) (helper : Helper)
  /-- The address of a string, by its number in the list of strings. -/
  | string (offset : Nat) (index : Nat)
  deriving DecidableEq, Repr

/-- A piece of code, before addresses are known. -/
inductive Fragment where
  | item (i : Item)
  /-- Loads the address of a helper into a register. -/
  | helperAddress (dst : Register) (helper : Helper)
  /-- Loads the address of a string into a register. -/
  | stringAddress (dst : Register) (text : String)
  deriving DecidableEq, Repr

namespace Fragment

/-- An instruction as a fragment. -/
def code (inst : Instruction) : Fragment := .item (.code inst)

end Fragment

/-- A program in which references have become loads. -/
structure Linked where
  items : List Item := []
  relocations : List Relocation := []
  strings : List String := []
  deriving DecidableEq, Repr

namespace Linked

/-- The offset of the number in a load that comes next. -/
def nextField (l : Linked) (load : Instruction) : Nat := programSize l.items + load.fieldOffset

/-- The list of strings with a string in it, and the number of the string. -/
def intern (strings : List String) (text : String) : List String × Nat :=
  match strings.idxOf? text with
  | some index => (strings, index)
  | none => (strings ++ [text], strings.length)

/-- Adds a fragment. -/
def add (helpers : HelperTable) (l : Linked) : Fragment → Linked
  | .item i => { l with items := l.items ++ [i] }
  | .helperAddress dst helper =>
    let load := Instruction.movWide dst (helpers.address helper)
    { l with
      items := l.items ++ [.code load (some helper.name)]
      relocations := l.relocations ++ [.helper (l.nextField load) helper] }
  | .stringAddress dst text =>
    let load := Instruction.movWide dst 0
    let (strings, index) := intern l.strings text
    { items := l.items ++ [.code load (some s!"str{index}")]
      relocations := l.relocations ++ [.string (l.nextField load) index]
      strings }

end Linked

/-- Links a list of fragments. -/
def link (helpers : HelperTable) (fragments : List Fragment) : Linked :=
  fragments.foldl (Linked.add helpers) {}

end StackCompiler.Machine
