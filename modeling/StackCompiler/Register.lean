/-!
# Registers

The sixteen general-purpose 64-bit registers and the roles they play: the pool
that allocation draws from, the part of the pool that a function saves on entry,
and the registers that pass the arguments of runtime helpers.
-/

namespace StackCompiler

/-- A general-purpose register, in hardware order. -/
inductive Register where
  | rax | rcx | rdx | rbx | rsp | rbp | rsi | rdi
  | r8 | r9 | r10 | r11 | r12 | r13 | r14 | r15
  deriving DecidableEq, Repr, Inhabited

namespace Register

/-- Every register, in hardware order. -/
def all : List Register :=
  [rax, rcx, rdx, rbx, rsp, rbp, rsi, rdi, r8, r9, r10, r11, r12, r13, r14, r15]

/-- The hardware number of a register. -/
def number : Register → Nat
  | rax => 0 | rcx => 1 | rdx => 2 | rbx => 3
  | rsp => 4 | rbp => 5 | rsi => 6 | rdi => 7
  | r8 => 8 | r9 => 9 | r10 => 10 | r11 => 11
  | r12 => 12 | r13 => 13 | r14 => 14 | r15 => 15

/-- The assembly name of a register. -/
def name : Register → String
  | rax => "rax" | rcx => "rcx" | rdx => "rdx" | rbx => "rbx"
  | rsp => "rsp" | rbp => "rbp" | rsi => "rsi" | rdi => "rdi"
  | r8 => "r8" | r9 => "r9" | r10 => "r10" | r11 => "r11"
  | r12 => "r12" | r13 => "r13" | r14 => "r14" | r15 => "r15"

/-- The register with the given assembly name. -/
def ofName? (s : String) : Option Register := all.find? (·.name == s)

/-- The three bits that stand for a register in an instruction's operand fields. -/
def field (r : Register) : UInt8 := UInt8.ofNat (r.number % 8)

/-- Whether naming the register takes an extension bit beside its field. -/
def isExtended (r : Register) : Bool := 8 ≤ r.number

/-- Whether a called function must keep the register. -/
def isCalleeSaved : Register → Bool
  | rbx | rbp | r12 | r13 | r14 | r15 => true
  | _ => false

/-- Whether a called function may overwrite the register. -/
def isCallerSaved (r : Register) : Bool := !r.isCalleeSaved && r ≠ rsp

/-- The registers that allocation hands out, preferred ones first: four that survive
calls, then the four that do not, and `rbx` last, although it survives calls too. -/
def pool : List Register := [r12, r13, r14, r15, r8, r9, r10, r11, rbx]

/-- The registers of the pool that a function saves on entry, in pushing order. -/
def saved : List Register := [rbx, r12, r13, r14, r15]

/-- The registers that pass the arguments of a helper call, in order. -/
def arguments : List Register := [rdi, rsi, rdx, rcx]

/-- Adds a register to a list in hardware order, once. -/
def insertOrdered (r : Register) : List Register → List Register
  | [] => [r]
  | s :: rest =>
    if r.number < s.number then r :: s :: rest
    else if r = s then s :: rest
    else s :: insertOrdered r rest

end Register

end StackCompiler
