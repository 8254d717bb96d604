/-!
# Stack frames

The frame of a compiled function lies below `rbp`: the closure, the array of locals,
the array of closure cells, and then a slot for each temp.  Sizes and places are what
the code can carry, 32-bit numbers with a sign; they wrap around in a frame that is
larger than that.
-/

namespace StackCompiler.Machine.Frame

/-- Where the closure is, counted from `rbp`. -/
def closure : Int32 := -8

/-- Where the array of locals is. -/
def locals : Int32 := -16

/-- Where the array of closure cells is. -/
def cells : Int32 := -24

/-- Where the slot of a temp is. -/
def temp (n : Nat) : Int32 := Int32.ofInt (-8 * (4 + n))

/-- The bytes that the registers saved on entry take below the frame. -/
def savedBytes : Nat := 40

/-- The bytes in the frame of a function with a number of temps.  They leave `rsp`,
below the saved registers, a multiple of sixteen. -/
def bytes (temps : Nat) : Nat :=
  let slots := 8 * (3 + temps)
  if (slots + savedBytes) % 16 = 0 then slots else slots + 8

/-- The size of the frame, as the code carries it. -/
def size (temps : Nat) : Int32 := Int32.ofNat (bytes temps)

end StackCompiler.Machine.Frame
