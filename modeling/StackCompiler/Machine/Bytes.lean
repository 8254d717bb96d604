/-!
# Bytes

Numbers as bytes, the lowest byte first, and the replacement of bytes inside code.
-/

namespace StackCompiler.Machine

/-- The four bytes of a 32-bit number. -/
def bytes32 (n : UInt32) : List UInt8 :=
  [n.toUInt8, (n >>> 8).toUInt8, (n >>> 16).toUInt8, (n >>> 24).toUInt8]

/-- The eight bytes of a 64-bit number. -/
def bytes64 (n : UInt64) : List UInt8 :=
  [n.toUInt8, (n >>> 8).toUInt8, (n >>> 16).toUInt8, (n >>> 24).toUInt8,
    (n >>> 32).toUInt8, (n >>> 40).toUInt8, (n >>> 48).toUInt8, (n >>> 56).toUInt8]

/-- Puts bytes in the place of those at an offset. -/
def patch (code : List UInt8) (offset : Nat) (bytes : List UInt8) : List UInt8 :=
  code.take offset ++ bytes ++ code.drop (offset + bytes.length)

/-- Writes bytes into a buffer from an offset on. -/
def overwrite (buffer : Array UInt8) (offset : Nat) : List UInt8 → Array UInt8
  | [] => buffer
  | byte :: bytes => overwrite (buffer.setIfInBounds offset byte) (offset + 1) bytes

@[simp]
theorem length_bytes32 (n : UInt32) :
  (bytes32 n).length = 4
  := rfl

@[simp]
theorem length_bytes64 (n : UInt64) :
  (bytes64 n).length = 8
  := rfl

end StackCompiler.Machine
