/-!
# Decimal numbers

Numbers spelled by decimal digits.
-/

namespace StackCompiler.Text

/-- The number that decimal digits spell. -/
def decimal (digits : List Char) : Nat :=
  digits.foldl (fun n c => 10 * n + (c.toNat - '0'.toNat)) 0

/-- Whether the characters are at least one, and all decimal digits. -/
def isDigits (cs : List Char) : Bool := !cs.isEmpty && cs.all Char.isDigit

/-- The 64-bit number that digits spell after an optional plus sign. -/
def count? (s : String) : Option UInt64 :=
  let digits := match s.toList with
    | '+' :: digits => digits
    | digits => digits
  if isDigits digits ∧ decimal digits < UInt64.size then some (UInt64.ofNat (decimal digits)) else none

end StackCompiler.Text
