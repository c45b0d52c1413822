/-! The limit on how many nodes and names there can be: their numbers are words of 32 bits. -/

set_option autoImplicit false

namespace Comprehension

def maxIndex : Nat := 4294967295

inductive CapacityError where
  | nodes (count : Nat)
  | names (count : Nat)
  deriving DecidableEq, Repr

def hexText (n : Nat) : String := String.ofList ((Nat.toDigits 16 n).map Char.toUpper)

def CapacityError.message : CapacityError → String
  | .nodes count =>
    "query arena exceeded capacity: " ++ toString count ++ " nodes, max is " ++ toString maxIndex
  | .names count =>
    "string interner exceeded capacity: " ++ toString count ++ " strings (0x" ++ hexText count ++
      "), max is " ++ toString maxIndex ++ " (0x" ++ hexText maxIndex ++ ")"

end Comprehension
