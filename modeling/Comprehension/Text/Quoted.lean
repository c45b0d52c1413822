import Comprehension.Text.DefaultIgnorable
import Comprehension.Text.ExtendingMark
import Comprehension.Text.Unprintable

/-! Quoted text: between double quotes, with a backslash before what would end or hide it. Which
characters are written by their code point is a parameter of the form. -/

set_option autoImplicit false

namespace Comprehension.Text

/-- The characters that quoted text shows by their code point: those that would be drawn with their
neighbour or not at all. -/
def isHidden (c : Char) : Bool := isExtendingMark c || isDefaultIgnorable c || isUnprintable c

def escapeChar (hidden : Char → Bool) (c : Char) : List Char :=
  if c = '\x00' then ['\\', '0']
  else if c = '\t' then ['\\', 't']
  else if c = '\r' then ['\\', 'r']
  else if c = '\n' then ['\\', 'n']
  else if c = '"' then ['\\', '"']
  else if c = '\\' then ['\\', '\\']
  else if hidden c then ['\\', 'u', '\x7b'] ++ Nat.toDigits 16 c.toNat ++ ['\x7d']
  else [c]

def quote (hidden : Char → Bool) (text : String) : String :=
  String.ofList ('"' :: text.toList.flatMap (escapeChar hidden) ++ ['"'])

end Comprehension.Text
