import Comprehension.Text.CodeRange

/-! The property Default_Ignorable_Code_Point of Unicode 17.0: characters that are not shown where
they have no effect, among them the fillers of the Korean script, which are letters. -/

set_option autoImplicit false

namespace Comprehension.Text

def defaultIgnorableRanges : List (Nat × Nat) :=
  [(0x00AD, 0x00AD), (0x034F, 0x034F), (0x061C, 0x061C), (0x115F, 0x1160), (0x17B4, 0x17B5),
   (0x180B, 0x180F), (0x200B, 0x200F), (0x202A, 0x202E), (0x2060, 0x206F), (0x3164, 0x3164),
   (0xFE00, 0xFE0F), (0xFEFF, 0xFEFF), (0xFFA0, 0xFFA0), (0xFFF0, 0xFFF8), (0x1BCA0, 0x1BCA3),
   (0x1D173, 0x1D17A), (0xE0000, 0xE0FFF)]

def isDefaultIgnorable (c : Char) : Bool := inRanges c.toNat defaultIgnorableRanges

theorem defaultIgnorableRanges_ascending : Ascending defaultIgnorableRanges := by decide +kernel

theorem isDefaultIgnorable_iff (c : Char) :
    isDefaultIgnorable c = true ↔ ∃ r ∈ defaultIgnorableRanges, r.1 ≤ c.toNat ∧ c.toNat ≤ r.2 :=
  inRanges_iff defaultIgnorableRanges_ascending c.toNat

end Comprehension.Text
