import Std.Data.HashMap
import Comprehension.Capacity

/-! Names by number. A table gives every text it has seen one number, in order of first occurrence,
and number zero belongs to the empty text from the start. -/

set_option autoImplicit false

namespace Comprehension

structure Name where
  index : Nat
  deriving DecidableEq, Hashable, Ord, Repr

namespace Name

def empty : Name := ⟨0⟩

def isEmpty (n : Name) : Bool := n = empty

def text (n : Name) : String := "Name(" ++ toString n.index ++ ")"

end Name

structure NameTable where
  texts : Array String
  numbers : Std.HashMap String Name

namespace NameTable

def new : NameTable where
  texts := #[""]
  numbers := (∅ : Std.HashMap String Name).insert "" Name.empty

def size (t : NameTable) : Nat := t.texts.size

def isEmpty (t : NameTable) : Bool := t.texts.isEmpty

/-- The text of a name. A number that the table has not handed out stands for the empty text. -/
def lookup (t : NameTable) (n : Name) : String := t.texts[n.index]?.getD ""

def intern (t : NameTable) (text : String) : Name × NameTable :=
  match t.numbers[text]? with
  | some n => (n, t)
  | none => (⟨t.size⟩, ⟨t.texts.push text, t.numbers.insert text ⟨t.size⟩⟩)

def tryIntern (t : NameTable) (text : String) : Except CapacityError (Name × NameTable) :=
  if text ∉ t.numbers ∧ maxIndex < t.size then .error (.names t.size) else .ok (t.intern text)

theorem intern_known {t : NameTable} {text : String} {n : Name} (h : t.numbers[text]? = some n) :
    t.intern text = (n, t) := by
  simp [intern, h]

theorem intern_fresh {t : NameTable} {text : String} (h : t.numbers[text]? = none) :
    t.intern text = (⟨t.size⟩, ⟨t.texts.push text, t.numbers.insert text ⟨t.size⟩⟩) := by
  simp [intern, h]

end NameTable

end Comprehension
