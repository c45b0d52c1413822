import Comprehension.Fault
import Comprehension.Kind
import Comprehension.Span

/-! Why a run ends early: a tree that the producer of transparent names promises not to make, or a
fault of the store. -/

set_option autoImplicit false

namespace Comprehension.Normalize

inductive Violation where
  /-- An initializer that declares no name and whose kind implies none. -/
  | unnamedInitializer (found : String)
  deriving DecidableEq, Repr

def Violation.message : Violation → String
  | .unnamedInitializer found =>
    "could not infer name from " ++ found ++ " initializer in synthesized anonymous record"

structure BrokenInvariant where
  node : NodeId
  span : Span
  violation : Violation
  deriving DecidableEq, Repr

def BrokenInvariant.message (e : BrokenInvariant) : String :=
  "broken compiler invariant at " ++ e.node.text ++ " (" ++ e.span.text ++ "): " ++ e.violation.message

inductive Failure where
  | broken (error : BrokenInvariant)
  | fault (fault : Fault)
  deriving DecidableEq, Repr

def Failure.ofFault {α : Type} : Except Fault α → Except Failure α
  | .ok a => .ok a
  | .error f => .error (.fault f)

instance : MonadLift (Except Fault) (Except Failure) := ⟨Failure.ofFault⟩

end Comprehension.Normalize
