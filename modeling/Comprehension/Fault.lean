/-! The ways in which an access to a store can fail. -/

set_option autoImplicit false

namespace Comprehension

inductive Fault where
  | outOfRange (size index : Nat)
  | notClause
  /-- A path longer than the store, which only a node below itself has. -/
  | cyclic
  deriving DecidableEq, Repr

def Fault.message : Fault → String
  | .outOfRange size index =>
    "index out of bounds: the len is " ++ toString size ++ " but the index is " ++ toString index
  | .notClause => "query built from a non-clause node"
  | .cyclic => "node is reachable from itself"

end Comprehension
