import Comprehension.Pattern.Match

/-! Element types from casts: `from x in xs.Cast<T>()` becomes `from T x in xs`. A clause with an
element type keeps its source, so of two casts only the outer one is taken. -/

set_option autoImplicit false

namespace Comprehension.Normalize

inductive CastRefusal where
  /-- It is not a from clause, or one with an element type. -/
  | alreadyTyped
  | notCast (source : NodeId)
  deriving DecidableEq, Repr

structure Cast where
  ident : Name
  source : NodeId
  base : NodeId
  elemType : NodeId
  deriving DecidableEq, Repr

def castShape (method : String) : Pattern :=
  .call (.member (.any (some "base")) (.exactly method) [.any (some "elem_ty")]) []

def planCast (method : String) (names : NameTable) (store : Store) (clause : NodeId) :
    Except Fault (Except CastRefusal Cast) := do
  match ← store.kind clause with
  | .fromClause ident none source =>
    let some m ← (castShape method).match? store names source | return .error (.notCast source)
    -- The shape records both parts, so the last alternative is not taken.
    match m.first? "base", m.first? "elem_ty" with
    | some base, some elemType => return .ok ⟨ident, source, base, elemType⟩
    | _, _ => return .error (.notCast source)
  | _ => return .error .alreadyTyped

def Cast.folded (cast : Cast) : NodeKind := .fromClause cast.ident (some cast.elemType) cast.base

end Comprehension.Normalize
