import Comprehension.Normalize.Failure
import Comprehension.Pattern.Match

/-! Elimination of transparent names. A nested query that selects two bindings into a record, to be
bound to a transparent name, gives its clauses to the query around it:

    from t in (from x in xs select new { x, y = x.Length }) where t.y > 1 select t.x
    from x in xs let y = x.Length where t.y > 1 select t.x

What is to be done is decided before anything is changed, so a refusal or a broken record leaves the
store as it was. -/

set_option autoImplicit false

namespace Comprehension.Normalize

inductive Refusal where
  | userName
  | noClauses
  /-- Its last clause does not select a record of two bindings. -/
  | unrecognized (select : NodeId)
  /-- The first initializer gives its binding another name. -/
  | renamed (initializer : NodeId)
  deriving DecidableEq, Repr

/-- A recognized record: the value of its second initializer, and the name that a let clause has to
give it, unless it is a binding under its own name. -/
structure Splice where
  value : NodeId
  binding : Option Name
  deriving DecidableEq, Repr

/-- The last clause of a nested query that can be eliminated: `select new { x = x, y = e }`, or
`select new { x, y = e }` with the second name optional. -/
def selectShape : Pattern :=
  let value := Pattern.any (some "second_expr")
  let declared := Pattern.capture "second" (.named .any value)
  .select (.choice [
    .record [.capture "reexport" (.named .any (.ident .any)), declared],
    .record [.ident .any, .choice [declared, value]]])

def isReexport (store : Store) (initializer : NodeId) : Except Fault Bool := do
  match ← store.kind initializer with
  | .named x value =>
    match ← store.kind value with
    | .ident y _ => return x = y
    | _ => return false
  | _ => return false

def declaredName (store : Store) (initializer : NodeId) : Except Fault (Option Name) := do
  match ← store.kind initializer with
  | .named x _ => return some x
  | _ => return none

/-- The name of the let clause for a second initializer with this value. A binding under its own name
needs none; a value without a declared name is named after the member that it accesses. -/
def bindingName (declared : Option Name) (value : NodeId) (node : Node) :
    Except BrokenInvariant (Option Name) :=
  match declared, node.kind with
  | none, .ident .. => .ok none
  | none, .member _ x _ => .ok (some x)
  | none, kind => .error ⟨value, node.span, .unnamedInitializer kind.describe⟩
  | some x, .ident y _ => .ok (if x = y then none else some x)
  | some x, _ => .ok (some x)

def planSplice (transparent : Name → Bool) (names : NameTable) (store : Store) (ident : Name)
    (inner : NodeId) : Except Failure (Except Refusal Splice) := do
  if !transparent ident then return .error .userName
  let some select := (← store.clauses inner).getLast? | return .error .noClauses
  let some m ← selectShape.match? store names select | return .error (.unrecognized select)
  if let some initializer := m.first? "reexport" then
    let plain ← isReexport store initializer
    if !plain then return .error (.renamed initializer)
  -- Both shapes record the value, so the alternative is not taken.
  let some value := m.first? "second_expr" | return .error (.unrecognized select)
  let declared ← match m.first? "second" with
    | some initializer => declaredName store initializer
    | none => pure none
  match bindingName declared value (← store.node value) with
  | .ok binding => return .ok ⟨value, binding⟩
  | .error e => throw (.broken e)

/-- Moves all clauses of a nested query but the last one, and a let clause if there is a binding, to
the place of the first clause of the query around it. Returns how many clauses took that place. -/
def splice (query inner : NodeId) (plan : Splice) : StoreM Nat := do
  let taken ← StoreM.read (·.clauses inner)
  modify (·.setClauses inner [])
  let moved ← match plan.binding with
    | none => pure taken.dropLast
    | some x => do
      let span ← StoreM.read (·.span plan.value)
      let added ← modifyGet (·.alloc (.letClause x plan.value) span)
      pure (taken.dropLast ++ [added])
  let clauses ← StoreM.read (·.clauses query)
  modify (·.setClauses query (moved ++ clauses.tail))
  return moved.length

end Comprehension.Normalize
