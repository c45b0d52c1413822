import Comprehension.Session

/-! Terms: trees yet to be built, with the usual abbreviations. Building a term adds its parts in the
order in which they are written and then the node itself; the name of a node is interned after its
parts are built. -/

set_option autoImplicit false

namespace Comprehension

inductive Term where
  /-- A node that is already there; it is not looked at. -/
  | existing (id : NodeId)
  /-- A kind as it is, its names and children unchecked. -/
  | raw (kind : NodeKind)
  /-- A term whose nodes get this span. -/
  | located (span : Span) (term : Term)
  | query (clauses : List Term)
  | fromClause (ident : String) (source : Term)
  | typedFrom (elemType : Term) (ident : String) (source : Term)
  | letClause (ident : String) (value : Term)
  | whereClause (cond : Term)
  | orderBy (keys : List (Term × Direction))
  | groupBy (projection key : Term)
  | select (projection : Term)
  | continuation (preceding : Term) (ident : String)
  | ident (name : String) (typeArgs : List Term)
  | member (target : Term) (name : String) (typeArgs : List Term)
  /-- A chain of member accesses that starts at an identifier. -/
  | path (root : String) (members : List String)
  | call (target : Term) (args : List Term)
  /-- A call of a member. -/
  | methodCall (target : Term) (name : String) (typeArgs args : List Term)
  | record (initializers : List Term)
  | named (name : String) (value : Term)
  | int (value : Int)
  | str (value : String)
  | bool (value : Bool)
  | null
  | binary (op : BinaryOp) (left right : Term)
  | typeRef (name : String) (args : List Term)

namespace Term
open BuildM

mutual
def build (span : Span) : Term → BuildM NodeId
  | .existing id => return id
  | .raw kind => alloc span kind
  | .located inner term => build inner term
  | .query clauses => do
    BuildM.query span (← buildAll span clauses)
  | .fromClause x source => do
    let source ← build span source
    alloc span (.fromClause (← intern x) none source)
  | .typedFrom elemType x source => do
    let elemType ← build span elemType
    let source ← build span source
    alloc span (.fromClause (← intern x) (some elemType) source)
  | .letClause x value => do
    let value ← build span value
    alloc span (.letClause (← intern x) value)
  | .whereClause cond => do
    alloc span (.whereClause (← build span cond))
  | .orderBy keys => do
    let keys ← buildKeys span keys
    let orderings ← keys.mapM fun (key, direction) => alloc span (.ordering key direction)
    alloc span (.orderClause orderings)
  | .groupBy projection key => do
    let projection ← build span projection
    let key ← build span key
    alloc span (.groupClause projection key)
  | .select projection => do
    alloc span (.selectClause (← build span projection))
  | .continuation preceding x => do
    let preceding ← build span preceding
    alloc span (.continuation preceding (← intern x))
  | .ident x typeArgs => do
    let typeArgs ← buildAll span typeArgs
    alloc span (.ident (← intern x) typeArgs)
  | .member target x typeArgs => do
    let target ← build span target
    let typeArgs ← buildAll span typeArgs
    alloc span (.member target (← intern x) typeArgs)
  | .path root members => do
    let root ← alloc span (.ident (← intern root) [])
    members.foldlM (fun target x => do alloc span (.member target (← intern x) [])) root
  | .call target args => do
    let target ← build span target
    let args ← buildAll span args
    alloc span (.call target args)
  | .methodCall target x typeArgs args => do
    let target ← build span target
    let typeArgs ← buildAll span typeArgs
    let args ← buildAll span args
    let callee ← alloc span (.member target (← intern x) typeArgs)
    alloc span (.call callee args)
  | .record initializers => do
    alloc span (.record (← buildAll span initializers))
  | .named x value => do
    let value ← build span value
    alloc span (.named (← intern x) value)
  | .int value => alloc span (.literal (.int value))
  | .str value => do alloc span (.literal (.str (← intern value)))
  | .bool value => alloc span (.literal (.bool value))
  | .null => alloc span (.literal .null)
  | .binary op left right => do
    let left ← build span left
    let right ← build span right
    alloc span (.binary op left right)
  | .typeRef x args => do
    let args ← buildAll span args
    alloc span (.typeRef (← intern x) args)

def buildAll (span : Span) : List Term → BuildM (List NodeId)
  | [] => return []
  | term :: rest => do
    let id ← build span term
    return id :: (← buildAll span rest)

def buildKeys (span : Span) : List (Term × Direction) → BuildM (List (NodeId × Direction))
  | [] => return []
  | (term, direction) :: rest => do
    let id ← build span term
    return (id, direction) :: (← buildKeys span rest)
end

end Term

end Comprehension
