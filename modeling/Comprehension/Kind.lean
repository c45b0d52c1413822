/-! The shapes of query nodes. A kind is given over the type of its names and the type of its
children: with numbers for both it is what a store holds, with texts and trees it is one layer of
a tree. -/

set_option autoImplicit false

namespace Comprehension

structure NodeId where
  index : Nat
  deriving DecidableEq, Hashable, Ord, Repr

def NodeId.text (id : NodeId) : String := "NodeId(" ++ toString id.index ++ ")"

inductive Direction where
  | ascending
  | descending
  deriving DecidableEq, Repr

inductive BinaryOp where
  | add | sub | mul | div | eq | notEq | lt | ltEq | gt | gtEq | and | or
  deriving DecidableEq, Repr

def BinaryOp.symbol : BinaryOp → String
  | .add => "+"
  | .sub => "-"
  | .mul => "*"
  | .div => "/"
  | .eq => "=="
  | .notEq => "!="
  | .lt => "<"
  | .ltEq => "<="
  | .gt => ">"
  | .gtEq => ">="
  | .and => "&&"
  | .or => "||"

inductive Literal (ν : Type) where
  | int (value : Int)
  | str (value : ν)
  | bool (value : Bool)
  | null
  deriving DecidableEq, Repr

def Literal.map {ν μ : Type} (f : ν → μ) : Literal ν → Literal μ
  | .int value => .int value
  | .str value => .str (f value)
  | .bool value => .bool value
  | .null => .null

inductive Kind (ν α : Type) where
  | query (clauses : List α)
  | fromClause (ident : ν) (elemType : Option α) (source : α)
  | letClause (ident : ν) (value : α)
  | whereClause (cond : α)
  | orderClause (orderings : List α)
  | ordering (key : α) (direction : Direction)
  | groupClause (projection key : α)
  | selectClause (projection : α)
  | continuation (preceding : α) (ident : ν)
  | record (initializers : List α)
  | named (name : ν) (value : α)
  | ident (name : ν) (typeArgs : List α)
  | member (target : α) (name : ν) (typeArgs : List α)
  | call (target : α) (args : List α)
  | literal (value : Literal ν)
  | binary (op : BinaryOp) (left right : α)
  | typeRef (name : ν) (args : List α)
  deriving DecidableEq, Repr

namespace Kind

variable {ν μ α β : Type}

def children : Kind ν α → List α
  | .query clauses => clauses
  | .fromClause _ elemType source => elemType.toList ++ [source]
  | .letClause _ value => [value]
  | .whereClause cond => [cond]
  | .orderClause orderings => orderings
  | .ordering key _ => [key]
  | .groupClause projection key => [projection, key]
  | .selectClause projection => [projection]
  | .continuation preceding _ => [preceding]
  | .record initializers => initializers
  | .named _ value => [value]
  | .ident _ typeArgs => typeArgs
  | .member target _ typeArgs => target :: typeArgs
  | .call target args => target :: args
  | .literal _ => []
  | .binary _ left right => [left, right]
  | .typeRef _ args => args

def map (name : ν → μ) (child : α → β) : Kind ν α → Kind μ β
  | .query clauses => .query (clauses.map child)
  | .fromClause x elemType source => .fromClause (name x) (elemType.map child) (child source)
  | .letClause x value => .letClause (name x) (child value)
  | .whereClause cond => .whereClause (child cond)
  | .orderClause orderings => .orderClause (orderings.map child)
  | .ordering key direction => .ordering (child key) direction
  | .groupClause projection key => .groupClause (child projection) (child key)
  | .selectClause projection => .selectClause (child projection)
  | .continuation preceding x => .continuation (child preceding) (name x)
  | .record initializers => .record (initializers.map child)
  | .named x value => .named (name x) (child value)
  | .ident x typeArgs => .ident (name x) (typeArgs.map child)
  | .member target x typeArgs => .member (child target) (name x) (typeArgs.map child)
  | .call target args => .call (child target) (args.map child)
  | .literal value => .literal (value.map name)
  | .binary op left right => .binary op (child left) (child right)
  | .typeRef x args => .typeRef (name x) (args.map child)

def traverse {m : Type → Type} [Monad m] (child : α → m β) : Kind ν α → m (Kind ν β)
  | .query clauses => return .query (← clauses.mapM child)
  | .fromClause x elemType source => return .fromClause x (← elemType.mapM child) (← child source)
  | .letClause x value => return .letClause x (← child value)
  | .whereClause cond => return .whereClause (← child cond)
  | .orderClause orderings => return .orderClause (← orderings.mapM child)
  | .ordering key direction => return .ordering (← child key) direction
  | .groupClause projection key => return .groupClause (← child projection) (← child key)
  | .selectClause projection => return .selectClause (← child projection)
  | .continuation preceding x => return .continuation (← child preceding) x
  | .record initializers => return .record (← initializers.mapM child)
  | .named x value => return .named x (← child value)
  | .ident x typeArgs => return .ident x (← typeArgs.mapM child)
  | .member target x typeArgs => return .member (← child target) x (← typeArgs.mapM child)
  | .call target args => return .call (← child target) (← args.mapM child)
  | .literal value => return .literal value
  | .binary op left right => return .binary op (← child left) (← child right)
  | .typeRef x args => return .typeRef x (← args.mapM child)

def describe : Kind ν α → String
  | .query _ => "query"
  | .fromClause .. => "from clause"
  | .letClause .. => "let clause"
  | .whereClause _ => "where clause"
  | .orderClause _ => "orderby clause"
  | .ordering .. => "ordering"
  | .groupClause .. => "group clause"
  | .selectClause _ => "select clause"
  | .continuation .. => "continuation clause"
  | .record _ => "anonymous record"
  | .named .. => "named initializer"
  | .ident .. => "identifier"
  | .member .. => "member access"
  | .call .. => "call"
  | .literal _ => "literal"
  | .binary .. => "binary expression"
  | .typeRef .. => "type"

def isQuery : Kind ν α → Bool
  | .query _ => true
  | _ => false

/-- Whether a query may list a node of this kind. An ordering is part of a clause and is none. -/
def isClause : Kind ν α → Bool
  | .fromClause .. | .letClause .. | .whereClause _ | .orderClause _ | .groupClause ..
  | .selectClause _ | .continuation .. => true
  | _ => false

def clauses : Kind ν α → List α
  | .query clauses => clauses
  | _ => []

@[simp] theorem children_map (name : ν → μ) (child : α → β) (k : Kind ν α) :
    (k.map name child).children = k.children.map child := by
  cases k with
  | fromClause x elemType source => cases elemType <;> simp [map, children]
  | _ => simp [map, children]

@[simp] theorem describe_map (name : ν → μ) (child : α → β) (k : Kind ν α) :
    (k.map name child).describe = k.describe := by
  cases k <;> rfl

@[simp] theorem isQuery_map (name : ν → μ) (child : α → β) (k : Kind ν α) :
    (k.map name child).isQuery = k.isQuery := by
  cases k <;> rfl

@[simp] theorem isClause_map (name : ν → μ) (child : α → β) (k : Kind ν α) :
    (k.map name child).isClause = k.isClause := by
  cases k <;> rfl

@[simp] theorem clauses_map (name : ν → μ) (child : α → β) (k : Kind ν α) :
    (k.map name child).clauses = k.clauses.map child := by
  cases k <;> rfl

theorem map_id (k : Kind ν α) : k.map id id = k := by
  cases k with
  | literal value => cases value <;> rfl
  | _ => simp [map]

end Kind

end Comprehension
