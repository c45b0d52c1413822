import Comprehension.Text.Quoted
import Comprehension.Tree

/-! Trees in comprehension notation. A nested query always stands in parentheses, and so does a
binary expression that is an operand, the target of a member access or the target of a call. Names
are written as they are. -/

set_option autoImplicit false

namespace Comprehension

def separated (sep : String) : List String → String
  | [] => ""
  | [text] => text
  | text :: next :: rest => text ++ sep ++ separated sep (next :: rest)

/-- What decides whether a part is parenthesized. -/
inductive Form where
  | query
  | binary
  | simple
  deriving DecidableEq, Repr

def Form.ofKind {ν α : Type} : Kind ν α → Form
  | .query _ => .query
  | .binary .. => .binary
  | _ => .simple

structure Part where
  form : Form
  text : String
  deriving DecidableEq, Repr

namespace Part

def parenthesized (p : Part) : String := "(" ++ p.text ++ ")"

def expr (p : Part) : String :=
  match p.form with
  | .query => p.parenthesized
  | .binary | .simple => p.text

def operand (p : Part) : String :=
  match p.form with
  | .query | .binary => p.parenthesized
  | .simple => p.text

def list (parts : List Part) : String := separated ", " (parts.map expr)

def typeArgs : List Part → String
  | [] => ""
  | parts => "<" ++ list parts ++ ">"

end Part

def Literal.print (hidden : Char → Bool) : Literal String → String
  | .int value => toString value
  | .str value => Text.quote hidden value
  | .bool true => "true"
  | .bool false => "false"
  | .null => "null"

def Kind.print (hidden : Char → Bool) : Kind String Part → String
  | .query clauses => separated " " (clauses.map Part.text)
  | .fromClause x none source => "from " ++ x ++ " in " ++ source.expr
  | .fromClause x (some elemType) source =>
    "from " ++ elemType.text ++ " " ++ x ++ " in " ++ source.expr
  | .letClause x value => "let " ++ x ++ " = " ++ value.expr
  | .whereClause cond => "where " ++ cond.expr
  | .orderClause orderings => "orderby " ++ Part.list orderings
  | .ordering key .ascending => key.expr
  | .ordering key .descending => key.expr ++ " descending"
  | .groupClause projection key => "group " ++ projection.expr ++ " by " ++ key.expr
  | .selectClause projection => "select " ++ projection.expr
  | .continuation preceding x => preceding.text ++ " into " ++ x
  | .record [] => "new \x7b \x7d"
  | .record initializers => "new \x7b " ++ Part.list initializers ++ " \x7d"
  | .named x value => x ++ " = " ++ value.expr
  | .ident x typeArgs => x ++ Part.typeArgs typeArgs
  | .member target x typeArgs => target.operand ++ "." ++ x ++ Part.typeArgs typeArgs
  | .call target args => target.operand ++ "(" ++ Part.list args ++ ")"
  | .literal value => value.print hidden
  | .binary op left right => left.operand ++ " " ++ op.symbol ++ " " ++ right.operand
  | .typeRef x args => x ++ Part.typeArgs args

namespace Tree

def part (hidden : Char → Bool) : Tree → Part :=
  Marked.fold fun _ k => ⟨Form.ofKind k, k.print hidden⟩

def render (hidden : Char → Bool) (t : Tree) : String := (t.part hidden).text

theorem render_node (hidden : Char → Bool) (k : Kind String Tree) :
    render hidden (.node () k) = (k.map id (part hidden)).print hidden := by
  simp [render, part, Marked.fold_node]

end Tree

def Store.render (s : Store) (names : NameTable) (root : NodeId) : Except Fault String :=
  return (← s.unfold names root).render Text.isHidden

end Comprehension
