import Comprehension.Kind
import Comprehension.Normalize.Stats

/-! The log of a run: every change with the nodes concerned, and every refusal with its reason. -/

set_option autoImplicit false

namespace Comprehension.Normalize

inductive Level where
  | debug
  | trace
  deriving DecidableEq, Repr

def Level.text : Level → String
  | .debug => "DEBUG"
  | .trace => "TRACE"

inductive Event where
  | started (root : NodeId)
  | notFrom (query : NodeId)
  | userName (query : NodeId)
  | unrecognized (select : NodeId)
  | renamed (initializer : NodeId)
  | spliced (query inner : NodeId) (moved : Nat)
  | eliminated (query : NodeId) (stripped : Nat)
  | continued (clause inner : NodeId)
  | alreadyTyped (clause : NodeId)
  | notCast (clause source : NodeId)
  | castFolded (clause source : NodeId)
  | completed (stats : Stats)
  deriving DecidableEq, Repr

inductive FieldValue where
  | number (value : Nat)
  | text (value : String)
  deriving DecidableEq, Repr

namespace Event

def level : Event → Level
  | .started _ | .spliced .. | .eliminated .. | .continued .. | .castFolded .. | .completed _ => .debug
  | .notFrom _ | .userName _ | .unrecognized _ | .renamed _ | .alreadyTyped _ | .notCast .. => .trace

def message : Event → String
  | .started _ => "span run"
  | .notFrom _ => "first clause is not a from clause"
  | .userName _ => "nested query bound to a user identifier"
  | .unrecognized _ => "transparent select does not have a recognized shape"
  | .renamed _ => "first initializer renames its binding"
  | .spliced .. => "spliced nested query clauses"
  | .eliminated .. => "eliminated transparent identifier"
  | .continued .. => "folded nested query into continuation"
  | .alreadyTyped _ => "from clause already has an element type"
  | .notCast .. => "source is not a cast"
  | .castFolded .. => "folded cast into typed from clause"
  | .completed _ => "normalization complete"

def fields : Event → List (String × FieldValue)
  | .started root => [("root", .number root.index)]
  | .notFrom query => [("query", .text query.text)]
  | .userName query => [("query", .text query.text)]
  | .unrecognized select => [("select", .text select.text)]
  | .renamed initializer => [("reexport", .text initializer.text)]
  | .spliced query inner moved =>
    [("query", .text query.text), ("inner", .text inner.text), ("moved", .number moved)]
  | .eliminated query stripped => [("query", .text query.text), ("rewritten", .number stripped)]
  | .continued clause inner => [("clause", .text clause.text), ("inner", .text inner.text)]
  | .alreadyTyped clause => [("from", .text clause.text)]
  | .notCast clause source => [("from", .text clause.text), ("source", .text source.text)]
  | .castFolded clause source => [("from", .text clause.text), ("source", .text source.text)]
  | .completed stats => [("stats", .text stats.text)]

end Event

end Comprehension.Normalize
