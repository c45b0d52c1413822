import Comprehension.Store

/-! A store and the table of its names, and the steps by which nodes are added to them. -/

set_option autoImplicit false

namespace Comprehension

structure Session where
  store : Store
  names : NameTable

def Session.new : Session := ⟨.empty, .new⟩

abbrev BuildM := EStateM Fault Session

namespace BuildM

def intern (text : String) : BuildM Name :=
  modifyGet fun ⟨store, names⟩ =>
    let (name, names) := names.intern text
    (name, ⟨store, names⟩)

def alloc (span : Span) (kind : NodeKind) : BuildM NodeId :=
  modifyGet fun ⟨store, names⟩ =>
    let (id, store) := store.alloc kind span
    (id, ⟨store, names⟩)

def requireClause (id : NodeId) : BuildM Unit := fun s =>
  match s.store.kind id with
  | .ok k => if k.isClause then .ok () s else .error .notClause s
  | .error e => .error e s

/-- Adds a query. Its clauses are checked from the first to the last before it takes a slot. -/
def query (span : Span) (clauses : List NodeId) : BuildM NodeId := do
  clauses.forM requireClause
  alloc span (.query clauses)

end BuildM

end Comprehension
