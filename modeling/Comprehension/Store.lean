import Comprehension.Capacity
import Comprehension.Fault
import Comprehension.Kind
import Comprehension.Name
import Comprehension.Span

/-! Nodes by number. A store only grows; a slot can be overwritten, so that every parent that refers
to it sees the new kind, and a node that nothing refers to any more keeps its slot. Children may
dangle and may be shared: a store by itself promises nothing about them. -/

set_option autoImplicit false

namespace Comprehension

abbrev NodeKind := Kind Name NodeId

structure Node where
  kind : NodeKind
  span : Span
  deriving DecidableEq, Repr

structure Store where
  nodes : Array Node
  deriving DecidableEq, Repr

namespace Store

def empty : Store := ⟨#[]⟩

def size (s : Store) : Nat := s.nodes.size

def isEmpty (s : Store) : Bool := s.nodes.isEmpty

def node? (s : Store) (id : NodeId) : Option Node := s.nodes[id.index]?

def kind? (s : Store) (id : NodeId) : Option NodeKind := (s.node? id).map Node.kind

def node (s : Store) (id : NodeId) : Except Fault Node :=
  match s.node? id with
  | some n => .ok n
  | none => .error (.outOfRange s.size id.index)

def kind (s : Store) (id : NodeId) : Except Fault NodeKind :=
  match s.kind? id with
  | some k => .ok k
  | none => .error (.outOfRange s.size id.index)

def span (s : Store) (id : NodeId) : Except Fault Span :=
  match s.node? id with
  | some n => .ok n.span
  | none => .error (.outOfRange s.size id.index)

def alloc (s : Store) (kind : NodeKind) (span : Span) : NodeId × Store :=
  (⟨s.size⟩, ⟨s.nodes.push ⟨kind, span⟩⟩)

def tryAlloc (s : Store) (kind : NodeKind) (span : Span) : Except CapacityError (NodeId × Store) :=
  if maxIndex < s.size then .error (.nodes s.size) else .ok (s.alloc kind span)

/-- Overwrites the kind in a slot and keeps its span; a slot not in use stays so. -/
def put (s : Store) (id : NodeId) (kind : NodeKind) : Store :=
  ⟨s.nodes.modify id.index fun n => { n with kind }⟩

def replace (s : Store) (id : NodeId) (kind : NodeKind) : Except Fault (NodeKind × Store) := do
  let old ← s.kind id
  return (old, s.put id kind)

def children (s : Store) (id : NodeId) : Except Fault (List NodeId) :=
  return (← s.kind id).children

def clauses (s : Store) (id : NodeId) : Except Fault (List NodeId) :=
  return (← s.kind id).clauses

def setClauses (s : Store) (id : NodeId) (clauses : List NodeId) : Store :=
  match s.kind? id with
  | some (.query _) => s.put id (.query clauses)
  | _ => s

def takeClauses (s : Store) (id : NodeId) : Except Fault (List NodeId × Store) :=
  return (← s.clauses id, s.setClauses id [])

def pushClause (s : Store) (id clause : NodeId) : Except Fault (Option (List NodeId) × Store) := do
  match ← s.kind id with
  | .query clauses =>
    let clauses := clauses ++ [clause]
    return (some clauses, s.put id (.query clauses))
  | _ => return (none, s)

/-! ### What the operations do to a slot -/

@[simp] theorem size_alloc (s : Store) (kind : NodeKind) (span : Span) :
    (s.alloc kind span).2.size = s.size + 1 := by
  simp [alloc, size]

@[simp] theorem size_put (s : Store) (id : NodeId) (kind : NodeKind) :
    (s.put id kind).size = s.size := by
  simp [put, size]

theorem node?_eq_none_iff {s : Store} {id : NodeId} : s.node? id = none ↔ s.size ≤ id.index := by
  simp [node?, size]

theorem node?_alloc (s : Store) (kind : NodeKind) (span : Span) (id : NodeId) :
    (s.alloc kind span).2.node? id = if id.index = s.size then some ⟨kind, span⟩ else s.node? id := by
  unfold alloc node? size
  rw [Array.getElem?_push]

theorem node?_put (s : Store) (id other : NodeId) (kind : NodeKind) :
    (s.put id kind).node? other =
      if id = other then (s.node? other).map fun n => { n with kind } else s.node? other := by
  cases id; cases other
  simp [put, node?, Array.getElem?_modify]

@[simp] theorem kind?_put_self {s : Store} {id : NodeId} {old : NodeKind} (h : s.kind? id = some old)
    (kind : NodeKind) : (s.put id kind).kind? id = some kind := by
  obtain ⟨n, hn, _⟩ := Option.map_eq_some_iff.mp h
  simp [kind?, node?_put, hn]

theorem kind?_put_of_ne {s : Store} {id other : NodeId} (h : id ≠ other) (kind : NodeKind) :
    (s.put id kind).kind? other = s.kind? other := by
  simp [kind?, node?_put, h]

theorem setClauses_query {s : Store} {id : NodeId} {old : List NodeId}
    (h : s.kind? id = some (.query old)) (clauses : List NodeId) :
    s.setClauses id clauses = s.put id (.query clauses) := by
  simp [setClauses, h]

@[simp] theorem size_setClauses (s : Store) (id : NodeId) (clauses : List NodeId) :
    (s.setClauses id clauses).size = s.size := by
  unfold setClauses
  split <;> simp

theorem kind_eq_ok_iff {s : Store} {id : NodeId} {k : NodeKind} :
    s.kind id = .ok k ↔ s.kind? id = some k := by
  unfold kind
  cases s.kind? id <;> simp

end Store

/-- Programs over one store. A fault keeps the changes made before it. -/
abbrev StoreM := EStateM Fault Store

def StoreM.read {α : Type} (f : Store → Except Fault α) : StoreM α := fun s =>
  match f s with
  | .ok a => .ok a s
  | .error e => .error e s

end Comprehension
