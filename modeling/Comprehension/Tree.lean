import Comprehension.Store

/-! Trees as values, in which nothing is shared. The nodes of a marked tree carry a mark each; in a
plain tree the marks say nothing and names are texts. Unfolding a store from a root gives the plain
tree that the root stands for. -/

set_option autoImplicit false

namespace Comprehension

inductive Marked (ι ν : Type) where
  | node (mark : ι) (kind : Kind ν (Marked ι ν))

abbrev Tree := Marked Unit String

namespace Marked

variable {ι ν : Type}

def mark : Marked ι ν → ι
  | .node m _ => m

def kind : Marked ι ν → Kind ν (Marked ι ν)
  | .node _ k => k

def children (t : Marked ι ν) : List (Marked ι ν) := t.kind.children

section
variable {β : Type} (f : ι → Kind ν β → β)

mutual
def fold : Marked ι ν → β
  | .node m k => f m (foldKind k)

def foldKind : Kind ν (Marked ι ν) → Kind ν β
  | .query clauses => .query (foldList clauses)
  | .fromClause x elemType source => .fromClause x (foldOption elemType) (fold source)
  | .letClause x value => .letClause x (fold value)
  | .whereClause cond => .whereClause (fold cond)
  | .orderClause orderings => .orderClause (foldList orderings)
  | .ordering key direction => .ordering (fold key) direction
  | .groupClause projection key => .groupClause (fold projection) (fold key)
  | .selectClause projection => .selectClause (fold projection)
  | .continuation preceding x => .continuation (fold preceding) x
  | .record initializers => .record (foldList initializers)
  | .named x value => .named x (fold value)
  | .ident x typeArgs => .ident x (foldList typeArgs)
  | .member target x typeArgs => .member (fold target) x (foldList typeArgs)
  | .call target args => .call (fold target) (foldList args)
  | .literal value => .literal value
  | .binary op left right => .binary op (fold left) (fold right)
  | .typeRef x args => .typeRef x (foldList args)

def foldList : List (Marked ι ν) → List β
  | [] => []
  | t :: rest => fold t :: foldList rest

def foldOption : Option (Marked ι ν) → Option β
  | none => none
  | some t => some (fold t)
end

@[simp] theorem foldList_eq_map (trees : List (Marked ι ν)) : foldList f trees = trees.map (fold f) := by
  induction trees with
  | nil => simp [foldList]
  | cons t rest ih => simp [foldList, ih]

@[simp] theorem foldOption_eq_map (tree : Option (Marked ι ν)) : foldOption f tree = tree.map (fold f) := by
  cases tree <;> simp [foldOption]

theorem foldKind_eq_map (k : Kind ν (Marked ι ν)) : foldKind f k = k.map id (fold f) := by
  cases k with
  | literal value => cases value <;> simp [foldKind, Kind.map, Literal.map]
  | _ => simp [foldKind, Kind.map]

theorem fold_node (m : ι) (k : Kind ν (Marked ι ν)) :
    fold f (.node m k) = f m (k.map id (fold f)) := by
  rw [fold, foldKind_eq_map]

end

theorem sizeOf_lt_of_mem_children {t : Marked ι ν} {m : ι} {k : Kind ν (Marked ι ν)}
    (h : t ∈ k.children) : sizeOf t < sizeOf (Marked.node m k) := by
  cases k with
  | fromClause x elemType source =>
    cases elemType <;> simp [Kind.children] at h <;> rcases h with rfl | rfl <;> simp <;> omega
  | query l | orderClause l | record l | ident _ l | typeRef _ l =>
    have : sizeOf t < sizeOf l := List.sizeOf_lt_of_mem h
    simp
    omega
  | member _ _ l | call _ l =>
    simp only [Kind.children, List.mem_cons] at h
    rcases h with rfl | h
    · simp; omega
    · have := List.sizeOf_lt_of_mem h
      simp; omega
  | literal _ => simp [Kind.children] at h
  | groupClause _ _ | binary _ _ _ =>
    simp [Kind.children] at h
    rcases h with rfl | rfl <;> simp <;> omega
  | _ =>
    simp [Kind.children] at h
    subst h
    simp
    try omega

@[elab_as_elim]
theorem induction {P : Marked ι ν → Prop} (step : ∀ m k, (∀ t ∈ k.children, P t) → P (.node m k))
    (t : Marked ι ν) : P t :=
  match t with
  | .node m k => step m k fun c _ => induction step c
termination_by sizeOf t
decreasing_by
  apply sizeOf_lt_of_mem_children
  assumption

end Marked

/-- The tree below a node, names resolved by the table. A path may take as many steps as the first
argument says; nodes are read in the order in which they are written. -/
def Store.unfoldWithin (s : Store) (names : NameTable) : Nat → NodeId → Except Fault Tree
  | 0, _ => .error .cyclic
  | budget + 1, id => do
    let k ← (← s.kind id).traverse (s.unfoldWithin names budget)
    return .node () (k.map names.lookup (fun t => t))

def Store.unfold (s : Store) (names : NameTable) (root : NodeId) : Except Fault Tree :=
  s.unfoldWithin names (s.size + 1) root

end Comprehension
