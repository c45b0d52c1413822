import Comprehension.Proofs.Subtree

/-! Free names. A clause binds a name for the clauses after it in the same query; what a tree refers to
without such a clause around it is free in it. Names of members, fields and types are no references. -/

set_option autoImplicit false

namespace Comprehension

variable {ι κ ν : Type}

def Kind.binder? {α : Type} : Kind ν α → Option ν
  | .fromClause x _ _ | .letClause x _ | .continuation _ x => some x
  | _ => none

@[simp] theorem Kind.binder?_map {α β : Type} (child : α → β) (k : Kind ν α) :
    (k.map id child).binder? = k.binder? := by
  cases k <;> rfl

namespace Marked

def binders (clauses : List (Marked ι ν)) : List ν := clauses.filterMap (·.kind.binder?)

theorem binders_append (clauses more : List (Marked ι ν)) :
    binders (clauses ++ more) = binders clauses ++ binders more := List.filterMap_append

theorem mem_binders_cons {c : Marked ι ν} {clauses : List (Marked ι ν)} {x : ν} :
    x ∈ binders (c :: clauses) ↔ c.kind.binder? = some x ∨ x ∈ binders clauses := by
  simp [binders]

theorem binders_singleton (c : Marked ι ν) : binders [c] = c.kind.binder?.toList := by
  rw [binders, List.filterMap_cons]
  cases c.kind.binder? <;> rfl

section
variable [DecidableEq ν]

def freeOfClauses : List (Option ν × List ν) → List ν
  | [] => []
  | (binder, names) :: rest => names ++ (freeOfClauses rest).filter (binder ≠ some ·)

def freeLayer : Kind ν (Option ν × List ν) → List ν
  | .query clauses => freeOfClauses clauses
  | .ident x typeArgs => x :: typeArgs.flatMap Prod.snd
  | k => k.children.flatMap Prod.snd

/-- The free names of a tree, together with the name that it binds for others. -/
def bindings : Marked ι ν → Option ν × List ν := fold fun _ k => (k.binder?, freeLayer k)

def freeNames (t : Marked ι ν) : List ν := t.bindings.2

def unbound (clauses : List (Marked ι ν)) : List ν := freeOfClauses (clauses.map bindings)

theorem bindings_node (m : ι) (k : Kind ν (Marked ι ν)) :
    (node m k).bindings = (k.binder?, freeLayer (k.map id bindings)) := by
  rw [← Kind.binder?_map bindings k]
  exact fold_node _ m k

theorem bindings_fst (t : Marked ι ν) : t.bindings.1 = t.kind.binder? := by
  obtain ⟨m, k⟩ := t
  rw [bindings_node, kind_node]

theorem freeNames_query (m : ι) (clauses : List (Marked ι ν)) :
    (node m (.query clauses)).freeNames = unbound clauses := by
  rw [freeNames, bindings_node]
  rfl

theorem freeNames_ident (m : ι) (x : ν) (typeArgs : List (Marked ι ν)) :
    (node m (.ident x typeArgs)).freeNames = x :: typeArgs.flatMap freeNames := by
  rw [freeNames, bindings_node]
  exact congrArg (x :: ·) (List.flatMap_map ..)

theorem freeNames_other {m : ι} {k : Kind ν (Marked ι ν)} (other : k.isQuery = false)
    (noIdent : ∀ x typeArgs, k ≠ .ident x typeArgs) :
    (node m k).freeNames = k.children.flatMap freeNames := by
  have layer : freeLayer (k.map id bindings) = (k.map id bindings).children.flatMap Prod.snd := by
    cases k with
    | query => cases other
    | ident => exact absurd rfl (noIdent _ _)
    | _ => rfl
  rw [freeNames, bindings_node, layer, Kind.children_map, List.flatMap_map]
  rfl

/-- A layer has no names but those of its children and its own. -/
theorem freeNames_map_subset {m : ι} {k : Kind ν (Marked ι ν)} {f : Marked ι ν → Marked ι ν}
    (other : k.isQuery = false) (children : ∀ c ∈ k.children, (f c).freeNames ⊆ c.freeNames) :
    (node m (k.map id f)).freeNames ⊆ (node m k).freeNames := by
  have all {l : List (Marked ι ν)} (inside : ∀ c ∈ l, (f c).freeNames ⊆ c.freeNames) :
      (l.map f).flatMap freeNames ⊆ l.flatMap freeNames := by
    rw [List.flatMap_map]
    intro z member
    obtain ⟨c, child, here⟩ := List.mem_flatMap.mp member
    exact List.mem_flatMap.mpr ⟨c, child, inside c child here⟩
  cases k with
  | query => cases other
  | ident x typeArgs =>
    rw [Kind.map, freeNames_ident, freeNames_ident]
    exact List.cons_subset_cons x (all children)
  | _ =>
    rw [freeNames_other (by rwa [Kind.isQuery_map]) (by simp [Kind.map]), freeNames_other other (by simp),
      Kind.children_map]
    exact all children

theorem unbound_nil : unbound ([] : List (Marked ι ν)) = [] := rfl

theorem mem_unbound_cons {c : Marked ι ν} {clauses : List (Marked ι ν)} {x : ν} :
    x ∈ unbound (c :: clauses) ↔ x ∈ c.freeNames ∨ c.kind.binder? ≠ some x ∧ x ∈ unbound clauses := by
  have split : unbound (c :: clauses) = c.freeNames ++ (unbound clauses).filter (c.bindings.1 ≠ some ·) := rfl
  rw [split, List.mem_append, List.mem_filter, bindings_fst]
  simp [and_comm]

theorem mem_unbound_append {clauses more : List (Marked ι ν)} {x : ν} :
    x ∈ unbound (clauses ++ more) ↔
      x ∈ unbound clauses ∨ x ∉ binders clauses ∧ x ∈ unbound more := by
  induction clauses with
  | nil => simp [unbound_nil, binders]
  | cons c clauses ih =>
    rw [List.cons_append, mem_unbound_cons, ih, mem_unbound_cons, mem_binders_cons]
    tauto

theorem mem_unbound_singleton {c : Marked ι ν} {x : ν} : x ∈ unbound [c] ↔ x ∈ c.freeNames := by
  simp [mem_unbound_cons, unbound_nil]

theorem bindings_map (f : ι → κ) (t : Marked ι ν) : (t.map f id).bindings = t.bindings := by
  induction t using Marked.induction with
  | step m k ih =>
    have same : k.map (id ∘ id) (bindings ∘ map f id) = k.map id bindings := Kind.map_children_congr ih
    rw [map_node, bindings_node, bindings_node, Kind.map_map, same, Kind.binder?_map]

theorem freeNames_map (f : ι → κ) (t : Marked ι ν) : (t.map f id).freeNames = t.freeNames :=
  congrArg Prod.snd (bindings_map f t)

end

end Marked

end Comprehension
