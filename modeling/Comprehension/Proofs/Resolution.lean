import Comprehension.Proofs.Canonical

/-! References to variables that are in records. Queries that range over records under transparent
names reach a variable by member accesses; cleaning leaves the variable. -/

set_option autoImplicit false

namespace Comprehension.Desugaring
open Normalize

/-- The variables in scope, each with the transparent names on the way to it. -/
abbrev Scope := List (String × List String)

def Scope.way (scope : Scope) (x : String) : List String := (scope.lookup x).getD []

def Scope.enter (scope : Scope) (via x : String) : Scope :=
  (x, [via]) :: scope.map fun (y, way) => (y, via :: way)

def members (target : Tree) (path : List String) : Tree :=
  path.foldl (fun target y => .node () (.member target y [])) target

def access : List String → String → Tree
  | [], x => .node () (.ident x [])
  | t :: way, x => members (.node () (.ident t [])) (way ++ [x])

def resolveLayer (scope : Scope) (m : Unit) : Kind String Tree → Tree
  | .ident x [] => access (scope.way x) x
  | k => .node m k

def resolve (scope : Scope) : Tree → Tree := Marked.fold (resolveLayer scope)

def countLayer (scope : Scope) : Kind String Nat → Nat
  | .ident x [] => (scope.way x).length
  | k => k.children.sum

def accesses (scope : Scope) : Tree → Nat := Marked.fold fun _ => countLayer scope

theorem Scope.lookup_map (scope : Scope) (via y : String) :
    (scope.map fun (z, way) => (z, via :: way)).lookup y = (scope.lookup y).map (via :: ·) := by
  induction scope with
  | nil => rfl
  | cons entry scope ih =>
    obtain ⟨z, way⟩ := entry
    rw [List.map_cons, List.lookup_cons, List.lookup_cons, ih]
    cases y == z <;> rfl

theorem Scope.mem_way_enter {scope : Scope} {via x y t : String} (member : t ∈ (scope.enter via x).way y) :
    t = via ∨ t ∈ scope.way y := by
  rw [Scope.way, Scope.enter, List.lookup_cons, Scope.lookup_map] at member
  rw [Scope.way]
  cases same : y == x with
  | true => exact .inl (by simpa [same] using member)
  | false =>
    cases found : scope.lookup y with
    | none => simp [same, found] at member
    | some way => simpa [same, found] using member

/-! ### What cleaning makes of references -/

section
variable {ι ν : Type} {transparent : ν → Bool} {m : ι} {k : Kind ν (Marked ι ν)}

def ownVariable? {α : Type} : Kind ν α → Option ν
  | .fromClause x _ _ | .letClause x _ | .continuation _ x | .ident x _ => some x
  | _ => none

def UserVariables (transparent : ν → Bool) (t : Marked ι ν) : Prop :=
  t.All fun k => ∀ x ∈ ownVariable? k, transparent x = false

theorem plainLayer?_eq_none (users : ∀ c ∈ k.children, UserVariables transparent c) :
    plainLayer? transparent k = none := by
  unfold plainLayer?
  split
  next tm t args x typeArgs =>
    have other : transparent t = false :=
      users _ List.mem_cons_self _ (Marked.self_mem_subtrees _) t rfl
    simp [other]
  next => rfl

theorem cleaned_layer {f : Marked ι ν → Marked ι ν} {count : Marked ι ν → Nat}
    (each : ∀ c ∈ k.children, cleaned transparent (f c) = (c, count c))
    (plain : plainLayer? transparent k = none) :
    cleaned transparent (.node m (k.map id f)) = (.node m k, (k.children.map count).sum) := by
  have same : (k.map id f).map id (fun c => (cleaned transparent c).1) = k := by
    rw [Kind.map_map]
    exact Kind.map_id_of fun c child => congrArg Prod.fst (each c child)
  have counts : (k.map id f).children.map (fun c => (cleaned transparent c).2) = k.children.map count := by
    rw [Kind.children_map, List.map_map]
    exact List.map_congr_left fun c child => congrArg Prod.snd (each c child)
  apply Prod.ext
  · rw [cleaned_node_fst, same, plain, Option.getD_none]
  · rw [cleaned_node_snd, same, plain, counts]
    rfl

end

section
variable {transparent : String → Bool} {scope : Scope}

theorem cleaned_member {target : Tree} {t : String} {n : Nat} (x : String)
    (before : cleaned transparent target = (.node () (.ident t []), n)) (through : transparent t = true) :
    cleaned transparent (.node () (.member target x [])) = (.node () (.ident x []), n + 1) := by
  rw [cleaned_node]
  simp [cleanLayer, Kind.map, before, plainLayer?, through, Kind.children]

theorem cleaned_members {target : Tree} {t : String} {n : Nat} {way : List String} (x : String)
    (before : cleaned transparent target = (.node () (.ident t []), n)) (through : transparent t = true)
    (all : ∀ u ∈ way, transparent u = true) :
    cleaned transparent (members target (way ++ [x])) = (.node () (.ident x []), n + way.length + 1) := by
  induction way generalizing target t n with
  | nil => exact cleaned_member x before through
  | cons u way ih =>
    -- The first access becomes an identifier with the next name, which is transparent again.
    have rest := ih (cleaned_member u before through) (all u List.mem_cons_self)
      fun v member => all v (List.mem_cons_of_mem _ member)
    rw [List.length_cons, Nat.add_comm way.length, ← Nat.add_assoc]
    exact rest

theorem cleaned_ident (x : String) :
    cleaned transparent (.node () (.ident x [])) = (.node () (.ident x []), 0) := by
  rw [cleaned_node]
  rfl

theorem cleaned_access {way : List String} (x : String) (all : ∀ t ∈ way, transparent t = true) :
    cleaned transparent (access way x) = (.node () (.ident x []), way.length) := by
  cases way with
  | nil => exact cleaned_ident x
  | cons t way =>
    have whole := cleaned_members x (cleaned_ident t) (all t List.mem_cons_self)
      fun u member => all u (List.mem_cons_of_mem _ member)
    rwa [Nat.zero_add] at whole

theorem resolve_node (m : Unit) {k : Kind String Tree} (other : ∀ x, k ≠ .ident x []) :
    resolve scope (.node m k) = .node m (k.map id (resolve scope)) := by
  rw [resolve, Marked.fold_node]
  cases k with
  | ident x typeArgs =>
    cases typeArgs with
    | nil => exact absurd rfl (other x)
    | cons => rfl
  | _ => rfl

theorem accesses_node (m : Unit) {k : Kind String Tree} (other : ∀ x, k ≠ .ident x []) :
    accesses scope (.node m k) = (k.children.map (accesses scope)).sum := by
  rw [accesses, Marked.fold_node, ← Kind.children_map id]
  cases k with
  | ident x typeArgs =>
    cases typeArgs with
    | nil => exact absurd rfl (other x)
    | cons => rfl
  | _ => rfl

/-- Cleaning takes all accesses out again that resolving puts in. -/
theorem cleaned_resolve (through : ∀ x, ∀ t ∈ scope.way x, transparent t = true) {t : Tree}
    (users : UserVariables transparent t) :
    cleaned transparent (resolve scope t) = (t, accesses scope t) := by
  induction t using Marked.induction with
  | step m k ih =>
    by_cases reference : ∃ x, k = .ident x []
    · obtain ⟨x, rfl⟩ := reference
      exact cleaned_access x (through x)
    · have other : ∀ x, k ≠ .ident x [] := fun x is => reference ⟨x, is⟩
      obtain ⟨-, below⟩ := Marked.all_node.mp users
      rw [resolve_node m other, accesses_node m other]
      -- The layer itself is no access: its children are without transparent names once cleaned.
      exact cleaned_layer (fun c child => ih c child (below c child)) (plainLayer?_eq_none below)

def Scope.Plain (scope : Scope) : Prop := ∀ x, scope.way x = []

theorem Scope.Plain.resolve (plain : scope.Plain) (t : Tree) : resolve scope t = t ∧ accesses scope t = 0 := by
  induction t using Marked.induction with
  | step m k ih =>
    by_cases reference : ∃ x, k = .ident x []
    · obtain ⟨x, rfl⟩ := reference
      have here := plain x
      constructor
      · change access (scope.way x) x = _
        rw [here, access]
      · change (scope.way x).length = 0
        rw [here, List.length_nil]
    · have other : ∀ x, k ≠ .ident x [] := fun x is => reference ⟨x, is⟩
      rw [resolve_node m other, accesses_node m other]
      constructor
      · rw [Kind.map_id_of fun c child => (ih c child).1]
      · refine List.sum_eq_zero fun n member => ?_
        obtain ⟨c, child, rfl⟩ := List.mem_map.mp member
        exact (ih c child).2

end

/-! ### Trees without queries -/

def QueryFree (t : Tree) : Prop := t.All (·.isQuery = false)

theorem queryFree_node {m : Unit} {k : Kind String Tree} :
    QueryFree (.node m k) ↔ k.isQuery = false ∧ ∀ c ∈ k.children, QueryFree c := Marked.all_node

theorem QueryFree.canonical {t : Tree} (free : QueryFree t) (reading : Reading String) :
    Canonical reading t := by
  intro n below clause rest is
  have other := free n below
  rw [is] at other
  cases other

theorem queryFree_members {target : Tree} (free : QueryFree target) (path : List String) :
    QueryFree (members target path) := by
  induction path generalizing target with
  | nil => exact free
  | cons y path ih => exact ih (queryFree_node.mpr ⟨rfl, by simpa [Kind.children] using free⟩)

theorem queryFree_ident (x : String) : QueryFree (.node () (.ident x [])) :=
  queryFree_node.mpr ⟨rfl, by simp [Kind.children]⟩

theorem QueryFree.resolve {t : Tree} (free : QueryFree t) (scope : Scope) : QueryFree (resolve scope t) := by
  induction t using Marked.induction with
  | step m k ih =>
    by_cases reference : ∃ x, k = .ident x []
    · obtain ⟨x, rfl⟩ := reference
      change QueryFree (access (scope.way x) x)
      cases scope.way x with
      | nil => exact queryFree_ident x
      | cons t way => exact queryFree_members (queryFree_ident t) _
    · obtain ⟨here, below⟩ := queryFree_node.mp free
      rw [resolve_node m fun x is => reference ⟨x, is⟩, queryFree_node, Kind.isQuery_map]
      refine ⟨here, ?_⟩
      simp only [Kind.children_map, List.mem_map]
      rintro _ ⟨c, child, rfl⟩
      exact ih c child (below c child)

/-! ### Expressions -/

structure Expression (transparent : String → Bool) (t : Tree) : Prop where
  free : QueryFree t
  users : UserVariables transparent t

theorem expression_node {transparent : String → Bool} {m : Unit} {k : Kind String Tree}
    (other : k.isQuery = false) (user : ∀ x ∈ ownVariable? k, transparent x = false)
    (children : ∀ c ∈ k.children, Expression transparent c) :
    Expression transparent (.node m k) where
  free := queryFree_node.mpr ⟨other, fun c child => (children c child).free⟩
  users := Marked.all_node.mpr ⟨user, fun c child => (children c child).users⟩

theorem Expression.around {transparent : String → Bool} {m : Unit} {k : Kind String Tree} {t : Tree}
    (expression : Expression transparent t) (single : k.children = [t]) (other : k.isQuery = false)
    (user : ∀ x ∈ ownVariable? k, transparent x = false) : Expression transparent (.node m k) :=
  expression_node other user (by simpa [single] using expression)

theorem Expression.of_mem {transparent : String → Bool} {t n : Tree} (expression : Expression transparent t)
    (below : n ∈ t.subtrees) : Expression transparent n where
  free := expression.free.of_mem below
  users := expression.users.of_mem below

def Tidy (transparent : String → Bool) (c : Tree) : Prop := cleaned transparent c = (c, 0)

theorem cleaned_tidy {transparent : String → Bool} {clauses : List Tree}
    (tidy : ∀ c ∈ clauses, Tidy transparent c) :
    clauses.map (fun c => (cleaned transparent c).1) = clauses ∧
      (clauses.map fun c => (cleaned transparent c).2).sum = 0 := by
  constructor
  · rw [List.map_congr_left (g := id) fun c member => congrArg Prod.fst (tidy c member), List.map_id]
  · refine List.sum_eq_zero fun n member => ?_
    obtain ⟨c, child, rfl⟩ := List.mem_map.mp member
    exact congrArg Prod.snd (tidy c child)

theorem Expression.tidy {transparent : String → Bool} {t : Tree} (expression : Expression transparent t) :
    Tidy transparent t := by
  -- In the empty scope resolving does nothing.
  have plain : Scope.Plain [] := fun _ => rfl
  have through : ∀ x, ∀ t ∈ Scope.way [] x, transparent t = true := fun x t member => by cases member
  have cleaned := cleaned_resolve through expression.users
  rwa [(plain.resolve t).1, (plain.resolve t).2] at cleaned

end Comprehension.Desugaring
