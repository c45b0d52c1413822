import Comprehension.Proofs.Canonical
import Comprehension.Proofs.FreeNames

/-! Records and what is reached through them. A transparent name stands for a record with the variables of
the query that it is bound to. Where references are cleaned, an access through such a name becomes a
variable, so that the name may only be used to reach what the clauses in its place bind. -/

set_option autoImplicit false

namespace Comprehension.Normalize
open Marked

variable {ι ν : Type}

/-! ### Cleaned trees -/

section
variable {transparent : ν → Bool} {m : ι} {k : Kind ν (Marked ι ν)}

def Clean (transparent : ν → Bool) (t : Marked ι ν) : Prop := (cleaned transparent t).1 = t

theorem clean_node : Clean transparent (.node m k) ↔
    (∀ c ∈ k.children, Clean transparent c) ∧ plainLayer? transparent k = none := by
  rw [Clean, cleaned_node_fst]
  constructor
  · intro same
    have same : (plainLayer? transparent (k.map id fun c => (cleaned transparent c).1)).getD
        (k.map id fun c => (cleaned transparent c).1) = k := (Marked.node.inj same).2
    cases found : plainLayer? transparent (k.map id fun c => (cleaned transparent c).1) with
    | none =>
      rw [found, Option.getD_none] at same
      rw [same] at found
      refine ⟨?_, found⟩
      have children := congrArg Kind.children same
      rw [Kind.children_map] at children
      exact List.map_inj_left.mp (children.trans (List.map_id _).symm)
    | some plain =>
      -- An access would have become an identifier.
      obtain ⟨target, x, typeArgs, access, rfl⟩ := plainLayer?_eq_some found
      rw [found, Option.getD_some] at same
      subst same
      cases access
  · rintro ⟨children, plain⟩
    rw [Kind.map_id_of children, plain, Option.getD_none]

theorem clean_cleaned (t : Marked ι ν) : Clean transparent (cleaned transparent t).1 := by
  induction t using Marked.induction with
  | step m k ih =>
    have children : ∀ c ∈ (k.map id fun c => (cleaned transparent c).1).children, Clean transparent c := by
      simpa only [Kind.children_map, List.forall_mem_map] using ih
    rw [cleaned_node_fst]
    generalize k.map id (fun c => (cleaned transparent c).1) = layer at children
    cases found : plainLayer? transparent layer with
    | none => exact clean_node.mpr ⟨children, found⟩
    | some plain =>
      obtain ⟨target, x, typeArgs, rfl, rfl⟩ := plainLayer?_eq_some found
      exact clean_node.mpr ⟨fun c child => children c (List.mem_cons_of_mem _ child), rfl⟩

theorem clean_of_none (t : Marked ι ν) : Clean (fun _ => false) t := by
  induction t using Marked.induction with
  | step m k ih =>
    refine clean_node.mpr ⟨ih, Option.eq_none_iff_forall_ne_some.mpr fun plain found => ?_⟩
    unfold plainLayer? at found
    split at found <;> simp at found

theorem map_cleaned_eq {l : List (Marked ι ν)} (clean : ∀ c ∈ l, Clean transparent c) :
    l.map (fun c => (cleaned transparent c).1) = l :=
  (List.map_congr_left clean).trans (List.map_id l)

theorem cleaned_letClauses (fresh : ι) (name : Option ν) (value : Marked ι ν) :
    (letClauses fresh (name.map (·, value))).map (fun c => (cleaned transparent c).1) =
      letClauses fresh (name.map (·, (cleaned transparent value).1)) := by
  cases name with
  | none => rfl
  | some y => exact congrArg (fun c => [c]) (cleaned_other fresh (by simp))

theorem binder?_cleaned (t : Marked ι ν) : (cleaned transparent t).1.kind.binder? = t.kind.binder? := by
  rcases kind_cleaned transparent t with same | ⟨target, x, typeArgs, access, ident⟩
  · rw [same, Kind.binder?_map]
  · rw [access, ident]
    rfl

theorem freeNames_cleaned [DecidableEq ν] (other : k.isQuery = false)
    (noIdent : ∀ x typeArgs, k ≠ .ident x typeArgs)
    (noMember : ∀ target x typeArgs, k ≠ .member target x typeArgs) :
    (cleaned transparent (.node m k)).1.freeNames =
      k.children.flatMap fun c => (cleaned transparent c).1.freeNames := by
  have stays : ∀ x typeArgs, k.map id (fun c => (cleaned transparent c).1) ≠ .ident x typeArgs := by
    intro x typeArgs is
    cases k <;> simp only [Kind.map, reduceCtorEq] at is
    exact noIdent _ _ rfl
  rw [cleaned_other m noMember, freeNames_other (by rwa [Kind.isQuery_map]) stays, Kind.children_map,
    List.flatMap_map]

variable {target : Marked ι ν} {x : ν} {typeArgs : List (Marked ι ν)}

theorem cleaned_through {t : ν} {args : List (Marked ι ν)}
    (ident : (cleaned transparent target).1.kind = .ident t args) (through : transparent t = true) :
    (cleaned transparent (.node m (.member target x typeArgs))).1 =
      .node m (.ident x (typeArgs.map fun c => (cleaned transparent c).1)) := by
  rw [cleaned_node_fst, Kind.map]
  generalize (cleaned transparent target).1 = target' at ident
  obtain ⟨tm, tk⟩ := target'
  cases ident
  simp [plainLayer?, through]

theorem cleaned_kept
    (other : ∀ t args, (cleaned transparent target).1.kind = .ident t args → transparent t = false) :
    (cleaned transparent (.node m (.member target x typeArgs))).1 =
      .node m (.member (cleaned transparent target).1 x (typeArgs.map fun c => (cleaned transparent c).1)) := by
  rw [cleaned_node_fst, Kind.map]
  generalize (cleaned transparent target).1 = target' at other
  obtain ⟨tm, tk⟩ := target'
  cases tk with
  | ident t args => simp [plainLayer?, other t args rfl]
  | _ => rfl

end

/-! ### What is in scope -/

/-- The records in scope: transparent names, each with the names that are reached through it. -/
abbrev Records (ν : Type) := List (ν × List ν)

def Records.held (scope : Records ν) : List ν := scope.flatMap Prod.snd

def impliedName? {α : Type} : Kind ν α → Option ν
  | .ident x _ | .member _ x _ => some x
  | _ => none

inductive Pair : List (Marked ι ν) → Marked ι ν → ν → ν → Marked ι ν → Prop where
  | reexport {fm sm : ι} {x y : ν} {taken value : Marked ι ν} :
      Pair [.node fm (.named x taken), .node sm (.named y value)] taken x y value
  | shorthand {sm : ι} {x y : ν} {taken value : Marked ι ν} :
      Pair [taken, .node sm (.named y value)] taken x y value
  | undeclared {x y : ν} {taken value : Marked ι ν} (implied : impliedName? value.kind = some y) :
      Pair [taken, value] taken x y value

abbrev selectRecord (sm rm : ι) (initializers : List (Marked ι ν)) : Marked ι ν :=
  .node sm (.selectClause (.node rm (.record initializers)))

section
variable (reading : Reading ν)

inductive Through (scope : Records ν) : Marked ι ν → List ν → Prop where
  | name {m : ι} {t : ν} {typeArgs : List (Marked ι ν)} {fields : List ν}
      (transparent : reading.transparent t = true) (bound : (t, fields) ∈ scope) :
      Through scope (.node m (.ident t typeArgs)) fields
  | field {m : ι} {target : Marked ι ν} {t : ν} {typeArgs : List (Marked ι ν)} {fields : List ν}
      (inner : Through scope target fields) (transparent : reading.transparent t = true) :
      Through scope (.node m (.member target t typeArgs)) fields

/-- The variable that is taken over into a record, with the names that are reached through it: itself, or
those in the record that it is. -/
inductive Behind (scope : Records ν) : Marked ι ν → ν → List ν → Prop where
  | user {m : ι} {x : ν} (user : reading.transparent x = false) : Behind scope (.node m (.ident x [])) x [x]
  | access {m : ι} {target : Marked ι ν} {x : ν} {fields : List ν} (through : Through reading scope target fields)
      (field : x ∈ fields) (user : reading.transparent x = false) :
      Behind scope (.node m (.member target x [])) x [x]
  | record {m : ι} {t : ν} {fields : List ν} (through : Through reading scope (.node m (.ident t [])) fields) :
      Behind scope (.node m (.ident t [])) t fields
  | field {m : ι} {target : Marked ι ν} {t : ν} {fields : List ν}
      (through : Through reading scope (.node m (.member target t [])) fields) :
      Behind scope (.node m (.member target t [])) t fields

inductive Takes (transparent : ν → Bool) (select : Marked ι ν) : Prop where
  | reexport {record first inner second value : Marked ι ν} {x y : ν}
      (projection : select.kind = .selectClause record) (pair : record.kind = .record [first, second])
      (named : first.kind = .named x inner) (same : (cleaned transparent inner).1.kind = .ident x [])
      (declared : second.kind = .named y value)
  | shorthand {record first second : Marked ι ν} {x : ν} (projection : select.kind = .selectClause record)
      (pair : record.kind = .record [first, second]) (bare : (cleaned transparent first).1.kind = .ident x [])

/-- First clauses over which no query is flattened: they bind a name of the program's own, do not range over
a query, or range over one that takes over no variable. -/
inductive Kept : Marked ι ν → Prop where
  | user {c : Marked ι ν} (user : ∀ x ∈ c.kind.binder?, reading.transparent x = false) : Kept c
  | unnested {c : Marked ι ν} (unnested : Unnested c) : Kept c
  | other {m im : ι} {x : ν} {elemType : Option (Marked ι ν)} {first last : Marked ι ν}
      {clauses : List (Marked ι ν)} (other : ¬ Takes reading.transparent last) :
      Kept (.node m (.fromClause x elemType (.node im (.query (first :: (clauses ++ [last]))))))

/-- Trees in which transparent names are only used to reach what is in their records. Such a name is bound
by a first clause over a query that selects a pair, and this query may take over a record in turn; it comes
with the names that are reached through its own. The variable that it takes over may be an access if the
query is flattened itself, since the access is a variable by then. -/
inductive Scoped : Records ν → Option (List ν) → Marked ι ν → Prop where
  | reference {scope : Records ν} {m : ι} {x : ν} {typeArgs : List (Marked ι ν)}
      (user : reading.transparent x = false) (args : ∀ c ∈ typeArgs, Scoped scope none c) :
      Scoped scope none (.node m (.ident x typeArgs))
  | access {scope : Records ν} {m : ι} {target : Marked ι ν} {x : ν} {typeArgs : List (Marked ι ν)}
      {fields : List ν} (through : Through reading scope target fields) (field : x ∈ fields)
      (user : reading.transparent x = false) (uncast : reading.cast x = false)
      (args : ∀ c ∈ typeArgs, Scoped scope none c) : Scoped scope none (.node m (.member target x typeArgs))
  | layer {scope : Records ν} {m : ι} {k : Kind ν (Marked ι ν)} (other : k.isQuery = false)
      (noIdent : ∀ x typeArgs, k ≠ .ident x typeArgs) (children : ∀ c ∈ k.children, Scoped scope none c) :
      Scoped scope none (.node m k)
  | query {scope : Records ν} {m : ι} {first : Marked ι ν} {rest : List (Marked ι ν)} (kept : Kept reading first)
      (clauses : ∀ c ∈ first :: rest, Scoped scope none c) : Scoped scope none (.node m (.query (first :: rest)))
  | record {scope : Records ν} {m sm rm im : ι} {first value : Marked ι ν}
      {clauses initializers : List (Marked ι ν)} {x y : ν} {fields : List ν} (kept : Kept reading first)
      (between : ∀ c ∈ first :: clauses, Scoped scope none c)
      (pair : Pair initializers (.node im (.ident x [])) x y value)
      (behind : Behind reading scope (.node im (.ident x [])) x fields) (inValue : Scoped scope none value) :
      Scoped scope (some (y :: fields)) (.node m (.query (first :: (clauses ++ [selectRecord sm rm initializers]))))
  | nested {scope : Records ν} {m fm im : ι} {t : ν} {elemType : Option (Marked ι ν)}
      {inner rest : List (Marked ι ν)} {fields : List ν} (transparent : reading.transparent t = true)
      (source : Scoped scope (some fields) (.node im (.query inner)))
      (clauses : ∀ c ∈ rest, Scoped ((t, fields) :: scope) none c) :
      Scoped scope none (.node m (.query (.node fm (.fromClause t elemType (.node im (.query inner))) :: rest)))
  | nestedRecord {scope : Records ν} {m fm im sm rm : ι} {t x y : ν} {elemType : Option (Marked ι ν)}
      {inner clauses initializers : List (Marked ι ν)} {taken value : Marked ι ν} {fields fields' : List ν}
      (transparent : reading.transparent t = true) (source : Scoped scope (some fields) (.node im (.query inner)))
      (between : ∀ c ∈ clauses, Scoped ((t, fields) :: scope) none c) (pair : Pair initializers taken x y value)
      (behind : Behind reading ((t, fields) :: scope) taken x fields')
      (inValue : Scoped ((t, fields) :: scope) none value) :
      Scoped scope (some (y :: fields')) (.node m (.query
        (.node fm (.fromClause t elemType (.node im (.query inner))) ::
          (clauses ++ [selectRecord sm rm initializers]))))

/-- Trees in which transparent names are used in this way wherever references are cleaned, which is below
queries over one that is flattened. Elsewhere they are names like others. -/
inductive WellScoped : Marked ι ν → Prop where
  | inScope {t : Marked ι ν} (inScope : Scoped reading [] none t) : WellScoped t
  | layer {m : ι} {k : Kind ν (Marked ι ν)} (other : k.isQuery = false)
      (children : ∀ c ∈ k.children, WellScoped c) : WellScoped (.node m k)
  | query {m : ι} {first : Marked ι ν} {rest : List (Marked ι ν)} (kept : Kept reading first)
      (clauses : ∀ c ∈ first :: rest, WellScoped c) : WellScoped (.node m (.query (first :: rest)))

end

/-! ### Pairs -/

section
variable {transparent : ν → Bool} {initializers : List (Marked ι ν)} {x y : ν} {taken value : Marked ι ν}

theorem cleaned_selectRecord (sm rm : ι) (initializers : List (Marked ι ν)) :
    (cleaned transparent (selectRecord sm rm initializers)).1 =
      selectRecord sm rm (initializers.map fun c => (cleaned transparent c).1) := by
  rw [selectRecord, cleaned_other _ (by simp), Kind.map, cleaned_other _ (by simp)]
  rfl

theorem impliedName?_map {α β : Type} (child : α → β) (k : Kind ν α) :
    impliedName? (k.map id child) = impliedName? k := by
  cases k <;> rfl

theorem impliedName?_cleaned {t : Marked ι ν} (implied : impliedName? t.kind = some y) :
    impliedName? (cleaned transparent t).1.kind = some y := by
  rcases kind_cleaned transparent t with same | ⟨target, x, typeArgs, access, ident⟩
  · rw [same, impliedName?_map, implied]
  · rw [access] at implied
    rw [ident]
    exact implied

theorem Pair.cleaned (transparent : ν → Bool) (pair : Pair initializers taken x y value) :
    Pair (initializers.map fun c => (cleaned transparent c).1) (cleaned transparent taken).1 x y
      (cleaned transparent value).1 := by
  cases pair with
  | reexport =>
    simp only [List.map_cons, List.map_nil]
    rw [cleaned_other _ (by simp), cleaned_other _ (by simp)]
    exact .reexport
  | shorthand =>
    simp only [List.map_cons, List.map_nil]
    rw [cleaned_other _ (k := .named y value) (by simp)]
    exact .shorthand
  | undeclared implied =>
    simp only [List.map_cons, List.map_nil]
    exact .undeclared (impliedName?_cleaned implied)

section
variable [DecidableEq ν]

def neededLet {α : Type} (y : ν) : Kind ν α → Option ν
  | .ident z _ => if y = z then none else some y
  | _ => some y

theorem neededLet_cases {α : Type} (y : ν) (k : Kind ν α) :
    neededLet y k = some y ∨ neededLet y k = none ∧ ∃ typeArgs, k = .ident y typeArgs := by
  cases k with
  | ident z typeArgs =>
    by_cases same : y = z
    · exact .inr ⟨by simp [neededLet, same], typeArgs, by rw [same]⟩
    · exact .inl (by simp [neededLet, same])
  | _ => exact .inl rfl

/-- What a pair is for the run: a record of two bindings with a name for the second one, which needs a let
clause unless it is the identifier itself. -/
theorem Pair.selects (pair : Pair initializers taken x y value) (ident : taken.kind = .ident x []) (sm rm : ι) :
    ∃ declared, Selects IsLayer (selectRecord sm rm initializers) declared value ∧
      letName declared value.kind = .ok (neededLet y value.kind) := by
  have declared : letName (some y) value.kind = .ok (neededLet y value.kind) := by
    cases value.kind <;> rfl
  cases pair with
  | reexport => exact ⟨some y, .reexport rfl rfl rfl ident rfl, declared⟩
  | shorthand => exact ⟨some y, .shorthand rfl rfl ident rfl, declared⟩
  | undeclared implied =>
    refine ⟨none, .undeclared rfl rfl ident rfl fun z v is => by simp [is, impliedName?] at implied, ?_⟩
    cases kind : value.kind <;> rw [kind] at implied <;> cases implied
    · simp [letName, neededLet]
    · rfl

theorem Pair.freeNames (pair : Pair initializers taken x y value) (sm rm : ι) :
    taken.freeNames ⊆ (selectRecord sm rm initializers).freeNames ∧
      value.freeNames ⊆ (selectRecord sm rm initializers).freeNames := by
  have all : (selectRecord sm rm initializers).freeNames = initializers.flatMap Marked.freeNames := by
    rw [freeNames_other rfl (by simp), Kind.children, List.flatMap_singleton, freeNames_other rfl (by simp)]
    rfl
  have named (m : ι) (z : ν) (t : Marked ι ν) : (Marked.node m (.named z t)).freeNames = t.freeNames := by
    rw [freeNames_other rfl (by simp), Kind.children, List.flatMap_singleton]
  rw [all]
  cases pair <;> simp [named]

end

variable {reading : Reading ν} {scope : Records ν} {fields : List ν}

theorem Through.held {t : Marked ι ν} (through : Through reading scope t fields) : fields ⊆ scope.held := by
  induction through with
  | name transparent bound => exact fun z member => List.mem_flatMap.mpr ⟨_, bound, member⟩
  | field inner transparent ih => exact ih

theorem Behind.covers [DecidableEq ν] (behind : Behind reading scope taken x fields) :
    ∀ z ∈ fields, z ∈ taken.freeNames ∨ z ∈ scope.held := by
  intro z member
  cases behind with
  | user => exact .inl (by simpa [freeNames_ident] using member)
  | access through field => exact .inr (through.held (List.mem_singleton.mp member ▸ field))
  | record through | field through => exact .inr (through.held member)

end

/-! ### Clauses that derive from others -/

section
variable [DecidableEq ν] {transparent : ν → Bool} {free held fields : List ν}

def Allowed (transparent : ν → Bool) (free held : List ν) (z : ν) : Prop :=
  transparent z = false ∧ (z ∈ free ∨ z ∈ held)

def Derives (transparent : ν → Bool) (held : List ν) (c c' : Marked ι ν) : Prop :=
  c'.kind.binder? = c.kind.binder? ∧ ∀ z ∈ c'.freeNames, Allowed transparent c.freeNames held z

/-- Clauses that may stand for a record: they have no names but those of the query that they come from, and
bind all that is reached through the record, or it is free outside. -/
structure Opens (transparent : ν → Bool) (free held fields : List ν) (front : List (Marked ι ν)) : Prop where
  names : ∀ z ∈ unbound front, Allowed transparent free held z
  covers : ∀ z ∈ fields, transparent z = false → z ∈ binders front ∨ z ∈ free ∨ z ∈ held

structure Yields (transparent : ν → Bool) (free held fields : List ν) (front : List (Marked ι ν)) (y : ν)
    (value : Marked ι ν) : Prop where
  names : ∀ z ∈ unbound front, Allowed transparent free held z
  inValue : ∀ z ∈ value.freeNames, z ∉ binders front → Allowed transparent free held z
  covers : ∀ z ∈ fields, transparent z = false → z ∈ binders front ∨ z = y ∨ z ∈ free ∨ z ∈ held

omit [DecidableEq ν] in
theorem Allowed.imp {free' : List ν} {z : ν} (weaker : transparent z = false → z ∈ free → z ∈ free')
    (allowed : Allowed transparent free held z) : Allowed transparent free' held z :=
  ⟨allowed.1, allowed.2.imp_left (weaker allowed.1)⟩

theorem Yields.imp {free' : List ν} {front : List (Marked ι ν)} {y : ν} {value : Marked ι ν}
    (weaker : ∀ z, transparent z = false → z ∈ free → z ∈ free')
    (yields : Yields transparent free held fields front y value) :
    Yields transparent free' held fields front y value where
  names z member := (yields.names z member).imp (weaker z)
  inValue z member other := (yields.inValue z member other).imp (weaker z)
  covers z member user := (yields.covers z member user).imp_right (.imp_right (.imp_left (weaker z user)))

theorem Opens.nil : Opens (ι := ι) transparent free held [] [] := ⟨by simp [unbound_nil], by simp⟩

section
variable {front cs cs' : List (Marked ι ν)}

theorem binders_eq (derive : List.Forall₂ (Derives transparent held) cs cs') : binders cs' = binders cs := by
  induction derive with
  | nil => rfl
  | cons first _ ih =>
    simp only [binders, List.filterMap_cons, first.1] at ih ⊢
    rw [ih]

theorem allowed_unbound (derive : List.Forall₂ (Derives transparent held) cs cs') :
    ∀ z ∈ unbound cs', Allowed transparent (unbound cs) held z := by
  induction derive with
  | nil => simp [unbound_nil]
  | cons first _ ih =>
    intro z member
    rcases mem_unbound_cons.mp member with here | ⟨other, there⟩
    · obtain ⟨user, known⟩ := first.2 z here
      exact ⟨user, known.imp_left fun before => mem_unbound_cons.mpr (.inl before)⟩
    · obtain ⟨user, known⟩ := ih z there
      exact ⟨user, known.imp_left fun before => mem_unbound_cons.mpr (.inr ⟨first.1 ▸ other, before⟩)⟩

theorem unbound_subset (binder : List.Forall₂ (fun c c' : Marked ι ν => c'.kind.binder? = c.kind.binder? ∧
      c'.freeNames ⊆ c.freeNames) cs cs') : unbound cs' ⊆ unbound cs := by
  have derive : List.Forall₂ (Derives (fun _ => false) []) cs cs' :=
    binder.imp fun c c' same => ⟨same.1, fun z member => ⟨rfl, .inl (same.2 member)⟩⟩
  intro z member
  exact (allowed_unbound derive z member).2.resolve_right (by simp)

/-- The names of clauses that derive from others, after clauses that stand for a record. -/
theorem Opens.unbound_append (opens : Opens transparent free held fields front)
    (derive : List.Forall₂ (Derives transparent (fields ++ held)) cs cs') :
    ∀ z ∈ unbound (front ++ cs'), Allowed transparent (free ++ unbound cs) held z := by
  intro z member
  rw [Allowed, List.mem_append, or_assoc]
  rcases mem_unbound_append.mp member with here | ⟨unbound, there⟩
  · obtain ⟨user, known⟩ := opens.names z here
    exact ⟨user, known.imp_right .inr⟩
  · obtain ⟨user, known⟩ := allowed_unbound derive z there
    rcases known with before | inScope
    · exact ⟨user, .inr (.inl before)⟩
    · rcases List.mem_append.mp inScope with inRecord | outside
      · rcases opens.covers z inRecord user with bound | known
        · exact absurd bound unbound
        · exact ⟨user, known.imp_right .inr⟩
      · exact ⟨user, .inr (.inr outside)⟩

theorem Opens.yields {last value : Marked ι ν} {y : ν} {fields' : List ν}
    (opens : Opens transparent free held fields front)
    (derive : List.Forall₂ (Derives transparent (fields ++ held)) cs cs')
    (ending : Yields (ι := ι) transparent last.freeNames (fields ++ held) fields' [] y value) :
    Yields transparent (free ++ unbound (cs ++ [last])) held fields' (front ++ cs') y value := by
  -- A name in the last clause is free in all of them unless a clause before it binds it.
  have before : ∀ z, z ∈ last.freeNames → z ∉ binders cs → z ∈ unbound (cs ++ [last]) := fun z member other =>
    mem_unbound_append.mpr (.inr ⟨other, mem_unbound_singleton.mpr member⟩)
  refine ⟨fun z member => ?_, fun z member other => ?_, fun z member user => ?_⟩
  · obtain ⟨user, known⟩ := opens.unbound_append derive z member
    refine ⟨user, known.imp_left fun known => ?_⟩
    exact List.mem_append.mpr ((List.mem_append.mp known).imp_right fun old => mem_unbound_append.mpr (.inl old))
  · rw [binders_append, binders_eq derive, List.mem_append, not_or] at other
    rw [Allowed, List.mem_append, or_assoc]
    obtain ⟨user, known⟩ := ending.inValue z member (by simp [binders])
    rcases known with old | inScope
    · exact ⟨user, .inr (.inl (before z old other.2))⟩
    · rcases List.mem_append.mp inScope with inRecord | outside
      · rcases opens.covers z inRecord user with bound | known
        · exact absurd bound other.1
        · exact ⟨user, known.imp_right .inr⟩
      · exact ⟨user, .inr (.inr outside)⟩
  · rw [binders_append, binders_eq derive, List.mem_append, List.mem_append]
    rcases ending.covers z member user with bound | same | old | inScope
    · cases bound
    · exact .inr (.inl same)
    · by_cases bound : z ∈ binders cs
      · exact .inl (.inr bound)
      · exact .inr (.inr (.inl (.inr (before z old bound))))
    · rcases List.mem_append.mp inScope with inRecord | outside
      · rcases opens.covers z inRecord user with bound | free | outside
        · exact .inl (.inl bound)
        · exact .inr (.inr (.inl (.inl free)))
        · exact .inr (.inr (.inr outside))
      · exact .inr (.inr (.inr outside))

theorem Yields.opens {value : Marked ι ν} {name : Option ν} {y : ν} (fresh : ι)
    (yields : Yields transparent free held fields front y value)
    (binds : name = some y ∨ name = none ∧ ∃ typeArgs, value.kind = .ident y typeArgs) :
    Opens transparent free held fields (front ++ letClauses fresh (name.map (·, value))) := by
  rcases binds with rfl | ⟨rfl, typeArgs, ident⟩
  · have names : (Marked.node fresh (.letClause y value)).freeNames = value.freeNames := by
      rw [freeNames_other rfl (by simp), Kind.children, List.flatMap_singleton]
    refine ⟨fun z member => ?_, fun z member user => ?_⟩
    · rcases mem_unbound_append.mp member with here | ⟨other, there⟩
      · exact yields.names z here
      · have there := mem_unbound_singleton.mp there
        rw [names] at there
        exact yields.inValue z there other
    · rw [binders_append, List.mem_append]
      rcases yields.covers z member user with bound | rfl | known
      · exact .inl (.inl bound)
      · exact .inl (.inr (by simp [letClauses, binders, Kind.binder?]))
      · exact .inr known
  · -- The identifier is bound by the clauses already, or it is free outside.
    simp only [Option.map_none, letClauses, List.append_nil]
    refine ⟨yields.names, fun z member user => ?_⟩
    rcases yields.covers z member user with bound | rfl | known
    · exact .inl bound
    · by_cases bound : z ∈ binders front
      · exact .inl bound
      · refine .inr (yields.inValue z ?_ bound).2
        obtain ⟨m, k⟩ := value
        cases ident
        simp [freeNames_ident]
    · exact .inr known

end

end

end Comprehension.Normalize
