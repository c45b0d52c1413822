import Comprehension.Proofs.CleanForm
import Comprehension.Proofs.Grammar

/-! Runs and scopes. Flattening a query puts its clauses in place of a transparent name, and all accesses
below become variables. Those clauses bind what was reached through the name, so that no name becomes free
that was not, as long as transparent names that stay are not accessed below a flattened query. -/

set_option autoImplicit false

namespace Comprehension.Normalize
open Marked

variable {ι ν : Type}

/-! ### Names after a visit -/

section
variable [DecidableEq ν] {reading : Reading ν} {fresh m : ι} {k : Kind ν (Marked ι ν)} {scope : Records ν}
  {exports : Option (List ν)} {t : Marked ι ν}

/-- What a visit makes of a tree in scope. Of a query that is to be bound as a record, it makes clauses that
can stand for the record and a clause that selects it. -/
def Resolved (reading : Reading ν) (fresh : ι) (scope : Records ν) : Option (List ν) → Marked ι ν → Prop
  | none, t => ∀ z ∈ (cleanForm reading fresh t).freeNames, Allowed reading.transparent t.freeNames scope.held z
  | some fields, t => ∃ m moved sm rm initializers taken x y value,
      normal reading fresh t = .node m (.query (moved ++ [selectRecord sm rm initializers])) ∧
      Pair initializers taken x y value ∧ taken.kind = .ident x [] ∧
      Yields reading.transparent t.freeNames scope.held fields
        (moved.map fun c => (cleaned reading.transparent c).1) y (cleaned reading.transparent value).1

theorem Resolved.derives {c : Marked ι ν} (resolved : Resolved reading fresh scope none c)
    (succeeds : Succeeds reading fresh c) :
    Derives reading.transparent scope.held c (cleanForm reading fresh c) :=
  ⟨binder?_cleanForm succeeds, resolved⟩

theorem derives_all {clauses : List (Marked ι ν)} (each : ∀ c ∈ clauses, Resolved reading fresh scope none c)
    (succeed : ∀ c ∈ clauses, Succeeds reading fresh c) :
    List.Forall₂ (Derives reading.transparent scope.held) clauses (clauses.map (cleanForm reading fresh)) := by
  rw [List.forall₂_map_right_iff, List.forall₂_same]
  exact fun c member => (each c member).derives (succeed c member)

theorem allowed_children {children : List (Marked ι ν)} {free : List ν}
    (each : ∀ c ∈ children, Resolved reading fresh scope none c)
    (inside : children.flatMap Marked.freeNames ⊆ free) :
    ∀ z ∈ (children.map (cleanForm reading fresh)).flatMap Marked.freeNames,
      Allowed reading.transparent free scope.held z := by
  intro z member
  obtain ⟨_, member, here⟩ := List.mem_flatMap.mp member
  obtain ⟨c, child, rfl⟩ := List.mem_map.mp member
  exact (each c child z here).imp fun _ before => inside (List.mem_flatMap.mpr ⟨c, child, before⟩)

theorem resolved_reference {x : ν} {typeArgs : List (Marked ι ν)} (user : reading.transparent x = false)
    (args : ∀ c ∈ typeArgs, Resolved reading fresh scope none c)
    (succeeds : Succeeds reading fresh (.node m (.ident x typeArgs))) :
    Resolved reading fresh scope none (.node m (.ident x typeArgs)) := by
  rw [Resolved, cleanForm_other succeeds rfl (by simp), Kind.map, freeNames_ident, freeNames_ident]
  exact List.forall_mem_cons.mpr ⟨⟨user, .inl List.mem_cons_self⟩,
    allowed_children args (List.subset_cons_self x _)⟩

theorem resolved_access {target : Marked ι ν} {x : ν} {typeArgs : List (Marked ι ν)} {fields : List ν}
    (through : Through reading scope target fields) (field : x ∈ fields) (user : reading.transparent x = false)
    (args : ∀ c ∈ typeArgs, Resolved reading fresh scope none c)
    (succeeds : Succeeds reading fresh (.node m (.member target x typeArgs))) :
    Resolved reading fresh scope none (.node m (.member target x typeArgs)) := by
  obtain ⟨y, targetArgs, ident, transparent⟩ := through.cleanForm (succeeds.child List.mem_cons_self)
  rw [Resolved, cleanForm_through succeeds ident transparent, freeNames_ident, freeNames_other rfl (by simp)]
  exact List.forall_mem_cons.mpr ⟨⟨user, .inr (through.held field)⟩,
    allowed_children args (List.subset_append_right target.freeNames _)⟩

theorem resolved_layer (other : k.isQuery = false) (noIdent : ∀ x typeArgs, k ≠ .ident x typeArgs)
    (inScope : ∀ c ∈ k.children, Scoped reading scope none c)
    (children : ∀ c ∈ k.children, Resolved reading fresh scope none c)
    (succeeds : Succeeds reading fresh (.node m k)) : Resolved reading fresh scope none (.node m k) := by
  have stays : ∀ x typeArgs, k.map id (cleanForm reading fresh) ≠ .ident x typeArgs := by
    intro x typeArgs is
    cases k <;> simp only [Kind.map, reduceCtorEq] at is
    exact noIdent _ _ rfl
  have users := fun c child => (inScope c child).user_of_ident (succeeds.child child)
  rw [Resolved, cleanForm_layer succeeds other users, freeNames_other (by rwa [Kind.isQuery_map]) stays,
    Kind.children_map, freeNames_other other noIdent]
  exact allowed_children children (List.Subset.refl _)

section
variable {initializers : List (Marked ι ν)} {taken value : Marked ι ν} {x y : ν}

theorem impliedName?_normal (succeeds : Succeeds reading fresh t) (implied : impliedName? t.kind = some y) :
    impliedName? (normal reading fresh t).kind = some y := by
  obtain ⟨m, k⟩ := t
  have other : k.isQuery = false := by
    cases k with
    | query => cases implied
    | _ => rfl
  rw [normal_other succeeds other, Marked.kind_node, impliedName?_map]
  exact implied

theorem Pair.succeed {sm rm : ι} (pair : Pair initializers taken x y value)
    (succeeds : Succeeds reading fresh (selectRecord sm rm initializers)) :
    (∀ c ∈ initializers, Succeeds reading fresh c) ∧ Succeeds reading fresh taken ∧
      Succeeds reading fresh value := by
  have inRecord : Succeeds reading fresh (.node rm (.record initializers)) := succeeds.child List.mem_cons_self
  have each : ∀ c ∈ initializers, Succeeds reading fresh c := fun c => inRecord.child
  refine ⟨each, ?_⟩
  cases pair with
  | reexport =>
    exact ⟨(each _ List.mem_cons_self).child List.mem_cons_self,
      (each _ (.tail _ List.mem_cons_self)).child List.mem_cons_self⟩
  | shorthand => exact ⟨each _ List.mem_cons_self, (each _ (.tail _ List.mem_cons_self)).child List.mem_cons_self⟩
  | undeclared => exact ⟨each _ List.mem_cons_self, each _ (.tail _ List.mem_cons_self)⟩

theorem Pair.normal (pair : Pair initializers taken x y value)
    (succeed : ∀ c ∈ initializers, Succeeds reading fresh c) :
    Pair (initializers.map (normal reading fresh)) (normal reading fresh taken) x y
      (normal reading fresh value) := by
  cases pair with
  | reexport =>
    have first := succeed _ List.mem_cons_self
    have second := succeed _ (.tail _ List.mem_cons_self)
    rw [List.map_cons, List.map_singleton, normal_other first rfl, normal_other second rfl]
    exact .reexport
  | shorthand =>
    have second := succeed _ (.tail _ List.mem_cons_self)
    rw [List.map_cons, List.map_singleton, normal_other second rfl]
    exact .shorthand
  | undeclared implied =>
    have second := succeed value (.tail _ List.mem_cons_self)
    rw [List.map_cons, List.map_singleton]
    exact .undeclared (impliedName?_normal second implied)

theorem normal_selectRecord {sm rm : ι} (succeeds : Succeeds reading fresh (selectRecord sm rm initializers)) :
    normal reading fresh (selectRecord sm rm initializers) =
      selectRecord sm rm (initializers.map (normal reading fresh)) := by
  rw [selectRecord, normal_other succeeds rfl, Kind.map, normal_other (succeeds.child List.mem_cons_self) rfl]
  rfl

theorem Pair.yields {fields : List ν} (pair : Pair initializers taken x y value)
    (behind : Behind reading scope taken x fields) (inValue : Resolved reading fresh scope none value) (sm rm : ι) :
    Yields (ι := ι) reading.transparent (selectRecord sm rm initializers).freeNames scope.held (y :: fields) [] y
      (cleanForm reading fresh value) := by
  obtain ⟨takes, contains⟩ := pair.freeNames sm rm
  refine ⟨by simp [unbound_nil], fun z member _ => ?_, fun z member _ => ?_⟩
  · exact (inValue z member).imp fun _ before => contains before
  · rcases List.mem_cons.mp member with rfl | member
    · exact .inr (.inl rfl)
    · exact .inr (.inr ((behind.covers z member).imp_left fun before => takes before))

end

theorem Resolved.derives_turns {first first' : Marked ι ν} (resolved : Resolved reading fresh scope none first)
    (inScope : Scoped reading scope none first) (succeeds : Succeeds reading fresh first)
    (turns : Turns reading (normal reading fresh first) first') :
    Derives reading.transparent scope.held first (cleaned reading.transparent first').1 := by
  refine ⟨?_, fun z member => resolved z (inScope.freeNames_turns succeeds turns member)⟩
  rw [binder?_cleaned, turns.binder?, binder?_normal succeeds]

theorem resolved_query {first : Marked ι ν} {rest : List (Marked ι ν)} (kept : Kept reading first)
    (inScope : Scoped reading scope none first) (clauses : ∀ c ∈ first :: rest, Resolved reading fresh scope none c)
    (succeeds : Succeeds reading fresh (.node m (.query (first :: rest)))) :
    Resolved reading fresh scope none (.node m (.query (first :: rest))) := by
  have succeed : ∀ c ∈ first :: rest, Succeeds reading fresh c := fun c member => succeeds.child member
  obtain ⟨opening, between⟩ := List.forall_mem_cons.mp clauses
  obtain ⟨inFirst, inRest⟩ := List.forall_mem_cons.mp succeed
  obtain ⟨first', turns, whole⟩ := normal_query kept succeeds
  have form : cleanForm reading fresh (.node m (.query (first :: rest))) =
      .node m (.query ((cleaned reading.transparent first').1 :: rest.map (cleanForm reading fresh))) := by
    rw [cleanForm, whole, cleaned_query, List.map_cons, List.map_map]
    rfl
  rw [Resolved, form, freeNames_query, freeNames_query]
  exact allowed_unbound (.cons (opening.derives_turns inScope inFirst turns) (derives_all between inRest))

theorem resolved_record {sm rm im : ι} {first value : Marked ι ν} {clauses initializers : List (Marked ι ν)}
    {x y : ν} {fields : List ν} (kept : Kept reading first) (inScope : Scoped reading scope none first)
    (between : ∀ c ∈ first :: clauses, Resolved reading fresh scope none c)
    (pair : Pair initializers (.node im (.ident x [])) x y value)
    (behind : Behind reading scope (.node im (.ident x [])) x fields)
    (inValue : Resolved reading fresh scope none value)
    (succeeds : Succeeds reading fresh
      (.node m (.query (first :: (clauses ++ [selectRecord sm rm initializers]))))) :
    Resolved reading fresh scope (some (y :: fields))
      (.node m (.query (first :: (clauses ++ [selectRecord sm rm initializers])))) := by
  have succeed : ∀ c ∈ first :: (clauses ++ [selectRecord sm rm initializers]), Succeeds reading fresh c :=
    fun c member => succeeds.child member
  obtain ⟨opening, between⟩ := List.forall_mem_cons.mp between
  obtain ⟨inFirst, inRest⟩ := List.forall_mem_cons.mp succeed
  obtain ⟨inClauses, inLast⟩ := List.forall_mem_append.mp inRest
  have inLast := List.forall_mem_singleton.mp inLast
  obtain ⟨each, inTaken, -⟩ := pair.succeed inLast
  obtain ⟨first', turns, whole⟩ := normal_query kept succeeds
  have derive := List.Forall₂.cons (opening.derives_turns inScope inFirst turns) (derives_all between inClauses)
  have opens : Opens (ι := ι) reading.transparent [] scope.held [] [] := .nil
  refine ⟨m, first' :: clauses.map (normal reading fresh), sm, rm, _, _, x, y, _, ?_,
    pair.normal each, by rw [normal_other inTaken rfl]; rfl, ?_⟩
  · rw [whole, List.map_append, List.map_singleton, normal_selectRecord inLast]
    rfl
  · rw [freeNames_query, List.map_cons, List.map_map]
    exact opens.yields derive (pair.yields behind inValue sm rm)

section
variable {fm im : ι} {x : ν} {elemType : Option (Marked ι ν)} {inner rest : List (Marked ι ν)} {fields : List ν}

/-- A query over one that is to be bound as a record: the clauses that stand for the record come first. -/
theorem normal_nested (eliminates : reading.eliminates = true) (transparent : reading.transparent x = true)
    (source : Resolved reading fresh scope (some fields) (.node im (.query inner)))
    (succeeds : Succeeds reading fresh
      (.node m (.query (.node fm (.fromClause x elemType (.node im (.query inner))) :: rest)))) :
    ∃ front, Opens reading.transparent (Marked.node im (.query inner)).freeNames scope.held fields front ∧
      (∀ c ∈ front, Clean reading.transparent c) ∧
      normal reading fresh
          (.node m (.query (.node fm (.fromClause x elemType (.node im (.query inner))) :: rest))) =
        .node m (.query (front ++ rest.map (cleanForm reading fresh))) := by
  obtain ⟨children, -⟩ := succeeds_node_iff.mp succeeds
  have inFirst := children _ List.mem_cons_self
  obtain ⟨qm, moved, sm, rm, initializers, taken, v, y, value, visited, pair, ident, yields⟩ := source
  obtain ⟨declared, shape, named⟩ := pair.selects ident sm rm
  -- A value without a let clause is the identifier of that name, and cleaning leaves it one.
  have binds' : neededLet y value.kind = some y ∨ neededLet y value.kind = none ∧
      ∃ typeArgs, (cleaned reading.transparent value).1.kind = .ident y typeArgs := by
    refine (neededLet_cases y value.kind).imp_right (.imp_right ?_)
    rintro ⟨typeArgs, ident⟩
    obtain ⟨vm, vk⟩ := value
    cases ident
    rw [cleaned_other vm (by simp)]
    exact ⟨_, rfl⟩
  have opens := yields.opens fresh binds'
  rw [← cleaned_letClauses, ← List.map_append] at opens
  refine ⟨_, opens, List.forall_mem_map.mpr fun c _ => clean_cleaned c, ?_⟩
  rw [normal_node children, Kind.map, List.map_cons, normal_other inFirst rfl, Kind.map, visited]
  refine (settle_splice eliminates transparent shape named).trans ?_
  rw [List.map_append, List.map_map]
  rfl

theorem unbound_nested {transparent : ν → Bool} (bound : transparent x = true) :
    ∀ z, transparent z = false → z ∈ (Marked.node im (.query inner)).freeNames ++ unbound rest →
      z ∈ unbound (.node fm (.fromClause x elemType (.node im (.query inner))) :: rest) := by
  intro z user member
  rw [mem_unbound_cons]
  rcases List.mem_append.mp member with inSource | inRest
  · refine .inl ?_
    rw [freeNames_other rfl (by simp)]
    exact List.mem_flatMap.mpr ⟨_, by simp [Kind.children], inSource⟩
  · refine .inr ⟨?_, inRest⟩
    rintro ⟨⟩
    cases bound.symm.trans user

theorem resolved_nested (eliminates : reading.eliminates = true) (transparent : reading.transparent x = true)
    (source : Resolved reading fresh scope (some fields) (.node im (.query inner)))
    (clauses : ∀ c ∈ rest, Resolved reading fresh ((x, fields) :: scope) none c)
    (succeeds : Succeeds reading fresh
      (.node m (.query (.node fm (.fromClause x elemType (.node im (.query inner))) :: rest)))) :
    Resolved reading fresh scope none
      (.node m (.query (.node fm (.fromClause x elemType (.node im (.query inner))) :: rest))) := by
  have inRest : ∀ c ∈ rest, Succeeds reading fresh c := fun c member => succeeds.child (.tail _ member)
  obtain ⟨front, opens, clean, whole⟩ := normal_nested eliminates transparent source succeeds
  have clean : ∀ c ∈ front ++ rest.map (cleanForm reading fresh), Clean reading.transparent c :=
    List.forall_mem_append.mpr ⟨clean, List.forall_mem_map.mpr fun c _ => clean_cleaned _⟩
  rw [Resolved, cleanForm, whole, cleaned_query, map_cleaned_eq clean, freeNames_query, freeNames_query]
  have derive := derives_all clauses inRest
  exact fun z member => (opens.unbound_append derive z member).imp (unbound_nested transparent z)

theorem resolved_nestedRecord {sm rm : ι} {v y : ν} {clauses initializers : List (Marked ι ν)}
    {taken value : Marked ι ν} {fields' : List ν} (eliminates : reading.eliminates = true)
    (transparent : reading.transparent x = true)
    (source : Resolved reading fresh scope (some fields) (.node im (.query inner)))
    (between : ∀ c ∈ clauses, Resolved reading fresh ((x, fields) :: scope) none c)
    (pair : Pair initializers taken v y value) (behind : Behind reading ((x, fields) :: scope) taken v fields')
    (inValue : Resolved reading fresh ((x, fields) :: scope) none value)
    (succeeds : Succeeds reading fresh (.node m (.query
      (.node fm (.fromClause x elemType (.node im (.query inner))) ::
        (clauses ++ [selectRecord sm rm initializers]))))) :
    Resolved reading fresh scope (some (y :: fields')) (.node m (.query
      (.node fm (.fromClause x elemType (.node im (.query inner))) ::
        (clauses ++ [selectRecord sm rm initializers])))) := by
  have succeed : ∀ c ∈ clauses ++ [selectRecord sm rm initializers], Succeeds reading fresh c :=
    fun c member => succeeds.child (.tail _ member)
  obtain ⟨inClauses, inLast⟩ := List.forall_mem_append.mp succeed
  have inLast := List.forall_mem_singleton.mp inLast
  obtain ⟨each, inTaken, -⟩ := pair.succeed inLast
  obtain ⟨front, opens, clean, whole⟩ := normal_nested eliminates transparent source succeeds
  have clean : ∀ c ∈ front ++ clauses.map (cleanForm reading fresh), Clean reading.transparent c :=
    List.forall_mem_append.mpr ⟨clean, List.forall_mem_map.mpr fun c _ => clean_cleaned _⟩
  have select : cleanForm reading fresh (selectRecord sm rm initializers) =
      selectRecord sm rm
        ((initializers.map (normal reading fresh)).map fun c => (cleaned reading.transparent c).1) := by
    rw [cleanForm, normal_selectRecord inLast, cleaned_selectRecord]
  refine ⟨m, front ++ clauses.map (cleanForm reading fresh), sm, rm, _, _, v, y, _, ?_,
    (pair.normal each).cleaned reading.transparent, behind.cleanForm inTaken, ?_⟩
  · rw [whole, List.map_append, List.map_singleton, select, List.append_assoc]
  · rw [map_cleaned_eq clean, show (cleaned reading.transparent _).1 = _ from clean_cleaned _, freeNames_query]
    exact (opens.yields (derives_all between inClauses) (pair.yields behind inValue sm rm)).imp
      (unbound_nested transparent)

end

theorem Scoped.resolved (eliminates : reading.eliminates = true) (inScope : Scoped reading scope exports t)
    (succeeds : Succeeds reading fresh t) : Resolved reading fresh scope exports t := by
  induction inScope with
  | reference user _ args =>
    exact resolved_reference user (fun c child => args c child (succeeds.child child)) succeeds
  | access through field user _ _ args =>
    exact resolved_access through field user
      (fun c child => args c child (succeeds.child (List.mem_cons_of_mem _ child))) succeeds
  | layer other noIdent inScope children =>
    exact resolved_layer other noIdent inScope (fun c child => children c child (succeeds.child child)) succeeds
  | query kept inScope clauses =>
    exact resolved_query kept (inScope _ List.mem_cons_self)
      (fun c member => clauses c member (succeeds.child member)) succeeds
  | record kept inScope pair behind _ between inValue =>
    have inLast := succeeds.child (.tail _ (List.mem_append_right _ List.mem_cons_self))
    refine resolved_record kept (inScope _ List.mem_cons_self)
      (fun c member => between c member (succeeds.child ?_)) pair behind (inValue (pair.succeed inLast).2.2) succeeds
    exact List.mem_append_left _ member
  | nested transparent _ _ source clauses =>
    have inFirst := succeeds.child List.mem_cons_self
    exact resolved_nested eliminates transparent (source (inFirst.child (by simp [Kind.children])))
      (fun c member => clauses c member (succeeds.child (.tail _ member))) succeeds
  | nestedRecord transparent _ _ pair behind _ source between inValue =>
    have inFirst := succeeds.child List.mem_cons_self
    have inLast := succeeds.child (.tail _ (List.mem_append_right _ List.mem_cons_self))
    exact resolved_nestedRecord eliminates transparent (source (inFirst.child (by simp [Kind.children])))
      (fun c member => between c member (succeeds.child (.tail _ (List.mem_append_left _ member)))) pair behind
      (inValue (pair.succeed inLast).2.2) succeeds

/-- Outside of all records nothing is left to clean: what refers to a record is inside of the query that
binds it, and is cleaned with it. -/
theorem Scoped.clean_normal (eliminates : reading.eliminates = true) (inScope : Scoped reading scope exports t)
    (outside : scope = []) (plain : exports = none) (succeeds : Succeeds reading fresh t) :
    Clean reading.transparent (normal reading fresh t) := by
  -- No record is in scope, so a layer over clean children is no access to one.
  have layers {m : ι} {k : Kind ν (Marked ι ν)} (other : k.isQuery = false)
      (inScope : ∀ c ∈ k.children, Scoped reading [] none c)
      (clean : ∀ c ∈ k.children, Clean reading.transparent (normal reading fresh c))
      (succeeds : Succeeds reading fresh (.node m k)) :
      Clean reading.transparent (normal reading fresh (.node m k)) :=
    calc cleanForm reading fresh (.node m k)
      _ = .node m (k.map id (cleanForm reading fresh)) :=
        cleanForm_layer succeeds other fun c child => (inScope c child).user_of_ident (succeeds.child child)
      _ = .node m (k.map id (normal reading fresh)) := congrArg (Marked.node m) (Kind.map_children_congr clean)
      _ = normal reading fresh (.node m k) := (normal_other succeeds other).symm
  induction inScope with
  | reference user inScope args =>
    subst outside
    exact layers rfl inScope (fun c child => args c child rfl rfl (succeeds.child child)) succeeds
  | access through field =>
    subst outside
    cases through.held field
  | layer other noIdent inScope children =>
    subst outside
    exact layers other inScope (fun c child => children c child rfl rfl (succeeds.child child)) succeeds
  | query kept _ clauses =>
    obtain ⟨first', turns, whole⟩ := normal_query kept succeeds
    have clean := fun c member => clauses c member outside rfl (succeeds.child member)
    rw [whole]
    refine clean_node.mpr ⟨List.forall_mem_cons.mpr ⟨?_, List.forall_mem_map.mpr ?_⟩, rfl⟩
    · exact turns.clean (clean _ List.mem_cons_self)
    · exact fun c member => clean c (.tail _ member)
  | nested transparent source =>
    have inFirst := succeeds.child List.mem_cons_self
    have inSource := source.resolved eliminates (inFirst.child (by simp [Kind.children]))
    obtain ⟨front, -, clean, whole⟩ := normal_nested eliminates transparent inSource succeeds
    rw [whole]
    refine clean_node.mpr ⟨List.forall_mem_append.mpr ⟨clean, List.forall_mem_map.mpr ?_⟩, rfl⟩
    exact fun c _ => clean_cleaned _
  | record | nestedRecord => cases plain

theorem Scoped.freeNames_normal (eliminates : reading.eliminates = true) (inScope : Scoped reading [] none t)
    (succeeds : Succeeds reading fresh t) : (normal reading fresh t).freeNames ⊆ t.freeNames := by
  intro z member
  have resolved : Resolved reading fresh [] none t := inScope.resolved eliminates succeeds
  rw [← show cleanForm reading fresh t = _ from inScope.clean_normal eliminates rfl rfl succeeds] at member
  exact (resolved z member).2.resolve_right (by simp [Records.held])

theorem WellScoped.freeNames_normal (eliminates : reading.eliminates = true) (wellScoped : WellScoped reading t)
    (succeeds : Succeeds reading fresh t) : (normal reading fresh t).freeNames ⊆ t.freeNames := by
  induction wellScoped with
  | inScope inScope => exact inScope.freeNames_normal eliminates succeeds
  | layer other _ children =>
    rw [normal_other succeeds other]
    exact freeNames_map_subset other fun c child => children c child (succeeds.child child)
  | query kept _ clauses =>
    obtain ⟨inFirst, inRest⟩ := List.forall_mem_cons.mp fun c member => clauses c member (succeeds.child member)
    obtain ⟨first', turns, whole⟩ := normal_query kept succeeds
    have opening := turns.freeNames (fun _ _ _ _ _ => rfl)
    rw [clean_of_none, clean_of_none] at opening
    have binder := fun c member => binder?_normal (succeeds.child (c := c) member)
    rw [whole, freeNames_query, freeNames_query]
    refine unbound_subset (.cons ⟨?_, List.Subset.trans opening inFirst⟩ ?_)
    · rw [turns.binder?, binder _ List.mem_cons_self]
    · refine List.forall₂_map_right_iff.mpr (List.forall₂_same.mpr fun c member => ⟨?_, inRest c member⟩)
      exact binder c (.tail _ member)

end

section
variable (rules : Rules) (names : NameTable) {s : Store} {l : Layout} {stats : Stats}

/-- No name is free below a root after a run that was not free before it. -/
theorem normalize_freeNames (eliminates : rules.config.eliminateTransparent = true) (holds : s.Holds l)
    (nodup : l.marks.Nodup) (wellScoped : WellScoped (rules.numbered names) l)
    (done : (normalize rules names s l.mark).result = .ok stats) :
    ∃ l' : Layout, l'.mark = l.mark ∧ (normalize rules names s l.mark).store.Holds l' ∧ l'.marks.Nodup ∧
      l'.freeNames ⊆ l.freeNames := by
  obtain ⟨succeeds, -, l', change, image, -⟩ := normalize_run_collapsed rules names (.single holds nodup) done
  refine ⟨l', change.root, change.forest.holds_single, change.forest.nodup_single, ?_⟩
  rw [← Marked.freeNames_map (collapse s), image]
  exact wellScoped.freeNames_normal eliminates succeeds

/-- A query over a query over a query. The innermost one selects a record with these initializers, of which
`t0.a` and `t1.t0.a` reach a field. -/
def twoRecords (first second : Layout) : Layout :=
  .node ⟨26⟩ (.query [
    .node ⟨18⟩ (.fromClause ⟨8⟩ none (.node ⟨17⟩ (.query [
      .node ⟨10⟩ (.fromClause ⟨6⟩ none (.node ⟨9⟩ (.query [
        .node ⟨1⟩ (.fromClause ⟨2⟩ none (.node ⟨0⟩ (.ident ⟨1⟩ []))),
        selectRecord ⟨8⟩ ⟨7⟩ [first, second]]))),
      selectRecord ⟨16⟩ ⟨15⟩ [
        .node ⟨11⟩ (.ident ⟨6⟩ []),
        .node ⟨14⟩ (.named ⟨7⟩ (.node ⟨13⟩ (.member (.node ⟨12⟩ (.ident ⟨6⟩ [])) ⟨4⟩ [])))]]))),
    .node ⟨25⟩ (.selectClause (.node ⟨24⟩ (.binary .add
      (.node ⟨21⟩ (.member (.node ⟨20⟩ (.member (.node ⟨19⟩ (.ident ⟨8⟩ [])) ⟨6⟩ [])) ⟨4⟩ []))
      (.node ⟨23⟩ (.member (.node ⟨22⟩ (.ident ⟨8⟩ [])) ⟨7⟩ [])))))])

theorem normalize_freeNames_reexport :
    let rules : Rules := .ofConfig {}
    let names : NameTable := ⟨#["", "xs", "x", "f", "a", "b", "<>h__TransparentIdentifier0", "c",
      "<>h__TransparentIdentifier1"], ∅⟩
    let l := twoRecords (.node ⟨3⟩ (.named ⟨2⟩ (.node ⟨2⟩ (.ident ⟨2⟩ []))))
      (.node ⟨6⟩ (.named ⟨4⟩ (.node ⟨5⟩ (.member (.node ⟨4⟩ (.ident ⟨2⟩ [])) ⟨3⟩ []))))
    l.store.Holds l ∧ WellScoped (rules.numbered names) l ∧
      (normalize rules names l.store ⟨26⟩).result = .ok ⟨2, 2, 4, 0, 0⟩ ∧
      ∃ l' : Layout, l'.mark = ⟨26⟩ ∧ (normalize rules names l.store ⟨26⟩).store.Holds l' ∧ l'.marks.Nodup ∧
        l'.freeNames ⊆ [⟨1⟩] := by
  intro rules names l
  have holds : l.store.Holds l := Layout.holds_store (by decide) (by decide)
  have done : (normalize rules names l.store ⟨26⟩).result = .ok ⟨2, 2, 4, 0, 0⟩ := by
    decide +kernel +zetaReduce
  have t0 : (rules.numbered names).transparent ⟨6⟩ = true := by decide +kernel +zetaReduce
  have t1 : (rules.numbered names).transparent ⟨8⟩ = true := by decide +kernel +zetaReduce
  have xs : (rules.numbered names).transparent ⟨1⟩ = false := by decide +kernel +zetaReduce
  have x : (rules.numbered names).transparent ⟨2⟩ = false := by decide +kernel +zetaReduce
  have a : (rules.numbered names).transparent ⟨4⟩ = false := by decide +kernel +zetaReduce
  have c : (rules.numbered names).transparent ⟨7⟩ = false := by decide +kernel +zetaReduce
  have inScope : Scoped (rules.numbered names) [] none l := by
    refine @Scoped.nested _ _ _ _ _ _ _ _ _ _ _ [⟨7⟩, ⟨4⟩, ⟨2⟩] t1 ?_ (List.forall_mem_singleton.mpr ?_)
    · refine @Scoped.nestedRecord _ _ _ _ _ _ _ _ _ _ _ _ _ _ [] _ _ _ [⟨4⟩, ⟨2⟩] _ t0 ?_ (by simp) .shorthand
        (.record (.name t0 List.mem_cons_self))
        (.access (.name t0 List.mem_cons_self) List.mem_cons_self a rfl (by simp))
      refine @Scoped.record _ _ _ _ _ _ _ _ _ _ [] _ _ _ _ (.user (by rintro _ ⟨⟩; exact x))
        (List.forall_mem_singleton.mpr ?_) .reexport (.user x) ?_
      · exact .layer rfl (by simp) (List.forall_mem_singleton.mpr (.reference xs (by simp)))
      · exact .layer rfl (by simp) (List.forall_mem_singleton.mpr (.reference x (by simp)))
    · refine .layer rfl (by simp) (List.forall_mem_singleton.mpr (.layer rfl (by simp) ?_))
      refine List.forall_mem_cons.mpr ⟨?_, List.forall_mem_singleton.mpr ?_⟩
      · exact .access (.field (.name t1 List.mem_cons_self) t0) (.tail _ List.mem_cons_self) a rfl (by simp)
      · exact .access (.name t1 List.mem_cons_self) List.mem_cons_self c rfl (by simp)
  exact ⟨holds, .inScope inScope, done,
    normalize_freeNames rules names rfl holds (by decide) (.inScope inScope) done⟩

/-- The record takes over no variable, so that the query becomes a continuation, with the name that is
stripped from the accesses when the other one is flattened. -/
theorem not_freeNames_continuation :
    let names : NameTable := ⟨#["", "xs", "x", "f", "a", "b", "<>h__TransparentIdentifier0", "c",
      "<>h__TransparentIdentifier1"], ∅⟩
    let l := twoRecords (.node ⟨4⟩ (.named ⟨4⟩ (.node ⟨3⟩ (.member (.node ⟨2⟩ (.ident ⟨2⟩ [])) ⟨3⟩ []))))
      (.node ⟨6⟩ (.named ⟨5⟩ (.node ⟨5⟩ (.ident ⟨2⟩ []))))
    let s' := (normalize (.ofConfig {}) names l.store ⟨26⟩).store
    l.store.WellFormedAt ⟨26⟩ ∧ l.freeNames = [⟨1⟩] ∧
      (normalize (.ofConfig {}) names l.store ⟨26⟩).result = .ok ⟨1, 1, 4, 1, 0⟩ ∧
      ∃ l' : Layout, l'.mark = ⟨26⟩ ∧ s'.Holds l' ∧ l'.freeNames = [⟨1⟩, ⟨4⟩, ⟨4⟩] := by
  intro names l s'
  let l' : Layout := .node ⟨26⟩ (.query [
    .node ⟨10⟩ (.continuation (.node ⟨9⟩ (.query [
      .node ⟨1⟩ (.fromClause ⟨2⟩ none (.node ⟨0⟩ (.ident ⟨1⟩ []))),
      selectRecord ⟨8⟩ ⟨7⟩ [
        .node ⟨4⟩ (.named ⟨4⟩ (.node ⟨3⟩ (.member (.node ⟨2⟩ (.ident ⟨2⟩ [])) ⟨3⟩ []))),
        .node ⟨6⟩ (.named ⟨5⟩ (.node ⟨5⟩ (.ident ⟨2⟩ [])))]])) ⟨6⟩),
    .node ⟨27⟩ (.letClause ⟨7⟩ (.node ⟨13⟩ (.ident ⟨4⟩ []))),
    .node ⟨25⟩ (.selectClause (.node ⟨24⟩ (.binary .add
      (.node ⟨21⟩ (.ident ⟨4⟩ [])) (.node ⟨23⟩ (.ident ⟨7⟩ [])))))])
  refine ⟨?_, by decide, by decide +kernel +zetaReduce, l', rfl, ?_, by decide⟩
  · exact Store.wellFormedAt_iff.mpr ⟨l, rfl, Layout.holds_store (by decide) (by decide), by decide, by decide⟩
  · unfold Store.Holds
    decide +kernel +zetaReduce

end

end Comprehension.Normalize
