import Comprehension.Proofs.Shape
import Mathlib.Algebra.BigOperators.Group.List.Basic

/-! Trees in which a run finds nothing to do, and the trees that a run takes to such trees: those in
which no query begins with a select clause, or with a clause over a cast that is called on a query. -/

set_option autoImplicit false

namespace Comprehension.Normalize

variable {ι ν : Type} (reading : Reading ν)

def Settled (clause : Marked ι ν) : Prop :=
  ∀ x elemType source, clause.kind = .fromClause x elemType source →
    source.kind.isQuery = false ∧
      (reading.foldCasts = true → elemType = none → castParts? reading.cast source = none)

def Unnested (clause : Marked ι ν) : Prop :=
  ∀ x elemType source, clause.kind = .fromClause x elemType source → source.kind.isQuery = false

def FirstClauses (P : Marked ι ν → Prop) (t : Marked ι ν) : Prop :=
  t.All fun k => ∀ clause rest, k = .query (clause :: rest) → P clause

/-- Trees in which no first clause asks for anything. -/
def Canonical (t : Marked ι ν) : Prop := FirstClauses (Settled reading) t

variable {reading} {m : ι} {k : Kind ν (Marked ι ν)} {fresh : ι} {P : Marked ι ν → Prop}

theorem firstClauses_node : FirstClauses P (.node m k) ↔
    (∀ clause rest, k = .query (clause :: rest) → P clause) ∧ ∀ c ∈ k.children, FirstClauses P c :=
  Marked.all_node

theorem FirstClauses.of_mem {t n : Marked ι ν} (all : FirstClauses P t) (below : n ∈ t.subtrees) :
    FirstClauses P n := Marked.All.of_mem all below

theorem FirstClauses.imp {Q : Marked ι ν → Prop} {t : Marked ι ν} (weaker : ∀ c, P c → Q c)
    (all : FirstClauses P t) : FirstClauses Q t :=
  fun n below clause rest is => weaker clause (all n below clause rest is)

theorem firstClauses_congr {Q : Marked ι ν → Prop} {t : Marked ι ν} (same : ∀ c ∈ t.subtrees, P c ↔ Q c) :
    FirstClauses P t ↔ FirstClauses Q t := by
  refine forall₂_congr fun n below => forall₂_congr fun clause rest => imp_congr_right fun is => ?_
  exact same clause (Marked.mem_subtrees_trans (Marked.mem_subtrees_of_child (by simp [is, Kind.children])) below)

section
variable [DecidableEq ν]

theorem action_eq_keep_of_settled
    (settled : ∀ clause rest, k = .query (clause :: rest) → Settled reading clause) :
    action reading k = .keep := by
  obtain ⟨asks, asked, known⟩ := exists_asks reading k
  rw [asked]
  cases known with
  | keep => rfl
  | splice | continuation | stop =>
    have nested := (settled _ _ rfl _ _ _ rfl).1
    simp [Kind.isQuery] at nested
  | annotate enabled shape =>
    have uncast := (settled _ _ rfl _ _ _ rfl).2 enabled rfl
    rw [castParts?_eq_some_iff.mpr shape] at uncast
    cases uncast

theorem settled_of_action_eq_keep {clause : Marked ι ν} {rest : List (Marked ι ν)}
    (keeps : action reading (.query (clause :: rest)) = .keep) : Settled reading clause := by
  obtain ⟨first, kc⟩ := clause
  rintro x elemType source rfl
  have simple : source.kind.isQuery = false := by
    by_contra nested
    obtain ⟨inner, nested⟩ := Kind.eq_query_of_isQuery (by simpa using nested)
    rw [action_nested reading nested, nestedAction] at keeps
    split at keeps
    · cases keeps
    · split at keeps <;> cases keeps
  refine ⟨simple, fun enabled untyped => ?_⟩
  rw [action_source reading simple, sourceAction, enabled, untyped] at keeps
  cases found : castParts? reading.cast source with
  | none => rfl
  | some parts => simp [found] at keeps

/-! ### Nothing to do -/

/-- A visit leaves a canonical tree as it is and counts nothing. -/
theorem Canonical.fixed {t : Marked ι ν} (canonical : Canonical reading t) (fresh : ι) :
    Succeeds reading fresh t ∧ normal reading fresh t = t ∧ tally reading fresh t = 0 := by
  induction t using Marked.induction with
  | step m k ih =>
    obtain ⟨here, below⟩ := firstClauses_node.mp canonical
    have children : ∀ c ∈ k.children, Succeeds reading fresh c := fun c child => (ih c child (below c child)).1
    have same : k.map id (normal reading fresh) = k :=
      Kind.map_id_of fun c child => (ih c child (below c child)).2.1
    have nothing : (k.children.map (tally reading fresh)).sum = 0 :=
      List.sum_eq_zero fun n member => by
        obtain ⟨c, child, rfl⟩ := List.mem_map.mp member
        exact (ih c child (below c child)).2.2
    have keeps : settle reading fresh m k = (.node m k, {}) := by
      rw [settle, action_eq_keep_of_settled here, perform]
    refine ⟨succeeds_node_iff.mpr ⟨children, ?_⟩, ?_, ?_⟩
    · rw [same, keeps]
    · rw [normal_node children, same, keeps]
    · rw [tally_node children, same, keeps, nothing]
      rfl

end

/-! ### Cleaning -/

section
variable (transparent : ν → Bool)

theorem kind_cleaned (t : Marked ι ν) :
    (cleaned transparent t).1.kind = t.kind.map id (fun c => (cleaned transparent c).1) ∨
      ∃ target x typeArgs, t.kind = .member target x typeArgs ∧
        (cleaned transparent t).1.kind = .ident x (typeArgs.map fun c => (cleaned transparent c).1) := by
  obtain ⟨m, k⟩ := t
  rw [cleaned_node_fst]
  cases found : plainLayer? transparent (k.map id fun c => (cleaned transparent c).1) with
  | none => exact .inl rfl
  | some plain =>
    obtain ⟨target, x, typeArgs, same, rfl⟩ := plainLayer?_eq_some found
    cases k <;> simp only [Kind.map, reduceCtorEq, Kind.member.injEq] at same
    obtain ⟨-, rfl, rfl⟩ := same
    exact .inr ⟨_, _, _, rfl, rfl⟩

variable {transparent}

theorem kind_of_cleaned {t : Marked ι ν} {k' : Kind ν (Marked ι ν)} (layer : (cleaned transparent t).1.kind = k')
    (other : ∀ x typeArgs, k' ≠ .ident x typeArgs) :
    t.kind.map id (fun c => (cleaned transparent c).1) = k' := by
  rcases kind_cleaned transparent t with same | ⟨target, x, typeArgs, -, ident⟩
  · rw [← same, layer]
  · exact absurd (layer.symm.trans ident) (other _ _)

/-- The target of an access that becomes an identifier is a transparent name when its turn comes. -/
theorem cleaned_target {t target : Marked ι ν} {x y : ν} {typeArgs args : List (Marked ι ν)}
    (access : t.kind = .member target x typeArgs) (ident : (cleaned transparent t).1.kind = .ident y args) :
    ∃ z targetArgs, (cleaned transparent target).1.kind = .ident z targetArgs ∧ transparent z = true := by
  obtain ⟨m, k⟩ := t
  cases access
  rw [cleaned_node_fst, Marked.kind_node, Kind.map] at ident
  generalize (cleaned transparent target).1 = target' at ident ⊢
  obtain ⟨tm, tk⟩ := target'
  cases tk with
  | ident z targetArgs =>
    by_cases through : transparent z = true
    · exact ⟨z, targetArgs, rfl, through⟩
    · simp [plainLayer?, through] at ident
  | _ => simp [plainLayer?] at ident

theorem isQuery_cleaned (t : Marked ι ν) : (cleaned transparent t).1.kind.isQuery = t.kind.isQuery := by
  rcases kind_cleaned transparent t with same | ⟨target, x, typeArgs, access, ident⟩
  · rw [same, Kind.isQuery_map]
  · rw [access, ident]
    rfl

theorem castParts?_cleaned {cast : ν → Bool} {t : Marked ι ν} (uncast : castParts? cast t = none) :
    castParts? cast (cleaned transparent t).1 = none := by
  by_contra found
  obtain ⟨⟨base, elemType⟩, found⟩ := Option.ne_none_iff_exists'.mp found
  obtain ⟨call, member, method⟩ := castParts?_eq_some_iff.mp found
  -- A call and a member access in the cleaned tree were there before; only identifiers are new.
  have call := kind_of_cleaned call (by simp)
  generalize layer : t.kind = k at call
  cases k <;> simp only [Kind.map, reduceCtorEq, Kind.call.injEq] at call
  obtain ⟨rfl, args⟩ := call
  obtain rfl := List.map_eq_nil_iff.mp args
  have member := kind_of_cleaned member (by simp)
  rename_i target x
  generalize layer' : target.kind = k' at member
  cases k' <;> simp only [Kind.map, reduceCtorEq, Kind.member.injEq] at member
  obtain ⟨rfl, rfl, args⟩ := member
  obtain ⟨arg, rfl, rfl⟩ := List.map_eq_singleton_iff.mp args
  rw [castParts?_eq_some_iff.mpr (.call layer layer' method)] at uncast
  cases uncast

theorem Settled.cleaned {clause : Marked ι ν} (settled : Settled reading clause) :
    Settled reading (cleaned transparent clause).1 := by
  intro x elemType source layer
  have layer := kind_of_cleaned layer (by simp)
  generalize before : clause.kind = k at layer
  cases k <;> simp only [Kind.map, reduceCtorEq, Kind.fromClause.injEq] at layer
  obtain ⟨rfl, rfl, rfl⟩ := layer
  obtain ⟨simple, uncast⟩ := settled _ _ _ before
  refine ⟨by rw [isQuery_cleaned, simple], fun enabled untyped => ?_⟩
  exact castParts?_cleaned (uncast enabled (Option.map_eq_none_iff.mp untyped))

theorem FirstClauses.cleaned (keeps : ∀ c, P c → P (cleaned transparent c).1) {t : Marked ι ν}
    (all : FirstClauses P t) : FirstClauses P (cleaned transparent t).1 := by
  induction t using Marked.induction with
  | step m k ih =>
    obtain ⟨here, below⟩ := firstClauses_node.mp all
    have children : ∀ c ∈ (k.map id fun c => (Normalize.cleaned transparent c).1).children,
        FirstClauses P c := by
      simp only [Kind.children_map, List.mem_map]
      rintro _ ⟨c, child, rfl⟩
      exact ih c child (below c child)
    rw [← Marked.node_mark_kind (Normalize.cleaned transparent (.node m k)).1]
    refine firstClauses_node.mpr ⟨fun clause rest is => ?_, fun c child => ?_⟩
    · have layer := kind_of_cleaned is (by simp)
      rw [Marked.kind_node] at layer
      cases k <;> simp only [Kind.map, reduceCtorEq, Kind.query.injEq] at layer
      obtain ⟨first, others, rfl, rfl, -⟩ := List.map_eq_cons_iff.mp layer
      exact keeps first (here first others rfl)
    · rcases kind_cleaned transparent (.node m k) with same | ⟨target, x, typeArgs, access, ident⟩
      · exact children c (same ▸ child)
      · rw [ident] at child
        cases access
        exact children c (List.mem_cons_of_mem _ child)

end

/-! ### Trees with canonical normal forms -/

def NoSelect (clause : Marked ι ν) : Prop := ∀ projection, clause.kind ≠ .selectClause projection

theorem NoSelect.cleaned {transparent : ν → Bool} {clause : Marked ι ν} (other : NoSelect clause) :
    NoSelect (cleaned transparent clause).1 := by
  intro projection layer
  have layer := kind_of_cleaned layer (by simp)
  generalize before : clause.kind = k at layer
  cases k <;> simp only [Kind.map, reduceCtorEq, Kind.selectClause.injEq] at layer
  exact other _ before

def Uncast (reading : Reading ν) (clause : Marked ι ν) : Prop :=
  reading.foldCasts = true → ∀ x source base elemType, clause.kind = .fromClause x none source →
    castParts? reading.cast source = some (base, elemType) → base.kind.isQuery = false

/-- Trees in which no query begins with a select clause or with a cast of a query. -/
structure Proper (reading : Reading ν) (t : Marked ι ν) : Prop where
  plain : FirstClauses NoSelect t
  uncast : FirstClauses (Uncast reading) t

theorem Proper.of_mem {t n : Marked ι ν} (proper : Proper reading t) (below : n ∈ t.subtrees) :
    Proper reading n where
  plain := proper.plain.of_mem below
  uncast := proper.uncast.of_mem below

section
variable [DecidableEq ν]

theorem isQuery_settle (query : k.isQuery = true) : (settle reading fresh m k).1.kind.isQuery = true := by
  rw [settle]
  cases action reading k with
  | keep | stop => exact query
  | splice moved binding rest => exact isQuery_cleaned (.node m (.query _))
  | continuation | annotate => rfl

theorem isQuery_normal {t : Marked ι ν} (succeeds : Succeeds reading fresh t) :
    (normal reading fresh t).kind.isQuery = t.kind.isQuery := by
  obtain ⟨m, k⟩ := t
  rw [normal_node (succeeds_node_iff.mp succeeds).1, Marked.kind_node]
  cases query : k.isQuery with
  | true => exact isQuery_settle (by rwa [Kind.isQuery_map])
  | false => rw [settle_other _ _ _ (by rwa [Kind.isQuery_map]), Marked.kind_node, Kind.isQuery_map, query]

theorem kind_of_normal {t : Marked ι ν} {k' : Kind ν (Marked ι ν)} (succeeds : Succeeds reading fresh t)
    (layer : (normal reading fresh t).kind = k') (other : k'.isQuery = false) :
    t.kind.map id (normal reading fresh) = k' := by
  have simple : t.kind.isQuery = false := by rw [← isQuery_normal succeeds, layer, other]
  obtain ⟨m, k⟩ := t
  rw [normal_node (succeeds_node_iff.mp succeeds).1, settle_other _ _ _ (by rwa [Kind.isQuery_map])] at layer
  exact layer

theorem normal_other (succeeds : Succeeds reading fresh (.node m k)) (other : k.isQuery = false) :
    normal reading fresh (.node m k) = .node m (k.map id (normal reading fresh)) := by
  rw [normal_node (succeeds_node_iff.mp succeeds).1, settle_other _ _ _ (by rwa [Kind.isQuery_map])]

theorem settle_query_concat {first last : Marked ι ν} {clauses : List (Marked ι ν)}
    (is : k = .query (first :: (clauses ++ [last]))) :
    ∃ front last', (settle reading fresh m k).1 = .node m (.query (front ++ [last'])) ∧
      (last' = last ∨ last' = (cleaned reading.transparent last).1) := by
  obtain ⟨asks, asked, known⟩ := exists_asks reading k
  rw [settle, asked]
  cases known with
  | keep | stop => exact ⟨first :: clauses, last, by rw [is]; rfl, .inl rfl⟩
  | continuation | annotate =>
    cases is
    exact ⟨_ :: clauses, last, rfl, .inl rfl⟩
  | splice transparent shape named =>
    rename_i fm im x elemType moved rest select value declared name
    cases is
    refine ⟨(moved ++ letClauses fresh (name.map (·, value)) ++ clauses).map fun c =>
      (cleaned reading.transparent c).1, _, ?_, .inr rfl⟩
    refine (congrArg Prod.fst (cleaned_query reading.transparent m _)).trans ?_
    simp

theorem normal_query_concat {first last : Marked ι ν} {clauses : List (Marked ι ν)}
    (succeeds : Succeeds reading fresh (.node m (.query (first :: (clauses ++ [last]))))) :
    ∃ front last', normal reading fresh (.node m (.query (first :: (clauses ++ [last])))) =
        .node m (.query (front ++ [last'])) ∧
      (last' = normal reading fresh last ∨
        last' = (cleaned reading.transparent (normal reading fresh last)).1) := by
  rw [normal_node (succeeds_node_iff.mp succeeds).1]
  refine settle_query_concat (?_ : _ = Kind.query
    (normal reading fresh first :: (clauses.map (normal reading fresh) ++ [normal reading fresh last])))
  simp [Kind.map]

theorem castParts?_of_normal {cast : ν → Bool} {t base elemType : Marked ι ν}
    (succeeds : Succeeds reading fresh t)
    (found : castParts? cast (normal reading fresh t) = some (base, elemType)) :
    ∃ base' elemType', castParts? cast t = some (base', elemType') ∧ Succeeds reading fresh base' ∧
      normal reading fresh base' = base := by
  obtain ⟨call, member, method⟩ := castParts?_eq_some_iff.mp found
  have call := kind_of_normal succeeds call rfl
  generalize layer : t.kind = k at call
  cases k <;> simp only [Kind.map, reduceCtorEq, Kind.call.injEq] at call
  obtain ⟨rfl, args⟩ := call
  obtain rfl := List.map_eq_nil_iff.mp args
  rename_i x target
  have inTarget : Succeeds reading fresh target := succeeds.child (by rw [layer]; exact List.mem_cons_self)
  have member := kind_of_normal inTarget member rfl
  generalize layer' : target.kind = k' at member
  cases k' <;> simp only [Kind.map, reduceCtorEq, Kind.member.injEq] at member
  obtain ⟨rfl, rfl, args⟩ := member
  obtain ⟨arg, rfl, rfl⟩ := List.map_eq_singleton_iff.mp args
  exact ⟨_, _, castParts?_eq_some_iff.mpr (.call layer layer' method),
    inTarget.child (by rw [layer']; exact List.mem_cons_self), rfl⟩

def Opening (reading : Reading ν) (clause : Marked ι ν) : Prop := Settled reading clause ∧ NoSelect clause

omit [DecidableEq ν] in
theorem Selects.not_noSelect {select value : Marked ι ν} {declared : Option ν}
    (shape : Selects IsLayer select declared value) : ¬ NoSelect select := by
  intro other
  cases shape with
  | reexport projection | shorthand projection | undeclared projection => exact other _ projection

theorem carries_firstClauses (P : Marked ι ν → Prop) :
    Carries fun k : Kind ν (Marked ι ν) => ∀ clause rest, k = .query (clause :: rest) → P clause where
  lets _ _ _ _ _ is := by cases is
  continues _ _ _ _ is := by cases is
  annotates _ _ _ _ _ is := by cases is

/-- The work at a query leaves an opening at its beginning. -/
theorem opening_layer (children : ∀ c ∈ k.children, FirstClauses (Opening reading) c)
    (plain : ∀ clause rest, k = .query (clause :: rest) → NoSelect clause)
    (uncast : ∀ clause rest, k = .query (clause :: rest) → Uncast reading clause)
    (going : (settle reading fresh m k).2.breach = none) :
    ∀ clause rest, (action reading k).layer fresh k = .query (clause :: rest) → Opening reading clause := by
  intro clause rest is
  rw [settle] at going
  obtain ⟨asks, asked, known⟩ := exists_asks reading k
  rw [asked] at going is
  cases known with
  | keep found =>
    cases is
    exact ⟨settled_of_action_eq_keep found, plain clause rest rfl⟩
  | splice transparent shape named =>
    rename_i first im x elemType moved others select value declared name
    have inFirst := children _ List.mem_cons_self
    have inSource : FirstClauses (Opening reading) (.node im (.query (moved ++ [select]))) :=
      (firstClauses_node.mp inFirst).2 _ (by simp [Kind.children])
    obtain ⟨opens, -⟩ := firstClauses_node.mp inSource
    -- The select clause is not the first one, so the first one is moved.
    cases moved with
    | nil =>
      have select_opens := opens select [] rfl
      exact (shape.not_noSelect select_opens.2).elim
    | cons c moved =>
      cases is
      exact opens clause (moved ++ [select]) rfl
  | continuation refused =>
    cases is
    exact ⟨by simp [Settled], by simp [NoSelect]⟩
  | annotate enabled shape =>
    have simple := uncast _ _ rfl enabled _ _ _ _ rfl (castParts?_eq_some_iff.mpr shape)
    cases is
    refine ⟨fun _ _ _ layer => ?_, by simp [NoSelect]⟩
    cases layer
    exact ⟨simple, by simp⟩
  | stop last shape unnamed => cases going

/-- The normal form of a proper tree is canonical. -/
theorem Proper.firstClauses_normal {t : Marked ι ν} (proper : Proper reading t)
    (succeeds : Succeeds reading fresh t) : FirstClauses (Opening reading) (normal reading fresh t) := by
  induction t using Marked.induction with
  | step m k ih =>
    obtain ⟨children, going⟩ := succeeds_node_iff.mp succeeds
    obtain ⟨plain, -⟩ := firstClauses_node.mp proper.plain
    obtain ⟨uncast, -⟩ := firstClauses_node.mp proper.uncast
    have visited : ∀ c ∈ (k.map id (normal reading fresh)).children, FirstClauses (Opening reading) c := by
      simp only [Kind.children_map, List.mem_map]
      rintro _ ⟨c, child, rfl⟩
      exact ih c child (proper.of_mem (Marked.mem_subtrees_of_child child)) (children c child)
    -- Cleaning keeps an opening one.
    have keeps : ∀ t : Marked ι ν, FirstClauses (Opening reading) t →
        FirstClauses (Opening reading) (cleaned reading.transparent t).1 :=
      fun t => FirstClauses.cleaned fun c opening => ⟨opening.1.cleaned, opening.2.cleaned⟩
    rw [normal_node children]
    refine all_settle (carries_firstClauses _) fresh m visited keeps (opening_layer visited ?_ ?_ going)
    · -- No visit makes a select clause.
      intro clause rest is projection layer
      cases k <;> simp only [Kind.map, reduceCtorEq, Kind.query.injEq] at is
      obtain ⟨first, others, rfl, rfl, rfl⟩ := List.map_eq_cons_iff.mp is
      have layer := kind_of_normal (children first List.mem_cons_self) layer rfl
      generalize before : first.kind = kf at layer
      cases kf <;> simp only [Kind.map, reduceCtorEq, Kind.selectClause.injEq] at layer
      exact plain first others rfl _ before
    · -- A cast found now was there before, called on a tree that was no query and is none now.
      intro visited rest is enabled x source base elemType layer found
      cases k <;> simp only [Kind.map, reduceCtorEq, Kind.query.injEq] at is
      obtain ⟨clause, others, rfl, rfl, -⟩ := List.map_eq_cons_iff.mp is
      have inClause := children clause List.mem_cons_self
      have layer := kind_of_normal inClause layer rfl
      obtain ⟨mc, kc⟩ := clause
      cases kc <;> simp only [Kind.map, Marked.kind_node, reduceCtorEq, Kind.fromClause.injEq] at layer
      obtain ⟨-, untyped, rfl⟩ := layer
      obtain rfl := Option.map_eq_none_iff.mp untyped
      obtain ⟨base, elemType, before, succeeds, rfl⟩ :=
        castParts?_of_normal (inClause.child (by simp [Kind.children])) found
      rw [isQuery_normal succeeds]
      exact uncast _ _ rfl enabled _ _ base elemType rfl before

end

end Comprehension.Normalize
