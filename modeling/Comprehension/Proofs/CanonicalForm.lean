import Comprehension.Proofs.Grammar
import Comprehension.Proofs.Idempotence
import Mathlib.Tactic.IntervalCases

/-! When a run leaves a canonical tree. A first clause over a cast of a query gets an element type and
ranges over the query from then on; the run does not look at it again, and the next one makes a
continuation of it. Without such a clause nothing is left to do. -/

set_option autoImplicit false

namespace Comprehension

namespace Store

def CanonicalAt (s : Store) (root : NodeId) : Prop :=
  ∀ {path query first rest}, s.follow root path = some query → s.kind? query = some (.query (first :: rest)) →
    ∀ {x elemType source inner}, s.kind? first = some (.fromClause x elemType source) →
      s.kind? source ≠ some (.query inner)

/-- Below a root no query begins with a from clause without an element type over a cast to be folded that
is called on a query. -/
def UncastAt (s : Store) (rules : Normalize.Rules) (names : NameTable) (root : NodeId) : Prop :=
  ∀ {path query first rest}, s.follow root path = some query → s.kind? query = some (.query (first :: rest)) →
    rules.config.foldCasts = true → ∀ {x source target base method elemType inner},
      s.kind? first = some (.fromClause x none source) → s.kind? source = some (.call target []) →
      s.kind? target = some (.member base method [elemType]) →
      names.lookup method = rules.config.castMethod → s.kind? base ≠ some (.query inner)

end Store

/-- `from x in (from y in ys select y).Cast<T>() select x`, where the texts of the names are, in the order
of their numbers: nothing, `ys`, `y`, `T`, `Cast` and `x`. -/
def Layout.castQuery : Layout :=
  .node ⟨11⟩ (.query [
    .node ⟨8⟩ (.fromClause ⟨5⟩ none (.node ⟨7⟩ (.call (.node ⟨6⟩ (.member (.node ⟨4⟩ (.query [
        .node ⟨1⟩ (.fromClause ⟨2⟩ none (.node ⟨0⟩ (.ident ⟨1⟩ []))),
        .node ⟨3⟩ (.selectClause (.node ⟨2⟩ (.ident ⟨2⟩ [])))])) ⟨4⟩
      [.node ⟨5⟩ (.typeRef ⟨3⟩ [])])) []))),
    .node ⟨10⟩ (.selectClause (.node ⟨9⟩ (.ident ⟨5⟩ [])))])

namespace Normalize

variable {ι κ ν : Type}

theorem Unnested.of_cleaned {transparent : ν → Bool} {clause : Marked ι ν}
    (unnested : Unnested (cleaned transparent clause).1) : Unnested clause := by
  intro x elemType source layer
  have image : (cleaned transparent clause).1.kind =
      clause.kind.map id fun c => (cleaned transparent c).1 := by
    rcases kind_cleaned transparent clause with same | ⟨_, _, _, access, -⟩
    · exact same
    · cases layer.symm.trans access
  rw [layer] at image
  have simple := unnested _ _ _ image
  rwa [isQuery_cleaned] at simple

theorem unnested_map (f : ι → κ) {clause : Marked ι ν} : Unnested (clause.map f id) ↔ Unnested clause := by
  constructor
  · intro unnested x elemType source layer
    have simple := unnested x (elemType.map (Marked.map f id)) (source.map f id)
      (by rw [Marked.kind_map, layer]; rfl)
    rwa [Marked.kind_map, Kind.isQuery_map] at simple
  · intro unnested x elemType source layer
    cases before : clause.kind <;>
      simp only [Marked.kind_map, before, Kind.map, reduceCtorEq, Kind.fromClause.injEq] at layer
    obtain ⟨-, -, rfl⟩ := layer
    rw [Marked.kind_map, Kind.isQuery_map]
    exact unnested _ _ _ before

theorem Canonical.unnested {reading : Reading ν} {t : Marked ι ν} (canonical : Canonical reading t) :
    FirstClauses Unnested t :=
  FirstClauses.imp (fun _ settled x elemType source layer => (settled x elemType source layer).1) canonical

theorem firstClauses_noSelect {checked : Place → Bool} {t : Marked ι ν} (openings : checked .opening = true)
    (sorted : t.WellSorted checked) : FirstClauses NoSelect t := by
  intro n below clause rest is projection layer
  have arranged := sorted n below
  rw [is] at arranged
  obtain ⟨first, between, last, same, opens, -⟩ := Kind.arranged_query.mp arranged
  cases same
  have fits := opens openings
  rw [layer] at fits
  cases fits

/-! ### What the work at a query hides -/

section
variable {checked : Place → Bool} {reading : Reading ν} {m fresh : ι} {k : Kind ν (Marked ι ν)}
  {P : Marked ι ν → Prop}

theorem firstClauses_other (other : k.isQuery = false) :
    FirstClauses P (.node m k) ↔ ∀ c ∈ k.children, FirstClauses P c := by
  rw [firstClauses_node]
  constructor
  · exact fun all => all.2
  · refine fun children => ⟨fun clause rest is => ?_, children⟩
    rw [is] at other
    cases other

theorem Clauseless.firstClauses {t : Marked ι ν} (clauseless : Clauseless t) : FirstClauses P t := by
  intro n below clause rest is
  have simple := (clauseless n below).1
  rw [is] at simple
  cases simple

theorem Selects.firstClauses {select value : Marked ι ν} {declared : Option ν}
    (shape : Selects IsLayer select declared value) (inValue : FirstClauses P value) : FirstClauses P select := by
  obtain ⟨record, first, second, x, projection, pair, either, last⟩ := shape.initializers
  obtain ⟨sm, sk⟩ := select
  obtain ⟨rm, rk⟩ := record
  obtain ⟨fm, fk⟩ := first
  cases projection
  cases pair
  have bare : ∀ im : ι, FirstClauses P (.node im (.ident x [])) := fun im =>
    (firstClauses_other rfl).mpr (by simp [Kind.children])
  have inFirst : FirstClauses P (.node fm fk) := by
    rcases either with ident | ⟨⟨im, ik⟩, named, ident⟩
    · cases ident
      exact bare fm
    · cases named
      cases ident
      exact (firstClauses_other rfl).mpr (by simpa [Kind.children] using bare im)
  have inSecond : FirstClauses P second := by
    rcases last with ⟨y, -, named⟩ | ⟨-, rfl, -⟩
    · obtain ⟨wm, wk⟩ := second
      cases named
      exact (firstClauses_other rfl).mpr (by simpa [Kind.children] using inValue)
    · exact inValue
  refine (firstClauses_other rfl).mpr ?_
  simp only [Kind.children, List.mem_singleton, forall_eq]
  refine (firstClauses_other rfl).mpr ?_
  simpa [Kind.children] using ⟨inFirst, inSecond⟩

section
variable [DecidableEq ν]

theorem castParts?_normal {cast : ν → Bool} {t base elemType : Marked ι ν} (succeeds : Succeeds reading fresh t)
    (found : castParts? cast t = some (base, elemType)) :
    castParts? cast (normal reading fresh t) = some (normal reading fresh base, normal reading fresh elemType) := by
  obtain ⟨sm, tm, x, rfl, method⟩ := (castParts?_eq_some_iff.mp found).eq_call
  have inTarget : Succeeds reading fresh (.node tm (.member base x [elemType])) :=
    succeeds.child List.mem_cons_self
  apply castParts?_eq_some_iff.mpr
  rw [normal_other succeeds rfl, Kind.map, normal_other inTarget rfl]
  exact .call rfl rfl method

/-- A visit that counts nothing is one of a canonical tree. -/
theorem canonical_of_quiet {t : Marked ι ν} (succeeds : Succeeds reading fresh t)
    (nothing : tally reading fresh t = 0) : Canonical reading t ∧ normal reading fresh t = t := by
  induction t using Marked.induction with
  | step m k ih =>
    obtain ⟨children, going⟩ := succeeds_node_iff.mp succeeds
    rw [tally_node children, Stats.add_eq_zero_iff] at nothing
    obtain ⟨below, here⟩ := nothing
    have each : ∀ c ∈ k.children, Canonical reading c ∧ normal reading fresh c = c := by
      intro c child
      refine ih c child (children c child) ?_
      exact Stats.forall_of_sum (P := (· = 0)) (fun _ _ => Stats.add_eq_zero_iff.mp) below _
        (List.mem_map_of_mem child)
    have same : k.map id (normal reading fresh) = k := Kind.map_id_of fun c child => (each c child).2
    rw [same] at going here
    have keeps : action reading k = .keep := by
      rw [settle] at going here
      cases asked : action reading k with
      | keep => rfl
      | stop => rw [asked] at going; cases going
      | _ => rw [asked] at here; cases here
    refine ⟨firstClauses_node.mpr ⟨?_, fun c child => (each c child).1⟩, ?_⟩
    · rintro clause rest rfl
      exact settled_of_action_eq_keep keeps
    · rw [normal_node children, same, settle, keeps]
      rfl

end

section
variable (types : checked .type = true)
include types

theorem firstClauses_of_cleaned {transparent : ν → Bool} (back : ∀ c, P (cleaned transparent c).1 → P c)
    {t : Marked ι ν} (sorted : t.WellSorted checked) (all : FirstClauses P (cleaned transparent t).1) :
    FirstClauses P t := by
  induction t using Marked.induction with
  | step m k ih =>
    rcases kind_cleaned transparent (.node m k) with same | ⟨target, x, typeArgs, access, ident⟩
    · rw [← Marked.node_mark_kind (cleaned transparent (.node m k)).1, same, firstClauses_node] at all
      obtain ⟨here, children⟩ := all
      refine firstClauses_node.mpr ⟨?_, fun c child => ?_⟩
      · rintro clause rest rfl
        exact back clause (here _ _ rfl)
      · refine ih c child ((Marked.wellSorted_node.mp sorted).2 c child) (children _ ?_)
        rw [Kind.children_map]
        exact List.mem_map_of_mem child
    · exact (clauseless_of_cleaned types sorted ident).firstClauses

theorem firstClauses_from {x : ν} {elemType : Option (Marked ι ν)} {source : Marked ι ν}
    (sorted : (Marked.node m (.fromClause x elemType source)).WellSorted checked)
    (inSource : FirstClauses P source) : FirstClauses P (.node m (.fromClause x elemType source)) := by
  refine (firstClauses_other rfl).mpr fun c child => ?_
  rcases List.mem_append.mp child with annotation | child
  · obtain rfl := Option.mem_toList.mp annotation
    exact (clauseless_elemType types sorted).firstClauses
  · obtain rfl := List.mem_singleton.mp child
    exact inSource

variable [DecidableEq ν]

/-- The work at a query hides no query: the children have no first clauses but those that are left. -/
theorem firstClauses_of_settle (initializers : checked .expression = true → checked .initializer = true)
    (back : ∀ c, P (cleaned reading.transparent c).1 → P c) (sorted : (Marked.node m k).WellSorted checked)
    (all : FirstClauses P (settle reading fresh m k).1) : ∀ c ∈ k.children, FirstClauses P c := by
  have layer := wellSorted_layer reading fresh initializers sorted
  obtain ⟨here, below⟩ := Marked.wellSorted_node.mp sorted
  obtain ⟨asks, asked, known⟩ := exists_asks reading k
  rw [asked] at layer
  rw [settle, asked] at all
  cases known with
  | keep | stop => exact (firstClauses_node.mp all).2
  | continuation refused =>
    obtain ⟨-, children⟩ := firstClauses_node.mp all
    intro c child
    rcases List.mem_cons.mp child with rfl | child
    · have inFirst := (firstClauses_node.mp (children _ List.mem_cons_self)).2
      exact firstClauses_from types (below _ List.mem_cons_self) (inFirst _ List.mem_cons_self)
    · exact children c (List.mem_cons_of_mem _ child)
  | annotate enabled shape =>
    rename_i first x source base elemType rest
    obtain ⟨-, children⟩ := firstClauses_node.mp all
    have inFirst := (firstClauses_node.mp (children _ List.mem_cons_self)).2
    intro c child
    rcases List.mem_cons.mp child with rfl | child
    · refine firstClauses_from types (below _ List.mem_cons_self) ?_
      obtain ⟨sm, tm, y, rfl, -⟩ := shape.eq_call
      refine (firstClauses_other rfl).mpr ?_
      simp only [Kind.children, List.mem_singleton, forall_eq]
      refine (firstClauses_other rfl).mpr ?_
      simpa [Kind.children, and_comm] using inFirst
    · exact children c (List.mem_cons_of_mem _ child)
  | splice transparent shape named =>
    rename_i first im x elemType moved rest select value declared name
    obtain ⟨opens, children⟩ := firstClauses_node.mp (firstClauses_of_cleaned types back layer all)
    replace children : ∀ c ∈ moved ++ letClauses fresh (name.map (·, value)) ++ rest, FirstClauses P c := children
    intro c child
    rcases List.mem_cons.mp child with rfl | child
    · have inClause := (Marked.wellSorted_node.mp (below _ List.mem_cons_self)).2
      have inSource : (Marked.node im (.query (moved ++ [select]))).WellSorted checked :=
        inClause _ (by simp [Kind.children])
      obtain ⟨arranged, inMoved⟩ := Marked.wellSorted_node.mp inSource
      refine firstClauses_from types (below _ List.mem_cons_self)
        (firstClauses_node.mpr ⟨fun clause others is => ?_, ?_⟩)
      · -- A query has two clauses at least, so the first one is moved.
        obtain ⟨opening, between, last, two, -⟩ := Kind.arranged_query.mp arranged
        rw [← List.cons_append] at two
        obtain ⟨rfl, -⟩ := List.append_inj' two rfl
        cases is
        exact opens clause _ rfl
      · intro d member
        rcases List.mem_append.mp member with member | last
        · exact children d (by simp [member])
        · obtain rfl := List.mem_singleton.mp last
          refine shape.firstClauses ?_
          cases name with
          | some y =>
            have inLet := children (.node fresh (.letClause y value)) (by simp [letClauses])
            exact (firstClauses_node.mp inLet).2 value List.mem_cons_self
          | none =>
            -- A value without a let clause is an identifier, with nothing but types below it.
            have inValue := (inMoved d member).of_mem shape.mem_subtrees
            exact (clauseless_of_letName types inValue named).firstClauses
    · exact children c (List.mem_append_right _ child)

/-- A first clause over a cast of a query becomes a first clause over the query. -/
theorem uncast_of_unnested (initializers : checked .expression = true → checked .initializer = true)
    {t : Marked ι ν} (sorted : t.WellSorted checked) (succeeds : Succeeds reading fresh t)
    (unnested : FirstClauses Unnested (normal reading fresh t)) : FirstClauses (Uncast reading) t := by
  induction t using Marked.induction with
  | step m k ih =>
    obtain ⟨children, going⟩ := succeeds_node_iff.mp succeeds
    rw [normal_node children] at unnested
    refine firstClauses_node.mpr ⟨?_, fun c child => ?_⟩
    · rintro ⟨first, kc⟩ rest rfl enabled x source base elemType rfl found
      have inClause := children _ List.mem_cons_self
      have inSource : Succeeds reading fresh source := inClause.child (by simp [Kind.children])
      have shape := castParts?_eq_some_iff.mp (castParts?_normal inSource found)
      have simple : (normal reading fresh source).kind.isQuery = false := by
        obtain ⟨call, -, -⟩ := shape
        rw [show (normal reading fresh source).kind = _ from call]
        rfl
      have visited : normal reading fresh (.node first (.fromClause x none source)) =
          .node first (.fromClause x none (normal reading fresh source)) := normal_other inClause rfl
      rw [Kind.map, List.map_cons, visited, settle, action_source reading simple, sourceAction] at unnested
      simp only [enabled, Option.isNone_none, Bool.and_true, if_true, castParts?_normal inSource found] at unnested
      have ranges := (firstClauses_node.mp unnested).1 _ _ rfl _ _ _ rfl
      rwa [isQuery_normal (inSource.of_mem (castParts?_eq_some_iff.mp found).base_mem)] at ranges
    · refine ih c child ((Marked.wellSorted_node.mp sorted).2 c child) (children c child) ?_
      refine firstClauses_of_settle types initializers (fun _ => Unnested.of_cleaned)
        (wellSorted_visited initializers sorted) unnested _ ?_
      rw [Kind.children_map]
      exact List.mem_map_of_mem child

end

end

section
variable (rules : Rules) (names : NameTable) {s : Store} {root : NodeId} {l : Layout}

theorem forall_first_iff (holds : s.Holds l) {Q : NodeId → Prop} :
    (∀ {path query first rest}, s.follow l.mark path = some query →
      s.kind? query = some (.query (first :: rest)) → Q first) ↔ FirstClauses (fun clause => Q clause.mark) l := by
  constructor
  · intro all n below clause rest is
    obtain ⟨path, found⟩ := holds.exists_follow_iff.mpr ⟨n, below, rfl⟩
    exact all found (layerMap_holds.forth (holds.of_mem below) is)
  · intro all path query first rest found here
    obtain ⟨n, below, rfl⟩ := holds.exists_follow_iff.mp ⟨path, found⟩
    obtain ⟨m, k⟩ := n
    obtain ⟨cs, rfl, marks⟩ := exists_query_layout (holds.of_mem below) here
    obtain ⟨c, ls, rfl, rfl, -⟩ := List.map_eq_cons_iff.mp marks
    exact all _ below c ls rfl

theorem isQuery_of_layer (holds : s.Holds l) {inner : List NodeId} (here : s.Layer l.mark (.query inner)) :
    l.kind.isQuery = true := by
  obtain ⟨k, rfl, image⟩ := layerMap_holds.back holds here
  rw [← Kind.isQuery_map id Marked.mark, ← image]
  rfl

theorem canonicalAt_iff (holds : s.Holds l) : s.CanonicalAt l.mark ↔ FirstClauses Unnested l.shape := by
  rw [Layout.shape, firstClauses_map]
  simp only [unnested_map]
  refine (forall_first_iff holds).trans (firstClauses_congr fun clause below => ?_)
  have inClause := holds.of_mem below
  constructor
  · intro canonical x elemType source layer
    have inSource := layerMap_holds.below inClause layer (c := source) (by simp [Kind.children])
    by_contra nested
    obtain ⟨inner, nested⟩ := Kind.eq_query_of_isQuery (by simpa using nested)
    exact canonical (layerMap_holds.forth inClause layer) (layerMap_holds.forth inSource nested)
  · intro unnested x elemType source inner here nested
    obtain ⟨e, l, same, -, rfl⟩ := exists_from_layout inClause here
    have layer : clause.kind = .fromClause x e l := congrArg Marked.kind same
    have inSource := layerMap_holds.below inClause layer (c := l) (by simp [Kind.children])
    have simple := unnested x e l layer
    rw [isQuery_of_layer inSource nested] at simple
    cases simple

theorem uncastAt_iff (holds : s.Holds l) :
    s.UncastAt rules names l.mark ↔ FirstClauses (Uncast (rules.numbered names)) l.shape := by
  rw [Layout.shape, firstClauses_map]
  simp only [uncast_map]
  refine (forall_first_iff holds).trans (firstClauses_congr fun clause below => ?_)
  have inClause := holds.of_mem below
  constructor
  · intro uncast enabled x source base elemType layer found
    have inSource := layerMap_holds.below inClause layer (c := source) (by simp [Kind.children])
    have shape := castParts?_eq_some_iff.mp found
    have inBase := inSource.of_mem shape.base_mem
    by_contra nested
    obtain ⟨inner, nested⟩ := Kind.eq_query_of_isQuery (by simpa using nested)
    obtain ⟨call, member, method⟩ := shape.map layerMap_holds inSource
    have method : names.lookup _ = rules.config.castMethod := of_decide_eq_true method
    exact uncast enabled (layerMap_holds.forth inClause layer) call member method
      (layerMap_holds.forth inBase nested)
  · intro uncast enabled x source target base method elemType inner here call member named nested
    obtain ⟨e, l, same, untyped, rfl⟩ := exists_from_layout inClause here
    obtain rfl := Option.map_eq_none_iff.mp untyped
    have layer : clause.kind = .fromClause x none l := congrArg Marked.kind same
    have inSource := layerMap_holds.below inClause layer (c := l) (by simp [Kind.children])
    have casts : CastsOn s.Layer (rules.numbered names).cast l.mark base elemType :=
      .call call member (decide_eq_true named)
    obtain ⟨b, t, shape, rfl, rfl⟩ := casts.of_map layerMap_holds inSource
    have simple := uncast enabled x l b t layer (castParts?_eq_some_iff.mpr shape)
    rw [isQuery_of_layer (inSource.of_mem shape.base_mem) nested] at simple
    cases simple

/-- A run counts nothing exactly on canonical trees. -/
theorem normalize_eq_zero_iff (forest : s.Forest [l]) :
    (normalize rules names s l.mark).result = .ok 0 ↔ Canonical (rules.numbered names) l.shape := by
  constructor
  · intro quiet
    have succeeds := succeeds_of_normalize rules names forest quiet
    obtain ⟨result, -⟩ := normalize_of_succeeds rules names forest succeeds
    exact (canonical_of_quiet succeeds (Except.ok.inj (result.symm.trans quiet))).1
  · intro canonical
    exact (normalize_canonical rules names forest canonical).1

/-- A run on a tree that keeps to the grammar leaves no query with a from clause over a query in front
exactly if there is no cast of a query in such a place before it, and exactly then a second run has
nothing to count. -/
theorem normalize_canonical_iff {stats : Stats} (wellFormed : s.WellFormedAt root)
    (done : (normalize rules names s root).result = .ok stats) :
    ((normalize rules names s root).store.CanonicalAt root ↔ s.UncastAt rules names root) ∧
      ((normalize rules names (normalize rules names s root).store root).result = .ok 0 ↔
        s.UncastAt rules names root) := by
  obtain ⟨l, rfl, holds, nodup, sorted⟩ := Store.wellFormedAt_iff.mp wellFormed
  have forest : s.Forest [l] := .single holds nodup
  have succeeds := succeeds_of_normalize rules names forest done
  obtain ⟨-, -, l', shape, change⟩ := normalize_of_succeeds rules names forest succeeds
  have unnested := canonicalAt_iff change.forest.holds_single
  have quiet := normalize_eq_zero_iff rules names change.forest
  rw [change.root, shape] at unnested quiet
  -- From casts to the normal form, and back from what ranges over queries there.
  have sorted : l.shape.WellSorted fun _ => true := (Marked.wellSorted_map _).mpr sorted
  have forth (uncast : s.UncastAt rules names l.mark) :
      Canonical (rules.numbered names) (normal (rules.numbered names) () l.shape) := by
    have proper : Proper (rules.numbered names) l.shape :=
      ⟨firstClauses_noSelect rfl sorted, (uncastAt_iff rules names holds).mp uncast⟩
    exact (proper.firstClauses_normal succeeds).imp fun _ opening => opening.1
  have back (unnested : FirstClauses Unnested (normal (rules.numbered names) () l.shape)) :
      s.UncastAt rules names l.mark :=
    (uncastAt_iff rules names holds).mpr (uncast_of_unnested rfl (fun _ => rfl) sorted succeeds unnested)
  rw [unnested, quiet]
  exact ⟨⟨back, fun uncast => (forth uncast).unnested⟩, fun canonical => back canonical.unnested, forth⟩

end

theorem normalize_canonical_iff_nested :
    let rules : Rules := ⟨{}, (· = "t")⟩
    let names : NameTable := ⟨#["", "xs", "T", "Cast", "x", "f", "y", "t"], ∅⟩
    let s := Layout.nested.store
    s.WellFormedAt ⟨16⟩ ∧ (normalize rules names s ⟨16⟩).result = .ok ⟨1, 1, 1, 0, 1⟩ ∧
      s.UncastAt rules names ⟨16⟩ ∧ (normalize rules names s ⟨16⟩).store.CanonicalAt ⟨16⟩ := by
  intro rules names s
  have wellFormed : s.WellFormedAt ⟨16⟩ := Store.wellFormedAt_iff.mpr
    ⟨Layout.nested, rfl, Layout.holds_store (by decide) (by decide), by decide, by decide⟩
  have done : (normalize rules names s ⟨16⟩).result = .ok ⟨1, 1, 1, 0, 1⟩ := by
    decide +kernel +zetaReduce
  have uncast : s.UncastAt rules names ⟨16⟩ := by
    intro path query first rest found here enabled x source target base method elemType inner clause call member
    obtain ⟨i⟩ := query
    have bound : i < 17 := Store.index_lt_of_kind? here
    interval_cases i <;> cases here <;> cases clause <;> cases call
    cases member
    intro _ nested
    cases nested
  exact ⟨wellFormed, done, uncast, (normalize_canonical_iff rules names wellFormed done).1.mpr uncast⟩

/-- A cast of a query becomes a clause over the query, with the element type. The second run makes a
continuation of the clause, and the element type is gone. -/
theorem not_canonicalAt_castQuery :
    let names : NameTable := ⟨#["", "ys", "y", "T", "Cast", "x"], ∅⟩
    let s := Layout.castQuery.store
    let s' := (normalize (.ofConfig {}) names s ⟨11⟩).store
    s.WellFormedAt ⟨11⟩ ∧ (normalize (.ofConfig {}) names s ⟨11⟩).result = .ok { castsFolded := 1 } ∧
      ¬ s'.CanonicalAt ⟨11⟩ ∧
      (normalize (.ofConfig {}) names s' ⟨11⟩).result = .ok { continuations := 1 } := by
  intro names s s'
  refine ⟨?_, by decide +kernel +zetaReduce, fun canonical => ?_, by decide +kernel +zetaReduce⟩
  · exact Store.wellFormedAt_iff.mpr
      ⟨Layout.castQuery, rfl, Layout.holds_store (by decide) (by decide), by decide, by decide⟩
  · have here : s'.kind? ⟨11⟩ = some (.query [⟨8⟩, ⟨10⟩]) := by decide +kernel +zetaReduce
    have clause : s'.kind? ⟨8⟩ = some (.fromClause ⟨5⟩ (some ⟨5⟩) ⟨4⟩) := by decide +kernel +zetaReduce
    have nested : s'.kind? ⟨4⟩ = some (.query [⟨1⟩, ⟨3⟩]) := by decide +kernel +zetaReduce
    have found : s'.follow ⟨11⟩ [] = some ⟨11⟩ := rfl
    exact canonical found here clause nested

end Normalize

end Comprehension
