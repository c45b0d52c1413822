import Comprehension.Proofs.CanonicalForm
import Comprehension.Proofs.ClauseOrder
import Mathlib.Algebra.Order.BigOperators.Group.List
import Mathlib.Tactic.IntervalCases

/-! The element types of from clauses, before and after a run. A run folds casts into element types, and it
takes the element type away from every first clause that ranges over a query; it keeps all others. -/

set_option autoImplicit false

namespace Comprehension

variable {ι κ ν : Type}

def declaration (clause : ι) : Kind ν ι → List (ι × ι)
  | .fromClause _ (some type) _ => [(clause, type)]
  | _ => []

def Kind.opening {α : Type} (k : Kind ν α) : List α := k.clauses.take 1

theorem Kind.mem_opening {α : Type} {k : Kind ν α} {a : α} : a ∈ k.opening ↔ ∃ rest, k = .query (a :: rest) := by
  rw [opening]
  cases k with
  | query clauses =>
    cases clauses with
    | nil => simp [clauses]
    | cons first rest => simp [clauses, eq_comm]
  | _ => simp [clauses]

theorem Kind.opening_map {α β : Type} (g : α → β) (k : Kind ν α) : (k.map id g).opening = k.opening.map g := by
  rw [opening, opening, clauses_map, List.map_take]

namespace Marked

def declarations (t : Marked ι ν) : List (ι × ι) := t.collect declaration

theorem declarations_node (m : ι) (k : Kind ν (Marked ι ν)) :
    (node m k).declarations = declaration m (k.map id mark) ++ k.children.flatMap declarations := collect_node m k

def openings (t : Marked ι ν) : List (Marked ι ν) := t.subtrees.flatMap (·.kind.opening)

theorem openings_node (m : ι) (k : Kind ν (Marked ι ν)) :
    (node m k).openings = k.opening ++ k.children.flatMap openings := by
  rw [openings, subtrees_node, List.flatMap_cons, List.flatMap_assoc]
  rfl

theorem mem_openings {t clause : Marked ι ν} :
    clause ∈ t.openings ↔ ∃ n ∈ t.subtrees, ∃ rest, n.kind = .query (clause :: rest) := by
  simp only [openings, List.mem_flatMap, Kind.mem_opening]

end Marked

namespace Store

def DeclaresBelow (s : Store) (root clause type : NodeId) : Prop :=
  ∃ path x source, s.follow root path = some clause ∧ s.kind? clause = some (.fromClause x (some type) source)

def OpensOverQuery (s : Store) (root clause : NodeId) : Prop :=
  ∃ path query rest x elemType source inner, s.follow root path = some query ∧
    s.kind? query = some (.query (clause :: rest)) ∧ s.kind? clause = some (.fromClause x elemType source) ∧
    s.kind? source = some (.query inner)

def OpensOverCast (s : Store) (castMethod : String) (names : NameTable) (root clause type : NodeId) : Prop :=
  ∃ path query rest x source target base method, s.follow root path = some query ∧
    s.kind? query = some (.query (clause :: rest)) ∧ s.kind? clause = some (.fromClause x none source) ∧
    s.kind? source = some (.call target []) ∧ s.kind? target = some (.member base method [type]) ∧
    names.lookup method = castMethod

end Store

/-- `from T g in (from x in xs select x) select g`, where the texts of the names are, in the order of their
numbers: nothing, `T`, `xs`, `x` and `g`. -/
def Layout.typedQuery : Layout :=
  .node ⟨9⟩ (.query [
    .node ⟨6⟩ (.fromClause ⟨4⟩ (some (.node ⟨0⟩ (.typeRef ⟨1⟩ []))) (.node ⟨5⟩ (.query [
      .node ⟨2⟩ (.fromClause ⟨3⟩ none (.node ⟨1⟩ (.ident ⟨2⟩ []))),
      .node ⟨4⟩ (.selectClause (.node ⟨3⟩ (.ident ⟨3⟩ [])))]))),
    .node ⟨8⟩ (.selectClause (.node ⟨7⟩ (.ident ⟨4⟩ [])))])

/-- What a run makes of it, `from x in xs select x into g select g`. -/
def Layout.continuedQuery : Layout :=
  .node ⟨9⟩ (.query [
    .node ⟨6⟩ (.continuation (.node ⟨5⟩ (.query [
      .node ⟨2⟩ (.fromClause ⟨3⟩ none (.node ⟨1⟩ (.ident ⟨2⟩ []))),
      .node ⟨4⟩ (.selectClause (.node ⟨3⟩ (.ident ⟨3⟩ [])))])) ⟨4⟩),
    .node ⟨8⟩ (.selectClause (.node ⟨7⟩ (.ident ⟨4⟩ [])))])

/-- `from T g in (from x in xs.Cast<U>() from V y in ys select x) select g`, where the texts of the names are,
in the order of their numbers: nothing, `T`, `xs`, `U`, `Cast`, `x`, `V`, `ys`, `y` and `g`. -/
def Layout.threeTypes : Layout :=
  .node ⟨15⟩ (.query [
    .node ⟨12⟩ (.fromClause ⟨9⟩ (some (.node ⟨0⟩ (.typeRef ⟨1⟩ []))) (.node ⟨11⟩ (.query [
      .node ⟨5⟩ (.fromClause ⟨5⟩ none (.node ⟨4⟩ (.call (.node ⟨3⟩ (.member (.node ⟨1⟩ (.ident ⟨2⟩ [])) ⟨4⟩
        [.node ⟨2⟩ (.typeRef ⟨3⟩ [])])) []))),
      .node ⟨8⟩ (.fromClause ⟨8⟩ (some (.node ⟨6⟩ (.typeRef ⟨6⟩ []))) (.node ⟨7⟩ (.ident ⟨7⟩ []))),
      .node ⟨10⟩ (.selectClause (.node ⟨9⟩ (.ident ⟨5⟩ [])))]))),
    .node ⟨14⟩ (.selectClause (.node ⟨13⟩ (.ident ⟨9⟩ [])))])

theorem mem_declaration {m c type : ι} {k : Kind ν ι} :
    (c, type) ∈ declaration m k ↔ m = c ∧ ∃ x source, k = .fromClause x (some type) source := by
  unfold declaration
  split
  next x type' source =>
    simp only [List.mem_singleton, Prod.mk.injEq, Kind.fromClause.injEq, Option.some.injEq]
    constructor
    · rintro ⟨rfl, rfl⟩
      exact ⟨rfl, x, source, rfl, rfl, rfl⟩
    · rintro ⟨rfl, _, _, -, rfl, -⟩
      exact ⟨rfl, rfl⟩
  next other =>
    simp only [List.not_mem_nil, false_iff, not_and, not_exists]
    exact fun _ x source is => other x type source is

theorem declaration_other (m : ι) (k : Kind ν ι) (other : k.isClause = false) : declaration m k = [] := by
  cases k <;> first | rfl | cases other

theorem declaration_map (f : ι → κ) (m : ι) (k : Kind ν ι) :
    declaration (f m) (k.map id f) = (declaration m k).map (Prod.map f f) := by
  cases k with
  | fromClause x elemType source => cases elemType <;> rfl
  | _ => rfl

namespace Normalize

def dropped (clause : Marked ι ν) : List (ι × ι) :=
  match clause.kind with
  | .fromClause _ elemType source =>
    if source.kind.isQuery then (elemType.map fun type => (clause.mark, type.mark)).toList else []
  | _ => []

def folded (reading : Reading ν) (clause : Marked ι ν) : List (ι × ι) :=
  match clause.kind with
  | .fromClause _ none source =>
    if reading.foldCasts then
      (((castParts? reading.cast source).map (·.2.mark)).map (clause.mark, ·)).toList
    else []
  | _ => []

section
variable {checked : Place → Bool} {reading : Reading ν} {m fresh : ι} {k : Kind ν (Marked ι ν)}

theorem mem_dropped {clause : Marked ι ν} {c type : ι} : (c, type) ∈ dropped clause ↔
    clause.mark = c ∧ ∃ x elemType source, clause.kind = .fromClause x (some elemType) source ∧
      source.kind.isQuery = true ∧ elemType.mark = type := by
  constructor
  · intro member
    unfold dropped at member
    split at member
    next x elemType source is =>
      split at member
      next nested =>
        obtain ⟨type, rfl, same⟩ := Option.map_eq_some_iff.mp (Option.mem_toList.mp member)
        cases same
        exact ⟨rfl, x, type, source, is, nested, rfl⟩
      next => cases member
    next => cases member
  · rintro ⟨rfl, x, elemType, source, is, nested, rfl⟩
    simp [dropped, is, nested]

theorem mem_folded {clause : Marked ι ν} {c type : ι} : (c, type) ∈ folded reading clause ↔
    reading.foldCasts = true ∧ clause.mark = c ∧ ∃ x source base elemType,
      clause.kind = .fromClause x none source ∧ CastsOn IsLayer reading.cast source base elemType ∧
        elemType.mark = type := by
  constructor
  · intro member
    unfold folded at member
    split at member
    next x source is =>
      split at member
      next enabled =>
        obtain ⟨_, found, same⟩ := Option.map_eq_some_iff.mp (Option.mem_toList.mp member)
        obtain ⟨⟨base, type⟩, parts, rfl⟩ := Option.map_eq_some_iff.mp found
        cases same
        exact ⟨enabled, rfl, x, source, base, type, is, castParts?_eq_some_iff.mp parts, rfl⟩
      next => cases member
    next => cases member
  · rintro ⟨enabled, rfl, x, source, base, elemType, is, shape, rfl⟩
    simp [folded, is, enabled, castParts?_eq_some_iff.mpr shape]

theorem declarations_query (m : ι) (clauses : List (Marked ι ν)) :
    (Marked.node m (.query clauses)).declarations = clauses.flatMap Marked.declarations :=
  collect_other declaration_other rfl

theorem declarations_continuation (m : ι) (inner : Marked ι ν) (x : ν) :
    (Marked.node m (.continuation inner x)).declarations = inner.declarations := by
  rw [Marked.declarations, Marked.collect_node]
  simp [Kind.map, Kind.children, declaration, Marked.declarations]

theorem declarations_from (types : checked .type = true) {x : ν} {elemType : Option (Marked ι ν)}
    {source : Marked ι ν} (sorted : (Marked.node m (.fromClause x elemType source)).WellSorted checked) :
    (Marked.node m (.fromClause x elemType source)).declarations =
      (elemType.map fun type => (m, type.mark)).toList ++ source.declarations := by
  rw [Marked.declarations, Marked.collect_node]
  cases elemType with
  | none => simp [Kind.map, Kind.children, declaration, Marked.declarations]
  | some type =>
    have none : type.collect declaration = [] := (clauseless_elemType types sorted).collect declaration_other
    simp [Kind.map, Kind.children, declaration, none, Marked.declarations]

theorem declarations_first (types : checked .type = true) {fm : ι} {x : ν} {elemType : Option (Marked ι ν)}
    {source : Marked ι ν} {rest : List (Marked ι ν)}
    (sorted : (Marked.node fm (.fromClause x elemType source)).WellSorted checked) :
    (Marked.node m (.query (.node fm (.fromClause x elemType source) :: rest))).declarations =
      (elemType.map fun type => (fm, type.mark)).toList ++
        (source.declarations ++ rest.flatMap Marked.declarations) := by
  rw [declarations_query, List.flatMap_cons, declarations_from types sorted, List.append_assoc]

theorem declarations_cast {cast : ν → Bool} {source base elemType : Marked ι ν}
    (shape : CastsOn IsLayer cast source base elemType) (clauseless : Clauseless elemType) :
    source.declarations = base.declarations := by
  obtain ⟨sm, tm, y, rfl, -⟩ := shape.eq_call
  have none : elemType.declarations = [] := clauseless.collect declaration_other
  rw [Marked.declarations, collect_other declaration_other rfl, Kind.children, List.flatMap_singleton,
    collect_other declaration_other rfl]
  simpa [Kind.children, Marked.declarations] using none

theorem declarations_letClauses [DecidableEq ν] (types : checked .type = true) {value : Marked ι ν}
    {declared name : Option ν} (sorted : value.WellSorted checked)
    (named : letName declared value.kind = .ok name) :
    (letClauses fresh (name.map (·, value))).flatMap Marked.declarations = value.declarations := by
  cases name with
  | some y =>
    rw [Option.map_some, letClauses, List.flatMap_singleton, Marked.declarations, Marked.collect_node]
    simp [Kind.map, Kind.children, declaration, Marked.declarations]
  | none => exact ((clauseless_of_letName types sorted named).collect declaration_other).symm

theorem opening_first {β : Type} {g : Marked ι ν → List β} {clause : Marked ι ν} {rest : List (Marked ι ν)} :
    (Kind.query (ν := ν) (clause :: rest)).opening.flatMap g = g clause := List.flatMap_singleton g clause

theorem Settled.dropped_eq {clause : Marked ι ν} (settled : Settled reading clause) : dropped clause = [] := by
  unfold dropped
  split
  next x elemType source is => simp [(settled x elemType source is).1]
  next => rfl

theorem Settled.folded_eq {clause : Marked ι ν} (settled : Settled reading clause) :
    folded reading clause = [] := by
  unfold folded
  split
  next x source is =>
    split
    next enabled => simp [(settled x none source is).2 enabled rfl]
    next => rfl
  next => rfl

theorem folded_of_isQuery {x : ν} {elemType : Option (Marked ι ν)} {inner : List (Marked ι ν)} {im : ι} :
    folded reading (.node m (.fromClause x elemType (.node im (.query inner)))) = [] := by
  cases elemType <;> simp [folded, castParts?]

theorem dropped_of_isQuery {x : ν} {elemType : Option (Marked ι ν)} {inner : List (Marked ι ν)} {im : ι} :
    dropped (.node m (.fromClause x elemType (.node im (.query inner)))) =
      (elemType.map fun type => (m, type.mark)).toList := by
  simp [dropped, Kind.isQuery]

theorem dropped_untyped {x : ν} {source : Marked ι ν} : dropped (.node m (.fromClause x none source)) = [] := by
  simp [dropped]

variable [DecidableEq ν]

/-- What one action does to the element types: the first clause may lose its own or get one. -/
theorem declarations_settle (reading : Reading ν) (fresh : ι) (types : checked .type = true)
    (initializers : checked .expression = true → checked .initializer = true)
    (sorted : (Marked.node m k).WellSorted checked) (going : (settle reading fresh m k).2.breach = none) :
    ((settle reading fresh m k).1.declarations ++ k.opening.flatMap dropped).Perm
      ((Marked.node m k).declarations ++ k.opening.flatMap (folded reading)) := by
  have layer := wellSorted_layer reading fresh initializers sorted
  obtain ⟨-, below⟩ := Marked.wellSorted_node.mp sorted
  obtain ⟨asks, asked, known⟩ := exists_asks reading k
  rw [asked] at layer
  rw [settle, asked] at going ⊢
  cases known with
  | stop => cases going
  | keep found =>
    have settled : ∀ clause ∈ k.opening, Settled reading clause := by
      intro clause member
      obtain ⟨rest, rfl⟩ := Kind.mem_opening.mp member
      exact settled_of_action_eq_keep found
    rw [List.flatMap_eq_nil_iff.mpr fun clause member => (settled clause member).dropped_eq,
      List.flatMap_eq_nil_iff.mpr fun clause member => (settled clause member).folded_eq]
    exact List.Perm.refl _
  | continuation refused =>
    rename_i fm im x elemType inner rest
    rw [opening_first, opening_first, folded_of_isQuery, dropped_of_isQuery, List.append_nil, perform,
      declarations_first types (below _ List.mem_cons_self), declarations_query, List.flatMap_cons,
      declarations_continuation]
    exact List.perm_append_comm
  | annotate enabled shape =>
    rename_i fm x source base elemType rest
    have annotated := (Marked.wellSorted_node.mp layer).2 _ List.mem_cons_self
    have parts : folded reading (.node fm (.fromClause x none source)) = [(fm, elemType.mark)] := by
      simp [folded, enabled, castParts?_eq_some_iff.mpr shape]
    rw [opening_first, opening_first, parts, dropped_untyped, List.append_nil, perform,
      declarations_first types (below _ List.mem_cons_self), declarations_first types annotated, Option.map_none,
      Option.toList_none, List.nil_append, declarations_cast shape (clauseless_elemType types annotated)]
    exact List.perm_append_comm
  | splice transparent shape named =>
    rename_i fm im x elemType moved rest select value declared name
    have inSource := (Marked.wellSorted_node.mp (below _ List.mem_cons_self)).2
      (.node im (.query (moved ++ [select]))) (by simp [Kind.children])
    have inValue := ((Marked.wellSorted_node.mp inSource).2 select (by simp [Kind.children])).of_mem
      shape.mem_subtrees
    -- The declarations in the value stay, whether a let clause binds it or not.
    have flattened : (perform reading fresh m (.query (.node fm (.fromClause x elemType
        (.node im (.query (moved ++ [select])))) :: rest)) (.splice moved (name.map (·, value)) rest)).1.declarations =
          moved.flatMap Marked.declarations ++ value.declarations ++ rest.flatMap Marked.declarations := by
      refine (collect_cleaned declaration_other types reading.transparent layer).trans ?_
      rw [Action.layer, collect_other declaration_other rfl, Kind.children, List.flatMap_append,
        List.flatMap_append]
      exact congrArg (_ ++ · ++ _) (declarations_letClauses types inValue named)
    obtain ⟨projection, -, selected⟩ := shape.collect (f := declaration) declaration_other
    have selected : select.declarations = value.declarations := selected
    rw [opening_first, opening_first, folded_of_isQuery, dropped_of_isQuery, List.append_nil, flattened,
      declarations_first types (below _ List.mem_cons_self), declarations_query, List.flatMap_append,
      List.flatMap_singleton, selected]
    exact List.perm_append_comm

/-! ### Marks -/

theorem count_flatMap_le {α β : Type} [DecidableEq β] {l : List α} {f g : α → List β} {a : β}
    (each : ∀ c ∈ l, (f c).count a ≤ (g c).count a) : (l.flatMap f).count a ≤ (l.flatMap g).count a := by
  rw [List.count_flatMap, List.count_flatMap]
  exact List.sum_le_sum each

variable [DecidableEq ι] {a : ι}

omit [DecidableEq ν] in
theorem count_marks_cleaned (transparent : ν → Bool) (t : Marked ι ν) :
    (cleaned transparent t).1.marks.count a ≤ t.marks.count a := by
  induction t using Marked.induction with
  | step m k ih =>
    have children : (k.children.flatMap fun c => (cleaned transparent c).1.marks).count a ≤
        (k.children.flatMap Marked.marks).count a := count_flatMap_le ih
    rw [cleaned_node_fst, Marked.marks_node, Marked.marks_node, List.count_cons, List.count_cons]
    cases found : plainLayer? transparent (k.map id fun c => (cleaned transparent c).1) with
    | none =>
      rw [Option.getD_none, Kind.children_map, List.flatMap_map]
      omega
    | some plain =>
      obtain ⟨target, x, typeArgs, is, rfl⟩ := plainLayer?_eq_some found
      have image := congrArg Kind.children is
      rw [Kind.children_map] at image
      rw [← List.flatMap_map, image, Kind.children, List.flatMap_cons, List.count_append] at children
      rw [Option.getD_some, Kind.children]
      omega

omit [DecidableEq ν] in
theorem count_marks_first {fm : ι} {x : ν} {elemType : Option (Marked ι ν)} {source : Marked ι ν}
    {rest : List (Marked ι ν)} :
    (Marked.node m (.query (.node fm (.fromClause x elemType source) :: rest))).marks.count a =
      [m, fm].count a + (elemType.toList.flatMap Marked.marks).count a + source.marks.count a +
        (rest.flatMap Marked.marks).count a := by
  simp only [Marked.marks_node m, Marked.marks_node fm, Kind.children, List.flatMap_cons, List.flatMap_append,
    List.flatMap_nil, List.append_nil, List.cons_append, List.count_cons, List.count_append, List.count_nil]
  omega

omit [DecidableEq ν] in
theorem count_elemType (fm : ι) (elemType : Option (Marked ι ν)) :
    ((elemType.map fun type => (fm, type.mark)).toList.map Prod.snd).count a ≤
      (elemType.toList.flatMap Marked.marks).count a := by
  cases elemType with
  | none => exact Nat.le_refl _
  | some type =>
    rw [Option.toList_some, List.flatMap_singleton]
    exact (List.singleton_sublist.mpr type.mark_mem_marks).count_le a

/-- The element type that a first clause loses is nowhere else. -/
theorem count_marks_settle (reading : Reading ν) (fresh : ι) (old : a ≠ fresh)
    (going : (settle reading fresh m k).2.breach = none) :
    (settle reading fresh m k).1.marks.count a +
      (k.opening.flatMap fun clause => (dropped clause).map Prod.snd).count a ≤ (Marked.node m k).marks.count a := by
  obtain ⟨asks, asked, known⟩ := exists_asks reading k
  rw [settle, asked] at going ⊢
  cases known with
  | stop => cases going
  | keep found =>
    have nothing : k.opening.flatMap (fun clause => (dropped clause).map Prod.snd) = [] := by
      refine List.flatMap_eq_nil_iff.mpr fun clause member => ?_
      obtain ⟨rest, rfl⟩ := Kind.mem_opening.mp member
      rw [(settled_of_action_eq_keep found).dropped_eq, List.map_nil]
    rw [nothing]
    exact Nat.le_refl _
  | continuation refused =>
    rename_i fm im x elemType inner rest
    have inType := count_elemType (a := a) fm elemType
    rw [opening_first, dropped_of_isQuery, perform, count_marks_first]
    simp only [Marked.marks_node m, Marked.marks_node fm, Kind.children, List.flatMap_cons, List.flatMap_nil,
      List.append_nil, List.cons_append, List.count_cons, List.count_append, List.count_nil]
    omega
  | annotate enabled shape =>
    obtain ⟨sm, tm, y, rfl, -⟩ := shape.eq_call
    rw [opening_first, dropped_untyped, perform, count_marks_first, count_marks_first]
    simp only [Marked.marks_node, Kind.children, Option.toList_none, Option.toList_some, List.map_nil,
      List.flatMap_cons, List.flatMap_nil, List.append_nil, List.count_cons, List.count_append, List.count_nil]
    omega
  | splice transparent shape named =>
    rename_i fm im x elemType moved rest select value declared name
    have inType := count_elemType (a := a) fm elemType
    have inSelect : value.marks.count a ≤ select.marks.count a :=
      (Marked.marks_sublist_of_mem shape.mem_subtrees).count_le a
    -- A let clause adds its own mark, which is the new one.
    have lets : ((letClauses fresh (name.map (·, value))).flatMap Marked.marks).count a ≤ value.marks.count a := by
      cases name with
      | none => simp [letClauses]
      | some y => simp [letClauses, Marked.marks_node, Kind.children, List.count_cons_of_ne old.symm]
    have cleans := count_marks_cleaned (a := a) reading.transparent
      (.node m (.query (moved ++ letClauses fresh (name.map (·, value)) ++ rest)))
    rw [opening_first, dropped_of_isQuery, perform, count_marks_first]
    simp only [Marked.marks_node, Kind.children, List.flatMap_append, List.flatMap_singleton, List.count_cons,
      List.count_append, List.count_nil] at cleans ⊢
    omega

/-! ### Whole visits -/

omit [DecidableEq ι] in
theorem normal_congr {β : Type} (g : Marked ι ν → β)
    (blind : ∀ m clauses clauses', g (.node m (.query clauses)) = g (.node m (.query clauses')))
    (succeeds : Succeeds reading fresh (.node m k))
    (children : g (.node m (k.map id (normal reading fresh))) = g (.node m k)) :
    g (normal reading fresh (.node m k)) = g (.node m k) := by
  cases query : k.isQuery with
  | true =>
    obtain ⟨clauses, rfl⟩ := Kind.eq_query_of_isQuery query
    obtain ⟨clauses', is⟩ := Kind.eq_query_of_isQuery ((isQuery_normal succeeds).trans query)
    rw [← Marked.node_mark_kind (normal reading fresh _), is, mark_normal succeeds]
    exact blind m clauses' clauses
  | false => rwa [normal_other succeeds query]

omit [DecidableEq ι] in
theorem dropped_normal {clause : Marked ι ν} (succeeds : Succeeds reading fresh clause) :
    dropped (normal reading fresh clause) = dropped clause := by
  obtain ⟨m, k⟩ := clause
  refine normal_congr dropped (fun _ _ _ => rfl) succeeds ?_
  cases k with
  | fromClause x elemType source =>
    have inSource : Succeeds reading fresh source := succeeds.child (by simp [Kind.children])
    cases elemType with
    | none => rw [Kind.map, Option.map_none, dropped_untyped, dropped_untyped]
    | some type =>
      have inType : Succeeds reading fresh type := succeeds.child (by simp [Kind.children])
      simp [dropped, Kind.map, isQuery_normal inSource, mark_normal inType]
  | _ => rfl

omit [DecidableEq ι] in
theorem castParts?_visited {source : Marked ι ν} (succeeds : Succeeds reading fresh source) :
    (castParts? reading.cast (normal reading fresh source)).map (·.2.mark) =
      (castParts? reading.cast source).map (·.2.mark) := by
  cases found : castParts? reading.cast source with
  | none =>
    cases found' : castParts? reading.cast (normal reading fresh source) with
    | none => rfl
    | some parts =>
      obtain ⟨base, type, is, -⟩ := castParts?_of_normal succeeds found'
      cases found.symm.trans is
  | some parts =>
    have inType := succeeds.of_mem (castParts?_eq_some_iff.mp found).elemType_mem
    rw [castParts?_normal succeeds found, Option.map_some, Option.map_some, mark_normal inType]

omit [DecidableEq ι] in
theorem folded_normal {clause : Marked ι ν} (succeeds : Succeeds reading fresh clause) :
    folded reading (normal reading fresh clause) = folded reading clause := by
  obtain ⟨m, k⟩ := clause
  refine normal_congr (folded reading) (fun _ _ _ => rfl) succeeds ?_
  cases k with
  | fromClause x elemType source =>
    cases elemType with
    | some type => rfl
    | none =>
      have inSource : Succeeds reading fresh source := succeeds.child (by simp [Kind.children])
      simp only [folded, Kind.map, Marked.kind_node, Marked.mark_node, Option.map_none, id,
        castParts?_visited inSource]
  | _ => rfl

omit [DecidableEq ι] in
theorem opening_visited {β : Type} {g : Marked ι ν → List β} (children : ∀ c ∈ k.children, Succeeds reading fresh c)
    (same : ∀ {c}, Succeeds reading fresh c → g (normal reading fresh c) = g c) :
    (k.map id (normal reading fresh)).opening.flatMap g = k.opening.flatMap g := by
  rw [Kind.opening_map, List.flatMap_map]
  refine List.flatMap_congr fun c member => same (children c ?_)
  obtain ⟨rest, rfl⟩ := Kind.mem_opening.mp member
  exact List.mem_cons_self

theorem declarations_normal (types : checked .type = true)
    (initializers : checked .expression = true → checked .initializer = true) {t : Marked ι ν}
    (sorted : t.WellSorted checked) (succeeds : Succeeds reading fresh t) :
    ((normal reading fresh t).declarations ++ t.openings.flatMap dropped).Perm
      (t.declarations ++ t.openings.flatMap (folded reading)) := by
  induction t using Marked.induction with
  | step m k ih =>
    obtain ⟨children, going⟩ := succeeds_node_iff.mp succeeds
    obtain ⟨-, below⟩ := Marked.wellSorted_node.mp sorted
    have visited : (Marked.node m (k.map id (normal reading fresh))).declarations =
        declaration m (k.map id Marked.mark) ++ k.children.flatMap fun c => (normal reading fresh c).declarations :=
      Marked.collect_node_map fun c child => mark_normal (children c child)
    have step := declarations_settle reading fresh types initializers (wellSorted_visited initializers sorted) going
    rw [opening_visited children dropped_normal, opening_visited children folded_normal, visited] at step
    have each : (k.children.flatMap (fun c => (normal reading fresh c).declarations) ++
          k.children.flatMap (fun c => c.openings.flatMap dropped)).Perm
        (k.children.flatMap Marked.declarations ++
          k.children.flatMap (fun c => c.openings.flatMap (folded reading))) :=
      (List.flatMap_append_perm _ _ _).trans
        ((List.Perm.flatMap_left _ fun c child => ih c child (below c child) (children c child)).trans
          (List.flatMap_append_perm _ _ _).symm)
    rw [normal_node children, Marked.declarations_node, Marked.openings_node, List.flatMap_append,
      List.flatMap_append, List.flatMap_assoc, List.flatMap_assoc, List.perm_iff_count]
    -- What one step moves and what the children move add up pair by pair.
    intro pair
    have here := step.count_eq pair
    have there := each.count_eq pair
    simp only [List.count_append] at here there ⊢
    omega

theorem count_marks_normal {t : Marked ι ν} (old : a ≠ fresh) (succeeds : Succeeds reading fresh t) :
    (normal reading fresh t).marks.count a +
      (t.openings.flatMap fun clause => (dropped clause).map Prod.snd).count a ≤ t.marks.count a := by
  induction t using Marked.induction with
  | step m k ih =>
    obtain ⟨children, going⟩ := succeeds_node_iff.mp succeeds
    have step := count_marks_settle reading fresh old going
    rw [opening_visited children fun visited => congrArg (List.map Prod.snd) (dropped_normal visited),
      Marked.marks_node, Kind.children_map, List.flatMap_map, List.count_cons] at step
    have each : (k.children.flatMap fun c => (normal reading fresh c).marks).count a +
        (k.children.flatMap fun c => c.openings.flatMap fun clause => (dropped clause).map Prod.snd).count a ≤
          (k.children.flatMap Marked.marks).count a := by
      rw [← List.count_append, (List.flatMap_append_perm _ _ _).count_eq]
      refine count_flatMap_le fun c child => ?_
      rw [List.count_append]
      exact ih c child (children c child)
    rw [normal_node children, Marked.marks_node, Marked.openings_node, List.flatMap_append, List.flatMap_assoc,
      List.count_append, List.count_cons]
    omega

theorem not_mem_marks_normal {t : Marked ι ν} (nodup : t.marks.Nodup) {clause type : ι} (old : type ≠ fresh)
    (succeeds : Succeeds reading fresh t) (gone : (clause, type) ∈ t.openings.flatMap dropped) :
    type ∉ (normal reading fresh t).marks := by
  intro left
  have counts := count_marks_normal old succeeds
  have once := List.nodup_iff_count_le_one.mp nodup type
  obtain ⟨first, opens, member⟩ := List.mem_flatMap.mp gone
  have goes : type ∈ t.openings.flatMap fun clause => (dropped clause).map Prod.snd :=
    List.mem_flatMap.mpr ⟨first, opens, List.mem_map_of_mem member⟩
  have := List.count_pos_iff.mpr left
  have := List.count_pos_iff.mpr goes
  omega

end

/-! ### Runs -/

section
open Store
variable {s : Store} {l : Layout}

theorem declaresBelow_iff (holds : s.Holds l) (clause type : NodeId) :
    s.DeclaresBelow l.mark clause type ↔ (clause, type) ∈ l.declarations := by
  rw [Marked.declarations, holds.mem_collect]
  simp only [mem_declaration]
  constructor
  · rintro ⟨path, x, source, found, here⟩
    exact ⟨path, clause, _, found, here, rfl, x, source, rfl⟩
  · rintro ⟨path, id, k, found, here, rfl, x, source, rfl⟩
    exact ⟨path, x, source, found, here⟩

theorem mem_marks_of_declarations {pair : NodeId × NodeId} (member : pair ∈ l.declarations) :
    pair.1 ∈ l.marks ∧ pair.2 ∈ l.marks := by
  obtain ⟨n, below, member⟩ := Marked.mem_collect.mp member
  obtain ⟨mark, x, source, layer⟩ := mem_declaration.mp member
  rw [Marked.cell] at layer
  cases is : n.kind <;> simp only [is, Kind.map, reduceCtorEq, Kind.fromClause.injEq] at layer
  obtain ⟨-, typed, -⟩ := layer
  obtain ⟨type, rfl, same⟩ := Option.map_eq_some_iff.mp typed
  have low : type ∈ n.subtrees := Marked.mem_subtrees_of_child (by simp [is, Kind.children])
  exact ⟨Marked.mem_marks.mpr ⟨n, below, mark⟩,
    Marked.mem_marks.mpr ⟨type, Marked.mem_subtrees_trans low below, same⟩⟩

theorem mem_marks_of_folded {reading : Reading Name} {pair : NodeId × NodeId}
    (member : pair ∈ l.openings.flatMap (folded reading)) : pair.1 ∈ l.marks ∧ pair.2 ∈ l.marks := by
  obtain ⟨first, opens, member⟩ := List.mem_flatMap.mp member
  obtain ⟨query, below, rest, is⟩ := Marked.mem_openings.mp opens
  obtain ⟨-, mark, x, source, base, type, layer, shape, same⟩ := mem_folded.mp member
  have inFirst : source ∈ first.subtrees := Marked.mem_subtrees_of_child (by simp [layer, Kind.children])
  have inQuery : first ∈ query.subtrees := Marked.mem_subtrees_of_child (by simp [is, Kind.children])
  have low := Marked.mem_subtrees_trans inQuery below
  exact ⟨Marked.mem_marks.mpr ⟨first, low, mark⟩, Marked.mem_marks.mpr ⟨type,
    Marked.mem_subtrees_trans (Marked.mem_subtrees_trans shape.elemType_mem inFirst) low, same⟩⟩

theorem mem_dropped_iff (holds : s.Holds l) (clause type : NodeId) : (clause, type) ∈ l.openings.flatMap dropped ↔
    s.DeclaresBelow l.mark clause type ∧ s.OpensOverQuery l.mark clause := by
  rw [List.mem_flatMap]
  constructor
  · rintro ⟨first, opens, member⟩
    obtain ⟨query, below, rest, is⟩ := Marked.mem_openings.mp opens
    obtain ⟨rfl, x, elemType, source, layer, nested, rfl⟩ := mem_dropped.mp member
    have inQuery := holds.of_mem below
    have low : first ∈ query.subtrees := Marked.mem_subtrees_of_child (by rw [is]; exact List.mem_cons_self)
    have inFirst := inQuery.of_mem low
    have inSource := layerMap_holds.below inFirst layer (c := source) (by simp [Kind.children])
    obtain ⟨inner, nested⟩ := Kind.eq_query_of_isQuery nested
    obtain ⟨path, found⟩ := holds.exists_follow_iff.mpr ⟨query, below, rfl⟩
    obtain ⟨path', found'⟩ := holds.exists_follow_iff.mpr ⟨first, Marked.mem_subtrees_trans low below, rfl⟩
    have here := layerMap_holds.forth inFirst layer
    exact ⟨⟨path', x, source.mark, found', here⟩, path, query.mark, _, x, _, source.mark, _, found,
      layerMap_holds.forth inQuery is, here, layerMap_holds.forth inSource nested⟩
  · rintro ⟨⟨_, _, _, _, declares⟩, path, query, rest, x, elemType, source, inner, found, here, first, nested⟩
    cases declares.symm.trans first
    obtain ⟨⟨m, k⟩, below, rfl⟩ := holds.exists_follow_iff.mp ⟨path, found⟩
    have inQuery := holds.of_mem below
    obtain ⟨e, source, ls, rfl, typed, rfl, -⟩ := exists_first_layout inQuery here first
    obtain ⟨type, rfl, rfl⟩ := Option.map_eq_some_iff.mp typed
    have inSource : s.Holds source := ((holds_node.mp inQuery).2 _ List.mem_cons_self).of_mem
      (Marked.mem_subtrees_of_child (by simp [Kind.children]))
    exact ⟨_, Marked.mem_openings.mpr ⟨_, below, ls, rfl⟩,
      mem_dropped.mpr ⟨rfl, _, type, source, rfl, isQuery_of_layer inSource nested, rfl⟩⟩

theorem mem_folded_iff (rules : Rules) (names : NameTable) (holds : s.Holds l) (clause type : NodeId) :
    (clause, type) ∈ l.openings.flatMap (folded (rules.numbered names)) ↔
      rules.config.foldCasts = true ∧ s.OpensOverCast rules.config.castMethod names l.mark clause type := by
  rw [List.mem_flatMap]
  constructor
  · rintro ⟨first, opens, member⟩
    obtain ⟨query, below, rest, is⟩ := Marked.mem_openings.mp opens
    obtain ⟨enabled, rfl, x, source, base, elemType, layer, shape, rfl⟩ := mem_folded.mp member
    have inQuery := holds.of_mem below
    have inFirst := inQuery.of_mem (Marked.mem_subtrees_of_child (c := first) (by rw [is]; exact List.mem_cons_self))
    have inSource := layerMap_holds.below inFirst layer (c := source) (by simp [Kind.children])
    obtain ⟨path, found⟩ := holds.exists_follow_iff.mpr ⟨query, below, rfl⟩
    obtain ⟨call, member, method⟩ := shape.map layerMap_holds inSource
    exact ⟨enabled, path, query.mark, _, x, source.mark, _, _, _, found, layerMap_holds.forth inQuery is,
      layerMap_holds.forth inFirst layer, call, member, of_decide_eq_true method⟩
  · rintro ⟨enabled, path, query, rest, x, source, target, base, method, found, here, first, call, member, named⟩
    obtain ⟨⟨m, k⟩, below, rfl⟩ := holds.exists_follow_iff.mp ⟨path, found⟩
    have inQuery := holds.of_mem below
    obtain ⟨e, source, ls, rfl, untyped, rfl, -⟩ := exists_first_layout inQuery here first
    obtain rfl := Option.map_eq_none_iff.mp untyped
    have inSource : s.Holds source := ((holds_node.mp inQuery).2 _ List.mem_cons_self).of_mem
      (Marked.mem_subtrees_of_child (by simp [Kind.children]))
    have casts : CastsOn s.Layer (rules.numbered names).cast source.mark base type :=
      .call call member (decide_eq_true named)
    obtain ⟨base, type, shape, -, rfl⟩ := casts.of_map layerMap_holds inSource
    exact ⟨_, Marked.mem_openings.mpr ⟨_, below, ls, rfl⟩,
      mem_folded.mpr ⟨enabled, rfl, x, source, base, type, rfl, shape, rfl⟩⟩

theorem nodup_declarations (nodup : l.marks.Nodup) : l.declarations.Nodup := by
  have part : ∀ ns : List Layout, ((ns.flatMap fun n => declaration n.mark n.cell).map Prod.fst).Sublist
      (ns.map Marked.mark) := by
    intro ns
    induction ns with
    | nil => exact List.Sublist.slnil
    | cons n ns ih =>
      rw [List.flatMap_cons, List.map_append, List.map_cons]
      unfold declaration
      split
      · exact ih.cons_cons n.mark
      · exact ih.cons n.mark
  exact (nodup.sublist (part l.subtrees)).of_map Prod.fst

theorem collapse_eq_self {a : NodeId} (old : (collapse s a).index < s.size) : collapse s a = a := by
  unfold collapse at old ⊢
  split at old
  next low => exact if_pos low
  next => exact absurd old (Nat.lt_irrefl _)

theorem declarations_collapsed (old : ∀ pair ∈ (l.map (collapse s) id).declarations,
      pair.1.index < s.size ∧ pair.2.index < s.size) : (l.map (collapse s) id).declarations = l.declarations := by
  have image : (l.map (collapse s) id).declarations = l.declarations.map (Prod.map (collapse s) (collapse s)) :=
    Marked.collect_map (declaration_map (collapse s)) l
  rw [image] at old ⊢
  have each : ∀ pair ∈ l.declarations, Prod.map (collapse s) (collapse s) pair = id pair := by
    intro pair member
    have low := old _ (List.mem_map_of_mem member)
    exact Prod.ext (collapse_eq_self low.1) (collapse_eq_self low.2)
  rw [List.map_congr_left each, List.map_id]

theorem mem_of_perm_append {α : Type} [DecidableEq α] {left gone before added : List α} {a : α}
    (all : (left ++ gone).Perm (before ++ added)) (nodup : before.Nodup) (apart : a ∈ gone → a ∉ added) :
    a ∈ left ↔ a ∈ before ∧ a ∉ gone ∨ a ∈ added := by
  have once := List.nodup_iff_count_le_one.mp nodup a
  have count := all.count_eq a
  rw [List.count_append, List.count_append] at count
  rw [← List.count_eq_zero] at apart
  simp only [← List.count_pos_iff] at apart ⊢
  omega

variable (rules : Rules) (names : NameTable) {root : NodeId}

theorem mem_declarations_normal {fresh : NodeId} (holds : s.Holds l) (nodup : l.marks.Nodup)
    (sorted : l.WellSorted fun _ => true) (succeeds : Succeeds (rules.numbered names) fresh l)
    (clause type : NodeId) :
    (clause, type) ∈ (normal (rules.numbered names) fresh l).declarations ↔
      s.DeclaresBelow l.mark clause type ∧ ¬ s.OpensOverQuery l.mark clause ∨
        rules.config.foldCasts = true ∧ s.OpensOverCast rules.config.castMethod names l.mark clause type := by
  have all := declarations_normal rfl (fun _ => rfl) sorted succeeds
  have gone := mem_dropped_iff holds clause type
  have added := mem_folded_iff rules names holds clause type
  rw [mem_of_perm_append all (nodup_declarations nodup), gone, added, ← declaresBelow_iff holds]
  · tauto
  · -- A clause with an element type does not get another one.
    rw [gone, added]
    rintro ⟨⟨_, _, _, -, typed⟩, -⟩ ⟨-, _, _, _, _, _, _, _, _, -, -, untyped, -⟩
    cases typed.symm.trans untyped

/-- New nodes declare nothing and are no element types. -/
theorem declarations_run {l' : Layout} (holds : s.Holds l) (sorted : l.WellSorted fun _ => true)
    (succeeds : Succeeds (rules.numbered names) ⟨s.size⟩ l)
    (image : l'.map (collapse s) id = normal (rules.numbered names) ⟨s.size⟩ l) :
    l'.declarations = (normal (rules.numbered names) ⟨s.size⟩ l).declarations := by
  have all := declarations_normal rfl (fun _ => rfl) sorted succeeds
  rw [← image] at all ⊢
  refine (declarations_collapsed fun pair member => ?_).symm
  have marks : pair.1 ∈ l.marks ∧ pair.2 ∈ l.marks := by
    rcases List.mem_append.mp (all.subset (List.mem_append_left _ member)) with declared | folded
    · exact mem_marks_of_declarations declared
    · exact mem_marks_of_folded folded
  exact ⟨holds.index_lt marks.1, holds.index_lt marks.2⟩

/-- After a run on a tree that keeps to the grammar, an element type is still there exactly if the clause that
declared it did not range over a query as the first one of its own query. The types of folded casts are there,
and what the clauses below the root declare is known. -/
theorem normalize_elementTypes {stats : Stats} (wellFormed : s.WellFormedAt root)
    (done : (normalize rules names s root).result = .ok stats) :
    (∀ {clause type}, s.DeclaresBelow root clause type →
      ((∃ path, (normalize rules names s root).store.follow root path = some type) ↔
        ¬ s.OpensOverQuery root clause)) ∧
    (∀ {clause type}, rules.config.foldCasts = true →
      s.OpensOverCast rules.config.castMethod names root clause type →
        ∃ path, (normalize rules names s root).store.follow root path = some type) ∧
    ∀ {clause type}, (normalize rules names s root).store.DeclaresBelow root clause type ↔
      s.DeclaresBelow root clause type ∧ ¬ s.OpensOverQuery root clause ∨
        rules.config.foldCasts = true ∧ s.OpensOverCast rules.config.castMethod names root clause type := by
  obtain ⟨l, rfl, holds, nodup, sorted⟩ := wellFormedAt_iff.mp wellFormed
  obtain ⟨succeeds, -, l', change, image, -⟩ := normalize_run_collapsed rules names (.single holds nodup) done
  have holds' := change.forest.holds_single
  have after := declaresBelow_iff holds'
  have reached := fun type => holds'.exists_follow_iff.trans (Marked.mem_marks (x := type) (t := l')).symm
  rw [change.root] at after reached
  -- After the run the new slots count as one, and none of them declares anything.
  have exactly := mem_declarations_normal rules names holds nodup sorted succeeds
  rw [← declarations_run rules names holds sorted succeeds image] at exactly
  refine ⟨fun {clause type} declared => ⟨fun found nested => ?_, fun simple => ?_⟩, ?_, ?_⟩
  · have low := holds.index_lt (mem_marks_of_declarations ((declaresBelow_iff holds clause type).mp declared)).2
    refine not_mem_marks_normal nodup (fun new => ?_) succeeds
      ((mem_dropped_iff holds clause type).mpr ⟨declared, nested⟩) ?_
    · rw [new] at low
      exact Nat.lt_irrefl _ low
    · obtain ⟨n, below, rfl⟩ := Marked.mem_marks.mp ((reached type).mp found)
      rw [← image, Marked.mem_marks, Marked.subtrees_map]
      exact ⟨_, List.mem_map_of_mem below, (Marked.mark_map _ _ n).trans (if_pos low)⟩
  · exact (reached type).mpr (mem_marks_of_declarations ((exactly clause type).mpr (.inl ⟨declared, simple⟩))).2
  · intro clause type enabled casts
    exact (reached type).mpr (mem_marks_of_declarations ((exactly clause type).mpr (.inr ⟨enabled, casts⟩))).2
  · intro clause type
    exact (after clause type).trans (exactly clause type)

end

theorem normalize_elementTypes_threeTypes :
    let names : NameTable := ⟨#["", "T", "xs", "U", "Cast", "x", "V", "ys", "y", "g"], ∅⟩
    let s := Layout.threeTypes.store
    let s' := (normalize (.ofConfig {}) names s ⟨15⟩).store
    s.WellFormedAt ⟨15⟩ ∧
      (normalize (.ofConfig {}) names s ⟨15⟩).result = .ok { continuations := 1, castsFolded := 1 } ∧
      (¬ ∃ path, s'.follow ⟨15⟩ path = some ⟨0⟩) ∧ (∃ path, s'.follow ⟨15⟩ path = some ⟨2⟩) ∧
      ∃ path, s'.follow ⟨15⟩ path = some ⟨6⟩ := by
  intro names s s'
  have wellFormed : s.WellFormedAt ⟨15⟩ := Store.wellFormedAt_iff.mpr
    ⟨Layout.threeTypes, rfl, Layout.holds_store (by decide) (by decide), by decide, by decide⟩
  have done : (normalize (.ofConfig {}) names s ⟨15⟩).result = .ok { continuations := 1, castsFolded := 1 } := by
    decide +kernel +zetaReduce
  obtain ⟨kept, folds, -⟩ := normalize_elementTypes (.ofConfig {}) names wellFormed done
  refine ⟨wellFormed, done, fun found => ?_, ?_, ?_⟩
  · have declared : s.DeclaresBelow ⟨15⟩ ⟨12⟩ ⟨0⟩ := ⟨[0], ⟨9⟩, ⟨11⟩, rfl, rfl⟩
    exact (kept declared).mp found ⟨[], ⟨15⟩, _, _, _, ⟨11⟩, _, rfl, rfl, rfl, rfl⟩
  · have casts : s.OpensOverCast "Cast" names ⟨15⟩ ⟨5⟩ ⟨2⟩ :=
      ⟨[0, 1], ⟨11⟩, _, _, ⟨4⟩, ⟨3⟩, ⟨1⟩, ⟨4⟩, rfl, rfl, rfl, rfl, rfl, by decide⟩
    exact folds rfl casts
  · have declared : s.DeclaresBelow ⟨15⟩ ⟨8⟩ ⟨6⟩ := ⟨[0, 1, 1], ⟨8⟩, ⟨7⟩, rfl, rfl⟩
    refine (kept declared).mpr ?_
    rintro ⟨path, ⟨i⟩, rest, x, elemType, source, inner, -, here, -⟩
    have bound : i < 16 := Store.index_lt_of_kind? here
    interval_cases i <;> cases here

/-- The clause over a query becomes a continuation, and its element type is gone. -/
theorem not_reachable_typedQuery :
    let names : NameTable := ⟨#["", "T", "xs", "x", "g"], ∅⟩
    let s := Layout.typedQuery.store
    let s' := (normalize (.ofConfig {}) names s ⟨9⟩).store
    s.WellFormedAt ⟨9⟩ ∧ (normalize (.ofConfig {}) names s ⟨9⟩).result = .ok { continuations := 1 } ∧
      s.DeclaresBelow ⟨9⟩ ⟨6⟩ ⟨0⟩ ∧ ¬ ∃ path, s'.follow ⟨9⟩ path = some ⟨0⟩ := by
  intro names s s'
  refine ⟨?_, by decide +kernel +zetaReduce, ⟨[0], ⟨4⟩, ⟨5⟩, rfl, rfl⟩, fun found => ?_⟩
  · exact Store.wellFormedAt_iff.mpr
      ⟨Layout.typedQuery, rfl, Layout.holds_store (by decide) (by decide), by decide, by decide⟩
  · have holds : s'.Holds Layout.continuedQuery := by
      unfold Store.Holds
      decide +kernel +zetaReduce
    obtain ⟨n, below, mark⟩ := holds.exists_follow_iff.mp found
    revert n
    decide

end Normalize

end Comprehension
