import Comprehension.Proofs.Records

/-! What a visit leaves of a tree, once references are cleaned. Layers stay as they are, but for accesses
through transparent names; of a query, the first clause may change, or another query is flattened into it. -/

set_option autoImplicit false

namespace Comprehension.Normalize
open Marked

variable {ι ν : Type}

/-! ### Visits -/

section
variable [DecidableEq ν]

/-- What a visit leaves of a tree, once references are cleaned. -/
def cleanForm (reading : Reading ν) (fresh : ι) (t : Marked ι ν) : Marked ι ν :=
  (cleaned reading.transparent (normal reading fresh t)).1

variable {reading : Reading ν} {fresh m : ι} {k : Kind ν (Marked ι ν)} {scope : Records ν}
  {exports : Option (List ν)} {t : Marked ι ν}

theorem binder?_normal (succeeds : Succeeds reading fresh t) :
    (normal reading fresh t).kind.binder? = t.kind.binder? := by
  cases query : t.kind.isQuery with
  | true =>
    obtain ⟨clauses, is⟩ := Kind.eq_query_of_isQuery query
    obtain ⟨clauses', is'⟩ := Kind.eq_query_of_isQuery ((isQuery_normal succeeds).trans query)
    rw [is, is']
    rfl
  | false =>
    rw [← kind_of_normal succeeds rfl ((isQuery_normal succeeds).trans query), Kind.binder?_map]

theorem isQuery_cleanForm (succeeds : Succeeds reading fresh t) :
    (cleanForm reading fresh t).kind.isQuery = t.kind.isQuery :=
  (isQuery_cleaned _).trans (isQuery_normal succeeds)

theorem binder?_cleanForm (succeeds : Succeeds reading fresh t) :
    (cleanForm reading fresh t).kind.binder? = t.kind.binder? :=
  (binder?_cleaned _).trans (binder?_normal succeeds)

theorem cleanForm_other (succeeds : Succeeds reading fresh (.node m k)) (other : k.isQuery = false)
    (noMember : ∀ target x typeArgs, k ≠ .member target x typeArgs) :
    cleanForm reading fresh (.node m k) = .node m (k.map id (cleanForm reading fresh)) := by
  have noAccess : ∀ target x typeArgs, k.map id (normal reading fresh) ≠ .member target x typeArgs := by
    intro target x typeArgs is
    cases k <;> simp only [Kind.map, reduceCtorEq] at is
    exact noMember _ _ _ rfl
  rw [cleanForm, normal_other succeeds other, cleaned_other m noAccess, Kind.map_map]
  rfl

theorem cleanForm_through {target : Marked ι ν} {x y : ν} {typeArgs args : List (Marked ι ν)}
    (succeeds : Succeeds reading fresh (.node m (.member target x typeArgs)))
    (ident : (cleanForm reading fresh target).kind = .ident y args) (through : reading.transparent y = true) :
    cleanForm reading fresh (.node m (.member target x typeArgs)) =
      .node m (.ident x (typeArgs.map (cleanForm reading fresh))) := by
  rw [cleanForm, normal_other succeeds rfl, Kind.map, cleaned_through ident through, List.map_map]
  rfl

theorem cleanForm_kept {target : Marked ι ν} {x : ν} {typeArgs : List (Marked ι ν)}
    (succeeds : Succeeds reading fresh (.node m (.member target x typeArgs)))
    (other : ∀ y args, (cleanForm reading fresh target).kind = .ident y args → reading.transparent y = false) :
    cleanForm reading fresh (.node m (.member target x typeArgs)) =
      .node m (.member (cleanForm reading fresh target) x (typeArgs.map (cleanForm reading fresh))) := by
  rw [cleanForm, normal_other succeeds rfl, Kind.map, cleaned_kept other, List.map_map]
  rfl

theorem cleanForm_layer (succeeds : Succeeds reading fresh (.node m k)) (other : k.isQuery = false)
    (users : ∀ c ∈ k.children, ∀ x args, (cleanForm reading fresh c).kind = .ident x args →
      reading.transparent x = false) :
    cleanForm reading fresh (.node m k) = .node m (k.map id (cleanForm reading fresh)) := by
  cases k with
  | member target x typeArgs => exact cleanForm_kept succeeds (users target List.mem_cons_self)
  | _ => exact cleanForm_other succeeds other (by simp)

theorem kind_of_cleanForm {k' : Kind ν (Marked ι ν)} (succeeds : Succeeds reading fresh t)
    (layer : (cleanForm reading fresh t).kind = k') (other : k'.isQuery = false)
    (noIdent : ∀ x args, k' ≠ .ident x args) : t.kind.map id (cleanForm reading fresh) = k' := by
  have cleaned := kind_of_cleaned layer noIdent
  have simple : (normal reading fresh t).kind.isQuery = false := by
    rw [← cleaned, Kind.isQuery_map] at other
    exact other
  rw [← cleaned, ← kind_of_normal succeeds rfl simple, Kind.map_map]
  rfl

theorem Through.cleanForm {fields : List ν} (through : Through reading scope t fields)
    (succeeds : Succeeds reading fresh t) :
    ∃ x args, (cleanForm reading fresh t).kind = .ident x args ∧ reading.transparent x = true := by
  induction through with
  | name transparent bound =>
    rw [cleanForm_other succeeds rfl (by simp)]
    exact ⟨_, _, rfl, transparent⟩
  | field inner transparent ih =>
    obtain ⟨x, args, ident, through⟩ := ih (succeeds.child List.mem_cons_self)
    rw [cleanForm_through succeeds ident through]
    exact ⟨_, _, rfl, transparent⟩

theorem Behind.cleanForm {x : ν} {fields : List ν} (behind : Behind reading scope t x fields)
    (succeeds : Succeeds reading fresh t) : (cleanForm reading fresh t).kind = .ident x [] := by
  cases behind with
  | user | record => rw [cleanForm_other succeeds rfl (by simp), Kind.map]; rfl
  | access through =>
    obtain ⟨y, args, ident, transparent⟩ := through.cleanForm (succeeds.child List.mem_cons_self)
    rw [cleanForm_through succeeds ident transparent]
    rfl
  | field through =>
    cases through with
    | field inner =>
      obtain ⟨y, args, ident, transparent⟩ := inner.cleanForm (succeeds.child List.mem_cons_self)
      rw [cleanForm_through succeeds ident transparent]
      rfl

theorem Scoped.user_of_ident (inScope : Scoped reading scope exports t) (succeeds : Succeeds reading fresh t) :
    ∀ x args, (cleanForm reading fresh t).kind = .ident x args → reading.transparent x = false := by
  induction inScope with
  | reference user args =>
    intro x args ident
    rw [cleanForm_other succeeds rfl (by simp)] at ident
    cases ident
    exact user
  | access through field user uncast args =>
    obtain ⟨t, args, target, transparent⟩ := through.cleanForm (succeeds.child List.mem_cons_self)
    intro x args ident
    rw [cleanForm_through succeeds target transparent] at ident
    cases ident
    exact user
  | layer other noIdent children ih =>
    rename_i k
    intro x args ident
    rw [cleanForm_layer succeeds other fun c child => ih c child (succeeds.child child)] at ident
    cases k <;> simp only [Marked.kind_node, Kind.map, reduceCtorEq] at ident
    exact absurd rfl (noIdent _ _)
  | query | record | nested | nestedRecord =>
    intro x args ident
    have query := isQuery_cleanForm succeeds
    rw [ident] at query
    cases query

/-! ### Clauses over which no query is flattened -/

/-- Cleaning finds no variables after a visit that it does not find before. -/
theorem ident_of_cleanForm {x : ν} {args : List (Marked ι ν)} (succeeds : Succeeds reading fresh t)
    (ident : (cleanForm reading fresh t).kind = .ident x args) :
    ∃ typeArgs : List (Marked ι ν), args = typeArgs.map (cleanForm reading fresh) ∧
      (cleaned reading.transparent t).1.kind =
        .ident x (typeArgs.map fun c => (cleaned reading.transparent c).1) := by
  induction t using Marked.induction generalizing x args with
  | step m k ih =>
    have query := isQuery_cleanForm succeeds
    rw [ident] at query
    cases k with
    | ident y typeArgs =>
      rw [cleanForm_other succeeds rfl (by simp)] at ident
      cases ident
      exact ⟨typeArgs, rfl, by rw [cleaned_other m (by simp)]; rfl⟩
    | member target y typeArgs =>
      by_cases through : ∃ z zargs, (cleanForm reading fresh target).kind = .ident z zargs ∧
          reading.transparent z = true
      · -- If the target is a transparent name in the end, it is one without the visit.
        obtain ⟨z, zargs, inner, transparent⟩ := through
        obtain ⟨targetArgs, -, target⟩ := ih target List.mem_cons_self (succeeds.child List.mem_cons_self) inner
        rw [cleanForm_through succeeds inner transparent] at ident
        cases ident
        exact ⟨typeArgs, rfl, by rw [cleaned_through target transparent]; rfl⟩
      · have other : ∀ z zargs, (cleanForm reading fresh target).kind = .ident z zargs →
            reading.transparent z = false := fun z zargs inner => by
          simpa using fun transparent => through ⟨z, zargs, inner, transparent⟩
        rw [cleanForm_kept succeeds other] at ident
        cases ident
    | query => cases query
    | _ =>
      rw [cleanForm_other succeeds rfl (by simp)] at ident
      cases ident

theorem variable_of_cleanForm {x : ν} (succeeds : Succeeds reading fresh t)
    (ident : (cleanForm reading fresh t).kind = .ident x []) :
    (cleaned reading.transparent t).1.kind = .ident x [] := by
  obtain ⟨typeArgs, none, ident⟩ := ident_of_cleanForm succeeds ident
  rw [ident, List.map_eq_nil_iff.mp none.symm]
  rfl

theorem variable_of_normal {x : ν} (succeeds : Succeeds reading fresh t)
    (ident : (normal reading fresh t).kind = .ident x []) :
    (cleaned reading.transparent t).1.kind = .ident x [] := by
  refine variable_of_cleanForm succeeds ?_
  rw [cleanForm]
  generalize normal reading fresh t = visited at ident
  obtain ⟨vm, vk⟩ := visited
  cases ident
  rw [cleaned_other vm (by simp)]
  rfl

/-- A record that takes over a variable was selected before, by a clause that keeps its layers. -/
theorem Takes.of_selects {f : Marked ι ν → Marked ι ν} {select value : Marked ι ν} {declared : Option ν}
    (layers : ∀ {t k'}, Succeeds reading fresh t → (f t).kind = k' → k'.isQuery = false →
      (∀ x args, k' ≠ .ident x args) → t.kind.map id f = k')
    (idents : ∀ {t x}, Succeeds reading fresh t → (f t).kind = .ident x [] →
      (cleaned reading.transparent t).1.kind = .ident x [])
    (succeeds : Succeeds reading fresh select) (shape : Selects IsLayer (f select) declared value) :
    Takes reading.transparent select := by
  -- Each layer of the record has the layer before it, from the select clause down to the variable.
  have select? {t record' : Marked ι ν} (succeeds : Succeeds reading fresh t)
      (layer : (f t).kind = .selectClause record') :
      ∃ record, t.kind = .selectClause record ∧ f record = record' ∧ Succeeds reading fresh record := by
    have image := layers succeeds layer rfl (by simp)
    generalize here : t.kind = k at image
    cases k <;> simp only [Kind.map, reduceCtorEq, Kind.selectClause.injEq] at image
    exact ⟨_, rfl, image, succeeds.child (by rw [here]; exact List.mem_cons_self)⟩
  have pair? {t first' second' : Marked ι ν} (succeeds : Succeeds reading fresh t)
      (layer : (f t).kind = .record [first', second']) : ∃ first second, t.kind = .record [first, second] ∧
        f first = first' ∧ f second = second' ∧ Succeeds reading fresh first ∧ Succeeds reading fresh second := by
    have image := layers succeeds layer rfl (by simp)
    generalize here : t.kind = k at image
    cases k <;> simp only [Kind.map, reduceCtorEq, Kind.record.injEq] at image
    obtain ⟨first, rest, rfl, rfl, tail⟩ := List.map_eq_cons_iff.mp image
    obtain ⟨second, rfl, rfl⟩ := List.map_eq_singleton_iff.mp tail
    exact ⟨first, second, rfl, rfl, rfl, succeeds.child (by simp [here, Kind.children]),
      succeeds.child (by simp [here, Kind.children])⟩
  have named? {t inner' : Marked ι ν} {x : ν} (succeeds : Succeeds reading fresh t)
      (layer : (f t).kind = .named x inner') :
      ∃ inner, t.kind = .named x inner ∧ f inner = inner' ∧ Succeeds reading fresh inner := by
    have image := layers succeeds layer rfl (by simp)
    generalize here : t.kind = k at image
    cases k <;> simp only [Kind.map, reduceCtorEq, Kind.named.injEq] at image
    obtain ⟨rfl, rfl⟩ := image
    exact ⟨_, rfl, rfl, succeeds.child (by rw [here]; exact List.mem_cons_self)⟩
  generalize found : f select = image at shape
  cases shape with
  | reexport projection pair named same declared =>
    subst found
    obtain ⟨record, isSelect, rfl, inRecord⟩ := select? succeeds projection
    obtain ⟨first, second, isRecord, rfl, rfl, inFirst, inSecond⟩ := pair? inRecord pair
    obtain ⟨inner, isNamed, rfl, inInner⟩ := named? inFirst named
    obtain ⟨value, isDeclared, -⟩ := named? inSecond declared
    exact .reexport isSelect isRecord isNamed (idents inInner same) isDeclared
  | shorthand projection pair bare | undeclared projection pair bare =>
    subst found
    obtain ⟨record, isSelect, rfl, inRecord⟩ := select? succeeds projection
    obtain ⟨first, second, isRecord, rfl, rfl, inFirst, -⟩ := pair? inRecord pair
    exact .shorthand isSelect isRecord (idents inFirst bare)

theorem Kept.recognized? {first source : Marked ι ν} {x : ν} {elemType : Option (Marked ι ν)}
    {inner : List (Marked ι ν)} (kept : Kept reading first) (succeeds : Succeeds reading fresh first)
    (visited : (normal reading fresh first).kind = .fromClause x elemType source)
    (query : source.kind = .query inner) :
    recognized? reading x inner = none := by
  by_contra found
  obtain ⟨⟨declared, value⟩, found⟩ := Option.ne_none_iff_exists'.mp found
  obtain ⟨-, transparent, select, last, shape⟩ := recognized?_eq_some found
  have layer := kind_of_normal succeeds visited rfl
  cases kept with
  | user user =>
    have same := user x (by rw [← binder?_normal succeeds, visited]; rfl)
    cases transparent.symm.trans same
  | unnested unnested =>
    generalize here : first.kind = k at layer
    cases k <;> simp only [Kind.map, reduceCtorEq, Kind.fromClause.injEq] at layer
    obtain ⟨rfl, -, rfl⟩ := layer
    have simple := unnested _ _ _ here
    rw [← isQuery_normal (succeeds.child (by simp [here, Kind.children])), query] at simple
    cases simple
  | other other =>
    rename_i im x elemType first select' clauses
    cases layer
    have inSource : Succeeds reading fresh (.node im (.query (first :: (clauses ++ [select'])))) :=
      succeeds.child (by simp [Kind.children])
    have inLast : Succeeds reading fresh select' := inSource.child (by simp [Kind.children])
    obtain ⟨front, last', visited, either⟩ := normal_query_concat inSource
    rw [visited] at query
    cases query
    obtain rfl : last' = select := by simpa using last
    refine other ?_
    -- The query below has been flattened or not, and in both cases its last clause is the old one.
    rcases either with rfl | rfl
    · exact .of_selects (fun inside layer simple _ => kind_of_normal inside layer simple) variable_of_normal inLast
        shape
    · exact .of_selects kind_of_cleanForm variable_of_cleanForm inLast shape

/-! ### First clauses -/

inductive Turns (reading : Reading ν) : Marked ι ν → Marked ι ν → Prop where
  | same (c : Marked ι ν) : Turns reading c c
  | continuation {fm : ι} {x : ν} {elemType : Option (Marked ι ν)} {source : Marked ι ν} :
      Turns reading (.node fm (.fromClause x elemType source)) (.node fm (.continuation source x))
  | annotate {fm : ι} {x : ν} {source base elemType : Marked ι ν}
      (shape : CastsOn IsLayer reading.cast source base elemType) :
      Turns reading (.node fm (.fromClause x none source)) (.node fm (.fromClause x (some elemType) base))

theorem settle_turns {first : Marked ι ν} {rest : List (Marked ι ν)}
    (refused : ∀ {x elemType source inner}, first.kind = .fromClause x elemType source →
      source.kind = .query inner → recognized? reading x inner = none) :
    ∃ first', Turns reading first first' ∧
      (settle reading fresh m (.query (first :: rest))).1 = .node m (.query (first' :: rest)) := by
  generalize layer : Kind.query (first :: rest) = k
  obtain ⟨asks, asked, known⟩ := exists_asks reading k
  rw [settle, asked]
  cases known with
  | keep =>
    subst layer
    exact ⟨first, .same first, rfl⟩
  | stop =>
    cases layer
    exact ⟨_, .same _, rfl⟩
  | splice =>
    cases layer
    rw [action_nested reading rfl, nestedAction, refused rfl rfl] at asked
    cases asked
  | continuation refused =>
    cases layer
    exact ⟨_, .continuation, rfl⟩
  | annotate enabled shape =>
    cases layer
    exact ⟨_, .annotate shape, rfl⟩

theorem normal_query {first : Marked ι ν} {rest : List (Marked ι ν)} (kept : Kept reading first)
    (succeeds : Succeeds reading fresh (.node m (.query (first :: rest)))) :
    ∃ first', Turns reading (normal reading fresh first) first' ∧
      normal reading fresh (.node m (.query (first :: rest))) =
        .node m (.query (first' :: rest.map (normal reading fresh))) := by
  obtain ⟨children, -⟩ := succeeds_node_iff.mp succeeds
  rw [normal_node children]
  exact settle_turns (kept.recognized? (children first List.mem_cons_self))

theorem settle_splice (eliminates : reading.eliminates = true) {fm im : ι} {x : ν}
    {elemType : Option (Marked ι ν)} {moved rest : List (Marked ι ν)} {select value : Marked ι ν}
    {declared name : Option ν} (transparent : reading.transparent x = true)
    (shape : Selects IsLayer select declared value) (named : letName declared value.kind = .ok name) :
    (settle reading fresh m (.query (.node fm (.fromClause x elemType
        (.node im (.query (moved ++ [select])))) :: rest))).1 =
      .node m (.query ((moved ++ letClauses fresh (name.map (·, value)) ++ rest).map fun c =>
        (cleaned reading.transparent c).1)) := by
  have found : recognized? reading x (moved ++ [select]) = some (declared, value) := by
    rw [recognized?, eliminates, transparent]
    simpa using selected?_eq_some_iff.mpr shape
  rw [settle, action_nested reading rfl, nestedAction, found]
  simp only [named, List.dropLast_concat]
  exact congrArg Prod.fst (cleaned_query reading.transparent m _)

omit [DecidableEq ν] in
theorem Turns.binder? {c c' : Marked ι ν} (turns : Turns reading c c') : c'.kind.binder? = c.kind.binder? := by
  cases turns <;> rfl

omit [DecidableEq ν] in
theorem Turns.clean {transparent : ν → Bool} {c c' : Marked ι ν} (turns : Turns reading c c')
    (clean : Clean transparent c) : Clean transparent c' := by
  cases turns with
  | same => exact clean
  | continuation =>
    refine clean_node.mpr ⟨?_, rfl⟩
    simpa [Kind.children] using (clean_node.mp clean).1 _ (by simp [Kind.children])
  | annotate shape =>
    rename_i source base elemType
    have inSource : Clean transparent source := (clean_node.mp clean).1 _ (by simp [Kind.children])
    obtain ⟨sm, tm, y, rfl, -⟩ := shape.eq_call
    have inTarget := (clean_node.mp inSource).1 _ List.mem_cons_self
    have parts := (clean_node.mp inTarget).1
    refine clean_node.mpr ⟨?_, rfl⟩
    simpa [Kind.children] using ⟨parts elemType (by simp [Kind.children]), parts base (by simp [Kind.children])⟩

omit [DecidableEq ν] in
/-- What a cast is called on is in scope by itself: the method is no name in a record. -/
theorem Scoped.cast_base {source base elemType : Marked ι ν} (inScope : Scoped reading scope none source)
    (shape : CastsOn IsLayer reading.cast source base elemType) : Scoped reading scope none base := by
  obtain ⟨sm, tm, x, rfl, method⟩ := shape.eq_call
  cases inScope with
  | layer _ _ children =>
    cases children _ List.mem_cons_self with
    | access _ _ _ uncast => exact absurd method (by simp [uncast])
    | layer _ _ inner => exact inner base List.mem_cons_self

theorem Turns.freeNames {transparent : ν → Bool} {c c' : Marked ι ν} (turns : Turns reading c c')
    (users : ∀ {x source base elemType}, c.kind = .fromClause x none source →
      CastsOn IsLayer reading.cast source base elemType →
      ∀ y args, (cleaned transparent base).1.kind = .ident y args → transparent y = false) :
    (cleaned transparent c').1.freeNames ⊆ (cleaned transparent c).1.freeNames := by
  cases turns with
  | same => exact fun _ => id
  | continuation =>
    rw [freeNames_cleaned rfl (by simp) (by simp), freeNames_cleaned rfl (by simp) (by simp)]
    simp [Kind.children]
  | annotate shape =>
    rename_i source base elemType
    have inBase := users rfl shape
    obtain ⟨sm, tm, y, rfl, -⟩ := shape.eq_call
    rw [freeNames_cleaned rfl (by simp) (by simp), freeNames_cleaned rfl (by simp) (by simp)]
    simp only [Kind.children, Option.toList_none, List.nil_append, List.flatMap_singleton]
    rw [freeNames_cleaned rfl (by simp) (by simp), Kind.children, List.flatMap_singleton, cleaned_kept inBase,
      freeNames_other rfl (by simp)]
    simp [Kind.children]

/-- A first clause in scope has no names that it does not have without the work at the query. -/
theorem Scoped.freeNames_turns {first first' : Marked ι ν} (inScope : Scoped reading scope none first)
    (succeeds : Succeeds reading fresh first) (turns : Turns reading (normal reading fresh first) first') :
    (cleaned reading.transparent first').1.freeNames ⊆ (cleanForm reading fresh first).freeNames := by
  refine turns.freeNames fun {x source' base' elemType'} layer shape => ?_
  -- The clause and the cast were there before the visit.
  have layer := kind_of_normal succeeds layer rfl
  obtain ⟨cm, ck⟩ := first
  cases ck <;> simp only [Marked.kind_node, Kind.map, reduceCtorEq, Kind.fromClause.injEq] at layer
  obtain ⟨rfl, untyped, rfl⟩ := layer
  rename_i elemType source
  obtain ⟨base, type, found, inBase, rfl⟩ := castParts?_of_normal
    (succeeds.child (by simp [Kind.children])) (castParts?_eq_some_iff.mpr shape)
  have inSource : Scoped reading scope none source := by
    cases inScope with
    | layer _ _ children => exact children source (by simp [Kind.children])
  exact (inSource.cast_base (castParts?_eq_some_iff.mp found)).user_of_ident inBase

end

end Comprehension.Normalize
