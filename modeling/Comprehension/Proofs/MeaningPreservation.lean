import Comprehension.Proofs.Evaluation
import Comprehension.Proofs.Grammar
import Comprehension.Proofs.Records
import Comprehension.Proofs.Refinement

/-! Elimination keeps the meaning of queries. Before it, each row of the outer query holds a record with the
variables of the nested one; afterwards it holds those variables, and what was read from the record is read
from them. The two rows agree as long as the record is used by its fields only and no clause takes the name of
another variable. -/

set_option autoImplicit false

namespace Comprehension.Normalize
open Marked

variable {ι ν V : Type}

/-! ### Records and the variables in their place -/

structure Unpacking (ν : Type) where
  name : ν
  fields : List ν
  bound : List ν

namespace Unpacking

variable (o : Unpacking ν) (rebound : List ν)

def Sees (x : ν) : Prop := x ∈ rebound ∨ x ≠ o.name ∧ x ∉ o.bound

def Reaches (x : ν) : Prop := x ∈ o.fields ∧ o.name ∉ rebound ∧ x ∉ rebound

structure Agree (I : Interpretation ν V) (ρ σ : ν → V) : Prop where
  seen : ∀ {x}, o.Sees rebound x → ρ x = σ x
  field : ∀ {x}, o.Reaches rebound x → I.access (ρ o.name) x = σ x

/-- Trees below clauses that bind some names again, which use the record by its fields only. Cleaning takes no
other access for one of its fields, and a clause hides names from those after it. -/
inductive Uses (transparent : ν → Bool) : List ν → Marked ι ν → Prop where
  | field {rebound : List ν} {m tm : ι} {x : ν} {typeArgs : List (Marked ι ν)} (reached : o.Reaches rebound x)
      (args : ∀ c ∈ typeArgs, Uses transparent rebound c) :
      Uses transparent rebound (.node m (.member (.node tm (.ident o.name [])) x typeArgs))
  | name {rebound : List ν} {m : ι} {x : ν} {typeArgs : List (Marked ι ν)} (seen : o.Sees rebound x)
      (args : ∀ c ∈ typeArgs, Uses transparent rebound c) :
      Uses transparent rebound (.node m (.ident x typeArgs))
  | query {rebound : List ν} {m : ι} {clauses : List (Marked ι ν)}
      (each : ∀ before c after, clauses = before ++ c :: after → Uses transparent (rebound ++ binders before) c) :
      Uses transparent rebound (.node m (.query clauses))
  | other {rebound : List ν} {m : ι} {k : Kind ν (Marked ι ν)} (noQuery : k.isQuery = false)
      (noName : ∀ x typeArgs, k ≠ .ident x typeArgs)
      (kept : plainLayer? transparent (k.map id fun c => (cleaned transparent c).1) = none)
      (children : ∀ c ∈ k.children, Uses transparent rebound c) :
      Uses transparent rebound (.node m k)

variable {o rebound} {I : Interpretation ν V}

theorem agree_results {clauses : List (Marked ι ν)} {f g : Marked ι ν → Meaning ν V}
    (each : ∀ before c after, clauses = before ++ c :: after →
      Meaning.Simulates (o.Agree (rebound ++ binders before) I)
        (o.Agree (rebound ++ binders before ++ binders [c]) I) (f c) (g c))
    {rows rows' : List (ν → V)} (agree : List.Forall₂ (o.Agree rebound I) rows rows') :
    Meaning.results (clauses.map f) rows = Meaning.results (clauses.map g) rows' := by
  refine Meaning.results_eq (R := fun before => o.Agree (rebound ++ binders before) I) ?_ ?_
  · intro before c after split
    rw [binders_append, ← List.append_assoc]
    exact each before c after split
  · simpa [binders] using agree

variable [DecidableEq ν]

theorem Agree.update {ρ σ : ν → V} (agree : o.Agree rebound I ρ σ) (x : ν) (v : V) :
    o.Agree (rebound ++ [x]) I (Function.update ρ x v) (Function.update σ x v) := by
  constructor
  · intro y seen
    by_cases same : y = x
    · rw [same, Function.update_self, Function.update_self]
    · rw [Function.update_of_ne same, Function.update_of_ne same]
      refine agree.seen (seen.imp_left fun member => ?_)
      simpa [same] using member
  · rintro y ⟨field, record, taken⟩
    rw [List.mem_append, not_or, List.mem_singleton] at record taken
    rw [Function.update_of_ne record.2, Function.update_of_ne taken.2]
    exact agree.field ⟨field, record.1, taken.1⟩

theorem agree_layer {m : ι} {k : Kind ν (Marked ι ν)} {f g : Marked ι ν → Meaning ν V}
    (noQuery : k.isQuery = false) (reads : ∀ {x typeArgs}, k = .ident x typeArgs → o.Sees rebound x)
    (children : ∀ c ∈ k.children, Meaning.Expresses (o.Agree rebound I) (f c) (g c)) :
    Meaning.Simulates (o.Agree rebound I) (o.Agree (rebound ++ binders [.node m k]) I)
      (I.layer (k.map id f)) (I.layer (k.map id g)) := by
  refine Interpretation.layer_simulates noQuery ?_ ?_ (fun is _ _ agree => agree.seen (reads is)) children
  · intro none ρ σ agree
    rwa [binders_singleton, kind_node, none, Option.toList_none, List.append_nil]
  · intro x binds ρ σ v agree
    rw [binders_singleton, kind_node, binds]
    exact agree.update x v

/-- Cleaning a tree that uses the record by its fields changes what it means with the record into what it
means without. -/
theorem Uses.simulates {transparent : ν → Bool} {t : Marked ι ν} (through : transparent o.name = true)
    (uses : o.Uses transparent rebound t) :
    Meaning.Simulates (o.Agree rebound I) (o.Agree (rebound ++ binders [t]) I) (I.meaning t)
      (I.meaning (cleaned transparent t).1) := by
  -- The induction follows the scopes: every case has the names that are bound around its tree.
  induction uses with
  | @field rebound m tm x typeArgs reached _ args =>
    have ident : (cleaned transparent (.node tm (.ident o.name []))).1.kind = .ident o.name [] := by
      rw [cleaned_other _ (by simp)]
      rfl
    rw [cleaned_through ident through, I.meaning_node, I.meaning_node, Kind.map, Kind.map, I.meaning_node,
      List.map_map, binders_singleton]
    refine Interpretation.expression_simulates ?_ fun {ρ σ} agree => ?_
    · intro ρ σ agree
      simpa [Kind.binder?] using agree
    · have values := Interpretation.values_eq (fun c member => (args c member).toExpresses) agree
      have read : I.access (I.instantiate [] (ρ o.name)) x = σ x := by
        rw [I.instantiate_nil]
        exact agree.field reached
      exact congrArg₂ I.instantiate values read
  | @name rebound m x typeArgs seen _ args =>
    rw [cleaned_other _ (by simp), I.meaning_node, I.meaning_node, Kind.map_map]
    exact agree_layer rfl (by rintro _ _ ⟨⟩; exact seen) fun c member => (args c member).toExpresses
  | @query rebound m clauses _ each =>
    rw [cleaned_query, I.meaning_node, I.meaning_node, Kind.map, Kind.map, List.map_map, binders_singleton]
    refine Interpretation.expression_simulates ?_ fun {ρ σ} agree => congrArg I.collect ?_
    · intro ρ σ agree
      simpa [Kind.binder?] using agree
    · exact agree_results each (.cons agree .nil)
  | @other rebound m k noQuery noName kept _ children =>
    rw [cleaned_node_fst, kept, Option.getD_none, I.meaning_node, I.meaning_node, Kind.map_map]
    exact agree_layer noQuery (fun is => absurd is (noName _ _)) fun c member => (children c member).toExpresses

end Unpacking

/-! ### Records of rows -/

section
variable [DecidableEq ν] (I : Interpretation ν V)

theorem field?_meaning {t : Marked ι ν} {x : ν} (implied : impliedName? t.kind = some x) :
    (I.meaning t).field? = some x := by
  obtain ⟨m, k⟩ := t
  rw [I.meaning_node]
  cases k <;> cases implied <;> rfl

theorem value_ident (m : ι) (x : ν) (σ : ν → V) : I.value (.node m (.ident x [])) σ = σ x := by
  rw [Interpretation.value, I.meaning_node]
  exact I.instantiate_nil (σ x)

theorem Pair.value_record {initializers : List (Marked ι ν)} {taken value : Marked ι ν} {x y : ν}
    (pair : Pair initializers taken x y value) (ident : taken.kind = .ident x []) (m : ι) (σ : ν → V) :
    I.value (.node m (.record initializers)) σ = I.record [(x, I.value taken σ), (y, I.value value σ)] := by
  have own : (I.meaning taken).field? = some x := field?_meaning I (by rw [ident]; rfl)
  have named (m : ι) (z : ν) (t : Marked ι ν) :
      I.meaning (.node m (.named z t)) = Interpretation.expression (some z) (I.value t) := I.meaning_node _ _
  have layer : I.value (.node m (.record initializers)) σ =
      I.record ((initializers.map I.meaning).filterMap fun d => d.field?.map (·, d.value σ)) := by
    rw [Interpretation.value, I.meaning_node]
    rfl
  rw [layer]
  cases pair with
  | reexport =>
    simp only [List.map_cons, List.map_nil, named]
    rfl
  | shorthand =>
    simp only [List.map_cons, List.map_nil, named, List.filterMap_cons, own]
    rfl
  | undeclared implied =>
    simp only [List.map_cons, List.map_nil, List.filterMap_cons, own, field?_meaning I implied]
    rfl

end

/-- A query over a nested one that selects a record, by its parts: the name of the record, the clauses of the
nested query before the last, what the record takes over and what it adds, and the clauses that come after. -/
structure RecordQuery (ν : Type) where
  name : ν
  moved : List (Marked Unit ν)
  initializers : List (Marked Unit ν)
  taken : ν
  added : ν
  value : Marked Unit ν
  pair : Pair initializers (.node () (.ident taken [])) taken added value
  rest : List (Marked Unit ν)

namespace RecordQuery

def source (q : RecordQuery ν) : Marked Unit ν := .node () (.query (q.moved ++ [selectRecord () () q.initializers]))

def tree (q : RecordQuery ν) : Marked Unit ν :=
  .node () (.query (.node () (.fromClause q.name none q.source) :: q.rest))

section
variable [DecidableEq ν] (q : RecordQuery ν)

def binding : Option ν := neededLet q.added q.value.kind

def front : List (Marked Unit ν) := q.moved ++ letClauses () (q.binding.map (·, q.value))

def flattened : Marked Unit ν := .node () (.query (q.front ++ q.rest))

def unpacking : Unpacking ν := ⟨q.name, [q.taken, q.added], binders q.front⟩

/-- Queries in which the record is used by its fields only: there are two of them, what is moved reads nothing
through a transparent name, and the clauses after it reach the fields and no name that is bound in place of the
record. -/
structure Hygienic (transparent : ν → Bool) : Prop where
  distinct : q.taken ≠ q.added
  moved : ∀ c ∈ q.moved, Clean transparent c
  value : Clean transparent q.value
  uses : q.unpacking.Uses transparent [] (.node () (.query q.rest))

def Plain : Prop := ∀ typeArgs, q.value.kind = .ident q.added typeArgs → typeArgs = []

variable {q}

theorem settle_tree {reading : Reading ν} (eliminates : reading.eliminates = true)
    (through : reading.transparent q.name = true) :
    settle reading () () q.tree.kind = ((cleaned reading.transparent q.flattened).1,
      ⟨⟨1, q.binding.toList.length, (cleaned reading.transparent q.flattened).2, 0, 0⟩, none⟩) := by
  obtain ⟨declared, shape, named⟩ := q.pair.selects rfl () ()
  have found : recognized? reading q.name (q.moved ++ [selectRecord () () q.initializers]) =
      some (declared, q.value) := by
    rw [recognized?, eliminates, through]
    simpa using selected?_eq_some_iff.mpr shape
  rw [settle, tree, kind_node, source, action_nested reading rfl, nestedAction, found]
  simp only [named, List.dropLast_concat, flattened, front, binding]
  cases neededLet q.added q.value.kind <;> rfl

theorem Hygienic.cleaned_front {transparent : ν → Bool} (hygienic : q.Hygienic transparent) :
    q.front.map (fun c => (cleaned transparent c).1) = q.front := by
  rw [front, List.map_append, map_cleaned_eq hygienic.moved, cleaned_letClauses, hygienic.value]

end

section
variable [DecidableEq ν] (I : Interpretation ν V) (q : RecordQuery ν)

def recordOf (σ : ν → V) : V := I.record [(q.taken, σ q.taken), (q.added, I.value q.value σ)]

def packed (ρ σ : ν → V) : ν → V := Function.update ρ q.name (q.recordOf I σ)

def assigned (σ : ν → V) : ν → V := q.binding.elim σ fun x => Function.update σ x (I.value q.value σ)

theorem results_source (ρ : ν → V) :
    I.elements (I.value q.source ρ) = (Meaning.threads (q.moved.map I.meaning) [ρ]).map (q.recordOf I) := by
  have select : I.meaning (selectRecord () () q.initializers) = I.last (List.map (q.recordOf I)) := by
    have records : I.value (.node () (.record q.initializers)) = q.recordOf I := by
      funext σ
      rw [q.pair.value_record I rfl, value_ident, recordOf]
    rw [I.meaning_node, ← records]
    rfl
  rw [source, I.elements_query, List.map_append, Meaning.results_append (by simp), List.map_singleton, select]
  rfl

theorem threads_front (ρ : ν → V) : Meaning.threads (q.front.map I.meaning) [ρ] =
    (Meaning.threads (q.moved.map I.meaning) [ρ]).map (q.assigned I) := by
  have lets (rows : List (ν → V)) : Meaning.threads
      ((letClauses () (q.binding.map (·, q.value))).map I.meaning) rows = rows.map (q.assigned I) := by
    unfold assigned
    cases q.binding with
    | none => exact (List.map_id rows).symm
    | some x =>
      change (I.meaning (.node () (.letClause x q.value))).thread rows = _
      rw [I.meaning_node]
      rfl
  rw [front, List.map_append, Meaning.threads_append, lets]

variable {I q}

theorem assigned_field (distinct : q.taken ≠ q.added) (plain : I.Erases ∨ q.Plain) (σ : ν → V) :
    q.assigned I σ q.taken = σ q.taken ∧ q.assigned I σ q.added = I.value q.value σ := by
  rcases neededLet_cases q.added q.value.kind with needed | ⟨spare, typeArgs, kind⟩
  · rw [assigned, binding, needed]
    exact ⟨Function.update_of_ne distinct .., Function.update_self ..⟩
  · rw [assigned, binding, spare]
    have value : I.value q.value σ = I.instantiate ((typeArgs.map I.meaning).map (·.value σ)) (σ q.added) := by
      rw [← node_mark_kind q.value, kind, Interpretation.value, I.meaning_node]
      rfl
    refine ⟨rfl, Eq.trans ?_ value.symm⟩
    rcases plain with erases | bare
    · exact (erases _ _).symm
    · rw [bare typeArgs kind]
      exact (I.instantiate_nil _).symm

/-- The rows before and after agree: one with the record, one with the variables in its place. -/
theorem agree_assigned (distinct : q.taken ≠ q.added) (plain : I.Erases ∨ q.Plain) {ρ σ : ν → V}
    (frame : ∀ x ∉ binders q.front, q.assigned I σ x = ρ x) :
    q.unpacking.Agree [] I (q.packed I ρ σ) (q.assigned I σ) := by
  obtain ⟨taken, added⟩ := assigned_field distinct plain σ
  constructor
  · rintro x (member | ⟨other, unbound⟩)
    · cases member
    · rw [frame x unbound]
      exact Function.update_of_ne other ..
  · rintro x ⟨field, -, -⟩
    have record : q.packed I ρ σ q.unpacking.name = q.recordOf I σ := Function.update_self ..
    have names : ([(q.taken, σ q.taken), (q.added, I.value q.value σ)].map Prod.fst).Nodup := by
      simpa using distinct
    have either : x = q.taken ∨ x = q.added := by simpa [unpacking] using field
    rw [record]
    rcases either with rfl | rfl
    · rw [taken]
      exact I.access_record names (by simp)
    · rw [added]
      exact I.access_record names (by simp)

theorem value_tree (continued : q.rest ≠ []) (ρ : ν → V) :
    I.value q.tree ρ = I.collect (Meaning.results (q.rest.map I.meaning)
      ((Meaning.threads (q.moved.map I.meaning) [ρ]).map (q.packed I ρ))) := by
  have first : (I.meaning (.node () (.fromClause q.name none q.source))).thread [ρ] =
      (Meaning.threads (q.moved.map I.meaning) [ρ]).map (q.packed I ρ) := by
    have ranges : (I.meaning (.node () (.fromClause q.name none q.source))).thread [ρ] =
        Interpretation.ranged q.name (fun ρ => I.elements (I.value q.source ρ)) [ρ] := by
      rw [I.meaning_node]
      rfl
    rw [ranges, Interpretation.ranged, List.flatMap_singleton, results_source, List.map_map]
    rfl
  rw [← first, ← Meaning.results_cons _ (by simpa using continued), Interpretation.value, tree, I.meaning_node]
  rfl

theorem Hygienic.value_cleaned {transparent : ν → Bool} (hygienic : q.Hygienic transparent)
    (continued : q.rest ≠ []) (ρ : ν → V) :
    I.value (cleaned transparent q.flattened).1 ρ = I.collect (Meaning.results
      (q.rest.map fun c => I.meaning (cleaned transparent c).1)
      ((Meaning.threads (q.moved.map I.meaning) [ρ]).map (q.assigned I))) := by
  rw [← threads_front, ← Meaning.results_append (by simpa using continued), flattened, cleaned_query,
    Interpretation.value, I.meaning_node, List.map_append, hygienic.cleaned_front, Kind.map, List.map_append,
    List.map_map]
  rfl

/-- Flattening a query and cleaning it keeps its value. -/
theorem value_flattened {transparent : ν → Bool} (through : transparent q.name = true)
    (hygienic : q.Hygienic transparent) (continued : q.rest ≠ []) (plain : I.Erases ∨ q.Plain) (ρ : ν → V) :
    I.value (cleaned transparent q.flattened).1 ρ = I.value q.tree ρ := by
  -- Both queries go on from one row for each row of the nested query.
  have agree : List.Forall₂ (q.unpacking.Agree [] I)
      ((Meaning.threads (q.moved.map I.meaning) [ρ]).map (q.packed I ρ))
      ((Meaning.threads (q.moved.map I.meaning) [ρ]).map (q.assigned I)) := by
    rw [List.forall₂_map_left_iff, List.forall₂_map_right_iff, List.forall₂_same]
    intro σ row
    refine agree_assigned hygienic.distinct plain fun x unbound => ?_
    have member : q.assigned I σ ∈ Meaning.threads (q.front.map I.meaning) [ρ] := by
      rw [threads_front]
      exact List.mem_map_of_mem row
    obtain ⟨_, outer, frame⟩ := Interpretation.threads_frame member
    rw [frame x unbound, List.mem_singleton.mp outer]
  have uses : ∀ before c after, q.rest = before ++ c :: after →
      q.unpacking.Uses transparent ([] ++ binders before) c := by
    cases hygienic.uses with
    | query each => exact each
    | other noQuery => cases noQuery
  rw [value_tree continued, hygienic.value_cleaned continued]
  exact congrArg I.collect (Unpacking.agree_results
    (fun before c after split => (uses before c after split).simulates through) agree).symm

end

end RecordQuery

/-! ### Elimination in a store -/

section
variable (rules : Rules) {names : NameTable} {s : Store}

theorem normalizeQuery_settles (built : names.Reachable) {l : Layout} (forest : s.Forest [l])
    (query : l.kind.isQuery = true) (inTable : l.NamesIn fun x => x.index < names.size) :
    ∃ result s' gain, Ends (normalizeQuery rules names l.mark) s result s' gain ∧
      gain = (settle rules.reading () () (l.tree names).kind).2.stats ∧
      ResultOf (fun _ => ()) () (settle rules.reading () () (l.tree names).kind).2.breach result ∧
      s'.unfold names l.mark = .ok (settle rules.reading () () (l.tree names).kind).1 := by
  obtain ⟨m, k⟩ := l
  obtain ⟨clauses, rfl⟩ := Kind.eq_query_of_isQuery query
  have here := (Store.holds_node.mp forest.holds_single).1
  obtain ⟨result, s', gain, step, ends⟩ := normalizeQuery_ends rules names forest.holds_single.closedAt here
    fun n => n.source_ne forest
  obtain ⟨counts, known, change⟩ := step.settles _ forest
  -- Settling the tree with numbers for names is settling the one with texts.
  have renamed : settle rules.reading () () ((Kind.query clauses).map names.lookup
        (Marked.map (fun _ : NodeId => ()) names.lookup)) =
      ((settle (rules.numbered names) ⟨s.size⟩ m (.query clauses)).1.map (fun _ => ()) names.lookup,
        (settle (rules.numbered names) ⟨s.size⟩ m (.query clauses)).2.map fun _ => ()) :=
    settle_map (fun x y => built.consistent.lookup_injective) rules.reading (namesIn_node.mp inTable).2
  have layer : (Layout.tree names (.node m (.query clauses))).kind =
      (Kind.query clauses).map names.lookup (Marked.map (fun _ => ()) names.lookup) := kind_map ..
  rw [layer, renamed]
  exact ⟨result, s', gain, ends, counts, known.map, change.unfold_eq names⟩

/-- Where the first clause of a well-formed query ranges over a nested query that selects a record for a
transparent name, and the rest of the query uses the record by its fields only, the work at the query takes the
record apart, and the tree that it leaves has the value of the one before: in every environment and however
everything but clauses and variables is understood. Type arguments of a variable that the record takes over are
lost, so there must be none unless they make no difference. -/
theorem normalizeQuery_keeps_value (built : names.Reachable) {query : NodeId} (wellFormed : s.WellFormedAt query)
    (interned : s.InternedAt names query) {q : RecordQuery String} (before : s.unfold names query = .ok q.tree)
    (enabled : rules.config.eliminateTransparent = true) (through : rules.transparent q.name = true)
    (hygienic : q.Hygienic rules.transparent) :
    ∃ s', Ends (normalizeQuery rules names query) s (.ok ()) s'
        ⟨1, q.binding.toList.length, (cleaned rules.transparent q.flattened).2, 0, 0⟩ ∧
      s'.unfold names query = .ok (cleaned rules.transparent q.flattened).1 ∧
      ∀ {V : Type} (I : Interpretation String V), I.Erases ∨ q.Plain → ∀ ρ,
        I.value (cleaned rules.transparent q.flattened).1 ρ = I.value q.tree ρ := by
  obtain ⟨l, rfl, holds, nodup, sorted⟩ := Store.wellFormedAt_iff.mp wellFormed
  have tree : l.tree names = q.tree := Except.ok.inj ((holds.unfold_eq nodup names).symm.trans before)
  have layer : l.kind.map names.lookup (Marked.map (fun _ => ()) names.lookup) = q.tree.kind := by
    rw [← tree, Layout.tree, kind_map]
  have isQuery : l.kind.isQuery = true := by
    rw [← Kind.isQuery_map names.lookup, layer]
    rfl
  -- By the grammar a query has a clause after its first one.
  have continued : q.rest ≠ [] := by
    obtain ⟨clauses, kind⟩ := Kind.eq_query_of_isQuery isQuery
    have arranged := sorted l (self_mem_subtrees l)
    rw [kind] at arranged layer
    obtain ⟨first, between, last, rfl, -⟩ := Kind.arranged_query.mp arranged
    intro ended
    have length := congrArg (List.length ∘ Kind.children) layer
    simp [Kind.map, Kind.children, RecordQuery.tree, ended] at length
  obtain ⟨result, s', gain, ends, counts, known, unfolds⟩ :=
    normalizeQuery_settles rules built (.single holds nodup) isQuery (interned.namesIn holds)
  rw [tree, RecordQuery.settle_tree enabled through] at counts known unfolds
  cases known
  subst counts
  refine ⟨s', ends, unfolds, fun I plain ρ => ?_⟩
  exact RecordQuery.value_flattened through hygienic continued plain ρ

end

/-- `from t in (from x in xs.Cast<T>() select new { x, y = x.f }) select t.y` -/
def RecordQuery.nested : RecordQuery String where
  name := "t"
  moved := [.node () (.fromClause "x" none (.node () (.call (.node () (.member (.node () (.ident "xs" [])) "Cast"
    [.node () (.typeRef "T" [])])) [])))]
  initializers := [.node () (.ident "x" []),
    .node () (.named "y" (.node () (.member (.node () (.ident "x" [])) "f" [])))]
  taken := "x"
  added := "y"
  value := .node () (.member (.node () (.ident "x" [])) "f" [])
  pair := .shorthand
  rest := [.node () (.selectClause (.node () (.member (.node () (.ident "t" [])) "y" [])))]

theorem normalizeQuery_keeps_value_nested :
    let names := NameTable.ofTexts ["xs", "T", "Cast", "x", "f", "y", "t"]
    let s := Layout.nested.store
    let q := RecordQuery.nested
    let after : Tree := .node () (.query (q.moved ++ [
      .node () (.letClause "y" q.value),
      .node () (.selectClause (.node () (.ident "y" [])))]))
    let row (n : Int) : Datum String := .record [("f", .constant (.int n))]
    names.Reachable ∧ s.WellFormedAt ⟨16⟩ ∧ s.InternedAt names ⟨16⟩ ∧ s.unfold names ⟨16⟩ = .ok q.tree ∧
      q.Hygienic (· = "t") ∧ q.Plain ∧
      ∃ s', Ends (normalizeQuery ⟨{}, (· = "t")⟩ names ⟨16⟩) s (.ok ()) s' ⟨1, 1, 1, 0, 0⟩ ∧
        s'.unfold names ⟨16⟩ = .ok after ∧
        Interpretation.data.value after (fun _ => .list [row 1, row 2]) =
          .list [.constant (.int 1), .constant (.int 2)] := by
  intro names s q after row
  have distinct : ["", "xs", "T", "Cast", "x", "f", "y", "t"].Nodup := by decide
  have built : names.Reachable := NameTable.reachable_ofTexts _
  have nodup : Layout.nested.marks.Nodup := by decide
  have holds : s.Holds Layout.nested := Layout.holds_store nodup (by decide)
  have wellFormed : s.WellFormedAt ⟨16⟩ := Store.wellFormedAt_iff.mpr ⟨Layout.nested, rfl, holds, nodup, by decide⟩
  have interned : s.InternedAt names ⟨16⟩ := by
    refine holds.internedAt ?_
    rw [NameTable.size_ofTexts distinct]
    decide
  have before : s.unfold names ⟨16⟩ = .ok q.tree := by
    refine (holds.unfold_eq nodup names).trans (congrArg Except.ok ?_)
    rw [Layout.tree, NameTable.lookup_ofTexts distinct]
    rfl
  have plain : q.Plain := fun _ kind => by cases kind
  have hygienic : q.Hygienic (· = "t") := by
    refine ⟨by decide, List.forall_mem_singleton.mpr (by rw [Clean]; rfl), by rw [Clean]; rfl, .query ?_⟩
    intro before c after split
    cases before with
    | nil =>
      cases split
      refine .other rfl (by simp) rfl (List.forall_mem_singleton.mpr ?_)
      exact .field ⟨by decide, by decide, by decide⟩ (by simp)
    | cons _ before => simp [q, RecordQuery.nested] at split
  have flat : cleaned (· = "t") q.flattened = (after, 1) := by rfl
  obtain ⟨s', ends, unfolds, same⟩ := normalizeQuery_keeps_value ⟨{}, (· = "t")⟩ built wellFormed interned before
    rfl rfl hygienic
  rw [flat] at ends unfolds same
  refine ⟨built, wellFormed, interned, before, hygienic, plain, s', ends, unfolds, ?_⟩
  rw [same Interpretation.data (.inr plain)]
  rfl

end Comprehension.Normalize
