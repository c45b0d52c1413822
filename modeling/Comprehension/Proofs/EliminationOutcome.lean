import Comprehension.Proofs.Ranking

/-! How the elimination of one nested query ends. It refuses a query whose record has not the shape, fails
for want of a name, or moves clauses, and each of these happens under exactly one condition on the record.
Nodes may be shared; the store has to be closed and without cycles. -/

set_option autoImplicit false

namespace Comprehension

namespace Store

variable {s : Store}

theorem Acyclic.ne_grandchild (acyclic : s.Acyclic) {id c d : NodeId} {k k' : NodeKind}
    (here : s.kind? id = some k) (child : c ∈ k.children) (there : s.kind? c = some k')
    (grandchild : d ∈ k'.children) : id ≠ d := by
  rintro rfl
  obtain ⟨i, bound, rfl⟩ := List.mem_iff_getElem.mp child
  obtain ⟨j, bound', place⟩ := List.mem_iff_getElem.mp grandchild
  have circle : s.follow id [i, j] = some id := by
    simp [follow, here, bound, there, bound', place]
  cases acyclic id [i, j] circle

end Store

namespace Normalize
open Store

theorem Ends.unique {α : Type} {program : PassM α} {s s₁ s₂ : Store} {result result' : Except Failure α}
    {gain gain' : Stats} (first : Ends program s result s₁ gain) (second : Ends program s result' s₂ gain') :
    result = result' ∧ s₁ = s₂ ∧ gain = gain' := by
  obtain ⟨log, done⟩ := first 0 #[]
  obtain ⟨log', done'⟩ := second 0 #[]
  have same := done.symm.trans done'
  rw [zero_add, zero_add] at same
  cases result <;> cases result' <;> cases same <;> exact ⟨rfl, rfl, rfl⟩

theorem Selects.unique {s : Store} {select value value' : NodeId} {declared declared' : Option Name}
    (first : Selects s.Layer select declared value) (second : Selects s.Layer select declared' value') :
    declared = declared' ∧ value = value' := by
  obtain ⟨record, a, b, x, projection, pair, -, last⟩ := first.initializers
  obtain ⟨record', a', b', x', projection', pair', -, last'⟩ := second.initializers
  cases Layer.unique projection projection'
  cases Layer.unique pair pair'
  rcases last with ⟨y, rfl, named⟩ | ⟨rfl, rfl, k, found, anonymous⟩
  · rcases last' with ⟨y', rfl, named'⟩ | ⟨rfl, rfl, k', found', anonymous'⟩
    · cases Layer.unique named named'
      exact ⟨rfl, rfl⟩
    · exact absurd (Layer.unique named found').symm (anonymous' y value)
  · rcases last' with ⟨y', rfl, named'⟩ | ⟨rfl, rfl, -⟩
    · exact absurd (Layer.unique named' found).symm (anonymous y' value')
    · exact ⟨rfl, rfl⟩

/-- A nested query with these clauses, bound to a name, whose record is to be taken apart: the declared name
of the second binding and its value. -/
structure RecordShape (transparent : Name → Bool) (s : Store) (t : Name) (clauses : List NodeId)
    (declared : Option Name) (value : NodeId) : Prop where
  transparent : transparent t = true
  selected : ∃ select, clauses.getLast? = some select ∧ Selects s.Layer select declared value

inductive NewLet (value : NodeId) (node : Node) : Option Name → Option Node → Prop where
  /-- A variable under its own name is there already. -/
  | reexport {x : Name} {typeArgs : List NodeId} {declared : Option Name} (ident : node.kind = .ident x typeArgs)
      (own : declared = none ∨ declared = some x) : NewLet value node declared none
  | declared {y : Name} (other : ∀ typeArgs, node.kind ≠ .ident y typeArgs) :
      NewLet value node (some y) (some ⟨.letClause y value, node.span⟩)
  | implied {target : NodeId} {x : Name} {typeArgs : List NodeId}
      (member : node.kind = .member target x typeArgs) :
      NewLet value node none (some ⟨.letClause x value, node.span⟩)

/-- A store in which a query has other clauses, its source has none, and at most one node is new. -/
structure Flattened (s s' : Store) (query inner : NodeId) (clauses : List NodeId) (new : Option Node) :
    Prop where
  size_eq : s'.size = s.size + new.toList.length
  query_eq : s'.kind? query = some (.query clauses)
  inner_eq : s'.kind? inner = some (.query [])
  new_eq : ∀ node ∈ new, s'.node? ⟨s.size⟩ = some node
  span_eq : ∀ id : NodeId, id.index < s.size → s'.span id = s.span id
  other_eq : ∀ id : NodeId, id.index < s.size → id ≠ query → id ≠ inner → s'.node? id = s.node? id

section
variable {value : NodeId} {node : Node} {declared binding : Option Name}

theorem newLet_of_letName (named : letName declared node.kind = .ok binding) :
    NewLet value node declared (binding.map fun x => ⟨.letClause x value, node.span⟩) := by
  obtain ⟨k, span⟩ := node
  cases declared with
  | none =>
    cases k with
    | ident x typeArgs =>
      cases named
      exact .reexport rfl (.inl rfl)
    | member target x typeArgs =>
      cases named
      exact .implied rfl
    | _ => cases named
  | some y =>
    cases k with
    | ident x typeArgs =>
      by_cases own : y = x
      · simp only [letName, own, if_true] at named
        cases named
        exact .reexport rfl (.inr (congrArg some own))
      · simp only [letName, own, if_false] at named
        cases named
        refine .declared fun args is => ?_
        cases is
        exact own rfl
    | _ =>
      cases named
      exact .declared (by simp)

end

section
variable {s : Store} {query inner first : NodeId} {clauses rest : List NodeId}

/-- Moving clauses changes the two queries and adds at most the let clause. -/
theorem flattened_spliced (here : s.Layer query (.query (first :: rest))) (nested : s.Layer inner (.query clauses))
    (proper : query ≠ inner) (value : NodeId) (node : Node) (binding : Option Name) :
    Flattened s (spliced s query inner ⟨value, binding⟩ clauses rest node.span) query inner
      (clauses.dropLast ++ (binding.toList.map fun _ => ⟨s.size⟩) ++ rest)
      (binding.map fun x => ⟨.letClause x value, node.span⟩) where
  size_eq := by
    rw [size_spliced]
    cases binding <;> rfl
  query_eq := by
    rw [kind?_spliced_query (index_lt_of_kind? here)]
    cases binding <;> rfl
  inner_eq := by
    have bound := index_lt_of_kind? nested
    rw [spliced, kind?_put_of_ne proper, kind?, node?_withLet (by rwa [size_put])]
    exact kind?_put_self nested _
  new_eq := by
    intro new is
    obtain ⟨x, rfl, rfl⟩ := Option.map_eq_some_iff.mp is
    have other : query ≠ ⟨s.size⟩ := by
      rintro rfl
      exact Nat.lt_irrefl _ (index_lt_of_kind? here)
    have size : s.size = (s.put inner (.query [])).size := (size_put ..).symm
    rw [spliced, node?_put, if_neg other, withLet, node?_alloc, if_pos size]
  span_eq id old := by
    have bound : id.index < (s.put inner (.query [])).size := by rwa [size_put]
    obtain ⟨k, kept⟩ := exists_kind?_of_lt bound
    obtain ⟨n, found, -⟩ := Option.map_eq_some_iff.mp kept
    rw [spliced, span_put, ← span_put s inner id (.query []), Store.span, Store.span, node?_withLet bound, found]
  other_eq id old notQuery notInner := node?_spliced (Ne.symm notQuery) (Ne.symm notInner) old

end

section
variable {s : Store} {transparent : Name → Bool} {t : Name} {clauses : List NodeId} {value : NodeId} {node : Node}
  {declared : Option Name} {outcome : Except Failure (Except Refusal Splice)}

/-- The shape decides which value a plan is about, and the value decides the plan. -/
theorem SplicePlan.eq_of_shape (plan : SplicePlan s transparent t clauses outcome)
    (shape : RecordShape transparent s t clauses declared value) (found : s.node? value = some node) :
    (∃ binding, letName declared node.kind = .ok binding ∧ outcome = .ok (.ok ⟨value, binding⟩)) ∨
      ∃ violation, letName declared node.kind = .error violation ∧
        outcome = .error (.broken ⟨value, node.span, violation⟩) := by
  obtain ⟨bound, select, last, selects⟩ := shape
  cases plan with
  | refused other => exact absurd selects (other bound select last declared value)
  | accepted _ last' selects' here named =>
    cases last.symm.trans last'
    obtain ⟨rfl, rfl⟩ := selects.unique selects'
    have kind : s.Layer value node.kind := by rw [Layer, kind?, found]; rfl
    cases Layer.unique here kind
    exact .inl ⟨_, named, rfl⟩
  | failed _ last' selects' here unnamed =>
    cases last.symm.trans last'
    obtain ⟨rfl, rfl⟩ := selects.unique selects'
    cases found.symm.trans here
    exact .inr ⟨_, unnamed, rfl⟩

theorem RecordShape.exists_node (shape : RecordShape transparent s t clauses declared value) {inner : NodeId}
    (closed : s.ClosedAt inner) (nested : s.Layer inner (.query clauses)) : ∃ node, s.node? value = some node := by
  obtain ⟨-, select, last, selects⟩ := shape
  have closedSelect : s.ClosedAt select := closed.child nested (List.mem_of_getLast? last)
  obtain ⟨k, here⟩ := (selects.closedAt closedSelect).exists_kind
  obtain ⟨node, found, -⟩ := Option.map_eq_some_iff.mp here
  exact ⟨node, found⟩

end

section
variable (rules : Rules) (names : NameTable) {s : Store} {query first inner value : NodeId} {t : Name}
  {declared : Option Name} {clauses rest : List NodeId} {node : Node}

theorem unrecognized_ends (plan : SplicePlan s (isTransparent rules names) t clauses
      (planSplice (isTransparent rules names) names s t inner))
    (other : ∀ declared value, ¬ RecordShape (isTransparent rules names) s t clauses declared value) :
    Ends (eliminate rules names query t inner) s (.ok false) s 0 := by
  generalize planned : planSplice (isTransparent rules names) names s t inner = outcome at plan
  cases plan with
  | refused => exact eliminate_refused rules names planned
  | accepted bound last shape => exact absurd ⟨bound, _, last, shape⟩ (other _ _)
  | failed bound last shape => exact absurd ⟨bound, _, last, shape⟩ (other _ _)

theorem nameless_ends (plan : SplicePlan s (isTransparent rules names) t clauses
      (planSplice (isTransparent rules names) names s t inner))
    (shape : RecordShape (isTransparent rules names) s t clauses none value) (found : s.node? value = some node)
    (nameless : Nameless node.kind) :
    Ends (eliminate rules names query t inner) s
      (.error (.broken ⟨value, node.span, .unnamedInitializer node.kind.describe⟩)) s 0 := by
  obtain ⟨binding, named, -⟩ | ⟨violation, unnamed, planned⟩ := plan.eq_of_shape shape found
  · cases named.symm.trans (letName_eq_error_iff.mpr ⟨rfl, nameless, rfl⟩)
  · obtain ⟨-, -, rfl⟩ := letName_eq_error_iff.mp unnamed
    exact eliminate_broken rules names planned

theorem named_ends (plan : SplicePlan s (isTransparent rules names) t clauses
      (planSplice (isTransparent rules names) names s t inner))
    (here : s.Layer query (.query (first :: rest))) (nested : s.Layer inner (.query clauses)) (proper : query ≠ inner)
    (shape : RecordShape (isTransparent rules names) s t clauses declared value) (found : s.node? value = some node)
    (nameable : ¬ (declared = none ∧ Nameless node.kind)) :
    ∃ s' new, NewLet value node declared new ∧
      Flattened s s' query inner (clauses.dropLast ++ (new.toList.map fun _ => ⟨s.size⟩) ++ rest) new ∧
      Ends (eliminate rules names query t inner) s (.ok true) s'
        { eliminated := 1, letsIntroduced := new.toList.length } := by
  obtain ⟨binding, named, planned⟩ | ⟨violation, unnamed, -⟩ := plan.eq_of_shape shape found
  · have span : s.span value = .ok node.span := by rw [Store.span, found]
    obtain ⟨moved, done⟩ : ∃ moved, splice query inner ⟨value, binding⟩ s = .ok moved _ :=
      splice_run here nested proper span
    have ends := eliminate_accepted rules names planned done
    have flattened := flattened_spliced here nested proper value node binding
    refine ⟨spliced s query inner ⟨value, binding⟩ clauses rest node.span, _, newLet_of_letName named, ?_, ?_⟩
    · cases binding <;> exact flattened
    · cases binding <;> exact ends
  · obtain ⟨undeclared, nameless, -⟩ := letName_eq_error_iff.mp unnamed
    exact absurd ⟨undeclared, nameless⟩ nameable

/-- An elimination changes nothing exactly where the record has not the shape, it fails exactly where the
shape leaves the value without a name, and otherwise the clauses of the nested query take the place of the
first clause. -/
theorem eliminate_outcome {elemType : Option NodeId} (closed : s.Closed) (acyclic : s.Acyclic)
    (here : s.Layer query (.query (first :: rest))) (clause : s.Layer first (.fromClause t elemType inner))
    (nested : s.Layer inner (.query clauses)) :
    (Ends (eliminate rules names query t inner) s (.ok false) s 0 ↔
      ∀ declared value, ¬ RecordShape (isTransparent rules names) s t clauses declared value) ∧
    (∀ failure, Ends (eliminate rules names query t inner) s (.error failure) s 0 ↔
      ∃ value node, RecordShape (isTransparent rules names) s t clauses none value ∧
        s.node? value = some node ∧ Nameless node.kind ∧
        failure = .broken ⟨value, node.span, .unnamedInitializer node.kind.describe⟩) ∧
    ∀ declared value node, RecordShape (isTransparent rules names) s t clauses declared value →
      s.node? value = some node → ¬ (declared = none ∧ Nameless node.kind) →
      ∃ s' new, NewLet value node declared new ∧
        Flattened s s' query inner (clauses.dropLast ++ (new.toList.map fun _ => ⟨s.size⟩) ++ rest) new ∧
        Ends (eliminate rules names query t inner) s (.ok true) s'
          { eliminated := 1, letsIntroduced := new.toList.length } := by
  have proper : query ≠ inner :=
    acyclic.ne_grandchild here List.mem_cons_self clause (by simp [Kind.children])
  have closedInner : s.ClosedAt inner := closed.closedAt (index_lt_of_kind? nested)
  have plan := planSplice_cases names (isTransparent rules names) t closedInner nested
  -- A program ends in one way, so the conditions for the other two ends refute each of the first two.
  refine ⟨⟨?_, unrecognized_ends rules names plan⟩, fun failure => ⟨?_, ?_⟩,
    fun declared value node => named_ends rules names plan here nested proper⟩
  · intro ends declared value shape
    obtain ⟨node, found⟩ := shape.exists_node closedInner nested
    by_cases fails : declared = none ∧ Nameless node.kind
    · obtain ⟨rfl, unnamed⟩ := fails
      cases (ends.unique (nameless_ends rules names plan shape found unnamed)).1
    · obtain ⟨s', new, -, -, ends'⟩ :=
        named_ends rules names plan here nested proper shape found fails
      cases (ends.unique ends').1
  · intro ends
    by_cases unrecognized : ∀ declared value, ¬ RecordShape (isTransparent rules names) s t clauses declared value
    · cases (ends.unique (unrecognized_ends rules names plan unrecognized)).1
    · obtain ⟨declared, value, shape⟩ : ∃ declared value, RecordShape _ s t clauses declared value := by
        simpa using unrecognized
      obtain ⟨node, found⟩ := shape.exists_node closedInner nested
      by_cases fails : declared = none ∧ Nameless node.kind
      · obtain ⟨rfl, unnamed⟩ := fails
        cases (ends.unique (nameless_ends rules names plan shape found unnamed)).1
        exact ⟨value, node, shape, found, unnamed, rfl⟩
      · obtain ⟨s', new, -, -, ends'⟩ :=
        named_ends rules names plan here nested proper shape found fails
        cases (ends.unique ends').1
  · rintro ⟨value, node, shape, found, unnamed, rfl⟩
    exact nameless_ends rules names plan shape found unnamed

end

theorem eliminate_outcome_nested :
    let names : NameTable := ⟨#["", "xs", "T", "Cast", "x", "f", "y", "t"], ∅⟩
    let s := Layout.nested.store
    s.Closed ∧ s.Acyclic ∧ s.Layer ⟨16⟩ (.query [⟨12⟩, ⟨15⟩]) ∧ s.Layer ⟨12⟩ (.fromClause ⟨7⟩ none ⟨11⟩) ∧
      s.Layer ⟨11⟩ (.query [⟨4⟩, ⟨10⟩]) ∧
      Ends (eliminate ⟨{}, fun _ => false⟩ names ⟨16⟩ ⟨7⟩ ⟨11⟩) s (.ok false) s 0 ∧
      ∃ s', Flattened s s' ⟨16⟩ ⟨11⟩ [⟨4⟩, ⟨17⟩, ⟨15⟩] (some ⟨.letClause ⟨6⟩ ⟨7⟩, .none⟩) ∧
        Ends (eliminate ⟨{}, (· = "t")⟩ names ⟨16⟩ ⟨7⟩ ⟨11⟩) s (.ok true) s'
          { eliminated := 1, letsIntroduced := 1 } := by
  intro names s
  have ranked : s.Ranked NodeId.index := ranked_index (by decide)
  have here : s.Layer ⟨16⟩ (.query [⟨12⟩, ⟨15⟩]) := rfl
  have clause : s.Layer ⟨12⟩ (.fromClause ⟨7⟩ none ⟨11⟩) := rfl
  have nested : s.Layer ⟨11⟩ (.query [⟨4⟩, ⟨10⟩]) := rfl
  have outcome := fun rules => eliminate_outcome rules names ranked.closed ranked.acyclic here clause nested
  have kept : ∀ declared value, ¬ RecordShape (isTransparent ⟨{}, fun _ => false⟩ names) s ⟨7⟩ [⟨4⟩, ⟨10⟩] declared
      value := fun _ _ shape => by cases shape.transparent
  have projection : s.Layer ⟨10⟩ (.selectClause ⟨9⟩) := rfl
  have pair : s.Layer ⟨9⟩ (.record [⟨5⟩, ⟨8⟩]) := rfl
  have bare : s.Layer ⟨5⟩ (.ident ⟨4⟩ []) := rfl
  have declared : s.Layer ⟨8⟩ (.named ⟨6⟩ ⟨7⟩) := rfl
  have shape : RecordShape (isTransparent ⟨{}, (· = "t")⟩ names) s ⟨7⟩ [⟨4⟩, ⟨10⟩] (some ⟨6⟩) ⟨7⟩ :=
    ⟨by decide, ⟨10⟩, rfl, .shorthand projection pair bare declared⟩
  obtain ⟨s', new, added, flattened, ends⟩ :=
    (outcome ⟨{}, (· = "t")⟩).2.2 (some ⟨6⟩) ⟨7⟩ ⟨.member ⟨6⟩ ⟨5⟩ [], .none⟩ shape rfl (by simp)
  cases added with
  | reexport ident => cases ident
  | declared =>
    exact ⟨ranked.closed, ranked.acyclic, here, clause, nested, (outcome ⟨{}, fun _ => false⟩).1.mpr kept, s',
      flattened, ends⟩

end Normalize

end Comprehension
