import Comprehension.Proofs.CanonicalForm
import Comprehension.Proofs.Growth
import Mathlib.Algebra.BigOperators.Group.Finset.Piecewise
import Mathlib.Tactic.IntervalCases

/-! The account of a run. Every slot that a run changes is changed in one of a few ways, and for each of
these ways but one the run says how often it was taken. A slot may be changed by the work at several queries:
a query can get clauses and lose them, but a from clause is looked at only as the first clause of its own
query, and so it is changed at most once. -/

set_option autoImplicit false

namespace Comprehension.Normalize
open Store

/-! ### Changes of slots -/

def IsFrom (k : NodeKind) : Prop := ∃ x elemType source, k = .fromClause x elemType source

inductive Change : NodeKind → NodeKind → Prop where
  | kept (k : NodeKind) : Change k k
  | clauses {before after : List NodeId} (empty : before = [] → after = []) : Change (.query before) (.query after)
  | continued (x : Name) (elemType : Option NodeId) (source : NodeId) :
      Change (.fromClause x elemType source) (.continuation source x)
  | annotated (x : Name) {source base : NodeId} (elemType : NodeId) (moved : base ≠ source) :
      Change (.fromClause x none source) (.fromClause x (some elemType) base)
  | stripped (target : NodeId) (x : Name) (typeArgs : List NodeId) :
      Change (.member target x typeArgs) (.ident x typeArgs)

inductive Counter where
  | emptied
  | continued
  | annotated
  | stripped

def Counter.counts : Counter → NodeKind → NodeKind → Bool
  | .emptied, .query (_ :: _), .query [] => true
  | .continued, .fromClause _ _ _, .continuation _ _ => true
  | .annotated, .fromClause _ none _, .fromClause _ (some _) _ => true
  | .stripped, .member _ _ _, .ident _ _ => true
  | _, _, _ => false

def Counter.of (stats : Stats) : Counter → Nat
  | .emptied => stats.eliminated
  | .continued => stats.continuations
  | .annotated => stats.castsFolded
  | .stripped => stats.referencesStripped

def changed (s s' : Store) (c : Counter) : Finset Nat :=
  (Finset.range s.size).filter fun i => ∃ k ∈ s.kind? ⟨i⟩, ∃ k' ∈ s'.kind? ⟨i⟩, c.counts k k' = true

/-- Every slot in use stays or changes in an admitted way, and the counts are right. -/
structure Ledger (s s' : Store) (stats : Stats) : Prop where
  kinds : ∀ {id k}, s.kind? id = some k → ∃ k', s'.kind? id = some k' ∧ Change k k'
  counts : ∀ c : Counter, (changed s s' c).card = c.of stats

theorem Counter.counts_self (c : Counter) (k : NodeKind) : c.counts k k = false := by
  cases k with
  | query clauses => cases c <;> cases clauses <;> rfl
  | fromClause x elemType source => cases c <;> cases elemType <;> rfl
  | _ => cases c <;> rfl

theorem Counter.of_add (c : Counter) (a b : Stats) : c.of (a + b) = c.of a + c.of b := by
  cases c <;> rfl

/-- One change after the other, of which only one is one of a from clause. -/
theorem Change.trans {k k₁ k₂ : NodeKind} (first : Change k k₁) (second : Change k₁ k₂)
    (once : ∀ x elemType source, k = .fromClause x elemType source → k₁ = k ∨ k₂ = k₁) :
    Change k k₂ ∧ ∀ c : Counter, (c.counts k k₂).toNat = (c.counts k k₁).toNat + (c.counts k₁ k₂).toNat := by
  cases first with
  | kept => exact ⟨second, fun c => by rw [c.counts_self]; simp⟩
  | clauses empty =>
    cases second with
    | kept => exact ⟨.clauses empty, fun c => by rw [c.counts_self (.query _)]; rfl⟩
    | clauses empty' =>
      rename_i before between after
      refine ⟨.clauses (empty' ∘ empty), fun c => ?_⟩
      cases c with
      | emptied =>
        rcases before with _ | ⟨a, before⟩
        · rw [empty rfl, empty' (empty rfl)]
          rfl
        · rcases between with _ | ⟨b, between⟩
          · rw [empty' rfl]
            rfl
          · cases after <;> rfl
      | _ => rfl
  | continued x elemType source =>
    cases second
    exact ⟨.continued x elemType source, fun c => by rw [c.counts_self (.continuation _ _)]; rfl⟩
  | annotated x elemType moved =>
    -- A from clause changes in one of the two steps only.
    rcases once _ _ _ rfl with same | rfl
    · cases same
    · exact ⟨.annotated x elemType moved, fun c => by rw [c.counts_self (.fromClause _ _ _)]; rfl⟩
  | stripped target x typeArgs =>
    cases second
    exact ⟨.stripped target x typeArgs, fun c => by rw [c.counts_self (.ident _ _)]; rfl⟩

def Counter.weight (c : Counter) : Option NodeKind → Option NodeKind → Nat
  | some k, some k' => (c.counts k k').toNat
  | _, _ => 0

theorem card_changed (s s' : Store) (c : Counter) :
    (changed s s' c).card = ∑ i ∈ Finset.range s.size, c.weight (s.kind? ⟨i⟩) (s'.kind? ⟨i⟩) := by
  rw [changed, Finset.card_filter]
  refine Finset.sum_congr rfl fun i _ => ?_
  cases s.kind? ⟨i⟩ with
  | none => simp [Counter.weight]
  | some k =>
    cases s'.kind? ⟨i⟩ with
    | none => simp [Counter.weight]
    | some k' => cases known : c.counts k k' <;> simp [Counter.weight, known]

theorem exists_kind?_of_mem_range {s : Store} {i : Nat} (low : i ∈ Finset.range s.size) :
    ∃ k, s.kind? ⟨i⟩ = some k :=
  have bound : (NodeId.mk i).index < s.size := Finset.mem_range.mp low
  exists_kind?_of_lt bound

namespace Ledger

variable {s s₁ s₂ : Store} {gain gain' : Stats} {id : NodeId} {k k' : NodeKind}

theorem of_kept (kept : Keeps (fun _ => True) s s₁) (nothing : ∀ c : Counter, c.of gain = 0) : Ledger s s₁ gain where
  kinds {id k} here := ⟨k, kept id k trivial here, .kept k⟩
  counts c := by
    rw [nothing, card_changed]
    refine Finset.sum_eq_zero fun i low => ?_
    obtain ⟨k, here⟩ := exists_kind?_of_mem_range low
    rw [kept _ _ trivial here, here]
    simp [Counter.weight, c.counts_self]

theorem refl : Ledger s s 0 := of_kept .refl fun c => by cases c <;> rfl

theorem put (here : s.kind? id = some k) (change : Change k k')
    (counts : ∀ c : Counter, c.of gain = (c.counts k k').toNat) : Ledger s (s.put id k') gain where
  kinds {id' k₁} here' := by
    by_cases same : id = id'
    · subst same
      cases here.symm.trans here'
      exact ⟨k', kind?_put_self here k', change⟩
    · exact ⟨k₁, by rw [kind?_put_of_ne same, here'], .kept k₁⟩
  counts c := by
    -- All other slots are as before.
    rw [counts, card_changed, Finset.sum_eq_single id.index]
    · cases id
      rw [kind?_put_self here, here]
      rfl
    · intro i low other
      have different : id ≠ ⟨i⟩ := fun is => other (congrArg NodeId.index is).symm
      obtain ⟨k, here⟩ := exists_kind?_of_mem_range low
      rw [kind?_put_of_ne different, here]
      simp [Counter.weight, c.counts_self]
    · intro outside
      exact absurd (Finset.mem_range.mpr (index_lt_of_kind? here)) outside

theorem trans (first : Ledger s s₁ gain) (second : Ledger s₁ s₂ gain') (grows : s.Grows s₁)
    (once : ∀ {id x elemType source}, s.kind? id = some (.fromClause x elemType source) →
      s₁.kind? id = s.kind? id ∨ s₂.kind? id = s₁.kind? id) : Ledger s s₂ (gain + gain') := by
  have both {id : NodeId} {k : NodeKind} (here : s.kind? id = some k) :
      ∃ k₁ k₂, s₁.kind? id = some k₁ ∧ s₂.kind? id = some k₂ ∧ Change k k₂ ∧
        ∀ c : Counter, (c.counts k k₂).toNat = (c.counts k k₁).toNat + (c.counts k₁ k₂).toNat := by
    obtain ⟨k₁, here₁, change⟩ := first.kinds here
    obtain ⟨k₂, here₂, change'⟩ := second.kinds here₁
    refine ⟨k₁, k₂, here₁, here₂, change.trans change' ?_⟩
    rintro x elemType source rfl
    have known := once here
    rw [here, here₁, here₂] at known
    exact known.imp Option.some.inj Option.some.inj
  refine ⟨fun here => ?_, fun c => ?_⟩
  · obtain ⟨-, k₂, -, here₂, change, -⟩ := both here
    exact ⟨k₂, here₂, change⟩
  · rw [Counter.of_add, ← first.counts, ← second.counts, card_changed, card_changed, card_changed]
    -- The slots that are new in between hold let clauses, and these stay.
    have old : ∑ i ∈ Finset.range s.size, c.weight (s₁.kind? ⟨i⟩) (s₂.kind? ⟨i⟩) =
        ∑ i ∈ Finset.range s₁.size, c.weight (s₁.kind? ⟨i⟩) (s₂.kind? ⟨i⟩) := by
      refine Finset.sum_subset (Finset.range_subset_range.mpr grows.size_le) fun i low new => ?_
      rw [Finset.mem_range] at low new
      obtain ⟨x, value, here, -⟩ : ∃ x value, s₁.kind? ⟨i⟩ = some (.letClause x value) ∧ _ :=
        grows.newLets (Nat.le_of_not_lt new) low
      obtain ⟨k', here', change⟩ := second.kinds here
      cases change
      rw [here, here']
      simp [Counter.weight, c.counts_self]
    rw [← old, ← Finset.sum_add_distrib]
    refine Finset.sum_congr rfl fun i low => ?_
    obtain ⟨k, here⟩ := exists_kind?_of_mem_range low
    obtain ⟨k₁, k₂, here₁, here₂, -, adds⟩ := both here
    rw [here, here₁, here₂]
    exact adds c

/-- Changes after others that keep the from clauses. -/
theorem trans_of_keeps (first : Ledger s s₁ gain) (second : Ledger s₁ s₂ gain') (grows : s.Grows s₁)
    (kept : Keeps IsFrom s s₁) : Ledger s s₂ (gain + gain') :=
  first.trans second grows fun here => .inl ((kept _ _ ⟨_, _, _, rfl⟩ here).trans here.symm)

theorem eq_zero (ledger : Ledger s s gain) (noLets : gain.letsIntroduced = 0) : gain = 0 := by
  have none (c : Counter) : c.of gain = c.of 0 := (ledger.counts c).symm.trans (Ledger.refl.counts c)
  obtain ⟨eliminated, lets, stripped, continuations, casts⟩ := gain
  cases noLets
  cases none .emptied
  cases none .continued
  cases none .annotated
  cases none .stripped
  rfl

end Ledger

theorem Strips.ledger {s s' : Store} {count : Nat} (strips : Strips s s' count) :
    Ledger s s' { referencesStripped := count } := by
  induction strips with
  | nil => exact .refl
  | snoc before here ih =>
    have last : Ledger _ _ { referencesStripped := 1 } :=
      .put here (.stripped _ _ _) fun c => by cases c <;> rfl
    exact ih.trans_of_keeps last before.grows (before.keeps (by simp [IsFrom]))

/-! ### Queries that do not begin with a select clause -/

section
variable {ι ν : Type} [DecidableEq ν] {reading : Reading ν} {fresh m : ι} {k : Kind ν (Marked ι ν)}

theorem noSelect_layer (children : ∀ c ∈ k.children, FirstClauses NoSelect c)
    (plain : ∀ clause rest, k = .query (clause :: rest) → NoSelect clause) :
    ∀ clause rest, (action reading k).layer fresh k = .query (clause :: rest) → NoSelect clause := by
  intro clause rest is
  obtain ⟨asks, asked, known⟩ := exists_asks reading k
  rw [asked] at is
  cases known with
  | keep | stop => exact plain clause rest is
  | splice transparent shape named =>
    rename_i first im x elemType moved others select value declared name
    have inFirst := children _ List.mem_cons_self
    have inSource : FirstClauses NoSelect (.node im (.query (moved ++ [select]))) :=
      (firstClauses_node.mp inFirst).2 _ (by simp [Kind.children])
    obtain ⟨opens, -⟩ := firstClauses_node.mp inSource
    cases moved with
    | nil => exact (shape.not_noSelect (opens select [] rfl)).elim
    | cons c moved =>
      cases is
      exact opens clause (moved ++ [select]) rfl
  | continuation | annotate =>
    cases is
    simp [NoSelect]

theorem noSelect_settle (children : ∀ c ∈ k.children, FirstClauses NoSelect c)
    (plain : ∀ clause rest, k = .query (clause :: rest) → NoSelect clause) :
    FirstClauses NoSelect (settle reading fresh m k).1 :=
  all_settle (carries_firstClauses _) fresh m children (fun _ => FirstClauses.cleaned fun _ => NoSelect.cleaned)
    (noSelect_layer children plain)

end

section
variable {reading : Reading Name} {s s' : Store} {query id : NodeId} {ls ls' : List Layout}
  {result : Except Failure Unit} {gain : Stats}

def NoSelects : List Layout → List Layout → Prop :=
  List.Forall₂ fun l' l => FirstClauses NoSelect l' ∧ (NoSelect l → NoSelect l')

theorem NoSelects.clauses {m : NodeId} {cs ls : List Layout} (visited : NoSelects ls cs)
    (plain : FirstClauses NoSelect (.node m (.query cs))) : FirstClauses NoSelect (.node m (.query ls)) := by
  refine firstClauses_node.mpr ⟨?_, ((List.forall₂_and_left _ _).mp visited).1⟩
  rintro clause rest is
  cases is
  cases visited with
  | cons kept => exact kept.2 ((firstClauses_node.mp plain).1 _ _ rfl)

/-- A pass makes no select clause, and lets no query begin with one. -/
theorem Passes.noSelect (passes : Passes reading s ls result s' ls' gain)
    (plain : ∀ l ∈ ls, FirstClauses NoSelect l) :
    NoSelects ls' ls := by
  induction passes with
  | nil => exact .nil
  | cons _ _ first rest =>
    obtain ⟨plain, others⟩ := List.forall_mem_cons.mp plain
    exact .cons ((List.forall₂_cons.mp (first (by simpa using plain))).1) (rest others)
  | halted _ first =>
    obtain ⟨plain, others⟩ := List.forall_mem_cons.mp plain
    exact .cons ((List.forall₂_cons.mp (first (by simpa using plain))).1)
      (List.forall₂_same.mpr fun l member => ⟨others l member, fun other => other⟩)
  | @node s s₁ m k ls result gain _ stays below =>
    have visited := below (firstClauses_node.mp (plain _ List.mem_cons_self)).2
    refine .cons ⟨?_, ?_⟩ .nil
    · cases isQuery : k.isQuery with
      | true =>
        obtain ⟨cs, rfl⟩ := Kind.eq_query_of_isQuery isQuery
        exact NoSelects.clauses visited (plain _ List.mem_cons_self)
      | false =>
        rw [firstClauses_other (by simpa using isQuery), Kind.children_refill visited.length_eq]
        exact ((List.forall₂_and_left _ _).mp visited).1
    · intro other projection is
      cases k with
      | selectClause projection => exact other projection rfl
      | fromClause x elemType source => cases elemType <;> cases is
      | _ => cases is
  | @query s s₁ s₂ m cs ls result gain gain' _ step below =>
    have visited := below (firstClauses_node.mp (plain _ List.mem_cons_self)).2
    obtain ⟨top, inside⟩ := firstClauses_node.mp (NoSelects.clauses visited (plain _ List.mem_cons_self))
    refine .cons ⟨noSelect_settle inside top, ?_⟩ .nil
    intro other projection is
    have stays : (settle reading ⟨s₁.size⟩ m (.query ls)).1.kind.isQuery = true := isQuery_settle rfl
    rw [is] at stays
    cases stays

/-! ### The ledger of a pass -/

theorem Passes.root_kept (passes : Passes reading s ls result s' ls' gain) (forest : s.Forest ls) :
    ∀ l ∈ ls, l.kind.isQuery = false → s'.kind? l.mark = s.kind? l.mark := by
  -- A pass over the first of several layouts does not touch the slots of the others.
  have apart {s s₁ : Store} {l l' o : Layout} {ls : List Layout} (forest : s.Forest (l :: ls))
      (change : s.Rewrites [l] s₁ [l']) (member : o ∈ ls) : s₁.kind? o.mark = s.kind? o.mark := by
    have inside : o.mark ∈ ls.flatMap Marked.marks :=
      List.mem_flatMap.mpr ⟨o, member, Marked.mark_mem_marks o⟩
    refine change.kind?_frame (forest.tail.index_lt inside) fun first => ?_
    exact forest.disjoint (by simpa using first) inside
  induction passes with
  | nil => simp
  | cons first rest ih tail =>
    have change := first.rewrites forest.head
    have others := Rewrites.forest_tail forest change
    intro o member simple
    rcases List.mem_cons.mp member with rfl | member
    · rw [← ih forest.head o List.mem_cons_self simple]
      have old := forest.head.holds_single.index_lt (Marked.mark_mem_marks o)
      exact (rest.rewrites others).kind?_frame (Nat.lt_of_lt_of_le old change.grows)
        (forest.disjoint (Marked.mark_mem_marks o))
    · exact (tail others o member simple).trans (apart forest change member)
  | halted first ih =>
    intro o member simple
    rcases List.mem_cons.mp member with rfl | member
    · exact ih forest.head o List.mem_cons_self simple
    · exact apart forest (first.rewrites forest.head) member
  | node below stays ih =>
    intro o member simple
    cases List.mem_singleton.mp member
    have old := forest.holds_single.index_lt (Marked.mark_mem_marks _)
    exact (below.rewrites forest.children).kind?_frame old forest.mark_not_mem
  | query below step ih =>
    intro o member simple
    cases List.mem_singleton.mp member
    cases simple

/-- The work at a query leaves all slots alone but those of queries and accesses and that of its first
clause. -/
theorem QueryStep.keeps {k : NodeKind} {l : Kind Name Layout} (step : QueryStep reading s query result s' gain)
    (forest : s.Forest [.node query l]) (here : s.kind? id = some k) (simple : k.isQuery = false)
    (plain : ∀ target x typeArgs, k ≠ .member target x typeArgs)
    (later : ∀ rest, s.kind? query ≠ some (.query (id :: rest))) : s'.kind? id = some k := by
  cases step with
  | kept | stopped => exact here
  | continued n =>
    rw [kind?_put_of_ne ?_, here]
    rintro rfl
    exact later n.rest n.here
  | annotated atQuery clause =>
    rw [kind?_put_of_ne ?_, here]
    rintro rfl
    exact later _ atQuery
  | @eliminated e binding count s' named cleaned =>
    have flattened : Keeps (fun k => k.isQuery = false) s (e.flattened binding) :=
      e.keeps binding (e.toNestedFrom.source_ne forest) (by simp [Kind.isQuery])
    have strips := (stripReferences_strips cleaned).keeps
      (p := fun k => ∀ target x typeArgs, k ≠ .member target x typeArgs)
      fun target x typeArgs other => other target x typeArgs rfl
    exact strips id k plain (flattened id k simple here)
  | faulted e named stripped =>
    obtain ⟨count, s', done, -, -⟩ := e.flattens named forest
    cases stripped.symm.trans done

theorem CastsOn.base_ne {source base elemType : NodeId} {l : Layout} (forest : s.Forest [l]) (mark : l.mark = source)
    (shape : CastsOn s.Layer reading.cast source base elemType) : base ≠ source := by
  rw [← mark] at shape ⊢
  obtain ⟨base, type, casts, rfl, -⟩ := shape.of_map layerMap_holds forest.holds_single
  obtain ⟨sm, tm, y, rfl, -⟩ := casts.eq_call
  have nodup := forest.nodup_single
  rw [Marked.marks_node, List.nodup_cons] at nodup
  intro same
  refine nodup.1 (List.mem_flatMap.mpr ⟨_, List.mem_cons_self, ?_⟩)
  rw [show sm = base.mark from same.symm]
  simp [Marked.marks_node, Kind.children]

theorem Elimination.moved_ne_nil (e : Elimination reading s query) {k : Kind Name Layout}
    (holds : s.Holds (.node query k)) (plain : FirstClauses NoSelect (.node query k)) :
    e.inner.dropLast ≠ [] := by
  obtain ⟨type, inner, rest, value, same, marks, -, found, -⟩ := e.exists_layout holds
  obtain ⟨-, -, select, last, shape⟩ := recognized?_eq_some found
  obtain ⟨moved, rfl⟩ := List.getLast?_eq_some_iff.mp last
  rw [same] at plain
  cases moved with
  | nil =>
    have inFirst := (firstClauses_node.mp plain).2 _ List.mem_cons_self
    have inSource := (firstClauses_node.mp inFirst).2 (.node e.source (.query [select])) (by simp [Kind.children])
    exact absurd ((firstClauses_node.mp inSource).1 select [] rfl) shape.not_noSelect
  | cons c moved =>
    rw [← marks, List.map_append, List.map_singleton, List.dropLast_concat]
    simp

theorem Elimination.ledger (e : Elimination reading s query) (binding : Option Name) (proper : query ≠ e.source)
    (moved : e.inner.dropLast ≠ []) :
    Ledger s (e.flattened binding) { eliminated := 1, letsIntroduced := binding.toList.length } := by
  let emptied := s.put e.source (.query [])
  have filled : e.inner ≠ [] := fun empty => moved (by rw [empty]; rfl)
  have first : Ledger s emptied { eliminated := 1 } := by
    refine .put e.nested (.clauses fun _ => rfl) fun c => ?_
    obtain ⟨c₁, cs, is⟩ := List.exists_cons_of_ne_nil filled
    rw [is]
    cases c <;> rfl
  have firstGrows : s.Grows emptied := .put e.nested (by simp) _
  have firstKeeps : Keeps IsFrom s emptied := .put e.nested (by simp [IsFrom]) _
  have second : Ledger emptied (e.emptied binding) { letsIntroduced := binding.toList.length } :=
    .of_kept (.withLet _ _) fun c => by cases c <;> rfl
  have third : Ledger (e.emptied binding) (e.flattened binding) 0 := by
    refine .put (e.kind?_emptied binding proper) (.clauses (by simp)) fun c => ?_
    obtain ⟨c₁, cs, is⟩ := List.exists_cons_of_ne_nil moved
    rw [is]
    cases c <;> rfl
  have whole := (first.trans_of_keeps second firstGrows firstKeeps).trans_of_keeps third
    (firstGrows.trans (.withLet _ e.span_value)) (firstKeeps.trans (.withLet _ _))
  simpa [Stats.add_def] using whole

theorem QueryStep.ledger {k : Kind Name Layout} (step : QueryStep reading s query result s' gain)
    (forest : s.Forest [.node query k]) (plain : FirstClauses NoSelect (.node query k)) : Ledger s s' gain := by
  cases step with
  | kept | stopped => exact .refl
  | continued n => exact .put n.clause (.continued _ _ _) fun c => by cases n.elemType <;> cases c <;> rfl
  | annotated here clause enabled shape =>
    obtain ⟨e, source, ls, rfl, untyped, mark, -⟩ := exists_first_layout forest.holds_single here clause
    have inSource := forest.children.head.below (Marked.mem_subtrees_of_child (c := source) (by simp [Kind.children]))
    exact .put clause (.annotated _ _ (shape.base_ne inSource mark)) fun c => by cases c <;> rfl
  | @eliminated e binding count s' named cleaned =>
    have proper := e.toNestedFrom.source_ne forest
    have flattened := e.ledger binding proper (e.moved_ne_nil forest.holds_single plain)
    have kept : Keeps IsFrom s (e.flattened binding) := e.keeps binding proper (by simp [IsFrom])
    have whole := flattened.trans_of_keeps (stripReferences_strips cleaned).ledger (e.grows binding proper) kept
    simpa [Stats.add_def] using whole
  | faulted e named stripped =>
    obtain ⟨count, s', done, -, -⟩ := e.flattens named forest
    cases stripped.symm.trans done

theorem Passes.ledger (passes : Passes reading s ls result s' ls' gain) (forest : s.Forest ls)
    (plain : ∀ l ∈ ls, FirstClauses NoSelect l) : Ledger s s' gain := by
  induction passes with
  | nil => exact .refl
  | @cons s s₁ s₂ l l' ls ls' result gain gain' first rest ih tail =>
    have change := first.rewrites forest.head
    have others := Rewrites.forest_tail forest change
    obtain ⟨plain, plains⟩ := List.forall_mem_cons.mp plain
    refine (ih forest.head (by simpa using plain)).trans (tail others plains) (first.grows forest.head) ?_
    intro id x elemType source here
    have old := index_lt_of_kind? here
    -- A slot lies in one layout at most, so only one of the two passes changes it.
    by_cases inside : id ∈ l.marks
    · exact .inr ((rest.rewrites others).kind?_frame (Nat.lt_of_lt_of_le old change.grows) (forest.disjoint inside))
    · exact .inl (change.kind?_frame old (by simpa using inside))
  | halted first ih => exact ih forest.head (by simpa using (List.forall_mem_cons.mp plain).1)
  | node below stays ih =>
    exact ih forest.children (firstClauses_node.mp (plain _ List.mem_cons_self)).2
  | @query s s₁ s₂ m cs ls result gain gain' below step ih =>
    have children := below.rewrites forest.children
    have change := Rewrites.node forest children
    have inside := (firstClauses_node.mp (plain _ List.mem_cons_self)).2
    have inner := ih forest.children inside
    have visited := NoSelects.clauses (below.noSelect inside) (plain _ List.mem_cons_self)
    refine inner.trans (step.ledger change.forest visited) (below.grows forest.children) ?_
    intro id x elemType source here
    by_cases first : ∃ rest, s₁.kind? m = some (.query (id :: rest))
    · -- The first clause is not touched before the work at the query.
      obtain ⟨rest, first⟩ := first
      obtain ⟨ls', same, marks⟩ := exists_query_layout change.forest.holds_single first
      cases same
      rw [children.roots] at marks
      obtain ⟨c, cs', rfl, rfl, -⟩ := List.map_eq_cons_iff.mp marks
      refine .inl (below.root_kept forest.children c List.mem_cons_self ?_)
      obtain ⟨e, l, clause, -⟩ := exists_from_layout (forest.children.holds c List.mem_cons_self) here
      rw [clause]
      rfl
    · obtain ⟨k, here', changed⟩ := inner.kinds here
      rw [here']
      cases changed with
      | kept | continued | annotated =>
        exact .inr (step.keeps change.forest here' rfl (by simp) fun rest is => first ⟨rest, is⟩)

end

/-! ### Runs -/

section
variable (rules : Rules) (names : NameTable) {s : Store} {root : NodeId}

/-- What a successful run does to a store in which no query below the root begins with a select clause.
Whatever is not below the root stays, old slots keep their spans, and the new ones hold let clauses. Every
other change is one of the counted ones or one of the clauses of a query, and all counts are right; so a
run has changed something if and only if it says so. -/
theorem normalize_ledger {stats : Stats} (tree : s.TreeAt root) (plain : s.NoSelectAt root)
    (done : (normalize rules names s root).result = .ok stats) :
    let s' := (normalize rules names s root).store
    (∀ id : NodeId, id.index < s.size → (∀ path, s.follow root path ≠ some id) → s'.node? id = s.node? id) ∧
      s.Grows s' ∧ s'.size = s.size + stats.letsIntroduced ∧ Ledger s s' stats ∧
      (stats.changed = true ↔ s' ≠ s) := by
  intro s'
  obtain ⟨l, rfl, holds, nodup⟩ := treeAt_iff.mp tree
  have forest : s.Forest [l] := .single holds nodup
  obtain ⟨result, l', gain, passes, ended⟩ := normalize_passes rules names forest
  obtain rfl : gain = stats := by
    rw [done] at ended
    cases result with
    | ok => exact (Except.ok.inj ended).symm
    | error => cases ended
  have ledger : Ledger s s' gain := passes.ledger forest (by simpa using firstClauses_of_noSelectAt plain holds)
  refine ⟨fun id old outside => ?_, passes.grows forest, passes.trace.size, ledger, ?_⟩
  · exact (passes.rewrites forest).frame_follow holds old outside
  · rw [Stats.changed, decide_eq_true_iff]
    refine not_congr ⟨passes.trace.quiet, fun same => ?_⟩
    have size : s'.size = s.size + gain.letsIntroduced := passes.trace.size
    rw [same] at ledger size
    exact ledger.eq_zero (by omega)

theorem normalize_ledger_nested :
    let rules : Rules := ⟨{}, (· = "t")⟩
    let names : NameTable := ⟨#["", "xs", "T", "Cast", "x", "f", "y", "t"], ∅⟩
    let s := Layout.nested.store
    let s' := (normalize rules names s ⟨16⟩).store
    s.TreeAt ⟨16⟩ ∧ s.NoSelectAt ⟨16⟩ ∧ (normalize rules names s ⟨16⟩).result = .ok ⟨1, 1, 1, 0, 1⟩ ∧
      s'.size = s.size + 1 ∧ (changed s s' .emptied).card = 1 ∧ (changed s s' .stripped).card = 1 ∧
      (changed s s' .annotated).card = 1 ∧ (changed s s' .continued).card = 0 ∧ s' ≠ s := by
  intro rules names s s'
  have tree : s.TreeAt ⟨16⟩ := Layout.treeAt_store (by decide) (by decide)
  have plain : s.NoSelectAt ⟨16⟩ := by
    intro path query first rest projection found here select
    obtain ⟨i⟩ := query
    have bound : i < 17 := Store.index_lt_of_kind? here
    interval_cases i <;> cases here <;> cases select
  have done : (normalize rules names s ⟨16⟩).result = .ok ⟨1, 1, 1, 0, 1⟩ := by
    decide +kernel +zetaReduce
  obtain ⟨-, -, size, ledger, changes⟩ := normalize_ledger rules names tree plain done
  exact ⟨tree, plain, done, size, ledger.counts .emptied, ledger.counts .stripped, ledger.counts .annotated,
    ledger.counts .continued, changes.mp rfl⟩

end

end Comprehension.Normalize
