import Comprehension.Proofs.Ledger
import Comprehension.Proofs.ReferenceSafety
import Comprehension.Tree.Printer
import Mathlib.Data.Set.Card
import Mathlib.Tactic.IntervalCases

/-! Runs that flatten nothing. What such a run does to the first clause of a query can be read off the
store before the run, for every query by itself: the clauses below it are turned earlier, but into other
clauses only, and whether a clause is turned depends on no clause but itself. -/

set_option autoImplicit false

namespace Comprehension

/-! ### Chains of queries -/

def Tree.nest (t : Tree) (g : String) : Tree :=
  .node () (.query [.node () (.fromClause g none t), .node () (.selectClause (.node () (.ident g [])))])

def Tree.into (t : Tree) (g : String) : Tree :=
  .node () (.query [.node () (.continuation t g), .node () (.selectClause (.node () (.ident g [])))])

namespace Tree

theorem render_into (hidden : Char → Bool) (t : Tree) (g : String) :
    render hidden (t.into g) = render hidden t ++ " into " ++ g ++ " select " ++ g := by
  have spaced : " select " ++ g = " " ++ ("select " ++ g) := by
    rw [← String.append_assoc]
    rfl
  simp [into, render, part, Marked.fold_node, Kind.map, Kind.print, separated, Form.ofKind, Part.expr, Part.typeArgs,
    String.append_assoc, spaced]

theorem render_foldl_into (hidden : Char → Bool) (t : Tree) (gs : List String) :
    render hidden (gs.foldl into t) =
      gs.foldl (fun text g => text ++ " into " ++ g ++ " select " ++ g) (render hidden t) := by
  induction gs generalizing t with
  | nil => rfl
  | cons g gs ih => rw [List.foldl_cons, List.foldl_cons, ih, render_into]

theorem isQuery_foldl_nest (clauses : List Tree) (gs : List String) :
    (gs.foldl nest (.node () (.query clauses))).kind.isQuery = true := by
  induction gs generalizing clauses with
  | nil => rfl
  | cons g gs ih => exact ih _

end Tree

theorem Layout.exists_nest {names : NameTable} {l : Layout} {t : Tree} {g : String} (is : l.tree names = t.nest g) :
    ∃ m fm sm im x y source, l = .node m (.query [.node fm (.fromClause x none source),
      .node sm (.selectClause (.node im (.ident y [])))]) ∧ names.lookup x = g ∧ names.lookup y = g ∧
      Layout.tree names source = t := by
  -- Forgetting marks keeps the constructors, so the layout is taken apart layer by layer.
  obtain ⟨m, k⟩ := l
  rw [Layout.tree, Marked.map_node, Tree.nest] at is
  cases k <;> simp only [Kind.map, Marked.node.injEq, reduceCtorEq, and_false, Kind.query.injEq] at is
  obtain ⟨-, is⟩ := is
  obtain ⟨⟨fm, kf⟩, rest, rfl, first, rest'⟩ := List.map_eq_cons_iff.mp is
  obtain ⟨⟨sm, ks⟩, none, rfl, second, last⟩ := List.map_eq_cons_iff.mp rest'
  obtain rfl := List.map_eq_nil_iff.mp last
  rw [Marked.map_node] at first second
  cases kf <;> simp only [Kind.map, Marked.node.injEq, reduceCtorEq, and_false, Kind.fromClause.injEq] at first
  rename_i x elemType source
  obtain ⟨-, bound, untyped, below⟩ := first
  obtain rfl := Option.map_eq_none_iff.mp untyped
  cases ks <;> simp only [Kind.map, Marked.node.injEq, reduceCtorEq, and_false, Kind.selectClause.injEq] at second
  rename_i projection
  obtain ⟨im, kp⟩ := projection
  obtain ⟨-, second⟩ := second
  rw [Marked.map_node] at second
  cases kp <;> simp only [Kind.map, Marked.node.injEq, reduceCtorEq, and_false, Kind.ident.injEq,
    List.map_eq_nil_iff] at second
  rename_i y typeArgs
  obtain ⟨-, used, rfl⟩ := second
  exact ⟨m, fm, sm, im, x, y, source, rfl, bound, used, below⟩

namespace Normalize
open Store

/-! ### Turned clauses -/

/-- What becomes of the first clause of a query where nothing is flattened: over a query it becomes a
continuation, and over a cast it takes the element type. -/
inductive TurnsInto (reading : Reading Name) (s : Store) (query : NodeId) : Counter → NodeId → NodeKind → Prop where
  | continued (n : NestedFrom s query) : TurnsInto reading s query .continued n.first (.continuation n.source n.ident)
  | annotated {first source base elemType : NodeId} {rest : List NodeId} {x : Name}
      (here : s.Layer query (.query (first :: rest))) (clause : s.Layer first (.fromClause x none source))
      (enabled : reading.foldCasts = true) (shape : CastsOn s.Layer reading.cast source base elemType) :
      TurnsInto reading s query .annotated first (.fromClause x (some elemType) base)

def Fixed (k : NodeKind) : Prop := ¬ IsFrom k ∧ ∀ preceding x, k ≠ .continuation preceding x

section
variable {reading : Reading Name} {s s₁ s₂ : Store} {query first first' id : NodeId} {c c' : Counter}
  {k k' : NodeKind} {gain gain' : Stats} {queries queries' : List NodeId}

namespace TurnsInto

theorem here (turns : TurnsInto reading s query c first k) : ∃ rest, s.kind? query = some (.query (first :: rest)) := by
  cases turns with
  | continued n => exact ⟨n.rest, n.here⟩
  | annotated here => exact ⟨_, here⟩

theorem clause (turns : TurnsInto reading s query c first k) : ∃ k', IsFrom k' ∧ s.kind? first = some k' ∧ k' ≠ k := by
  cases turns with
  | continued n => exact ⟨_, ⟨_, _, _, rfl⟩, n.clause, by simp⟩
  | annotated here clause => exact ⟨_, ⟨_, _, _, rfl⟩, clause, by simp⟩

theorem not_fixed (turns : TurnsInto reading s query c first k) : ¬ Fixed k := by
  rintro ⟨notFrom, notContinued⟩
  cases turns with
  | continued => exact notContinued _ _ rfl
  | annotated => exact notFrom ⟨_, _, _, rfl⟩

theorem transfer (turns : TurnsInto reading s query c first k) (kept : Keeps Fixed s s₁)
    (same : s₁.kind? first = s.kind? first) : TurnsInto reading s₁ query c first k := by
  have fixed {id : NodeId} {k : NodeKind} (here : s.Layer id k) (is : Fixed k) : s₁.Layer id k := kept id k is here
  cases turns with
  | continued n =>
    exact .continued ⟨n.first, n.rest, n.ident, n.elemType, n.source, n.inner,
      fixed n.here (by simp [Fixed, IsFrom]), same.trans n.clause, fixed n.nested (by simp [Fixed, IsFrom])⟩
  | annotated here clause enabled shape =>
    obtain ⟨call, member, method⟩ := shape
    exact .annotated (fixed here (by simp [Fixed, IsFrom])) (same.trans clause) enabled
      ⟨fixed call (by simp [Fixed, IsFrom]), fixed member (by simp [Fixed, IsFrom]), method⟩

theorem not_annotated (n : NestedFrom s query) : ¬ TurnsInto reading s query .annotated first k := by
  obtain ⟨first, rest, x, elemType, source, inner, here, clause, nested⟩ := n
  rintro (_ | ⟨here', clause', -, ⟨call, -, -⟩⟩)
  cases Store.Layer.unique here here'
  cases Store.Layer.unique clause clause'
  cases Store.Layer.unique nested call

theorem unique (turns : TurnsInto reading s query c first k) (turns' : TurnsInto reading s query c' first' k') :
    c = c' ∧ first = first' ∧ k = k' := by
  cases turns with
  | continued n =>
    cases turns' with
    | continued n' =>
      cases NestedFrom.unique n n'
      exact ⟨rfl, rfl, rfl⟩
    | annotated here clause enabled shape =>
      exact absurd (.annotated here clause enabled shape) (not_annotated n)
  | annotated here clause enabled shape =>
    cases turns' with
    | continued n' => exact absurd (.annotated here clause enabled shape) (not_annotated n')
    | annotated here' clause' enabled' shape' =>
      obtain ⟨call, member, method⟩ := shape
      obtain ⟨call', member', method'⟩ := shape'
      cases Store.Layer.unique here here'
      cases Store.Layer.unique clause clause'
      cases Store.Layer.unique call call'
      cases Store.Layer.unique member member'
      exact ⟨rfl, rfl, rfl⟩

end TurnsInto

/-! ### Changes that are local -/

open Classical in
noncomputable def turnCount (reading : Reading Name) (s : Store) (c : Counter) (queries : List NodeId) : Nat :=
  queries.countP fun query => ∃ first k, TurnsInto reading s query c first k

/-- A change that turns the first clauses of these queries, says how many it has turned, and does nothing
else. -/
structure Local (reading : Reading Name) (s : Store) (queries : List NodeId) (s' : Store) (gain : Stats) : Prop where
  turned : ∀ query ∈ queries, ∀ {c first k}, TurnsInto reading s query c first k →
    s'.node? first = (s.node? first).map fun n => { n with kind := k }
  kept : ∀ id, (∀ query ∈ queries, ∀ c k, ¬ TurnsInto reading s query c id k) → s'.node? id = s.node? id
  noLets : gain.letsIntroduced = 0
  counts : ∀ c : Counter, c.of gain = turnCount reading s c queries

theorem turnCount_append : turnCount reading s c (queries ++ queries') =
    turnCount reading s c queries + turnCount reading s c queries' := by
  simp [turnCount, List.countP_append]

theorem turnCount_congr (same : ∀ query ∈ queries, ∀ first k,
    TurnsInto reading s query c first k ↔ TurnsInto reading s₁ query c first k) :
    turnCount reading s c queries = turnCount reading s₁ c queries := by
  refine List.countP_congr fun query member => ?_
  simp [same query member]

theorem turnCount_turned (turns : TurnsInto reading s query c first k) : turnCount reading s c [query] = 1 :=
  List.countP_eq_length.mpr (by simpa using ⟨first, k, turns⟩)

theorem turnCount_unturned (unturned : ∀ query ∈ queries, ∀ first k, ¬ TurnsInto reading s query c first k) :
    turnCount reading s c queries = 0 :=
  List.countP_eq_zero.mpr (by simpa using unturned)

namespace Local

theorem nil : Local reading s [] s 0 where
  turned := by simp
  kept _ _ := rfl
  noLets := rfl
  counts c := by cases c <;> rfl

theorem unturned (none : ∀ c first k, ¬ TurnsInto reading s query c first k) : Local reading s [query] s 0 where
  turned query' member c first k turns := by
    cases List.mem_singleton.mp member
    exact absurd turns (none c first k)
  kept _ _ := rfl
  noLets := rfl
  counts c := by
    rw [turnCount_unturned (by simpa using none c)]
    cases c <;> rfl

theorem put (turns : TurnsInto reading s query c first k) (noLets : gain.letsIntroduced = 0) (counted : c.of gain = 1)
    (alone : ∀ c', c' ≠ c → c'.of gain = 0) : Local reading s [query] (s.put first k) gain where
  turned query' member c' first' k' turns' := by
    cases List.mem_singleton.mp member
    obtain ⟨-, rfl, rfl⟩ := turns.unique turns'
    rw [node?_put, if_pos rfl]
  kept id other := by
    rw [node?_put, if_neg]
    rintro rfl
    exact other query List.mem_cons_self c k turns
  noLets := noLets
  counts c' := by
    by_cases same : c' = c
    · rw [same, counted, turnCount_turned turns]
    · rw [alone c' same, turnCount_unturned]
      intro query' member first' k' turns'
      cases List.mem_singleton.mp member
      exact same (turns'.unique turns).1

theorem perm (change : Local reading s queries s₁ gain) (same : queries.Perm queries') :
    Local reading s queries' s₁ gain where
  turned query member := change.turned query (same.mem_iff.mpr member)
  kept id other := change.kept id fun query member => other query (same.mem_iff.mp member)
  noLets := change.noLets
  counts c := (change.counts c).trans (same.countP_eq _)

theorem kind?_turned (change : Local reading s queries s₁ gain) (member : query ∈ queries)
    (turns : TurnsInto reading s query c first k) : s₁.kind? first = some k := by
  obtain ⟨k', -, found, -⟩ := turns.clause
  obtain ⟨n, found, -⟩ := Option.map_eq_some_iff.mp found
  rw [kind?, change.turned query member turns, found]
  rfl

theorem cases_slot (change : Local reading s queries s₁ gain) (id : NodeId) :
    s₁.node? id = s.node? id ∨ ∃ query ∈ queries, ∃ c k, TurnsInto reading s query c id k := by
  by_cases turned : ∃ query ∈ queries, ∃ c k, TurnsInto reading s query c id k
  · exact .inr turned
  · refine .inl (change.kept id fun query member c k turns => turned ⟨query, member, c, k, turns⟩)

theorem keeps (change : Local reading s queries s₁ gain) : Keeps (fun k => ¬ IsFrom k) s s₁ := by
  intro id k is here
  rcases change.cases_slot id with same | ⟨query, member, c, k', turns⟩
  · rw [kind?, same]
    exact here
  · obtain ⟨k', isFrom, found, -⟩ := turns.clause
    cases here.symm.trans found
    exact absurd isFrom is

theorem fixed (change : Local reading s queries s₁ gain) : Keeps Fixed s s₁ :=
  fun id k is here => change.keeps id k is.1 here

theorem fixed_back (change : Local reading s queries s₁ gain) : Keeps Fixed s₁ s := by
  intro id k is here
  rcases change.cases_slot id with same | ⟨query, member, c, k', turns⟩
  · rw [kind?, ← same]
    exact here
  · cases here.symm.trans (change.kind?_turned member turns)
    exact absurd is turns.not_fixed

/-- Two changes one after the other, if the first one leaves alone the clauses that the second one turns. -/
theorem trans (change : Local reading s queries s₁ gain) (next : Local reading s₁ queries' s₂ gain')
    (apart : ∀ query ∈ queries', ∀ c first k,
      TurnsInto reading s query c first k ∨ TurnsInto reading s₁ query c first k → s₁.node? first = s.node? first) :
    Local reading s (queries ++ queries') s₂ (gain + gain') := by
  have same (query : NodeId) (member : query ∈ queries') (c : Counter) (first : NodeId) (k : NodeKind) :
      TurnsInto reading s query c first k ↔ TurnsInto reading s₁ query c first k :=
    ⟨fun turns => turns.transfer change.fixed (congrArg _ (apart query member c first k (.inl turns))),
      fun turns => turns.transfer change.fixed_back (congrArg _ (apart query member c first k (.inr turns)).symm)⟩
  refine ⟨?_, ?_, ?_, fun c => ?_⟩
  · intro query member c first k turns
    rcases List.mem_append.mp member with member | member
    · rw [next.kept first, change.turned query member turns]
      intro query' member' c' k' turns'
      -- The slot has changed already, so the second change does not turn it.
      obtain ⟨old, -, found, other⟩ := turns.clause
      have turned := change.kind?_turned member turns
      rw [kind?, apart query' member' c' first k' (.inr turns')] at turned
      exact other (Option.some.inj (found.symm.trans turned))
    · rw [next.turned query member ((same _ member _ _ _).mp turns), apart query member c first k (.inl turns)]
  · intro id other
    rw [next.kept id, change.kept id]
    · exact fun query member => other query (List.mem_append_left _ member)
    · intro query member c k turns
      exact other query (List.mem_append_right _ member) c k ((same _ member _ _ _).mpr turns)
  · rw [Stats.add_def, change.noLets, next.noLets]
  · rw [c.of_add, change.counts, next.counts, turnCount_append]
    rw [turnCount_congr fun query member => same query member c]

end Local

/-! ### Local steps and passes -/

def Unflattened (reading : Reading Name) (s : Store) (queries : List NodeId) : Prop :=
  reading.eliminates = true → ∀ query ∈ queries, ∀ first preceding x,
    TurnsInto reading s query .continued first (.continuation preceding x) → reading.transparent x = false

theorem Unflattened.mono (free : Unflattened reading s queries) (fewer : queries' ⊆ queries) :
    Unflattened reading s queries' := fun enabled query member => free enabled query (fewer member)

theorem QueryStep.local {result : Except Failure Unit} (step : QueryStep reading s query result s₁ gain)
    (free : Unflattened reading s [query]) : result = .ok () ∧ Local reading s [query] s₁ gain := by
  -- Elimination would need a transparent name over a query.
  have none (e : Elimination reading s query) : False := by
    have other := free e.enabled query List.mem_cons_self _ _ _ (.continued e.toNestedFrom)
    rw [e.bound] at other
    cases other
  cases step with
  | kept here flat uncast =>
    refine ⟨rfl, .unturned fun c first k turns => ?_⟩
    cases turns with
    | continued n => exact flat n
    | annotated here' clause enabled shape =>
      cases Store.Layer.unique here here'
      exact uncast enabled rfl clause shape
  | continued n =>
    exact ⟨rfl, .put (.continued n) rfl rfl fun c other => by cases c <;> first | rfl | exact absurd rfl other⟩
  | annotated here clause enabled shape =>
    exact ⟨rfl, .put (.annotated here clause enabled shape) rfl rfl fun c other => by
      cases c <;> first | rfl | exact absurd rfl other⟩
  | stopped e | eliminated e | faulted e => exact (none e).elim

theorem TurnsInto.first_mem {ls : List Layout} (turns : TurnsInto reading s query c first k)
    (holds : ∀ l ∈ ls, s.Holds l) (member : query ∈ ls.flatMap Marked.marks) : first ∈ ls.flatMap Marked.marks := by
  obtain ⟨l, inside, member⟩ := List.mem_flatMap.mp member
  obtain ⟨⟨m, kn⟩, below, rfl⟩ := Marked.mem_marks.mp member
  obtain ⟨rest, here⟩ := turns.here
  obtain ⟨cs, rfl, marks⟩ := exists_query_layout ((holds l inside).of_mem below) here
  obtain ⟨c, others, rfl, rfl, -⟩ := List.map_eq_cons_iff.mp marks
  refine List.mem_flatMap.mpr ⟨l, inside, Marked.mem_marks.mpr ⟨c, ?_, rfl⟩⟩
  exact Marked.mem_subtrees_trans (Marked.mem_subtrees_of_child List.mem_cons_self) below

/-- Work below a query leaves its first clause alone if that is a from clause before or afterwards. -/
theorem Passes.first_kept {m : NodeId} {cs ls : List Layout} {result : Except Failure Unit}
    (below : Passes reading s cs result s₁ ls gain) (forest : s.Forest [.node m (.query cs)])
    (change : Local reading s (cs.flatMap Marked.marks) s₁ gain)
    (turns : TurnsInto reading s m c first k ∨ TurnsInto reading s₁ m c first k) : s₁.node? first = s.node? first := by
  have here : ∃ rest, s.kind? m = some (.query (first :: rest)) := by
    rcases turns with turns | turns
    · exact turns.here
    · obtain ⟨rest, here⟩ := turns.here
      exact ⟨rest, change.fixed_back _ _ (by simp [Fixed, IsFrom]) here⟩
  obtain ⟨rest, here⟩ := here
  obtain ⟨cs', same, marks⟩ := exists_query_layout forest.holds_single here
  cases same
  obtain ⟨l, others, rfl, rfl, -⟩ := List.map_eq_cons_iff.mp marks
  rcases change.cases_slot l.mark with same | ⟨query, member, c', k', turned⟩
  · exact same
  · -- The root of a layout keeps its kind unless it is a query.
    obtain ⟨old, ⟨x, elemType, source, rfl⟩, found, other⟩ := turned.clause
    obtain ⟨e, source, is, -⟩ := exists_from_layout (forest.children.holds l List.mem_cons_self) found
    have kept := below.root_kept forest.children l List.mem_cons_self (by rw [is]; rfl)
    rw [change.kind?_turned member turned, found] at kept
    exact absurd (Option.some.inj kept.symm) other

theorem Passes.local {ls ls' : List Layout} {result : Except Failure Unit}
    (passes : Passes reading s ls result s₁ ls' gain) (forest : s.Forest ls)
    (free : Unflattened reading s (ls.flatMap Marked.marks)) :
    result = .ok () ∧ Local reading s (ls.flatMap Marked.marks) s₁ gain := by
  induction passes with
  | nil => exact ⟨rfl, .nil⟩
  | @cons s s₁ s₂ l l' ls ls' result gain gain' first rest ih tail =>
    have rewrites := first.rewrites forest.head
    have others := Rewrites.forest_tail forest rewrites
    rw [List.flatMap_cons] at free
    obtain ⟨-, change⟩ := ih forest.head (free.mono (by simp))
    -- The clauses of queries in the other layouts lie in those layouts, which the first pass does not touch.
    have apart (query : NodeId) (member : query ∈ ls.flatMap Marked.marks) (c : Counter) (clause : NodeId)
        (k : NodeKind) (turns : TurnsInto reading s query c clause k ∨ TurnsInto reading s₁ query c clause k) :
        s₁.node? clause = s.node? clause := by
      have low : clause ∈ ls.flatMap Marked.marks := by
        rcases turns with turns | turns
        · exact turns.first_mem forest.tail.holds member
        · exact turns.first_mem others.holds member
      exact rewrites.frame clause (forest.tail.index_lt low) fun high =>
        forest.disjoint (by simpa using high) low
    obtain ⟨succeeds, next⟩ := tail others fun enabled query member clause preceding x turns =>
      free enabled query (List.mem_append_right _ member) clause preceding x
        (turns.transfer change.fixed_back (congrArg _ (apart query member _ _ _ (.inr turns)).symm))
    refine ⟨succeeds, ?_⟩
    simpa using change.trans next apart
  | halted first ih =>
    obtain ⟨succeeds, -⟩ := ih forest.head (free.mono (by simp))
    cases succeeds
  | @node s s₁ m k ls result gain below stays ih =>
    obtain ⟨succeeds, change⟩ := ih forest.children (free.mono (by simp [Marked.marks_node]))
    have none (c : Counter) (first : NodeId) (k' : NodeKind) : ¬ TurnsInto reading s m c first k' := fun turns => by
      obtain ⟨rest, here⟩ := turns.here
      obtain ⟨cs, rfl, -⟩ := exists_query_layout forest.holds_single here
      cases stays succeeds
    -- The node is no query, so adding it to the list changes nothing.
    have whole := (Local.unturned none).trans change fun _ _ _ _ _ _ => rfl
    rw [zero_add] at whole
    exact ⟨succeeds, by simpa [Marked.marks_node] using whole⟩
  | @query s s₁ s₂ m cs ls result gain gain' below step ih =>
    obtain ⟨-, change⟩ := ih forest.children (free.mono (by simp [Marked.marks_node, Kind.children]))
    -- The query comes after all below it, and still finds the first clause that was there at the start.
    have apart (c : Counter) (first : NodeId) (k : NodeKind)
        (turns : TurnsInto reading s m c first k ∨ TurnsInto reading s₁ m c first k) : s₁.node? first = s.node? first :=
      below.first_kept forest change turns
    obtain ⟨succeeds, work⟩ := step.local fun enabled query member first preceding x turns => by
      cases List.mem_singleton.mp member
      exact free enabled m (by simp [Marked.marks_node]) first preceding x
        (turns.transfer change.fixed_back (congrArg _ (apart _ _ _ (.inr turns)).symm))
    have whole := change.trans work fun query member => by
      cases List.mem_singleton.mp member
      exact apart
    refine ⟨succeeds, whole.perm ?_⟩
    simp [Marked.marks_node, Kind.children]

theorem turnCount_eq_ncard (nodup : queries.Nodup) : turnCount reading s c queries =
    {query | query ∈ queries ∧ ∃ first k, TurnsInto reading s query c first k}.ncard := by
  classical
  rw [turnCount, List.countP_eq_length_filter, ← List.toFinset_card_of_nodup (nodup.filter _),
    ← Set.ncard_coe_finset]
  congr 1
  ext query
  simp

end

/-! ### Runs -/

section
variable {reading : Reading Name} {s s' : Store} {gain : Stats} {names : NameTable} {whole : Layout}

theorem Local.link (change : Local reading s whole.marks s' gain) (holds : s.Holds whole) {m fm sm im : NodeId}
    {x y : Name} {source : Layout} (nested : source.kind.isQuery = true)
    (below : .node m (.query [.node fm (.fromClause x none source),
      .node sm (.selectClause (.node im (.ident y [])))]) ∈ whole.subtrees) :
    s'.kind? m = some (.query [fm, sm]) ∧ s'.kind? fm = some (.continuation source.mark x) ∧
      s'.Holds (.node sm (.selectClause (.node im (.ident y [])))) := by
  obtain ⟨here, children⟩ := holds_node.mp (holds.of_mem below)
  have clause := children _ List.mem_cons_self
  have select := children _ (List.mem_cons_of_mem _ List.mem_cons_self)
  obtain ⟨cs, is⟩ := Kind.eq_query_of_isQuery nested
  have found : s.kind? source.mark = some (.query (cs.map Marked.mark)) := by
    rw [(clause.of_mem (Marked.mem_subtrees_of_child (by simp [Kind.children]))).kind?, Marked.cell, is]
    rfl
  let n : NestedFrom s m := ⟨fm, [sm], x, none, source.mark, _, here, clause.kind?, found⟩
  refine ⟨change.keeps m _ (by simp [IsFrom]) here, ?_, fun o inside => change.keeps _ _ ?_ (select o inside)⟩
  · exact change.kind?_turned (Marked.mem_marks.mpr ⟨_, below, rfl⟩) (.continued n)
  · have either : o = .node sm (.selectClause (.node im (.ident y []))) ∨ o = .node im (.ident y []) := by
      simpa [Marked.subtrees_node, Kind.children] using inside
    rcases either with rfl | rfl <;> simp [IsFrom, Marked.cell, Kind.map]

/-- Where a change is local, a chain of nested queries becomes one of continuations of the innermost query. -/
theorem Local.chain (change : Local reading s whole.marks s' gain) (holds : s.Holds whole) {clauses : List Tree}
    (gs : List String) {l : Layout} (below : l ∈ whole.subtrees)
    (is : l.tree names = gs.foldl Tree.nest (.node () (.query clauses))) :
    ∃ inner, s.follow l.mark (List.replicate (2 * gs.length) 0) = some inner ∧
      s'.follow l.mark (List.replicate (2 * gs.length) 0) = some inner ∧
      ∀ n : Layout, n.mark = inner → s'.Holds n →
        ∃ l' : Layout, l'.mark = l.mark ∧ s'.Holds l' ∧ l'.tree names = gs.foldl Tree.into (n.tree names) := by
  -- From the outside in: the last name is bound by the outermost query.
  induction gs using List.reverseRecOn generalizing l with
  | nil => exact ⟨l.mark, rfl, rfl, fun n same holds => ⟨n, same, holds, rfl⟩⟩
  | append_singleton gs g ih =>
    rw [List.foldl_concat] at is
    obtain ⟨m, fm, sm, im, x, y, source, rfl, bound, used, inside⟩ := Layout.exists_nest is
    have low : source ∈ whole.subtrees :=
      Marked.mem_subtrees_trans (by simp [Marked.subtrees_node, Kind.children]) below
    obtain ⟨inner, before, after, built⟩ := ih low inside
    have nested : source.kind.isQuery = true := by
      have query := Tree.isQuery_foldl_nest clauses gs
      rwa [← inside, Layout.tree, Marked.kind_map, Kind.isQuery_map] at query
    obtain ⟨stays, turned, selected⟩ := change.link holds nested below
    obtain ⟨here, children⟩ := holds_node.mp (holds.of_mem below)
    have clause : s.kind? fm = some (.fromClause x none source.mark) := (children _ List.mem_cons_self).kind?
    have steps : List.replicate (2 * (gs ++ [g]).length) 0 = 0 :: 0 :: List.replicate (2 * gs.length) 0 := by
      rw [List.length_append, List.length_singleton, Nat.mul_add, List.replicate_succ, List.replicate_succ]
    rw [steps]
    refine ⟨inner, ?_, ?_, fun n same kept => ?_⟩
    · simpa [follow, here, clause, Kind.children, Kind.map] using before
    · simpa [follow, stays, turned, Kind.children] using after
    · obtain ⟨l', mark, holds', tree⟩ := built n same kept
      refine ⟨.node m (.query [.node fm (.continuation l' x), .node sm (.selectClause (.node im (.ident y [])))]),
        rfl, ?_, ?_⟩
      · refine holds_node.mpr ⟨stays, ?_⟩
        simp only [Kind.children, List.forall_mem_cons]
        refine ⟨holds_node.mpr ⟨?_, by simpa [Kind.children] using holds'⟩, selected, by simp⟩
        rw [turned, ← mark]
        rfl
      · rw [List.foldl_concat, ← tree]
        simp [Layout.tree, Tree.into, Marked.map_node, Kind.map, bound, used]

theorem Local.render_chain (change : Local reading s whole.marks s' gain) (holds : s.Holds whole) {l' : Layout}
    (holds' : s'.Holds l') (root : l'.mark = whole.mark) {clauses : List Tree} (gs : List String)
    (is : s.unfold names whole.mark = .ok (gs.foldl Tree.nest (.node () (.query clauses)))) :
    ∃ inner text, s.follow whole.mark (List.replicate (2 * gs.length) 0) = some inner ∧
      s'.render names inner = .ok text ∧ s'.render names whole.mark =
        .ok (gs.foldl (fun text g => text ++ " into " ++ g ++ " select " ++ g) text) := by
  rw [holds.unfold_tree] at is
  obtain ⟨inner, before, after, built⟩ := change.chain holds gs (Marked.self_mem_subtrees whole) (Except.ok.inj is)
  rw [← root] at after
  obtain ⟨n, low, mark⟩ := holds'.exists_follow_iff.mp ⟨_, after⟩
  have inside := holds'.of_mem low
  obtain ⟨final, top, held, tree⟩ := built n mark inside
  refine ⟨inner, Tree.render Text.isHidden (Layout.tree names n), before, ?_, ?_⟩
  · rw [← mark, Store.render, inside.unfold_tree]
    rfl
  · rw [← top, Store.render, held.unfold_tree, tree, ← Tree.render_foldl_into]
    rfl

end

def turnedAt (reading : Reading Name) (s : Store) (root : NodeId) (c : Counter) : Set NodeId :=
  {query | (∃ path, s.follow root path = some query) ∧ ∃ first k, TurnsInto reading s query c first k}

section
variable (rules : Rules) (names : NameTable) {s : Store} {root : NodeId}

theorem unflattened_of_plain {l : Layout} (holds : s.Holds l)
    (plain : rules.config.eliminateTransparent = true → ∀ path query, s.follow l.mark path = some query →
      ¬ s.BindsQuery (isTransparent rules names) query) : Unflattened (rules.numbered names) s l.marks := by
  intro enabled query member first preceding x turns
  obtain ⟨path, found⟩ := holds.exists_follow_iff.mpr (Marked.mem_marks.mp member)
  rw [← Bool.not_eq_true]
  intro bound
  cases turns with
  | continued n => exact plain enabled path query found ⟨_, _, _, _, _, _, n.here, n.clause, bound, n.nested⟩

/-- A run over a tree in which no query binds a transparent name to a query, or which is not to flatten such
queries, succeeds. It turns the first clauses of the queries below the root, each as the store before the run
says, leaves all other slots alone, and counts the queries that it has turned. So a chain of nested queries
becomes a chain of continuations. -/
theorem normalize_local (tree : s.TreeAt root)
    (plain : rules.config.eliminateTransparent = true → ∀ path query, s.follow root path = some query →
      ¬ s.BindsQuery (isTransparent rules names) query) :
    let reading := rules.numbered names
    let s' := (normalize rules names s root).store
    ∃ stats, (normalize rules names s root).result = .ok stats ∧
      stats.eliminated = 0 ∧ stats.letsIntroduced = 0 ∧ stats.referencesStripped = 0 ∧
      stats.continuations = (turnedAt reading s root .continued).ncard ∧
      stats.castsFolded = (turnedAt reading s root .annotated).ncard ∧
      s'.size = s.size ∧
      (∀ path query c first k, s.follow root path = some query → TurnsInto reading s query c first k →
        s'.node? first = (s.node? first).map fun n => { n with kind := k }) ∧
      (∀ id, (∀ path query c k, s.follow root path = some query → ¬ TurnsInto reading s query c id k) →
        s'.node? id = s.node? id) ∧
      ∀ (gs : List String) (clauses : List Tree),
        s.unfold names root = .ok (gs.foldl Tree.nest (.node () (.query clauses))) →
        ∃ inner text, s.follow root (List.replicate (2 * gs.length) 0) = some inner ∧
          s'.render names inner = .ok text ∧
          s'.render names root = .ok (gs.foldl (fun text g => text ++ " into " ++ g ++ " select " ++ g) text) := by
  intro reading s'
  obtain ⟨l, rfl, holds, nodup⟩ := treeAt_iff.mp tree
  have forest : s.Forest [l] := .single holds nodup
  have reached {query : NodeId} : (∃ path, s.follow l.mark path = some query) ↔ query ∈ l.marks :=
    holds.exists_follow_iff.trans Marked.mem_marks.symm
  obtain ⟨result, l', gain, passes, ended⟩ := normalize_passes rules names forest
  obtain ⟨rfl, change⟩ := passes.local forest (by simpa using unflattened_of_plain rules names holds plain)
  replace change : Local reading s l.marks s' gain := by simpa using change
  -- The marks of the layout are all different, so counting along it counts a set.
  have counts (c : Counter) : c.of gain = (turnedAt reading s l.mark c).ncard := by
    rw [change.counts, turnCount_eq_ncard nodup]
    simp only [turnedAt, reached]
  have none (c : Counter) (other : ∀ query first k, ¬ TurnsInto reading s query c first k) : c.of gain = 0 := by
    rw [change.counts, turnCount_unturned fun query _ => other query]
  have size : s'.size = s.size := by
    rw [passes.trace.size, change.noLets, Nat.add_zero]
  refine ⟨gain, ended, none .emptied nofun, change.noLets, none .stripped nofun, counts .continued,
    counts .annotated, size, ?_, ?_, ?_⟩
  · intro path query c first k found turns
    exact change.turned query (reached.mp ⟨path, found⟩) turns
  · intro id other
    refine change.kept id fun query member c k turns => ?_
    obtain ⟨path, found⟩ := reached.mpr member
    exact other path query c k found turns
  · have rewrites := passes.rewrites forest
    exact fun gs clauses is => change.render_chain holds rewrites.forest.holds_single rewrites.root gs is

/-- `from g in (from x in xs.Cast<T>() select x) select g`, where the texts of the names are, in the order of
their numbers: nothing, `xs`, `T`, `Cast`, `x` and `g`. -/
theorem normalize_local_cast :
    let rules : Rules := ⟨{}, (· = "t")⟩
    let names : NameTable := ⟨#["", "xs", "T", "Cast", "x", "g"], ∅⟩
    let l : Layout := .node ⟨11⟩ (.query [
      .node ⟨8⟩ (.fromClause ⟨5⟩ none (.node ⟨7⟩ (.query [
        .node ⟨4⟩ (.fromClause ⟨4⟩ none (.node ⟨3⟩ (.call (.node ⟨2⟩ (.member (.node ⟨0⟩ (.ident ⟨1⟩ [])) ⟨3⟩
          [.node ⟨1⟩ (.typeRef ⟨2⟩ [])])) []))),
        .node ⟨6⟩ (.selectClause (.node ⟨5⟩ (.ident ⟨4⟩ [])))]))),
      .node ⟨10⟩ (.selectClause (.node ⟨9⟩ (.ident ⟨5⟩ [])))])
    let s := l.store
    let s' := (normalize rules names s ⟨11⟩).store
    s.TreeAt ⟨11⟩ ∧ (∀ query, ¬ s.BindsQuery (isTransparent rules names) query) ∧
      (normalize rules names s ⟨11⟩).result = .ok ⟨0, 0, 0, 1, 1⟩ ∧
      s'.kind? ⟨8⟩ = some (.continuation ⟨7⟩ ⟨5⟩) ∧ s'.kind? ⟨4⟩ = some (.fromClause ⟨4⟩ (some ⟨1⟩) ⟨0⟩) ∧
      s'.kind? ⟨7⟩ = s.kind? ⟨7⟩ ∧ s'.render names ⟨11⟩ = .ok "from T x in xs select x into g select g" := by
  intro rules names l s s'
  have tree : s.TreeAt ⟨11⟩ := Layout.treeAt_store (by decide) (by decide)
  have plain : ∀ query, ¬ s.BindsQuery (isTransparent rules names) query := by
    rintro ⟨i⟩ ⟨first, rest, t, elemType, source, inner, here, clause, bound, nested⟩
    have known : i < 12 := Store.index_lt_of_kind? here
    interval_cases i <;> cases here <;> cases clause <;> cases bound
  have done : (normalize rules names s ⟨11⟩).result = .ok ⟨0, 0, 0, 1, 1⟩ := by decide +kernel +zetaReduce
  obtain ⟨-, -, -, -, -, -, -, -, turned, kept, chain⟩ :=
    normalize_local rules names tree fun _ _ query _ => plain query
  let nested : NestedFrom s ⟨11⟩ := ⟨⟨8⟩, [⟨10⟩], ⟨5⟩, none, ⟨7⟩, [⟨4⟩, ⟨6⟩], rfl, rfl, rfl⟩
  have outer := turned [] ⟨11⟩ _ _ _ rfl (.continued nested)
  have cast : TurnsInto (rules.numbered names) s ⟨7⟩ .annotated ⟨4⟩ (.fromClause ⟨4⟩ (some ⟨1⟩) ⟨0⟩) :=
    .annotated rfl rfl rfl (.call rfl rfl rfl)
  have inner := turned [0, 0] ⟨7⟩ _ _ _ rfl cast
  have same := kept ⟨7⟩ fun _ _ _ _ _ turns => by
    obtain ⟨-, ⟨_, _, _, rfl⟩, found, -⟩ := turns.clause
    cases found
  have first : s'.render names ⟨7⟩ = .ok "from T x in xs select x" := by decide +kernel +zetaReduce
  refine ⟨tree, plain, done, ?_, ?_, ?_, ?_⟩
  · exact congrArg (Option.map Node.kind) outer
  · exact congrArg (Option.map Node.kind) inner
  · exact congrArg (Option.map Node.kind) same
  · have unfolded : s.unfold names ⟨11⟩ = .ok (["g"].foldl Tree.nest (.node () (.query [
        .node () (.fromClause "x" none (.node () (.call (.node () (.member (.node () (.ident "xs" [])) "Cast"
          [.node () (.typeRef "T" [])])) []))),
        .node () (.selectClause (.node () (.ident "x" [])))]))) := by
      rfl
    obtain ⟨id, text, path, below, all⟩ := chain ["g"] _ unfolded
    cases path
    cases below.symm.trans first
    exact all

end

end Normalize

end Comprehension
