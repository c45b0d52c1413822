import Comprehension.Proofs.Collection

/-! The clauses of a tree in pre-order, before and after a run. A run deletes two clauses for every
nested query that it flattens and adds one clause for every let; all others keep their order. -/

set_option autoImplicit false

namespace Comprehension

namespace Marked

variable {ι ν : Type}

def clauseMarks (t : Marked ι ν) : List ι := (t.subtrees.filter (·.kind.isClause)).map mark

theorem clauseMarks_eq_collect (t : Marked ι ν) :
    t.clauseMarks = t.collect fun m k => if k.isClause then [m] else [] := by
  rw [clauseMarks, collect]
  induction t.subtrees with
  | nil => rfl
  | cons n ns ih =>
    rw [List.flatMap_cons, cell, Kind.isClause_map, ← ih]
    cases clause : n.kind.isClause <;> simp [clause]

theorem clauseMarks_node (m : ι) (k : Kind ν (Marked ι ν)) :
    (node m k).clauseMarks = (if k.isClause then [m] else []) ++ k.children.flatMap clauseMarks := by
  rw [clauseMarks_eq_collect, collect_node, Kind.isClause_map, ← funext clauseMarks_eq_collect]

theorem clauseMarks_query (m : ι) (clauses : List (Marked ι ν)) :
    (node m (.query clauses)).clauseMarks = clauses.flatMap clauseMarks := clauseMarks_node m _

theorem clauseMarks_sublist (t : Marked ι ν) : t.clauseMarks.Sublist t.marks := List.filter_sublist.map mark

theorem clauseMarks_map {κ : Type} (f : ι → κ) (t : Marked ι ν) :
    (t.map f id).clauseMarks = t.clauseMarks.map f := by
  simp only [clauseMarks, subtrees_map, List.filter_map, List.map_map, Function.comp_def, kind_map,
    Kind.isClause_map, mark_map]

end Marked

def Place.ofClauses : Place → Bool
  | .opening | .middle | .ending | .type => true
  | _ => false

namespace Store

def clauseOrder (s : Store) (root : NodeId) : Except Fault (List NodeId) :=
  (s.preorder root).map fun listed => listed.toList.filter fun id => (s.kind? id).any Kind.isClause

/-- A query below a root is nested as the source of a first clause with a transparent name, and ends with a
select clause. -/
def NestedBelow (s : Store) (transparent : Name → Bool) (root : NodeId) (first select : NodeId) : Prop :=
  ∃ path query rest x elemType source inner projection, s.follow root path = some query ∧
    s.kind? query = some (.query (first :: rest)) ∧ s.kind? first = some (.fromClause x elemType source) ∧
    transparent x = true ∧ s.kind? source = some (.query (inner ++ [select])) ∧
    s.kind? select = some (.selectClause projection)

theorem Holds.clauseOrder_eq {s : Store} {l : Layout} (holds : s.Holds l) (nodup : l.marks.Nodup) :
    s.clauseOrder l.mark = .ok l.clauseMarks := by
  have clauses : l.marks.filter (fun id => (s.kind? id).any Kind.isClause) = l.clauseMarks := by
    rw [Marked.clauseMarks, Marked.marks, List.filter_map]
    refine congrArg (List.map Marked.mark) (List.filter_congr fun n below => ?_)
    simp [holds n below, Marked.cell]
  rw [clauseOrder, holds.preorder_eq nodup]
  exact congrArg Except.ok clauses

end Store

namespace Normalize

variable {ι ν : Type}

/-! ### What is deleted -/

def Nested (reading : Reading ν) (t : Marked ι ν) (clauses : ι × ι) : Prop :=
  ∃ q ∈ t.subtrees, ∃ x elemType im inner projection rest, reading.transparent x = true ∧
    q.kind = .query (.node clauses.1 (.fromClause x elemType
      (.node im (.query (inner ++ [.node clauses.2 (.selectClause projection)])))) :: rest)

/-- One list is another one without two clauses for each nested query in a list, once new clauses are left
out; there are as many nested queries and new clauses as the counts say. -/
def Accounts [DecidableEq ι] (P : ι × ι → Prop) (fresh : ι) (before after : List ι) (stats : Stats) : Prop :=
  ∃ gone : List (ι × ι), gone.length = stats.eliminated ∧ (∀ pair ∈ gone, P pair) ∧
    (after.filter (· ≠ fresh)).Sublist before ∧
    before.Perm (gone.flatMap (fun pair => [pair.1, pair.2]) ++ after.filter (· ≠ fresh)) ∧
    after.count fresh = stats.letsIntroduced

namespace Accounts

variable [DecidableEq ι] {P Q : ι × ι → Prop} {fresh m : ι} {before before' after after' : List ι}
  {stats stats' : Stats}

theorem nil : Accounts P fresh [] [] 0 := ⟨[], rfl, by simp, by simp, by simp, rfl⟩

theorem imp (weaker : ∀ pair, P pair → Q pair) (accounts : Accounts P fresh before after stats) :
    Accounts Q fresh before after stats := by
  obtain ⟨gone, length, each, order, all, count⟩ := accounts
  exact ⟨gone, length, fun pair member => weaker pair (each pair member), order, all, count⟩

theorem append (first : Accounts P fresh before after stats) (second : Accounts P fresh before' after' stats') :
    Accounts P fresh (before ++ before') (after ++ after') (stats + stats') := by
  obtain ⟨gone, length, each, order, all, count⟩ := first
  obtain ⟨gone', length', each', order', all', count'⟩ := second
  refine ⟨gone ++ gone', ?_, ?_, ?_, ?_, ?_⟩
  · rw [List.length_append, length, length', Stats.add_def]
  · exact fun pair member => (List.mem_append.mp member).elim (each pair) (each' pair)
  · rw [List.filter_append]
    exact order.append order'
  · rw [List.filter_append, List.flatMap_append, List.perm_iff_count]
    intro a
    have here := all.count_eq a
    have there := all'.count_eq a
    simp only [List.count_append] at here there ⊢
    omega
  · rw [List.count_append, count, count', Stats.add_def]

theorem cons (old : m ≠ fresh) (accounts : Accounts P fresh before after stats) :
    Accounts P fresh (m :: before) (m :: after) stats := by
  obtain ⟨gone, length, each, order, all, count⟩ := accounts
  refine ⟨gone, length, each, ?_, ?_, ?_⟩
  · rw [List.filter_cons_of_pos (by simpa using old)]
    exact order.cons_cons m
  · rw [List.filter_cons_of_pos (by simpa using old)]
    exact (all.cons m).trans List.perm_middle.symm
  · rwa [List.count_cons_of_ne old]

theorem still {gain : Stats} (accounts : Accounts P fresh before after stats) (eliminated : gain.eliminated = 0)
    (lets : gain.letsIntroduced = 0) : Accounts P fresh before after (stats + gain) := by
  rw [Accounts, Stats.add_def, eliminated, lets]
  exact accounts

theorem splice {fm sm : ι} {left right : List ι} {n : Nat} {gain : Stats}
    (accounts : Accounts P fresh before (fm :: (left ++ sm :: right)) stats) (nested : P (fm, sm))
    (oldFirst : fm ≠ fresh) (oldLast : sm ≠ fresh) (eliminated : gain.eliminated = 1)
    (lets : gain.letsIntroduced = n) :
    Accounts P fresh before (left ++ List.replicate n fresh ++ right) (stats + gain) := by
  obtain ⟨gone, length, each, order, all, count⟩ := accounts
  have kept : (left ++ List.replicate n fresh ++ right).filter (· ≠ fresh) =
      left.filter (· ≠ fresh) ++ right.filter (· ≠ fresh) := by
    simp [List.filter_append]
  have whole : (fm :: (left ++ sm :: right)).filter (· ≠ fresh) =
      fm :: (left.filter (· ≠ fresh) ++ sm :: right.filter (· ≠ fresh)) := by
    simp [List.filter_append, oldFirst, oldLast]
  rw [whole] at order all
  refine ⟨(fm, sm) :: gone, ?_, ?_, ?_, ?_, ?_⟩
  · rw [List.length_cons, length, Stats.add_def, eliminated]
  · exact List.forall_mem_cons.mpr ⟨nested, each⟩
  · rw [kept]
    refine List.Sublist.trans ?_ order
    exact ((List.sublist_cons_self sm _).append_left _).cons fm
  · rw [kept]
    rw [List.perm_iff_count]
    intro a
    have here := all.count_eq a
    simp only [List.flatMap_cons, List.count_append, List.count_cons, List.count_nil] at here ⊢
    omega
  · rw [List.count_append, List.count_append, List.count_replicate_self]
    rw [List.count_cons_of_ne oldFirst, List.count_append, List.count_cons_of_ne oldLast] at count
    rw [Stats.add_def, lets]
    simp only
    omega

end Accounts

/-! ### Trees without clauses, and cleaned trees -/

section
variable {checked : Place → Bool} {reading : Reading ν} {m fresh : ι} {k : Kind ν (Marked ι ν)}

theorem Clauseless.clauseMarks {t : Marked ι ν} (clauseless : Clauseless t) : t.clauseMarks = [] := by
  rw [Marked.clauseMarks_eq_collect]
  exact clauseless.collect fun _ _ other => by simp [other]

theorem clauseMarks_cleaned (types : checked .type = true) (transparent : ν → Bool) {t : Marked ι ν}
    (sorted : t.WellSorted checked) : (cleaned transparent t).1.clauseMarks = t.clauseMarks := by
  rw [Marked.clauseMarks_eq_collect, Marked.clauseMarks_eq_collect]
  exact collect_cleaned (fun _ _ other => by simp [other]) types transparent sorted

theorem Selects.clauseMarks {select value : Marked ι ν} {declared : Option ν}
    (shape : Selects IsLayer select declared value) :
    ∃ projection, select.kind = .selectClause projection ∧ select.clauseMarks = select.mark :: value.clauseMarks := by
  rw [Marked.clauseMarks_eq_collect, Marked.clauseMarks_eq_collect]
  exact shape.collect fun _ _ other => by simp [other]

/-! ### The work at a query -/

theorem clauseMarks_from (types : checked .type = true) {x : ν} {elemType : Option (Marked ι ν)}
    {source : Marked ι ν} (sorted : (Marked.node m (.fromClause x elemType source)).WellSorted checked) :
    (Marked.node m (.fromClause x elemType source)).clauseMarks = m :: source.clauseMarks := by
  cases elemType with
  | none => simp [Marked.clauseMarks_node, Kind.isClause, Kind.children]
  | some elemType =>
    simp [Marked.clauseMarks_node, Kind.isClause, Kind.children, (clauseless_elemType types sorted).clauseMarks]

variable [DecidableEq ν]

/-- The work at a query keeps the clauses in order; where it flattens a nested query, the first clause and
the select clause of that query go, and there may be a new clause in the place of the latter. -/
theorem clauseMarks_settle (reading : Reading ν) (fresh : ι) (types : checked .type = true)
    (initializers : checked .expression = true → checked .initializer = true)
    (sorted : (Marked.node m k).WellSorted checked) :
    ((settle reading fresh m k).1.clauseMarks = (Marked.node m k).clauseMarks ∧
      (settle reading fresh m k).2.stats.eliminated = 0 ∧ (settle reading fresh m k).2.stats.letsIntroduced = 0) ∨
    ∃ fm x elemType im inner sm projection rest left right, reading.transparent x = true ∧
      k = .query (.node fm (.fromClause x elemType
        (.node im (.query (inner ++ [.node sm (.selectClause projection)])))) :: rest) ∧
      (Marked.node m k).clauseMarks = fm :: (left ++ sm :: right) ∧
      (settle reading fresh m k).1.clauseMarks =
        left ++ List.replicate (settle reading fresh m k).2.stats.letsIntroduced fresh ++ right ∧
      (settle reading fresh m k).2.stats.eliminated = 1 := by
  have layer := wellSorted_layer reading fresh initializers sorted
  obtain ⟨here, below⟩ := Marked.wellSorted_node.mp sorted
  obtain ⟨asks, asked, known⟩ := exists_asks reading k
  rw [asked] at layer
  rw [settle, asked]
  cases known with
  | keep | stop => exact .inl ⟨rfl, rfl, rfl⟩
  | continuation refused =>
    refine .inl ⟨?_, rfl, rfl⟩
    rw [perform, Marked.clauseMarks_query, Marked.clauseMarks_query, List.flatMap_cons, List.flatMap_cons,
      clauseMarks_from types (below _ List.mem_cons_self)]
    simp [Marked.clauseMarks_node, Kind.isClause, Kind.children]
  | annotate enabled shape =>
    refine .inl ⟨?_, rfl, rfl⟩
    obtain ⟨sm, tm, y, rfl, -⟩ := shape.eq_call
    have annotated := (Marked.wellSorted_node.mp layer).2 _ List.mem_cons_self
    rw [perform, Marked.clauseMarks_query, Marked.clauseMarks_query, List.flatMap_cons, List.flatMap_cons,
      clauseMarks_from types (below _ List.mem_cons_self), clauseMarks_from types annotated]
    simp [Marked.clauseMarks_node, Kind.isClause, Kind.children, (clauseless_elemType types annotated).clauseMarks]
  | splice transparent shape named =>
    rename_i fm im x elemType moved rest select value declared name
    have inClause := (Marked.wellSorted_node.mp (below _ List.mem_cons_self)).2
    have inSource := (Marked.wellSorted_node.mp
      (inClause (.node im (.query (moved ++ [select]))) (by simp [Kind.children]))).2
    have inValue := (inSource select (by simp [Kind.children])).of_mem shape.mem_subtrees
    obtain ⟨projection, is, marks⟩ := shape.clauseMarks
    obtain ⟨sm, sk⟩ := select
    cases is
    -- A value without a let clause is an identifier, and there are no clauses in it.
    have lets : (letClauses fresh (name.map (·, value))).flatMap Marked.clauseMarks =
        List.replicate (name.map (·, value)).toList.length fresh ++ value.clauseMarks := by
      cases name with
      | some y => simp [letClauses, Marked.clauseMarks_node, Kind.isClause, Kind.children]
      | none => simp [letClauses, (clauseless_of_letName types inValue named).clauseMarks]
    refine .inr ⟨fm, x, elemType, im, moved, sm, projection, rest, moved.flatMap Marked.clauseMarks,
      value.clauseMarks ++ rest.flatMap Marked.clauseMarks, transparent, rfl, ?_, ?_, rfl⟩
    · rw [Marked.clauseMarks_query, List.flatMap_cons, clauseMarks_from types (below _ List.mem_cons_self),
        Marked.clauseMarks_query, List.flatMap_append, List.flatMap_singleton, marks]
      simp
    · refine (clauseMarks_cleaned types reading.transparent layer).trans ?_
      rw [Action.layer, Marked.clauseMarks_query, List.flatMap_append, List.flatMap_append, lets]
      simp only [List.append_assoc]
      rfl

/-! ### New clauses -/

def FreshLets (fresh : ι) (t : Marked ι ν) : Prop :=
  ∀ n ∈ t.subtrees, n.mark = fresh → ∃ x value, n.kind = .letClause x value

omit [DecidableEq ν] in
theorem freshLets_node : FreshLets fresh (.node m k) ↔
    (m = fresh → ∃ x value, k = .letClause x value) ∧ ∀ c ∈ k.children, FreshLets fresh c := by
  constructor
  · intro all
    refine ⟨all _ (Marked.self_mem_subtrees _), fun c child n below => ?_⟩
    exact all n (Marked.mem_subtrees_node.mpr (.inr ⟨c, child, below⟩))
  · rintro ⟨here, children⟩ n below
    rcases Marked.mem_subtrees_node.mp below with rfl | ⟨c, child, below⟩
    · exact here
    · exact children c child n below

omit [DecidableEq ν] in
theorem FreshLets.of_mem {t n : Marked ι ν} (all : FreshLets fresh t) (below : n ∈ t.subtrees) :
    FreshLets fresh n := fun o low => all o (Marked.mem_subtrees_trans low below)

omit [DecidableEq ν] in
theorem FreshLets.ne (all : FreshLets fresh (.node m k)) (other : ∀ x value, k ≠ .letClause x value) :
    m ≠ fresh := by
  rintro rfl
  obtain ⟨x, value, is⟩ := (freshLets_node.mp all).1 rfl
  exact other x value is

omit [DecidableEq ν] in
theorem FreshLets.cleaned (transparent : ν → Bool) {t : Marked ι ν} (all : FreshLets fresh t) :
    FreshLets fresh (cleaned transparent t).1 := by
  induction t using Marked.induction with
  | step m k ih =>
    obtain ⟨here, below⟩ := freshLets_node.mp all
    have children : ∀ c ∈ k.children, FreshLets fresh (Normalize.cleaned transparent c).1 :=
      fun c child => ih c child (below c child)
    rw [← Marked.node_mark_kind (Normalize.cleaned transparent (.node m k)).1, mark_cleaned, Marked.mark_node]
    rcases kind_cleaned transparent (.node m k) with same | ⟨target, x, typeArgs, access, ident⟩
    · rw [same]
      refine freshLets_node.mpr ⟨fun is => ?_, ?_⟩
      · obtain ⟨x, value, rfl⟩ := here is
        exact ⟨x, _, rfl⟩
      · simpa [Kind.children_map] using children
    · cases access
      rw [ident]
      refine freshLets_node.mpr ⟨fun is => ?_, ?_⟩
      · obtain ⟨x, value, impossible⟩ := here is
        cases impossible
      · simp only [Kind.children, List.mem_map]
        rintro _ ⟨c, member, rfl⟩
        exact children c (List.mem_cons_of_mem _ member)

theorem FreshLets.settle (all : FreshLets fresh (.node m k)) : FreshLets fresh (settle reading fresh m k).1 := by
  obtain ⟨here, below⟩ := freshLets_node.mp all
  obtain ⟨asks, asked, known⟩ := exists_asks reading k
  rw [Normalize.settle, asked]
  have query {clauses : List (Marked ι ν)} (old : m ≠ fresh) (each : ∀ c ∈ clauses, FreshLets fresh c) :
      FreshLets fresh (.node m (.query clauses)) := freshLets_node.mpr ⟨fun is => absurd is old, each⟩
  cases known with
  | keep | stop => exact all
  | continuation refused =>
    have inFirst := below _ List.mem_cons_self
    refine query (all.ne (by simp)) (List.forall_mem_cons.mpr ⟨?_, fun c rest => below c (.tail _ rest)⟩)
    refine freshLets_node.mpr ⟨fun is => absurd is (inFirst.ne (by simp)), ?_⟩
    simp only [Kind.children, List.mem_singleton, forall_eq]
    exact inFirst.of_mem (Marked.mem_subtrees_of_child (by simp [Kind.children]))
  | annotate enabled shape =>
    have inFirst := below _ List.mem_cons_self
    have inSource := inFirst.of_mem (Marked.mem_subtrees_of_child List.mem_cons_self)
    refine query (all.ne (by simp)) (List.forall_mem_cons.mpr ⟨?_, fun c rest => below c (.tail _ rest)⟩)
    refine freshLets_node.mpr ⟨fun is => absurd is (inFirst.ne (by simp)), ?_⟩
    simpa [Kind.children] using ⟨inSource.of_mem shape.elemType_mem, inSource.of_mem shape.base_mem⟩
  | splice transparent shape named =>
    rename_i fm im x elemType moved rest select value declared name
    have inFirst := below _ List.mem_cons_self
    have inSource : FreshLets fresh (.node im (.query (moved ++ [select]))) :=
      inFirst.of_mem (Marked.mem_subtrees_of_child (by simp [Kind.children]))
    obtain ⟨-, inner⟩ := freshLets_node.mp inSource
    refine FreshLets.cleaned _ (query (all.ne (by simp)) fun c member => ?_)
    rcases List.mem_append.mp member with member | member
    · rcases List.mem_append.mp member with member | member
      · exact inner c (List.mem_append_left _ member)
      · cases name with
        | none => cases member
        | some y =>
          obtain rfl := List.mem_singleton.mp member
          refine freshLets_node.mpr ⟨fun _ => ⟨y, value, rfl⟩, ?_⟩
          simp only [Kind.children, List.mem_singleton, forall_eq]
          exact (inner select (by simp [Kind.children])).of_mem shape.mem_subtrees
    · exact below c (List.mem_cons_of_mem _ member)

theorem freshLets_visited (old : m ≠ fresh) (each : ∀ c ∈ k.children, FreshLets fresh (normal reading fresh c)) :
    FreshLets fresh (.node m (k.map id (normal reading fresh))) := by
  refine freshLets_node.mpr ⟨fun is => absurd is old, ?_⟩
  simpa only [Kind.children_map, List.forall_mem_map] using each

theorem freshLets_normal {t : Marked ι ν} (old : fresh ∉ t.marks) (succeeds : Succeeds reading fresh t) :
    FreshLets fresh (normal reading fresh t) := by
  induction t using Marked.induction with
  | step m k ih =>
    obtain ⟨children, -⟩ := succeeds_node_iff.mp succeeds
    rw [Marked.marks_node, List.mem_cons, List.mem_flatMap, not_or] at old
    rw [normal_node children]
    exact (freshLets_visited (Ne.symm old.1) fun c child =>
      ih c child (fun member => old.2 ⟨c, child, member⟩) (children c child)).settle

/-! ### Whole visits -/

theorem mark_settle : (settle reading fresh m k).1.mark = m := by
  rw [settle]
  cases action reading k with
  | splice moved binding rest =>
    exact mark_cleaned reading.transparent (.node m (.query (moved ++ letClauses fresh binding ++ rest)))
  | _ => rfl

theorem mark_normal {t : Marked ι ν} (succeeds : Succeeds reading fresh t) :
    (normal reading fresh t).mark = t.mark := by
  obtain ⟨m, k⟩ := t
  rw [normal_node (succeeds_node_iff.mp succeeds).1, mark_settle, Marked.mark_node]

theorem select_of_visited {last last' projection : Marked ι ν} (succeeds : Succeeds reading fresh last)
    (either : last' = normal reading fresh last ∨
      last' = (cleaned reading.transparent (normal reading fresh last)).1)
    (is : last'.kind = .selectClause projection) :
    last'.mark = last.mark ∧ ∃ projection', last.kind = .selectClause projection' := by
  have visited : (normal reading fresh last).mark = last'.mark ∧
      ∃ projection', (normal reading fresh last).kind = .selectClause projection' := by
    rcases either with rfl | rfl
    · exact ⟨rfl, _, is⟩
    · have layer := kind_of_cleaned is (by simp)
      refine ⟨(mark_cleaned _ _).symm, ?_⟩
      generalize (normal reading fresh last).kind = k at layer
      cases k <;> simp only [Kind.map, reduceCtorEq] at layer
      exact ⟨_, rfl⟩
  obtain ⟨place, projection', is⟩ := visited
  have layer := kind_of_normal succeeds is rfl
  refine ⟨by rw [← place, mark_normal succeeds], ?_⟩
  generalize last.kind = k at layer
  cases k <;> simp only [Kind.map, reduceCtorEq] at layer
  exact ⟨_, rfl⟩

/-- A nested query that is flattened was one before the visit. -/
theorem nested_of_visited {fm im sm : ι} {x : ν} {elemType : Option (Marked ι ν)} {inner rest : List (Marked ι ν)}
    {projection : Marked ι ν} (sorted : (Marked.node m k).WellSorted checked)
    (children : ∀ c ∈ k.children, Succeeds reading fresh c) (transparent : reading.transparent x = true)
    (is : k.map id (normal reading fresh) = .query (.node fm (.fromClause x elemType
      (.node im (.query (inner ++ [.node sm (.selectClause projection)])))) :: rest)) :
    Nested reading (.node m k) (fm, sm) := by
  cases k <;> simp only [Kind.map, reduceCtorEq, Kind.query.injEq] at is
  obtain ⟨⟨cm, ck⟩, others, rfl, first, -⟩ := List.map_eq_cons_iff.mp is
  have inClause : Succeeds reading fresh (.node cm ck) := children _ List.mem_cons_self
  obtain rfl : cm = fm := by
    rw [← Marked.mark_node cm ck, ← mark_normal inClause, first, Marked.mark_node]
  have layer := kind_of_normal inClause (congrArg Marked.kind first) rfl
  cases ck <;> simp only [Marked.kind_node, Kind.map, reduceCtorEq, Kind.fromClause.injEq] at layer
  obtain ⟨rfl, -, nested⟩ := layer
  rename_i y typed source
  have inSource : Succeeds reading fresh source := inClause.child (by simp [Kind.children])
  have low : source ∈ (Marked.node m (.query (.node cm (.fromClause y typed source) :: others))).subtrees :=
    Marked.mem_subtrees_trans (Marked.mem_subtrees_of_child (by simp [Kind.children]))
      (Marked.mem_subtrees_of_child List.mem_cons_self)
  obtain ⟨clauses, query⟩ := Kind.eq_query_of_isQuery (k := source.kind) (by
    rw [← isQuery_normal inSource, nested]
    rfl)
  obtain ⟨qm, qk⟩ := source
  cases query
  -- By the grammar the nested query has a first clause besides the last one.
  obtain ⟨opening, between, last, rfl, -⟩ :=
    Kind.arranged_query.mp (Marked.wellSorted_node.mp (sorted.of_mem low)).1
  obtain ⟨front, last', visited, either⟩ := normal_query_concat inSource
  obtain ⟨-, rfl⟩ : inner = front ∧ _ = last' := by
    have same := visited.symm.trans nested
    simp only [Marked.node.injEq, Kind.query.injEq] at same
    exact List.concat_inj.mp (by simpa using same.2.symm)
  obtain ⟨place, projection', select⟩ :=
    select_of_visited (inSource.child (by simp [Kind.children])) either rfl
  obtain ⟨lm, lk⟩ := last
  cases place
  cases select
  exact ⟨_, Marked.self_mem_subtrees _, y, typed, qm, opening :: between, projection', others, transparent, rfl⟩

theorem accounts_children [DecidableEq ι] {P : ι × ι → Prop} {l : List (Marked ι ν)}
    (each : ∀ c ∈ l, Accounts P fresh c.clauseMarks (normal reading fresh c).clauseMarks (tally reading fresh c)) :
    Accounts P fresh (l.flatMap Marked.clauseMarks) ((l.map (normal reading fresh)).flatMap Marked.clauseMarks)
      (l.map (tally reading fresh)).sum := by
  induction l with
  | nil => exact .nil
  | cons c l ih =>
    simp only [List.map_cons, List.flatMap_cons, List.sum_cons]
    exact .append (each c List.mem_cons_self) (ih fun d member => each d (List.mem_cons_of_mem _ member))

theorem accounts_normal [DecidableEq ι] (types : checked .type = true)
    (initializers : checked .expression = true → checked .initializer = true) {t : Marked ι ν}
    (sorted : t.WellSorted checked) (succeeds : Succeeds reading fresh t) (old : fresh ∉ t.marks) :
    Accounts (Nested reading t) fresh t.clauseMarks (normal reading fresh t).clauseMarks
      (tally reading fresh t) := by
  induction t using Marked.induction with
  | step m k ih =>
    obtain ⟨children, -⟩ := succeeds_node_iff.mp succeeds
    obtain ⟨-, below⟩ := Marked.wellSorted_node.mp sorted
    rw [Marked.marks_node, List.mem_cons, List.mem_flatMap, not_or] at old
    have visited : Accounts (Nested reading (.node m k)) fresh (Marked.node m k).clauseMarks
        (Marked.node m (k.map id (normal reading fresh))).clauseMarks
        (k.children.map (tally reading fresh)).sum := by
      rw [Marked.clauseMarks_node, Marked.clauseMarks_node, Kind.isClause_map, Kind.children_map]
      have each := accounts_children (P := Nested reading (.node m k)) fun c child =>
        (ih c child (below c child) (children c child) fun member => old.2 ⟨c, child, member⟩).imp
          fun pair ⟨q, low, nested⟩ => ⟨q, Marked.mem_subtrees_node.mpr (.inr ⟨c, child, low⟩), nested⟩
      cases k.isClause with
      | false => exact each
      | true => exact each.cons (Ne.symm old.1)
    rw [normal_node children, tally_node children]
    rcases clauseMarks_settle reading fresh types initializers
      (wellSorted_visited initializers sorted) with ⟨same, eliminated, lets⟩ |
        ⟨fm, x, elemType, im, inner, sm, projection, rest, left, right, transparent, is, before, after, eliminated⟩
    · rw [same]
      exact visited.still eliminated lets
    · rw [after]
      rw [before] at visited
      -- The two clauses are old: a new one would be a let clause.
      have lets : FreshLets fresh (.node m (k.map id (normal reading fresh))) :=
        freshLets_visited (Ne.symm old.1) fun c child =>
          freshLets_normal (fun member => old.2 ⟨c, child, member⟩) (children c child)
      rw [is] at lets
      have inFirst := (freshLets_node.mp lets).2 _ List.mem_cons_self
      have inSource : FreshLets fresh (.node im (.query (inner ++ [.node sm (.selectClause projection)]))) :=
        (freshLets_node.mp inFirst).2 _ (by simp [Kind.children])
      have inLast : FreshLets fresh (.node sm (.selectClause projection)) :=
        (freshLets_node.mp inSource).2 _ (by simp [Kind.children])
      exact visited.splice (nested_of_visited sorted children transparent is) (inFirst.ne (by simp))
        (inLast.ne (by simp)) eliminated rfl

end

/-! ### Runs -/

section
open Store

theorem Nested.below {reading : Reading Name} {s : Store} {l : Layout} (holds : s.Holds l) {pair : NodeId × NodeId}
    (nested : Nested reading l pair) : s.NestedBelow reading.transparent l.mark pair.1 pair.2 := by
  obtain ⟨q, below, x, elemType, im, inner, projection, rest, transparent, is⟩ := nested
  obtain ⟨path, found⟩ := holds.exists_follow_iff.mpr ⟨q, below, rfl⟩
  have inQuery := holds.of_mem below
  obtain ⟨qm, qk⟩ := q
  cases is
  have inFirst := holds_node.mp ((holds_node.mp inQuery).2 _ List.mem_cons_self)
  have inSource := holds_node.mp (inFirst.2 (.node im (.query (inner ++ [.node pair.2 (.selectClause projection)])))
    (by simp [Kind.children]))
  have inLast := holds_node.mp (inSource.2 (.node pair.2 (.selectClause projection)) (by simp [Kind.children]))
  refine ⟨path, qm, rest.map Marked.mark, x, elemType.map Marked.mark, im, inner.map Marked.mark,
    projection.mark, found, (holds_node.mp inQuery).1, inFirst.1, transparent, ?_, inLast.1⟩
  simpa [Kind.map] using inSource.1

theorem filter_not_mem_eq {before gone kept : List NodeId} (nodup : before.Nodup) (order : kept.Sublist before)
    (all : before.Perm (gone ++ kept)) : before.filter (· ∉ gone) = kept := by
  have apart := List.disjoint_of_nodup_append (all.nodup_iff.mp nodup)
  have whole : kept.filter (· ∉ gone) = kept :=
    List.filter_eq_self.mpr fun a member => by simpa using fun goes => apart goes member
  have length : (before.filter (· ∉ gone)).length = kept.length := by
    rw [(all.filter _).length_eq, List.filter_append, whole]
    simp
  have part := order.filter (· ∉ gone)
  rw [whole] at part
  exact (part.eq_of_length length.symm).symm

variable (rules : Rules) (names : NameTable) {s : Store} {root : NodeId}

theorem filter_collapse (l : List NodeId) :
    (l.map (collapse s)).filter (· ≠ ⟨s.size⟩) = l.filter (·.index < s.size) := by
  calc (l.map (collapse s)).filter (· ≠ ⟨s.size⟩)
    _ = (l.filter (·.index < s.size)).map (collapse s) := by
      rw [List.filter_map]
      refine congrArg _ (List.filter_congr fun id _ => ?_)
      rw [Bool.eq_iff_iff]
      simp [collapse_eq_iff]
    _ = (l.filter (·.index < s.size)).map id :=
      List.map_congr_left fun id old => if_pos (by simpa using (List.mem_filter.mp old).2)
    _ = l.filter (·.index < s.size) := List.map_id _

theorem count_collapse (l : List NodeId) :
    (l.map (collapse s)).count ⟨s.size⟩ = (l.filter (s.size ≤ ·.index)).length := by
  rw [List.count_eq_countP, List.countP_map, List.countP_eq_length_filter]
  refine congrArg List.length (List.filter_congr fun id _ => ?_)
  rw [Bool.eq_iff_iff]
  simp [collapse_eq_iff]

theorem FreshLets.of_new {s' : Store} {l n : Layout} (lets : FreshLets ⟨s.size⟩ (l.map (collapse s) id))
    (holds : s'.Holds l) (below : n ∈ l.subtrees) (new : s.size ≤ n.mark.index) :
    ∃ x value, s'.kind? n.mark = some (.letClause x value) := by
  have image : n.map (collapse s) id ∈ (l.map (collapse s) id).subtrees := by
    rw [Marked.subtrees_map]
    exact List.mem_map_of_mem below
  obtain ⟨x, value, is⟩ := lets _ image (by rw [Marked.mark_map, collapse_eq_iff.mpr new])
  rw [Marked.kind_map] at is
  have here := holds n below
  rw [Marked.cell] at here
  cases kind : n.kind <;> simp only [kind, Kind.map, reduceCtorEq] at is here
  exact ⟨_, _, here⟩

theorem mem_of_length_eq {n count : Nat} {l : List NodeId} (nodup : l.Nodup)
    (inside : ∀ id ∈ l, n ≤ id.index ∧ id.index < n + count) (length : l.length = count) {id : NodeId}
    (least : n ≤ id.index) (bound : id.index < n + count) : id ∈ l := by
  have range : l.Subperm ((List.range' n count).map NodeId.mk) :=
    nodup.subperm fun a member => List.mem_map.mpr ⟨a.index, List.mem_range'_1.mpr (inside a member), rfl⟩
  have same := range.perm_of_length_le (by simp [length])
  exact same.mem_iff.mpr (List.mem_map.mpr ⟨id.index, List.mem_range'_1.mpr ⟨least, bound⟩, rfl⟩)

/-- The clauses of a layout before and after a run. -/
theorem normalize_accounts {l : Layout} (forest : s.Forest [l]) (sorted : l.WellSorted Place.ofClauses)
    {stats : Stats} (done : (normalize rules names s l.mark).result = .ok stats) :
    ∃ l' : Layout, Store.Rewrites s [l] (normalize rules names s l.mark).store [l'] ∧
      Accounts (Nested (rules.numbered names) l) ⟨s.size⟩ l.clauseMarks (l'.clauseMarks.map (collapse s)) stats ∧
      FreshLets ⟨s.size⟩ (l'.map (collapse s) id) ∧
      (normalize rules names s l.mark).store.size = s.size + stats.letsIntroduced := by
  obtain ⟨succeeds, rfl, l', change, image, trace⟩ := normalize_run_collapsed rules names forest done
  have new : (⟨s.size⟩ : NodeId) ∉ l.marks := fun member =>
    Nat.lt_irrefl _ (forest.holds_single.index_lt member)
  have accounts := accounts_normal rfl (by simp [Place.ofClauses]) sorted succeeds new
  have lets := freshLets_normal new succeeds
  rw [← image] at accounts lets
  rw [Marked.clauseMarks_map] at accounts
  exact ⟨l', change, accounts, lets, trace.size⟩

/-- A run deletes exactly two clauses for each nested query that it flattens, the clause that binds it and the
select clause at its end, and changes neither the order nor the number of the others. Each new node is a
let clause that is reached once. -/
theorem normalize_clauseOrder (tree : s.TreeAt root) (sorted : s.WellSortedAt Place.ofClauses root) {stats : Stats}
    (done : (normalize rules names s root).result = .ok stats) :
    ∃ (before after : List NodeId) (gone : List (NodeId × NodeId)),
      s.clauseOrder root = .ok before ∧ (normalize rules names s root).store.clauseOrder root = .ok after ∧
      gone.length = stats.eliminated ∧
      (∀ pair ∈ gone, s.NestedBelow (isTransparent rules names) root pair.1 pair.2) ∧
      (gone.flatMap fun pair => [pair.1, pair.2]).Nodup ∧
      after.filter (·.index < s.size) = before.filter (· ∉ gone.flatMap fun pair => [pair.1, pair.2]) ∧
      (normalize rules names s root).store.size = s.size + stats.letsIntroduced ∧
      ∀ id : NodeId, s.size ≤ id.index → id.index < s.size + stats.letsIntroduced →
        after.count id = 1 ∧ ∃ x value, (normalize rules names s root).store.kind? id = some (.letClause x value) := by
  obtain ⟨l, rfl, holds, nodup⟩ := treeAt_iff.mp tree
  obtain ⟨l', change, ⟨gone, length, each, order, all, count⟩, lets, size⟩ :=
    normalize_accounts rules names (.single holds nodup) (holds.wellSortedAt_iff.mp sorted) done
  have after := change.forest.holds_single.clauseOrder_eq change.forest.nodup_single
  rw [change.root] at after
  refine ⟨l.clauseMarks, l'.clauseMarks, gone, holds.clauseOrder_eq nodup, after, length,
    fun pair member => (each pair member).below holds, ?_, ?_, size, ?_⟩
  all_goals rw [filter_collapse] at order all
  · exact (all.nodup_iff.mp (nodup.sublist l.clauseMarks_sublist)).of_append_left
  · exact (filter_not_mem_eq (nodup.sublist l.clauseMarks_sublist) order all).symm
  · intro id least bound
    have nodup' := change.forest.nodup_single.sublist l'.clauseMarks_sublist
    -- There are as many new clauses as new numbers, and no two of them have the same.
    have member : id ∈ l'.clauseMarks.filter (s.size ≤ ·.index) := by
      refine mem_of_length_eq (nodup'.filter _) (fun id member => ?_) ((count_collapse _).symm.trans count) least bound
      obtain ⟨member, least⟩ := List.mem_filter.mp member
      rw [← size]
      exact ⟨by simpa using least, change.forest.holds_single.index_lt (l'.clauseMarks_sublist.subset member)⟩
    have member := (List.mem_filter.mp member).1
    refine ⟨List.count_eq_one_of_mem nodup' member, ?_⟩
    obtain ⟨n, below, rfl⟩ := Marked.mem_marks.mp (l'.clauseMarks_sublist.subset member)
    exact lets.of_new change.forest.holds_single below least

theorem normalize_clauseOrder_nested :
    let rules : Rules := ⟨{}, (· = "t")⟩
    let names : NameTable := ⟨#["", "xs", "T", "Cast", "x", "f", "y", "t"], ∅⟩
    let s := Layout.nested.store
    s.TreeAt ⟨16⟩ ∧ s.WellSortedAt Place.ofClauses ⟨16⟩ ∧
      (normalize rules names s ⟨16⟩).result = .ok ⟨1, 1, 1, 0, 1⟩ ∧
      s.clauseOrder ⟨16⟩ = .ok [⟨12⟩, ⟨4⟩, ⟨10⟩, ⟨15⟩] ∧
      ∃ (after : List NodeId) (gone : List (NodeId × NodeId)),
        (normalize rules names s ⟨16⟩).store.clauseOrder ⟨16⟩ = .ok after ∧ gone.length = 1 ∧
        after.filter (·.index < 17) =
          [⟨12⟩, ⟨4⟩, ⟨10⟩, ⟨15⟩].filter (· ∉ gone.flatMap fun pair => [pair.1, pair.2]) ∧
        after.count ⟨17⟩ = 1 := by
  intro rules names s
  have holds : s.Holds Layout.nested := Layout.holds_store (by decide) (by decide)
  have tree : s.TreeAt ⟨16⟩ := treeAt_iff.mpr ⟨Layout.nested, rfl, holds, by decide⟩
  have sorted : s.WellSortedAt Place.ofClauses ⟨16⟩ := holds.wellSortedAt_iff.mpr (by decide)
  have done : (normalize rules names s ⟨16⟩).result = .ok ⟨1, 1, 1, 0, 1⟩ := by
    decide +kernel +zetaReduce
  have clauses : s.clauseOrder ⟨16⟩ = .ok [⟨12⟩, ⟨4⟩, ⟨10⟩, ⟨15⟩] := holds.clauseOrder_eq (by decide)
  obtain ⟨before, after, gone, listed, listed', length, -, -, kept, -, new⟩ :=
    normalize_clauseOrder rules names tree sorted done
  obtain rfl := Except.ok.inj (clauses.symm.trans listed)
  exact ⟨tree, sorted, done, clauses, after, gone, listed', length, kept, (new ⟨17⟩ (by decide) (by decide)).1⟩

end

end Normalize

end Comprehension
