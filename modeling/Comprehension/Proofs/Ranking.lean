import Comprehension.Proofs.Step

/-! Stores without dangling children and without cycles, in which nodes may be shared. Ranks that fall
from parents to children witness both; every step of a run keeps the ranks of the nodes that there are
and finds one for a node that it adds. A run therefore ends, and it never meets a slot that is not in
use. -/

set_option autoImplicit false

namespace Comprehension.Store

def Closed (s : Store) : Prop := ∀ id k, s.kind? id = some k → ∀ c ∈ k.children, c.index < s.size

def Acyclic (s : Store) : Prop := ∀ id path, s.follow id path = some id → path = []

/-- Ranks that fall from every node to its children, with fewer of them than there are slots. -/
structure Ranked (s : Store) (rank : NodeId → Nat) : Prop where
  bound : ∀ {id : NodeId}, id.index < s.size → rank id < s.size
  falls : ∀ {id : NodeId} {k : NodeKind} {c : NodeId}, s.kind? id = some k → c ∈ k.children →
    c.index < s.size ∧ rank c < rank id

def Rankable (s : Store) : Prop := ∃ rank, s.Ranked rank

structure Extends (s : Store) (rank : NodeId → Nat) (s' : Store) (rank' : NodeId → Nat) : Prop where
  grows : s.size ≤ s'.size
  ranked : s'.Ranked rank'
  same : ∀ {id : NodeId}, id.index < s.size → rank' id = rank id

variable {s s' s'' : Store} {rank rank' rank'' : NodeId → Nat} {id : NodeId}

theorem Closed.closedAt (closed : s.Closed) (inside : id.index < s.size) : s.ClosedAt id := by
  intro path
  induction path generalizing id with
  | nil =>
    intro j found
    cases found
    exact inside
  | cons i path ih =>
    intro j found
    obtain ⟨k, here, found⟩ := Option.bind_eq_some_iff.mp found
    obtain ⟨c, child, found⟩ := Option.bind_eq_some_iff.mp found
    exact ih (closed id k here c (List.mem_of_getElem? child)) j found

theorem Closed.dagAt (closed : s.Closed) (acyclic : s.Acyclic) {root : NodeId} (inside : root.index < s.size) :
    s.DagAt root where
  allocated found := closed.closedAt inside _ _ found
  acyclic _ loop := acyclic _ _ loop

/-- Numbers are ranks where every child has a smaller number than its parent. -/
theorem ranked_index (falls : ∀ i < s.size, ∀ k ∈ s.kind? ⟨i⟩, ∀ c ∈ k.children, c.index < i) :
    s.Ranked NodeId.index where
  bound inside := inside
  falls {id k c} here child := by
    have inside := index_lt_of_kind? here
    have less := falls id.index inside k here c child
    exact ⟨by omega, less⟩

namespace Ranked

theorem closed (ranked : s.Ranked rank) : s.Closed := fun _ _ here _ child => (ranked.falls here child).1

theorem follow_lt (ranked : s.Ranked rank) {path : List Nat} {j : NodeId} (found : s.follow id path = some j) :
    path = [] ∧ j = id ∨ j.index < s.size ∧ rank j < rank id := by
  induction path generalizing id with
  | nil =>
    cases found
    exact .inl ⟨rfl, rfl⟩
  | cons i path ih =>
    obtain ⟨k, here, found⟩ := Option.bind_eq_some_iff.mp found
    obtain ⟨c, child, found⟩ := Option.bind_eq_some_iff.mp found
    obtain ⟨inside, less⟩ := ranked.falls here (List.mem_of_getElem? child)
    rcases ih found with ⟨-, rfl⟩ | ⟨below, lower⟩
    · exact .inr ⟨inside, less⟩
    · exact .inr ⟨below, Nat.lt_trans lower less⟩

theorem acyclic (ranked : s.Ranked rank) : s.Acyclic := by
  intro id path found
  rcases ranked.follow_lt found with ⟨empty, -⟩ | ⟨-, less⟩
  · exact empty
  · exact absurd less (Nat.lt_irrefl _)

theorem closedAt (ranked : s.Ranked rank) (inside : id.index < s.size) : s.ClosedAt id :=
  ranked.closed.closedAt inside

theorem put (ranked : s.Ranked rank) {k : NodeKind}
    (lower : ∀ c ∈ k.children, c.index < s.size ∧ rank c < rank id) : (s.put id k).Ranked rank where
  bound inside := by
    rw [size_put] at inside ⊢
    exact ranked.bound inside
  falls {j k' c} here child := by
    rw [size_put]
    by_cases same : id = j
    · subst same
      have inside : id.index < s.size := by simpa using index_lt_of_kind? here
      obtain ⟨old, before⟩ := exists_kind?_of_lt inside
      cases here.symm.trans (kind?_put_self before k)
      exact lower c child
    · rw [kind?_put_of_ne same] at here
      exact ranked.falls here child

theorem alloc (ranked : s.Ranked rank) {k : NodeKind} (span : Span) {r : Nat} (low : r ≤ s.size)
    (lower : ∀ c ∈ k.children, c.index < s.size ∧ rank c < r) :
    Extends s rank (s.alloc k span).2 (Function.update rank ⟨s.size⟩ r) := by
  have old {j : NodeId} (inside : j.index < s.size) : Function.update rank ⟨s.size⟩ r j = rank j := by
    refine Function.update_of_ne ?_ r rank
    rintro rfl
    exact Nat.lt_irrefl _ inside
  refine ⟨by simp, ⟨fun {j} inside => ?_, fun {j k' c} here child => ?_⟩, old⟩
  · rw [size_alloc] at inside ⊢
    by_cases new : j = ⟨s.size⟩
    · rw [new, Function.update_self]
      omega
    · have inside : j.index < s.size := by
        have other : j.index ≠ s.size := fun is => new (congrArg NodeId.mk is)
        omega
      rw [old inside]
      exact Nat.lt_succ_of_lt (ranked.bound inside)
  · rw [size_alloc]
    by_cases new : j = ⟨s.size⟩
    · subst new
      have is : k' = k := by
        rw [kind?, node?_alloc, if_pos rfl] at here
        exact (Option.some.inj here).symm
      subst is
      obtain ⟨inside, less⟩ := lower c child
      rw [Function.update_self, old inside]
      exact ⟨Nat.lt_succ_of_lt inside, less⟩
    · have other : j.index ≠ s.size := fun is => new (congrArg NodeId.mk is)
      rw [kind?, node?_alloc, if_neg other] at here
      obtain ⟨inside, less⟩ := ranked.falls here child
      rw [old inside, Function.update_of_ne new]
      exact ⟨Nat.lt_succ_of_lt inside, less⟩

end Ranked

namespace Extends

theorem refl (ranked : s.Ranked rank) : Extends s rank s rank := ⟨Nat.le_refl _, ranked, fun _ => rfl⟩

theorem trans (first : Extends s rank s' rank') (second : Extends s' rank' s'' rank'') :
    Extends s rank s'' rank'' where
  grows := Nat.le_trans first.grows second.grows
  ranked := second.ranked
  same inside := (second.same (Nat.lt_of_lt_of_le inside first.grows)).trans (first.same inside)

theorem of_size (ranked : s'.Ranked rank) (size : s'.size = s.size) : Extends s rank s' rank :=
  ⟨Nat.le_of_eq size.symm, ranked, fun _ => rfl⟩

end Extends

end Comprehension.Store

namespace Comprehension.Normalize
open Program Store

variable {s s' : Store} {rank : NodeId → Nat}

/-! ### References -/

theorem plainReference?_ranked (ranked : s.Ranked rank) (transparent : Name → Bool) {id : NodeId}
    (inside : id.index < s.size) :
    ∃ found, plainReference? transparent s id = .ok found ∧
      ∀ k ∈ found, ∀ c ∈ k.children, c.index < s.size ∧ rank c < rank id := by
  obtain ⟨k, here⟩ := exists_kind?_of_lt inside
  rw [plainReference?, kind_eq_ok_iff.mpr here]
  cases k with
  | member target x typeArgs =>
    obtain ⟨kt, there⟩ := exists_kind?_of_lt (ranked.falls here List.mem_cons_self).1
    simp only [bind, Except.bind]
    rw [kind_eq_ok_iff.mpr there]
    cases kt with
    | ident t args =>
      refine ⟨_, rfl, fun k found c child => ?_⟩
      by_cases through : transparent t
      · simp only [through, if_true, Option.mem_def, Option.some.injEq] at found
        subst found
        exact ranked.falls here (List.mem_cons_of_mem _ child)
      · simp [through] at found
    | _ => exact ⟨none, rfl, fun k found => by cases found⟩
  | _ => exact ⟨none, rfl, fun k found => by cases found⟩

theorem stripReferences_ranked (transparent : Name → Bool) {budget : Nat} {id : NodeId} (ranked : s.Ranked rank)
    (inside : id.index < s.size) (enough : rank id < budget) :
    ∃ count s', stripReferences transparent budget id s = .ok count s' ∧ s'.size = s.size ∧ s'.Ranked rank := by
  induction budget generalizing s id with
  | zero => exact absurd enough (Nat.not_lt_zero _)
  | succ budget ih =>
    obtain ⟨k, here⟩ := exists_kind?_of_lt inside
    -- The same ranks serve for all stores on the way, also where a shared node has changed before.
    have children : ∀ (ids : List NodeId) (s : Store), s.Ranked rank →
        (∀ c ∈ ids, c.index < s.size ∧ rank c < budget) →
        ∃ counts s', ids.mapM (stripReferences transparent budget) s = .ok counts s' ∧ s'.size = s.size ∧
          s'.Ranked rank := by
      intro ids
      induction ids with
      | nil => exact fun s ranked _ => ⟨[], s, rfl, rfl, ranked⟩
      | cons c ids tail =>
        intro s ranked lower
        obtain ⟨inside, less⟩ := lower c List.mem_cons_self
        obtain ⟨count, s₁, done, size, ranked₁⟩ := ih ranked inside less
        obtain ⟨counts, s₂, done', size', ranked₂⟩ := tail s₁ ranked₁ fun d member =>
          size ▸ lower d (List.mem_cons_of_mem _ member)
        exact ⟨count :: counts, s₂, mapM_cons_ok done done', size'.trans size, ranked₂⟩
    obtain ⟨counts, s₁, below, size, ranked₁⟩ := children k.children s ranked fun c child => by
      obtain ⟨inside, less⟩ := ranked.falls here child
      exact ⟨inside, by omega⟩
    obtain ⟨found, plain, lower⟩ := plainReference?_ranked ranked₁ transparent (size ▸ inside)
    have read : s.children id = .ok k.children := by
      rw [Store.children, kind_eq_ok_iff.mpr here]
      rfl
    rw [stripReferences, bind_ok (read_ok read), bind_ok below, bind_ok (read_ok plain)]
    cases found with
    | none => exact ⟨_, s₁, rfl, size, ranked₁⟩
    | some reference => exact ⟨_, _, rfl, (size_put ..).trans size, ranked₁.put (lower reference rfl)⟩

/-! ### The work at a query -/

variable {reading : Reading Name} {query : NodeId}

theorem Selects.rank_lt (ranked : s.Ranked rank) {select value : NodeId} {declared : Option Name}
    (shape : Selects s.Layer select declared value) : rank value + 1 < rank select := by
  cases shape with
  | reexport projection pair named same declared | shorthand projection pair bare declared =>
    have first := (ranked.falls projection List.mem_cons_self).2
    have second := (ranked.falls pair (.tail _ List.mem_cons_self)).2
    have third := (ranked.falls declared List.mem_cons_self).2
    omega
  | undeclared projection pair bare found anonymous =>
    have first := (ranked.falls projection List.mem_cons_self).2
    have second := (ranked.falls pair (.tail _ List.mem_cons_self)).2
    omega

theorem NestedFrom.rank_lt (ranked : s.Ranked rank) (n : NestedFrom s query) :
    n.source.index < s.size ∧ rank n.source < rank n.first ∧ rank n.first < rank query := by
  obtain ⟨inside, less⟩ := ranked.falls n.clause (c := n.source) (by simp [Kind.children])
  exact ⟨inside, less, (ranked.falls n.here List.mem_cons_self).2⟩

/-- The flattened query has ranks. The let clause is just above its value, which is below the clause
that the query had in its place. -/
theorem Elimination.extends_flattened (ranked : s.Ranked rank) (e : Elimination reading s query)
    (binding : Option Name) : ∃ rank', Extends s rank (e.flattened binding) rank' := by
  obtain ⟨-, sourceFirst, firstQuery⟩ := e.toNestedFrom.rank_lt ranked
  have emptied : (s.put e.source (.query [])).Ranked rank := ranked.put (by simp [Kind.children])
  have moved : ∀ c ∈ e.inner.dropLast, c.index < s.size ∧ rank c < rank query := fun c member => by
    obtain ⟨inside, less⟩ := ranked.falls e.nested (List.dropLast_subset _ member)
    exact ⟨inside, by omega⟩
  have rest : ∀ c ∈ e.rest, c.index < s.size ∧ rank c < rank query := fun c member =>
    ranked.falls e.here (List.mem_cons_of_mem _ member)
  cases binding with
  | none =>
    refine ⟨rank, .of_size (emptied.put fun c child => ?_) ((size_put ..).trans (size_put ..))⟩
    rw [size_put]
    have either : c ∈ e.inner.dropLast ∨ c ∈ e.rest := by simpa [Kind.children, added] using child
    exact either.elim (moved c) (rest c)
  | some x =>
    have value : e.value.index < s.size := index_lt_of_kind? (k := e.node.kind) (by simp [kind?, e.found])
    have selectSource := (ranked.falls e.nested (List.mem_of_getLast? e.last)).2
    have valueSelect := e.shape.rank_lt ranked
    have size : (s.put e.source (.query [])).size = s.size := size_put ..
    -- There is a rank between those of the value and of the select clause, and the let clause gets it.
    have grown := emptied.alloc (k := .letClause x e.value) e.node.span (r := rank e.value + 1)
      (size ▸ ranked.bound value) (by simpa [Kind.children] using value)
    rw [size] at grown
    have old : Extends s rank _ _ := (Extends.of_size emptied size).trans grown
    refine ⟨_, old.trans (.of_size (grown.ranked.put fun c child => ?_) (size_put ..))⟩
    have inQuery : query.index < s.size := index_lt_of_kind? e.here
    have either : (c ∈ e.inner.dropLast ∨ c ∈ e.rest) ∨ c = ⟨s.size⟩ := by
      simp only [Kind.children, added, List.mem_append, List.mem_singleton] at child
      tauto
    rw [old.same inQuery]
    rcases either with member | rfl
    · obtain ⟨inside, less⟩ := member.elim (moved c) (rest c)
      exact ⟨Nat.lt_of_lt_of_le inside old.grows, by rwa [old.same inside]⟩
    · rw [Function.update_self, size_alloc, size]
      exact ⟨Nat.lt_succ_self _, by omega⟩

def Unfaulted {α : Type} (result : Except Failure α) : Prop := ∀ fault, result ≠ .error (.fault fault)

theorem unfaulted_ok {α : Type} (a : α) : Unfaulted (.ok a) := fun _ is => by cases is

theorem unfaulted_broken {α : Type} (e : BrokenInvariant) : Unfaulted (.error (.broken e) : Except Failure α) :=
  fun _ is => by cases is

theorem QueryStep.extends {result : Except Failure Unit} {gain : Stats} (ranked : s.Ranked rank)
    (step : QueryStep reading s query result s' gain) :
    Unfaulted result ∧ ∃ rank', Extends s rank s' rank' := by
  have strips {binding : Option Name} {rank' : NodeId → Nat} {e : Elimination reading s query}
      (grown : Extends s rank (e.flattened binding) rank') : ∃ count s',
      stripReferences reading.transparent ((e.flattened binding).size + 1) query (e.flattened binding) =
        .ok count s' ∧ s'.size = (e.flattened binding).size ∧ s'.Ranked rank' := by
    have inside := Nat.lt_of_lt_of_le (index_lt_of_kind? e.here) grown.grows
    exact stripReferences_ranked _ grown.ranked inside (Nat.lt_succ_of_lt (grown.ranked.bound inside))
  cases step with
  | kept => exact ⟨unfaulted_ok (), rank, .refl ranked⟩
  | stopped => exact ⟨unfaulted_broken _, rank, .refl ranked⟩
  | continued n refused =>
    obtain ⟨inside, less, -⟩ := n.rank_lt ranked
    refine ⟨unfaulted_ok (), rank, .of_size (ranked.put ?_) (size_put ..)⟩
    simpa [Kind.children] using ⟨inside, less⟩
  | annotated here clause enabled shape =>
    obtain ⟨call, member, -⟩ := shape
    rename_i first source base elemType rest x target y
    have source := (ranked.falls clause (c := source) (by simp [Kind.children])).2
    have target := (ranked.falls call List.mem_cons_self).2
    refine ⟨unfaulted_ok (), rank, .of_size (ranked.put fun c child => ?_) (size_put ..)⟩
    -- The clause gets the children of the access, which rank below the call.
    have below : c ∈ (Kind.member base y [elemType] : NodeKind).children := by
      simp only [Kind.children, Option.toList_some, List.mem_append, List.mem_cons] at child ⊢
      tauto
    obtain ⟨inside, less⟩ := ranked.falls member below
    exact ⟨inside, by omega⟩
  | @eliminated e binding count s' named cleaned =>
    obtain ⟨rank', grown⟩ := e.extends_flattened ranked binding
    obtain ⟨count', s'', done, size, ranked'⟩ := strips grown
    cases cleaned.symm.trans done
    exact ⟨unfaulted_ok (), rank', grown.trans (.of_size ranked' size)⟩
  | @faulted e binding fault s' named cleaned =>
    obtain ⟨rank', grown⟩ := e.extends_flattened ranked binding
    obtain ⟨count', s'', done, -⟩ := strips grown
    cases cleaned.symm.trans done

/-! ### Runs -/

variable (rules : Rules) (names : NameTable)

def EndsRanked (program : PassM Unit) (s : Store) (rank : NodeId → Nat) : Prop :=
  ∃ result s' gain rank', Ends program s result s' gain ∧ Unfaulted result ∧ Extends s rank s' rank'

theorem forM_endsRanked {budget : Nat}
    (each : ∀ {s : Store} {rank : NodeId → Nat} {id : NodeId}, s.Ranked rank → id.index < s.size →
      rank id < budget → EndsRanked (visit rules names budget id) s rank)
    (ids : List NodeId) (ranked : s.Ranked rank) (lower : ∀ c ∈ ids, c.index < s.size ∧ rank c < budget) :
    EndsRanked (ids.forM (visit rules names budget)) s rank := by
  induction ids generalizing s rank with
  | nil => exact ⟨_, _, _, rank, Ends.pure (), unfaulted_ok (), .refl ranked⟩
  | cons c ids tail =>
    obtain ⟨inside, less⟩ := lower c List.mem_cons_self
    obtain ⟨result, s₁, gain, rank₁, done, fine, grown⟩ := each ranked inside less
    rw [EndsRanked, forM_cons]
    cases result with
    | error e => exact ⟨_, s₁, gain, rank₁, done.bind_error, fine, grown⟩
    | ok =>
      obtain ⟨result', s₂, gain', rank₂, done', fine', grown'⟩ := tail grown.ranked fun d member => by
        obtain ⟨inside, less⟩ := lower d (List.mem_cons_of_mem _ member)
        exact ⟨Nat.lt_of_lt_of_le inside grown.grows, by rwa [grown.same inside]⟩
      exact ⟨result', s₂, _, rank₂, done.bind done', fine', grown.trans grown'⟩

/-- A visit whose budget is above the rank of its node never uses the budget up. -/
theorem visit_endsRanked {budget : Nat} {id : NodeId} (ranked : s.Ranked rank) (inside : id.index < s.size)
    (enough : rank id < budget) : EndsRanked (visit rules names budget id) s rank := by
  induction budget generalizing s rank id with
  | zero => exact absurd enough (Nat.not_lt_zero _)
  | succ budget ih =>
    obtain ⟨k, here⟩ := exists_kind?_of_lt inside
    obtain ⟨result, s₁, gain, rank₁, below, fine, grown⟩ :=
      forM_endsRanked rules names ih k.children ranked fun c child => by
        obtain ⟨inside, less⟩ := ranked.falls here child
        exact ⟨inside, by omega⟩
    cases result with
    | error e => exact ⟨_, s₁, gain, rank₁, visit_error rules names here below, fine, grown⟩
    | ok =>
      have inside₁ : id.index < s₁.size := Nat.lt_of_lt_of_le inside grown.grows
      obtain ⟨k₁, here₁⟩ := exists_kind?_of_lt inside₁
      cases isQuery : k₁.isQuery with
      | false => exact ⟨_, s₁, gain, rank₁, visit_other rules names here below here₁ isQuery, fine, grown⟩
      | true =>
        obtain ⟨clauses, rfl⟩ := Kind.eq_query_of_isQuery isQuery
        -- A query that ranges over itself would be a cycle.
        have proper : ∀ n : NestedFrom s₁ id, id ≠ n.source := fun n is => by
          obtain ⟨-, less, less'⟩ := n.rank_lt grown.ranked
          rw [← is] at less
          omega
        obtain ⟨result, s₂, gain', step, work⟩ :=
          normalizeQuery_ends rules names (grown.ranked.closedAt inside₁) here₁ proper
        obtain ⟨fine, rank₂, grown'⟩ := step.extends grown.ranked
        exact ⟨result, s₂, _, rank₂, visit_query rules names here below here₁ rfl work, fine,
          grown.trans grown'⟩

theorem normalize_ranked {root : NodeId} (ranked : s.Ranked rank) (inside : root.index < s.size) :
    Unfaulted (normalize rules names s root).result ∧
      ∃ rank', Extends s rank (normalize rules names s root).store rank' := by
  obtain ⟨result, s', gain, rank', ends, fine, grown⟩ :=
    visit_endsRanked rules names ranked inside (Nat.lt_succ_of_lt (ranked.bound inside))
  obtain ⟨store, ended⟩ := normalize_of_ends rules names ends
  rw [store, ended]
  refine ⟨?_, rank', grown⟩
  cases result with
  | ok => exact unfaulted_ok gain
  | error e =>
    intro fault is
    cases is
    exact fine fault rfl

end Comprehension.Normalize
