import Comprehension.Proofs.ClauseOrder
import Comprehension.Proofs.Growth

/-! Runs that fail. A run fails at a query whose record it cannot take apart, and it fails before anything
is done to this query. What it has visited by then are the parts of the tree before the query, children
before their parents, and it has done to each of them what a run on that part alone does. -/

set_option autoImplicit false

namespace Comprehension

/-- Whether a path leads to a node that comes before the one that another path leads to, where children
come before their parent. -/
def Precedes : List Nat → List Nat → Prop
  | [], _ => False
  | _ :: _, [] => True
  | i :: path, j :: path' => i < j ∨ i = j ∧ Precedes path path'

def Beside : List Nat → List Nat → Prop
  | _, [] => False
  | [], _ :: path => path = []
  | j :: place, i :: path => path = [] ∧ i < j ∨ i = j ∧ Beside place path

/-- The paths beside a place lead to the largest subtrees that come before it. -/
theorem beside_of_precedes {place path : List Nat} {i : Nat} (before : Precedes (path ++ [i]) place)
    (largest : ¬ Precedes path place) : Beside place (path ++ [i]) := by
  induction path generalizing place with
  | nil =>
    cases place with
    | nil => exact rfl
    | cons j place =>
      rcases before with left | ⟨-, impossible⟩
      · exact .inl ⟨rfl, left⟩
      · cases impossible
  | cons a path ih =>
    cases place with
    | nil => exact absurd trivial largest
    | cons j place =>
      rcases before with left | ⟨rfl, before⟩
      · exact absurd (.inl left) largest
      · exact .inr ⟨rfl, ih before fun deeper => largest (.inr ⟨rfl, deeper⟩)⟩

/-- A query whose first clause binds a transparent name to a query that selects a record of a name and a
value; nothing names the value, and this is the error. -/
def Store.UnnamedAt (s : Store) (transparent : Name → Bool) (query : NodeId) (e : Normalize.BrokenInvariant) : Prop :=
  ∃ first rest t elemType source inner select record other x k,
    s.kind? query = some (.query (first :: rest)) ∧ s.kind? first = some (.fromClause t elemType source) ∧
      transparent t = true ∧ s.kind? source = some (.query inner) ∧ inner.getLast? = some select ∧
      s.kind? select = some (.selectClause record) ∧ s.kind? record = some (.record [other, e.node]) ∧
      s.kind? other = some (.ident x []) ∧ s.kind? e.node = some k ∧
      (∀ y typeArgs, k ≠ .ident y typeArgs) ∧ (∀ target y typeArgs, k ≠ .member target y typeArgs) ∧
      (∀ y value, k ≠ .named y value) ∧ e.violation = .unnamedInitializer k.describe

/-- `from a in (from t in (from x in xs select new { x, y = 1 }) select t.y)`
`let z = (from t in (from x in xs select new { x, 2 }) select t) select z`, where the texts of the names
are, in the order of their numbers: nothing, `xs`, `x`, `y`, `t`, `z` and `a`. -/
def Layout.interrupted : Layout :=
  .node ⟨28⟩ (.query [
    .node ⟨13⟩ (.fromClause ⟨6⟩ none (.node ⟨12⟩ (.query [
      .node ⟨8⟩ (.fromClause ⟨4⟩ none (.node ⟨7⟩ (.query [
        .node ⟨1⟩ (.fromClause ⟨2⟩ none (.node ⟨0⟩ (.ident ⟨1⟩ []))),
        .node ⟨6⟩ (.selectClause (.node ⟨5⟩ (.record [
          .node ⟨2⟩ (.ident ⟨2⟩ []),
          .node ⟨4⟩ (.named ⟨3⟩ (.node ⟨3⟩ (.literal (.int 1))))])))]))),
      .node ⟨11⟩ (.selectClause (.node ⟨10⟩ (.member (.node ⟨9⟩ (.ident ⟨4⟩ [])) ⟨3⟩ [])))]))),
    .node ⟨25⟩ (.letClause ⟨5⟩ (.node ⟨24⟩ (.query [
      .node ⟨21⟩ (.fromClause ⟨4⟩ none (.node ⟨20⟩ (.query [
        .node ⟨15⟩ (.fromClause ⟨2⟩ none (.node ⟨14⟩ (.ident ⟨1⟩ []))),
        .node ⟨19⟩ (.selectClause (.node ⟨18⟩ (.record [
          .node ⟨16⟩ (.ident ⟨2⟩ []),
          .node ⟨17⟩ (.literal (.int 2))])))]))),
      .node ⟨23⟩ (.selectClause (.node ⟨22⟩ (.ident ⟨4⟩ [])))]))),
    .node ⟨27⟩ (.selectClause (.node ⟨26⟩ (.ident ⟨5⟩ [])))])

namespace Marked

variable {ι ν : Type}

def among? (ts : List (Marked ι ν)) : List Nat → Option (Marked ι ν)
  | [] => none
  | i :: path => ts[i]?.bind fun t => t.at? path

theorem at?_eq_among? {m : ι} {k : Kind ν (Marked ι ν)} {i : Nat} {path : List Nat} :
    (node m k).at? (i :: path) = among? k.children (i :: path) := rfl

theorem among?_singleton {t : Marked ι ν} {path : List Nat} : among? [t] (0 :: path) = t.at? path := rfl

theorem mem_flatMap_of_among? {ts : List (Marked ι ν)} (path : List Nat) {n : Marked ι ν}
    (found : among? ts path = some n) : n.mark ∈ ts.flatMap marks := by
  cases path with
  | nil => cases found
  | cons i path =>
    obtain ⟨t, member, place⟩ := Option.bind_eq_some_iff.mp found
    exact List.mem_flatMap.mpr ⟨t, List.mem_of_getElem? member, mem_marks.mpr ⟨n, mem_subtrees_of_at? place, rfl⟩⟩

end Marked

namespace Normalize
open Store

variable {reading : Reading Name} {s s' : Store} {ls ls' : List Layout} {gain : Stats}

/-! ### Where a pass ends -/

def Turned (reading : Reading Name) (size : Nat) (l l' : Layout) : Prop :=
  ∃ s s' gain, size ≤ s.size ∧ s.Forest [l] ∧ Passes reading s [l] (.ok ()) s' [l'] gain

theorem Turned.mono {size size' : Nat} {l l' : Layout} (turned : Turned reading size l l')
    (fewer : size' ≤ size) : Turned reading size' l l' := by
  obtain ⟨s, s', gain, enough, forest, passes⟩ := turned
  exact ⟨s, s', gain, Nat.le_trans fewer enough, forest, passes⟩

theorem Passes.turned (passes : Passes reading s ls (.ok ()) s' ls' gain) (forest : s.Forest ls) {i : Nat}
    {l : Layout} (member : ls[i]? = some l) : ∃ l', ls'[i]? = some l' ∧ Turned reading s.size l l' := by
  generalize ends : (Except.ok () : Except Failure Unit) = result at passes
  induction passes generalizing i with
  | nil => cases member
  | cons first rest _ tail =>
    subst ends
    cases i with
    | zero =>
      cases member
      exact ⟨_, rfl, _, _, _, Nat.le_refl _, forest.head, first⟩
    | succ i =>
      have change := first.rewrites forest.head
      obtain ⟨l', found, turned⟩ := tail (Rewrites.forest_tail forest change) member rfl
      exact ⟨l', found, turned.mono change.grows⟩
  | halted => cases ends
  | node below stays =>
    subst ends
    cases i with
    | zero =>
      cases member
      exact ⟨_, rfl, _, _, _, Nat.le_refl _, forest, .node below stays⟩
    | succ i => cases member
  | query below step =>
    subst ends
    cases i with
    | zero =>
      cases member
      exact ⟨_, rfl, _, _, _, Nat.le_refl _, forest, .query below step⟩
    | succ i => cases member

structure Stops (reading : Reading Name) (s : Store) (ls : List Layout) (s' : Store) (ls' : List Layout)
    (e : Failure) (place : List Nat) : Prop where
  /-- There the work at a query fails. -/
  here : ∃ query cs cs', Marked.among? ls place = some (.node query (.query cs)) ∧
    Marked.among? ls' place = some (.node query (.query cs')) ∧ QueryStep reading s' query (.error e) s' 0
  /-- It stays as it is, and so does what comes after it. -/
  later : ∀ path n, Marked.among? ls path = some n → path = place ∨ Precedes place path →
    s'.node? n.mark = s.node? n.mark
  /-- What comes before it has been visited with success. -/
  earlier : ∀ path n, Marked.among? ls path = some n → Beside place path →
    ∃ n', Marked.among? ls' path = some n' ∧ Turned reading s.size n n'

theorem settle_of_breach {ι ν : Type} [DecidableEq ν] {reading : Reading ν} {fresh m : ι} {k : Kind ν (Marked ι ν)}
    {breach : Breach ι} (broken : (settle reading fresh m k).2.breach = some breach) :
    (settle reading fresh m k).1 = .node m k := by
  unfold settle at broken ⊢
  generalize action reading k = asks at broken ⊢
  cases asks with
  | stop | keep => rfl
  | _ => cases broken

namespace Stops

variable {s₁ : Store} {l l' : Layout} {e : Failure} {place : List Nat} {m : NodeId} {k : Kind Name Layout}

theorem exists_cons (stops : Stops reading s ls s' ls' e place) : ∃ i path, place = i :: path := by
  obtain ⟨query, cs, cs', found, -⟩ := stops.here
  cases place with
  | nil => cases found
  | cons i path => exact ⟨i, path, rfl⟩

theorem tail (forest : s.Forest (l :: ls)) (first : Passes reading s [l] (.ok ()) s₁ [l'] gain) {j : Nat}
    (stops : Stops reading s₁ ls s' ls' e (j :: place)) :
    Stops reading s (l :: ls) s' (l' :: ls') e ((j + 1) :: place) where
  here := stops.here
  later := by
    rintro (_ | ⟨_ | i, path⟩) n found after
    · cases found
    · simp [Precedes] at after
    · have inside : n.mark ∈ ls.flatMap Marked.marks := Marked.mem_flatMap_of_among? (i :: path) found
      rw [stops.later (i :: path) n found (by simpa [Precedes] using after)]
      refine (first.rewrites forest.head).frame _ (forest.tail.index_lt inside) fun own => ?_
      exact forest.disjoint (by simpa using own) inside
  earlier := by
    rintro (_ | ⟨_ | i, path⟩) n found beside
    · cases found
    · obtain ⟨rfl, -⟩ | ⟨impossible, -⟩ := beside
      · cases found
        exact ⟨l', rfl, _, _, _, Nat.le_refl _, forest.head, first⟩
      · cases impossible
    · obtain ⟨n', found', turned⟩ := stops.earlier (i :: path) n found (by simpa [Beside] using beside)
      exact ⟨n', found', turned.mono (first.rewrites forest.head).grows⟩

theorem head (forest : s.Forest (l :: ls)) (change : Rewrites s [l] s' [l'])
    (stops : Stops reading s [l] s' [l'] e place) : Stops reading s (l :: ls) s' (l' :: ls) e place := by
  obtain ⟨query, cs, cs', found, found', step⟩ := stops.here
  obtain ⟨j, place, rfl⟩ := stops.exists_cons
  obtain rfl : j = 0 := by
    cases j with
    | zero => rfl
    | succ j => cases found
  refine ⟨⟨query, cs, cs', found, found', step⟩, ?_, ?_⟩
  · rintro (_ | ⟨_ | i, path⟩) n found after
    · cases found
    · exact stops.later (0 :: path) n found after
    · have inside : n.mark ∈ ls.flatMap Marked.marks := Marked.mem_flatMap_of_among? (i :: path) found
      refine change.frame _ (forest.tail.index_lt inside) fun own => ?_
      exact forest.disjoint (by simpa using own) inside
  · rintro (_ | ⟨_ | i, path⟩) n found beside
    · cases found
    · exact stops.earlier (0 :: path) n found beside
    · simp [Beside] at beside

theorem node (forest : s.Forest [.node m k]) (change : Rewrites s k.children s' ls)
    (stops : Stops reading s k.children s' ls e place) :
    Stops reading s [.node m k] s' [.node m (k.refill ls)] e (0 :: place) := by
  obtain ⟨j, place, rfl⟩ := stops.exists_cons
  have children : (k.refill ls).children = ls := Kind.children_refill (by simpa using congrArg List.length change.roots)
  have below (i : Nat) (path : List Nat) :
      Marked.among? [Marked.node m (k.refill ls)] (0 :: i :: path) = Marked.among? ls (i :: path) := by
    rw [Marked.among?_singleton, Marked.at?_eq_among?, children]
  refine ⟨?_, ?_, ?_⟩
  · obtain ⟨query, cs, cs', found, found', step⟩ := stops.here
    exact ⟨query, cs, cs', found, (below _ _).trans found', step⟩
  · rintro (_ | ⟨_ | i, _ | ⟨i', path⟩⟩) n found after
    · cases found
    · cases found
      exact change.frame m (forest.holds_single.index_lt (Marked.mark_mem_marks _)) forest.mark_not_mem
    · exact stops.later (i' :: path) n found (by simpa [Precedes] using after)
    · cases found
    · cases found
  · rintro (_ | ⟨_ | i, _ | ⟨i', path⟩⟩) n found beside
    · cases found
    · simp [Beside] at beside
    · rw [below]
      exact stops.earlier (i' :: path) n found (by simpa [Beside] using beside)
    · cases found
    · cases found

theorem query {cs : List Layout} (forest : s.Forest [.node m (.query cs)])
    (below : Passes reading s cs (.ok ()) s' ls gain) (step : QueryStep reading s' m (.error e) s' 0) :
    Stops reading s [.node m (.query cs)] s' [.node m (.query ls)] e [0] := by
  refine ⟨⟨m, cs, ls, rfl, rfl, step⟩, ?_, ?_⟩
  · rintro (_ | ⟨_ | i, path⟩) n found after
    · cases found
    · obtain rfl : path = [] := by simpa [Precedes] using after
      cases found
      exact (below.rewrites forest.children).frame m (forest.holds_single.index_lt (Marked.mark_mem_marks _))
        forest.mark_not_mem
    · cases found
  · rintro (_ | ⟨_ | i, path⟩) n found beside
    · cases found
    · obtain ⟨-, impossible⟩ | ⟨-, beside⟩ := beside
      · cases impossible
      rcases path with _ | ⟨i, path⟩
      · cases beside
      obtain rfl : path = [] := beside
      obtain ⟨c, member, is⟩ := Option.bind_eq_some_iff.mp found
      cases is
      obtain ⟨n', member', turned⟩ := below.turned forest.children member
      exact ⟨n', Option.bind_eq_some_iff.mpr ⟨n', member', rfl⟩, turned⟩
    · cases found

end Stops

/-- A pass that fails stops at a place. -/
theorem Passes.stops {e : Failure} (passes : Passes reading s ls (.error e) s' ls' gain) (forest : s.Forest ls) :
    ∃ place, Stops reading s ls s' ls' e place := by
  generalize ends : (Except.error e : Except Failure Unit) = result at passes
  induction passes with
  | nil => cases ends
  | cons first rest _ tail =>
    subst ends
    obtain ⟨place, stops⟩ := tail (Rewrites.forest_tail forest (first.rewrites forest.head)) rfl
    obtain ⟨j, place, rfl⟩ := stops.exists_cons
    exact ⟨_, stops.tail forest first⟩
  | halted first ih =>
    obtain ⟨place, stops⟩ := ih forest.head ends
    cases ends
    exact ⟨_, stops.head forest (first.rewrites forest.head)⟩
  | node below stays ih =>
    obtain ⟨place, stops⟩ := ih forest.children ends
    exact ⟨_, stops.node forest (below.rewrites forest.children)⟩
  | @query s s₁ s₂ m cs ls result gain gain' below step =>
    subst ends
    have change := Rewrites.node forest (below.rewrites forest.children)
    have broken : ResultOf id () (settle reading ⟨s₁.size⟩ m (.query ls)).2.breach _ :=
      (step.settles _ change.forest).2.1
    cases step with
    | stopped elimination unnamed =>
      cases known : (settle reading ⟨s₁.size⟩ m (.query ls)).2.breach with
      | none =>
        rw [known] at broken
        cases broken
      | some breach =>
        rw [settle_of_breach known]
        exact ⟨[0], .query forest below (.stopped elimination unnamed)⟩
    | faulted elimination named stripped =>
      obtain ⟨count, s', done, -, -⟩ := elimination.flattens named change.forest
      cases stripped.symm.trans done

/-! ### Where new slots are -/

section
variable {ι ν : Type} {old : ι → Prop}

def OldBelow (old : ι → Prop) (k : Kind ν (Marked ι ν)) : Prop := k.isQuery = false → ∀ c ∈ k.children, old c.mark

theorem Selects.old_value {select value : Marked ι ν} {declared : Option ν} (all : select.All (OldBelow old))
    (shape : Selects IsLayer select declared value) : old value.mark := by
  obtain ⟨record, first, second, x, projection, pair, -, last⟩ := shape.initializers
  have inRecord : record.All (OldBelow old) := all.of_mem (projection.child_mem List.mem_cons_self)
  have inSecond : second.All (OldBelow old) := inRecord.of_mem (pair.child_mem (by simp [Kind.children]))
  rcases last with ⟨y, -, named⟩ | ⟨-, rfl, -⟩
  · refine inSecond second (Marked.self_mem_subtrees _) (by rw [show second.kind = _ from named]; rfl) value ?_
    rw [show second.kind = _ from named]
    exact List.mem_cons_self
  · refine inRecord record (Marked.self_mem_subtrees _) (by rw [show record.kind = _ from pair]; rfl) second ?_
    rw [show record.kind = _ from pair]
    simp [Kind.children]

theorem carries_oldBelow [DecidableEq ν] : Carries (OldBelow (ν := ν) old) where
  lets all shape _ _ := by
    simp only [Kind.children, List.mem_singleton, forall_eq]
    exact shape.old_value all
  continues here _ _ := by
    simp only [Kind.children, List.mem_singleton, forall_eq]
    exact here rfl _ (by simp [Kind.children])
  annotates here all shape _ := by
    obtain ⟨sm, tm, y, rfl, -⟩ := shape.eq_call
    have member := ((Marked.all_node.mp all).2 _ List.mem_cons_self) _ (Marked.self_mem_subtrees _) rfl
    simpa [Kind.children, and_comm] using member

theorem oldBelow_cleaned (transparent : ν → Bool) {t : Marked ι ν} (all : t.All (OldBelow old)) :
    (cleaned transparent t).1.All (OldBelow old) := by
  induction t using Marked.induction with
  | step m k ih =>
    obtain ⟨here, below⟩ := Marked.all_node.mp all
    have children : ∀ c ∈ k.children, (cleaned transparent c).1.All (OldBelow old) :=
      fun c child => ih c child (below c child)
    rw [← Marked.node_mark_kind (cleaned transparent (.node m k)).1]
    rcases kind_cleaned transparent (.node m k) with same | ⟨target, x, typeArgs, access, ident⟩
    · rw [same]
      refine Marked.all_node.mpr ⟨fun simple => ?_, by simpa [Kind.children_map] using children⟩
      rw [Marked.kind_node, Kind.isQuery_map] at simple
      simpa [Kind.children_map, mark_cleaned] using here simple
    · cases access
      rw [ident]
      refine Marked.all_node.mpr ⟨fun _ => ?_, ?_⟩
      · simp only [Kind.children, List.forall_mem_map, mark_cleaned]
        exact fun c member => here rfl c (List.mem_cons_of_mem _ member)
      · simp only [Kind.children, List.forall_mem_map]
        exact fun c member => children c (List.mem_cons_of_mem _ member)

end

/-- New slots come only as clauses of queries. -/
theorem Passes.oldBelow {old : NodeId → Prop} {result : Except Failure Unit}
    (passes : Passes reading s ls result s' ls' gain) (forest : s.Forest ls)
    (all : ∀ l ∈ ls, l.All (OldBelow old)) : ∀ l ∈ ls', l.All (OldBelow old) := by
  induction passes with
  | nil => exact all
  | cons first _ ih tail =>
    obtain ⟨here, others⟩ := List.forall_mem_cons.mp all
    have change := first.rewrites forest.head
    exact List.forall_mem_cons.mpr ⟨ih forest.head (by simpa using here) _ List.mem_cons_self,
      tail (Rewrites.forest_tail forest change) others⟩
  | halted _ ih =>
    obtain ⟨here, others⟩ := List.forall_mem_cons.mp all
    exact List.forall_mem_cons.mpr ⟨ih forest.head (by simpa using here) _ List.mem_cons_self, others⟩
  | @node s s₁ m k ls result gain below _ ih =>
    obtain ⟨here, inside⟩ := Marked.all_node.mp (all _ List.mem_cons_self)
    have roots := (below.rewrites forest.children).roots
    have children : (k.refill ls).children = ls := Kind.children_refill (by simpa using congrArg List.length roots)
    simp only [List.mem_singleton, forall_eq]
    refine Marked.all_node.mpr ⟨fun simple => ?_, by simpa [children] using ih forest.children inside⟩
    rw [Kind.isQuery_refill] at simple
    have olds : ∀ m ∈ ls.map Marked.mark, old m := by
      rw [roots]
      simpa using here simple
    simpa [children] using olds
  | query _ step ih =>
    obtain ⟨-, inside⟩ := Marked.all_node.mp (all _ List.mem_cons_self)
    simp only [List.mem_singleton, forall_eq]
    refine all_settle carries_oldBelow _ _ (ih forest.children inside) (fun _ => oldBelow_cleaned _) ?_
    -- The work at a query leaves a query.
    intro simple
    generalize action reading _ = asks at simple
    cases asks <;> cases simple

theorem Passes.oldBelow_single {l l' : Layout} {result : Except Failure Unit}
    (passes : Passes reading s [l] result s' [l'] gain) (forest : s.Forest [l]) :
    l'.All (OldBelow fun j : NodeId => j.index < s.size) := by
  refine passes.oldBelow forest ?_ l' List.mem_cons_self
  simp only [List.mem_singleton, forall_eq]
  intro n below _ c child
  have low : c ∈ l.subtrees := Marked.mem_subtrees_trans (Marked.mem_subtrees_of_child child) below
  exact forest.holds_single.index_lt (Marked.mem_marks.mpr ⟨c, low, rfl⟩)

/-! ### Stores that differ in the numbers of new slots -/

def view (s s₁ : Store) (root : NodeId) (path : List Nat) : Option (NodeId × Option Node) :=
  (s₁.follow root path).map fun j =>
    (collapse s j, (s₁.node? j).map fun n => ⟨n.kind.map id (collapse s), n.span⟩)

/-- Two stores hold the same tree below a node, up to the numbers of slots that a third one does not have. -/
structure SameBelow (s s₁ s₂ : Store) (root : NodeId) : Prop where
  first : s₁.TreeAt root
  second : s₂.TreeAt root
  view : ∀ path, view s s₁ root path = view s s₂ root path

section
variable {s₁ s₂ : Store} {l₁ l₂ : Layout}

theorem span_eq_of_collapsed (holds₁ : s₁.Holds l₁) (holds₂ : s₂.Holds l₂) (grows₁ : s.Grows s₁) (grows₂ : s.Grows s₂)
    (old : OldBelow (fun j : NodeId => j.index < s.size) l₁.kind)
    (same : l₁.map (collapse s) id = l₂.map (collapse s) id) : s₁.span l₁.mark = s₂.span l₂.mark := by
  have marks {a b : Layout} (same : a.map (collapse s) id = b.map (collapse s) id) :
      collapse s a.mark = collapse s b.mark := by
    rw [← Marked.mark_map (collapse s) id, same, Marked.mark_map]
  have spans {j : NodeId} (low : j.index < s.size) : s₁.span j = s₂.span j := by
    rw [grows₁.span_eq low, grows₂.span_eq low]
  by_cases low : l₁.mark.index < s.size
  · rw [← eq_of_collapse_eq low (marks same)]
    exact spans low
  · have low₂ : ¬ l₂.mark.index < s.size := fun low₂ =>
      low (eq_of_collapse_eq low₂ (marks same.symm) ▸ low₂)
    -- Both are let clauses, and their values are old.
    obtain ⟨x, value₁, here₁, span₁⟩ := grows₁.newLets (Nat.le_of_not_lt low)
      (holds₁.index_lt (Marked.mark_mem_marks _))
    obtain ⟨y, value₂, here₂, span₂⟩ := grows₂.newLets (Nat.le_of_not_lt low₂)
      (holds₂.index_lt (Marked.mark_mem_marks _))
    obtain ⟨k₁, layer₁, image₁⟩ := layerMap_holds.back holds₁ here₁
    obtain ⟨k₂, layer₂, image₂⟩ := layerMap_holds.back holds₂ here₂
    cases k₁ <;> simp only [Kind.map, reduceCtorEq, Kind.letClause.injEq] at image₁
    cases k₂ <;> simp only [Kind.map, reduceCtorEq, Kind.letClause.injEq] at image₂
    obtain ⟨-, rfl⟩ := image₁
    obtain ⟨-, rfl⟩ := image₂
    have layer₁ : l₁.kind = _ := layer₁
    have layer₂ : l₂.kind = _ := layer₂
    have kinds := congrArg Marked.kind same
    rw [Marked.kind_map, Marked.kind_map, layer₁, layer₂] at kinds
    have values := (Kind.letClause.inj kinds).2
    rw [layer₁] at old
    have low := old rfl _ List.mem_cons_self
    rw [span₁, span₂, ← eq_of_collapse_eq low (marks values)]
    exact spans low

theorem sameBelow_of_collapsed (forest₁ : s₁.Forest [l₁]) (forest₂ : s₂.Forest [l₂]) (grows₁ : s.Grows s₁)
    (grows₂ : s.Grows s₂) (old : l₁.All (OldBelow fun j : NodeId => j.index < s.size))
    (same : l₁.map (collapse s) id = l₂.map (collapse s) id) (root : l₁.mark = l₂.mark) :
    SameBelow s s₁ s₂ l₁.mark := by
  refine ⟨treeAt_iff.mpr ⟨l₁, rfl, forest₁.holds_single, forest₁.nodup_single⟩,
    treeAt_iff.mpr ⟨l₂, root.symm, forest₂.holds_single, forest₂.nodup_single⟩, fun path => ?_⟩
  have places : (l₁.at? path).map (Marked.map (collapse s) id) = (l₂.at? path).map (Marked.map (collapse s) id) := by
    rw [← Marked.at?_map, same, Marked.at?_map]
  rw [Normalize.view, forest₁.holds_single.follow_eq, root, Normalize.view, forest₂.holds_single.follow_eq]
  cases place₁ : l₁.at? path with
  | none =>
    rw [place₁] at places
    rw [Option.map_eq_none_iff.mp places.symm]
    rfl
  | some n₁ =>
    rw [place₁] at places
    obtain ⟨n₂, place₂, same⟩ := Option.map_eq_some_iff.mp places.symm
    have below₁ := Marked.mem_subtrees_of_at? place₁
    have holds₁ := forest₁.holds_single.of_mem below₁
    have holds₂ := forest₂.holds_single.of_mem (Marked.mem_subtrees_of_at? place₂)
    obtain ⟨span₁, found₁, known₁⟩ := holds₁.node?
    obtain ⟨span₂, found₂, known₂⟩ := holds₂.node?
    have spans := span_eq_of_collapsed holds₁ holds₂ grows₁ grows₂ (old n₁ below₁) same.symm
    rw [known₁, known₂] at spans
    cases spans
    simp only [place₂, Option.map_some, found₁, found₂, ← Marked.cell_map, same]
    rw [← Marked.mark_map (collapse s) id, ← same, Marked.mark_map]

end

/-! ### Runs that fail -/

section
variable (rules : Rules) (names : NameTable) {root : NodeId}

theorem unnamedAt_of_step {query : NodeId} {e : BrokenInvariant}
    (step : QueryStep reading s query (.error (.broken e)) s 0) :
    s.UnnamedAt reading.transparent query e ∧ s.span e.node = .ok e.span := by
  cases step with
  | stopped el unnamed =>
    refine ⟨?_, by rw [Store.span, el.found]⟩
    have kind : s.kind? el.value = some el.node.kind := by
      rw [kind?, el.found]
      rfl
    have shape := el.shape
    generalize el.declared = declared at shape unnamed
    cases shape with
    | reexport | shorthand => cases (letName_eq_error_iff.mp unnamed).1
    | undeclared projection pair bare known anonymous =>
      cases Layer.unique kind known
      obtain ⟨-, ⟨noIdent, noMember⟩, violation⟩ := letName_eq_error_iff.mp unnamed
      exact ⟨el.first, el.rest, el.ident, el.elemType, el.source, el.inner, el.select, _, _, _, el.node.kind, el.here,
        el.clause, el.bound, el.nested, el.last, projection, pair, bare, kind, noIdent, noMember, anonymous, violation⟩

theorem QueryStep.old_node {old : NodeId → Prop} {query : NodeId} {k : Kind Name Layout} {e : BrokenInvariant}
    (step : QueryStep reading s query (.error (.broken e)) s 0) (holds : s.Holds (.node query k))
    (all : (Marked.node query k).All (OldBelow old)) : old e.node := by
  cases step with
  | stopped el unnamed =>
    obtain ⟨type, inner, ls, value, same, -, -, found, place, -⟩ := el.exists_layout holds
    obtain ⟨-, -, select, last, shape⟩ := recognized?_eq_some found
    rw [same] at all
    have inFirst := (Marked.all_node.mp all).2 _ List.mem_cons_self
    have inSource := (Marked.all_node.mp inFirst).2 (.node el.source (.query inner)) (by simp [Kind.children])
    rw [← place]
    exact shape.old_value ((Marked.all_node.mp inSource).2 select (List.mem_of_getLast? last))

/-- What comes before the failure is what runs of their own leave. -/
theorem Turned.sameBelow {n n' : Layout} (turned : Turned (rules.numbered names) s.size n n') (forest : s.Forest [n])
    (after : s'.Forest [n']) (grows : s.Grows s') :
    (∃ stats, (normalize rules names s n.mark).result = .ok stats) ∧
      SameBelow s (normalize rules names s n.mark).store s' n.mark := by
  have collapses (s₁ : Store) (grown : s.size ≤ s₁.size) (j : NodeId) (new : s₁.size ≤ j.index) :
      collapse s j = ⟨s.size⟩ := collapse_eq_iff.mpr (Nat.le_trans grown new)
  obtain ⟨s₁, s₂, gain, grown, forest₁, passes⟩ := turned
  obtain ⟨breach, run, ok⟩ := passes.mapM_visitTree forest₁ (collapses s₁ grown)
  obtain ⟨rfl, -⟩ := ok.ok
  obtain ⟨result, l, gain', passes', ended⟩ := normalize_passes rules names forest
  obtain ⟨breach, run', ends⟩ := passes'.mapM_visitTree forest (collapses s (Nat.le_refl _))
  rw [run, Prod.mk.injEq, Progress.mk.injEq] at run'
  obtain ⟨images, -, rfl⟩ := run'
  obtain rfl := ends
  have change := passes'.rewrites forest
  have old := passes'.oldBelow_single forest
  have roots : l.mark = n'.mark := change.root.trans (passes.rewrites forest₁).root.symm
  refine ⟨⟨gain', ended⟩, ?_⟩
  have same := sameBelow_of_collapsed change.forest after (passes'.grows forest) grows old
    (List.singleton_inj.mp images).symm roots
  rwa [change.root] at same

/-- A run that fails stops at a query whose record it cannot take apart. This query, all above it, all after
it and all that is not below the root are as they were before the run; and the largest parts before it, the
children of the query among them, are as runs on each of them alone leave them, up to the numbers of new
nodes. -/
theorem normalize_stops {e : BrokenInvariant} (tree : s.TreeAt root)
    (failed : (normalize rules names s root).result = .error (.broken e)) :
    let s' := (normalize rules names s root).store
    ∃ place query, s.follow root place = some query ∧ s'.follow root place = some query ∧
      s'.UnnamedAt (isTransparent rules names) query e ∧ s.span e.node = .ok e.span ∧
      (∀ path id, s.follow root path = some id → path = place ∨ Precedes place path → s'.node? id = s.node? id) ∧
      (∀ id : NodeId, id.index < s.size → (∀ path, s.follow root path ≠ some id) → s'.node? id = s.node? id) ∧
      ∀ path i c, s.follow root (path ++ [i]) = some c → Precedes (path ++ [i]) place → ¬ Precedes path place →
        (∃ stats, (normalize rules names s c).result = .ok stats) ∧
          SameBelow s (normalize rules names s c).store s' c := by
  intro s'
  obtain ⟨l, rfl, holds, nodup⟩ := treeAt_iff.mp tree
  have forest : s.Forest [l] := .single holds nodup
  obtain ⟨result, l', gain, passes, ended⟩ := normalize_passes rules names forest
  obtain rfl : result = .error (.broken e) := by
    rw [failed] at ended
    cases result with
    | ok => cases ended
    | error => exact congrArg Except.error (Except.error.inj ended).symm
  have change := passes.rewrites forest
  have grows := passes.grows forest
  obtain ⟨place, stops⟩ := passes.stops forest
  obtain ⟨j, place, rfl⟩ := stops.exists_cons
  obtain ⟨query, cs, cs', found, found', step⟩ := stops.here
  -- There is one layout only, so the place is one below its root.
  obtain rfl : j = 0 := by
    cases j with
    | zero => rfl
    | succ j => cases found
  have found : l.at? place = some (.node query (.query cs)) := found
  have found' : l'.at? place = some (.node query (.query cs')) := found'
  have holds' := change.forest.holds_single
  obtain ⟨unnamed, span⟩ := unnamedAt_of_step step
  refine ⟨place, query, ?_, ?_, unnamed, ?_, ?_, fun id => change.frame_follow holds, ?_⟩
  · rw [holds.follow_eq, found]
    rfl
  · rw [← change.root, holds'.follow_eq, found']
    rfl
  · have inside : (Marked.node query (.query cs')) ∈ l'.subtrees := Marked.mem_subtrees_of_at? found'
    have old : e.node.index < s.size :=
      step.old_node (holds'.of_mem inside) ((passes.oldBelow_single forest).of_mem inside)
    rw [← grows.span_eq old]
    exact span
  · intro path id there after
    rw [holds.follow_eq] at there
    obtain ⟨n, at_path, rfl⟩ := Option.map_eq_some_iff.mp there
    refine stops.later (0 :: path) n at_path (after.imp (congrArg _) fun after => .inr ⟨rfl, after⟩)
  · intro path i c there before largest
    rw [holds.follow_eq] at there
    obtain ⟨n, at_path, rfl⟩ := Option.map_eq_some_iff.mp there
    obtain ⟨n', at_path', turned⟩ := stops.earlier (0 :: (path ++ [i])) n at_path
      (.inr ⟨rfl, beside_of_precedes before largest⟩)
    have below := Marked.mem_subtrees_of_at? at_path
    have below' : n' ∈ l'.subtrees := Marked.mem_subtrees_of_at? at_path'
    exact turned.sameBelow rules names (forest.below below) (change.forest.below below') grows

theorem normalize_stops_interrupted :
    let rules : Rules := ⟨{}, (· = "t")⟩
    let names : NameTable := ⟨#["", "xs", "x", "y", "t", "z", "a"], ∅⟩
    let s := Layout.interrupted.store
    let s' := (normalize rules names s ⟨28⟩).store
    let e : BrokenInvariant := ⟨⟨17⟩, .none, .unnamedInitializer "literal"⟩
    s.TreeAt ⟨28⟩ ∧ (normalize rules names s ⟨28⟩).result = .error (.broken e) ∧ s'.size = s.size + 1 ∧
      ∃ place query, s.follow ⟨28⟩ place = some query ∧ s'.UnnamedAt (isTransparent rules names) query e ∧
        s'.node? query = s.node? query := by
  intro rules names s s' e
  have tree : s.TreeAt ⟨28⟩ := Layout.treeAt_store (by decide) (by decide)
  have failed : (normalize rules names s ⟨28⟩).result = .error (.broken e) := by
    decide +kernel +zetaReduce
  have grown : s'.size = s.size + 1 := by
    decide +kernel +zetaReduce
  obtain ⟨place, query, found, -, unnamed, -, stays, -⟩ := normalize_stops rules names tree failed
  exact ⟨tree, failed, grown, place, query, found, unnamed, stays place query found (.inl rfl)⟩

end

end Normalize

end Comprehension
