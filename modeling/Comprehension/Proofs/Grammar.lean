import Comprehension.Proofs.Canonical
import Comprehension.Proofs.Simulation

/-! The grammar of queries: every child of a node has a place, and in each place there are only kinds
that fit it. A run keeps to the grammar at every step, also where it stops early. -/

set_option autoImplicit false

namespace Comprehension

inductive Place where
  /-- The first clause of a query. -/
  | opening
  /-- A clause between the first and the last one. -/
  | middle
  /-- The last clause of a query. -/
  | ending
  /-- What a continuation goes on from. -/
  | preceding
  | ordering
  | initializer
  | expression
  | type
  deriving DecidableEq, Repr

namespace Kind

variable {ν μ α β : Type}

def isExpression : Kind ν α → Bool
  | .ident .. | .member .. | .call .. | .binary .. | .literal _ | .record _ | .query _ => true
  | _ => false

def fits : Kind ν α → Place → Bool
  | .fromClause .., .opening | .continuation .., .opening => true
  | .fromClause .., .middle | .letClause .., .middle | .whereClause _, .middle | .orderClause _, .middle => true
  | .selectClause _, .ending | .groupClause .., .ending => true
  | .query _, .preceding => true
  | .ordering .., .ordering => true
  | .named .., .initializer => true
  | .typeRef .., .type => true
  | k, .initializer | k, .expression => k.isExpression
  | _, _ => false

/-- The places of the children, in the order of `children`. A query has at least two clauses. -/
def places : Kind ν α → List Place
  | .query clauses => .opening :: (List.replicate (clauses.length - 2) .middle ++ [.ending])
  | .fromClause _ elemType _ => elemType.toList.map (fun _ => .type) ++ [.expression]
  | .continuation .. => [.preceding]
  | .letClause .. | .whereClause _ | .ordering .. | .selectClause _ | .named .. => [.expression]
  | .groupClause .. | .binary .. => [.expression, .expression]
  | .orderClause orderings => orderings.map fun _ => .ordering
  | .record initializers => initializers.map fun _ => .initializer
  | .member _ _ typeArgs => .expression :: typeArgs.map fun _ => .type
  | .call _ args => .expression :: args.map fun _ => .expression
  | .ident _ args | .typeRef _ args => args.map fun _ => .type
  | .literal _ => []

def Arranged (checked : Place → Bool) (fits : α → Place → Prop) (k : Kind ν α) : Prop :=
  List.Forall₂ (fun c place => checked place = true → fits c place) k.children k.places

instance (checked : Place → Bool) (fits : α → Place → Prop) [∀ c place, Decidable (fits c place)]
    (k : Kind ν α) : Decidable (k.Arranged checked fits) :=
  inferInstanceAs (Decidable (List.Forall₂ _ k.children k.places))

@[simp] theorem fits_map (name : ν → μ) (child : α → β) (k : Kind ν α) (place : Place) :
    (k.map name child).fits place = k.fits place := by
  cases k <;> cases place <;> rfl

@[simp] theorem fits_refill (k : Kind ν α) (l : List α) (place : Place) :
    (k.refill l).fits place = k.fits place := by
  cases k with
  | fromClause x elemType source => cases elemType <;> cases place <;> rfl
  | _ => cases place <;> rfl

theorem fits_of_isQuery {k : Kind ν α} {k' : Kind μ β} (query : k.isQuery = true) (query' : k'.isQuery = true)
    (place : Place) : k'.fits place = k.fits place := by
  obtain ⟨clauses, rfl⟩ := eq_query_of_isQuery query
  obtain ⟨clauses', rfl⟩ := eq_query_of_isQuery query'
  cases place <;> rfl

@[simp] theorem places_map (name : ν → μ) (child : α → β) (k : Kind ν α) :
    (k.map name child).places = k.places := by
  cases k with
  | fromClause x elemType source => cases elemType <;> rfl
  | _ => simp [map, places, Function.comp_def]

theorem places_refill {k : Kind ν α} {l : List α} (same : l.length = k.children.length) :
    (k.refill l).places = k.places := by
  cases k with
  | fromClause x elemType source => cases elemType <;> rfl
  | query | orderClause | record | ident | typeRef => simp_all [refill, places, children, List.map_const']
  | member | call =>
    cases l with
    | nil => simp [children] at same
    | cons a l => simp_all [refill, places, children, List.map_const']
  | _ => rfl

section
variable {checked : Place → Bool} {fits : α → Place → Prop} {fits' : β → Place → Prop}

theorem arranged_map {name : ν → μ} {child : β → α} {k : Kind ν β} :
    (k.map name child).Arranged checked fits ↔ k.Arranged checked fun c => fits (child c) := by
  rw [Arranged, children_map, places_map, List.forall₂_map_left_iff]
  rfl

theorem Arranged.mono {k : Kind ν α} {k' : Kind μ β} (arranged : k.Arranged checked fits)
    (places : k'.places = k.places)
    (children : List.Forall₂ (fun c c' => ∀ place, fits c place → fits' c' place) k.children k'.children) :
    k'.Arranged checked fits' := by
  rw [Arranged] at arranged
  rw [Arranged, places]
  generalize k.places = l at arranged
  generalize k.children = cs at arranged children
  generalize k'.children = cs' at children
  induction children generalizing l with
  | nil =>
    cases arranged
    exact .nil
  | cons first _ ih =>
    cases arranged with
    | cons here rest => exact .cons (fun looked => first _ (here looked)) (ih _ rest)

private theorem forall₂_middle_ending {n : Nat} {l : List α} {R : α → Place → Prop} :
    List.Forall₂ R l (List.replicate n .middle ++ [.ending]) ↔
      ∃ between last, l = between ++ [last] ∧ between.length = n ∧ (∀ c ∈ between, R c .middle) ∧
        R last .ending := by
  induction n generalizing l with
  | zero =>
    constructor
    · intro related
      cases related with
      | cons here rest =>
        cases rest
        exact ⟨[], _, rfl, rfl, by simp, here⟩
    · rintro ⟨between, last, rfl, empty, -, ends⟩
      obtain rfl := List.length_eq_zero_iff.mp empty
      exact .cons ends .nil
  | succ n ih =>
    rw [List.replicate_succ, List.cons_append, List.forall₂_cons_right_iff]
    constructor
    · rintro ⟨c, l, here, rest, rfl⟩
      obtain ⟨between, last, rfl, rfl, each, ends⟩ := ih.mp rest
      exact ⟨c :: between, last, rfl, rfl, List.forall_mem_cons.mpr ⟨here, each⟩, ends⟩
    · rintro ⟨between, last, rfl, length, each, ends⟩
      obtain ⟨c, between, rfl⟩ := List.exists_cons_of_length_eq_add_one length
      obtain ⟨here, each⟩ := List.forall_mem_cons.mp each
      exact ⟨c, between ++ [last], here, ih.mpr ⟨between, last, rfl, Nat.succ.inj length, each, ends⟩, rfl⟩

theorem arranged_query {clauses : List α} :
    (.query clauses : Kind ν α).Arranged checked fits ↔
      ∃ first between last, clauses = first :: (between ++ [last]) ∧
        (checked .opening = true → fits first .opening) ∧
        (∀ c ∈ between, checked .middle = true → fits c .middle) ∧
        (checked .ending = true → fits last .ending) := by
  rw [Arranged, children, places, List.forall₂_cons_right_iff]
  constructor
  · rintro ⟨first, l, opens, rest, rfl⟩
    obtain ⟨between, last, rfl, -, each, ends⟩ := forall₂_middle_ending.mp rest
    exact ⟨first, between, last, rfl, opens, each, ends⟩
  · rintro ⟨first, between, last, rfl, opens, each, ends⟩
    exact ⟨first, _, opens, forall₂_middle_ending.mpr ⟨between, last, rfl, by simp, each, ends⟩, rfl⟩

end

end Kind

def Marked.WellSorted {ι ν : Type} (checked : Place → Bool) (t : Marked ι ν) : Prop :=
  t.All (Kind.Arranged checked fun c place => c.kind.fits place = true)

instance {ι ν : Type} (checked : Place → Bool) (t : Marked ι ν) : Decidable (t.WellSorted checked) :=
  inferInstanceAs (Decidable (t.All (Kind.Arranged checked fun c place => c.kind.fits place = true)))

def Store.WellSortedAt (s : Store) (checked : Place → Bool) (root : NodeId) : Prop :=
  ∀ {path id k}, s.follow root path = some id → s.kind? id = some k →
    k.Arranged checked fun c place => ∃ k', s.kind? c = some k' ∧ k'.fits place = true

structure Store.WellFormedAt (s : Store) (root : NodeId) : Prop extends s.TreeAt root where
  sorted : s.WellSortedAt (fun _ => true) root

section
variable {ι κ ν : Type} {checked : Place → Bool}

theorem Marked.wellSorted_node {m : ι} {k : Kind ν (Marked ι ν)} : (node m k).WellSorted checked ↔
    k.Arranged checked (fun c place => c.kind.fits place = true) ∧ ∀ c ∈ k.children, c.WellSorted checked :=
  all_node

theorem Marked.wellSorted_map (f : ι → κ) {t : Marked ι ν} :
    (t.map f id).WellSorted checked ↔ t.WellSorted checked := by
  simp only [WellSorted, All, subtrees_map, List.forall_mem_map, kind_map, Kind.arranged_map, Kind.fits_map]

theorem Store.Holds.wellSortedAt_iff {s : Store} {l : Layout} (holds : s.Holds l) :
    s.WellSortedAt checked l.mark ↔ l.WellSorted checked := by
  -- In a layout a child fits a place exactly if the kind in its slot does.
  have layers : ∀ n ∈ l.subtrees,
      (n.cell.Arranged checked (fun c place => ∃ k', s.kind? c = some k' ∧ k'.fits place = true) ↔
        n.kind.Arranged checked fun c place => c.kind.fits place = true) := by
    intro n below
    rw [Marked.cell, Kind.arranged_map]
    have each : ∀ c ∈ n.kind.children, ∀ place,
        (∃ k', s.kind? c.mark = some k' ∧ k'.fits place = true) ↔ c.kind.fits place = true := by
      intro c child place
      have here := (holds.of_mem below).of_mem (Marked.mem_subtrees_of_child child)
      rw [here.kind?]
      simp [Marked.cell]
    constructor
    · intro arranged
      exact arranged.mono rfl (List.forall₂_same.mpr fun c child place => (each c child place).mp)
    · intro arranged
      exact arranged.mono rfl (List.forall₂_same.mpr fun c child place => (each c child place).mpr)
  constructor
  · intro sorted n below
    obtain ⟨path, found⟩ := holds.exists_follow_iff.mpr ⟨n, below, rfl⟩
    exact (layers n below).mp (sorted found (holds n below))
  · intro sorted path id k found here
    obtain ⟨n, below, rfl⟩ := holds.exists_follow_iff.mp ⟨path, found⟩
    cases here.symm.trans (holds n below)
    exact (layers n below).mpr (sorted n below)

theorem Store.wellFormedAt_iff {s : Store} {root : NodeId} : s.WellFormedAt root ↔
    ∃ l : Layout, l.mark = root ∧ s.Holds l ∧ l.marks.Nodup ∧ l.WellSorted fun _ => true := by
  constructor
  · intro wellFormed
    obtain ⟨l, rfl, holds, nodup⟩ := treeAt_iff.mp wellFormed.toTreeAt
    exact ⟨l, rfl, holds, nodup, holds.wellSortedAt_iff.mp wellFormed.sorted⟩
  · rintro ⟨l, rfl, holds, nodup, sorted⟩
    exact ⟨treeAt_iff.mpr ⟨l, rfl, holds, nodup⟩, holds.wellSortedAt_iff.mpr sorted⟩

end

/-- `from t in (from x in xs.Cast<T>() select new { x, 1 }) select t.y`, with the names of `nested`. -/
def Layout.unnamed : Layout :=
  .node ⟨14⟩ (.query [
    .node ⟨10⟩ (.fromClause ⟨7⟩ none (.node ⟨9⟩ (.query [
      .node ⟨4⟩ (.fromClause ⟨4⟩ none (.node ⟨3⟩ (.call (.node ⟨2⟩ (.member (.node ⟨0⟩ (.ident ⟨1⟩ [])) ⟨3⟩
        [.node ⟨1⟩ (.typeRef ⟨2⟩ [])])) []))),
      .node ⟨8⟩ (.selectClause (.node ⟨7⟩ (.record [
        .node ⟨5⟩ (.ident ⟨4⟩ []),
        .node ⟨6⟩ (.literal (.int 1))])))]))),
    .node ⟨13⟩ (.selectClause (.node ⟨12⟩ (.member (.node ⟨11⟩ (.ident ⟨7⟩ [])) ⟨6⟩ [])))])

namespace Normalize

section
variable {ι ν : Type} {checked : Place → Bool} {k : Kind ν (Marked ι ν)} {m fresh : ι}

/-! ### Cleaning -/

theorem fits_cleaned (transparent : ν → Bool) (t : Marked ι ν) (place : Place) :
    (cleaned transparent t).1.kind.fits place = t.kind.fits place := by
  rcases kind_cleaned transparent t with same | ⟨target, x, typeArgs, access, ident⟩
  · rw [same, Kind.fits_map]
  · rw [access, ident]
    cases place <;> rfl

theorem wellSorted_cleaned (transparent : ν → Bool) {t : Marked ι ν} (sorted : t.WellSorted checked) :
    (cleaned transparent t).1.WellSorted checked := by
  induction t using Marked.induction with
  | step m k ih =>
    obtain ⟨here, below⟩ := Marked.wellSorted_node.mp sorted
    have children : ∀ c ∈ (k.map id fun c => (cleaned transparent c).1).children, c.WellSorted checked := by
      simp only [Kind.children_map, List.mem_map]
      rintro _ ⟨c, child, rfl⟩
      exact ih c child (below c child)
    have layer : (k.map id fun c => (cleaned transparent c).1).Arranged checked
        fun c place => c.kind.fits place = true := by
      simpa only [Kind.arranged_map, fits_cleaned] using here
    rw [cleaned_node_fst]
    generalize k.map id (fun c => (cleaned transparent c).1) = layer' at layer children
    apply Marked.wellSorted_node.mpr
    cases found : plainLayer? transparent layer' with
    | none => exact ⟨layer, children⟩
    | some plain =>
      -- The type arguments stay, the target is dropped.
      obtain ⟨target, x, typeArgs, rfl, rfl⟩ := plainLayer?_eq_some found
      cases layer with
      | cons _ types => exact ⟨types, fun c child => children c (List.mem_cons_of_mem _ child)⟩

/-! ### Parts without clauses -/

def Clauseless (t : Marked ι ν) : Prop := t.All fun k => k.isQuery = false ∧ k.isClause = false

section
variable (types : checked .type = true)
include types

theorem fits_type_of_mem {args : List (Marked ι ν)} (arranged : List.Forall₂
      (fun c place => checked place = true → c.kind.fits place = true) args (args.map fun _ => .type)) :
    ∀ c ∈ args, c.kind.fits .type = true := by
  rw [List.forall₂_map_right_iff, List.forall₂_same] at arranged
  exact fun c member => arranged c member types

theorem clauseless_type {t : Marked ι ν} (sorted : t.WellSorted checked) (type : t.kind.fits .type = true) :
    Clauseless t := by
  induction t using Marked.induction with
  | step m k ih =>
    obtain ⟨here, below⟩ := Marked.wellSorted_node.mp sorted
    cases k with
    | typeRef x args =>
      refine Marked.all_node.mpr ⟨⟨rfl, rfl⟩, fun c child => ih c child (below c child) ?_⟩
      exact fits_type_of_mem types here c child
    | _ => cases type

theorem clauseless_ident {x : ν} {args : List (Marked ι ν)}
    (sorted : (Marked.node m (.ident x args)).WellSorted checked) : Clauseless (Marked.node m (.ident x args)) := by
  obtain ⟨here, below⟩ := Marked.wellSorted_node.mp sorted
  refine Marked.all_node.mpr ⟨⟨rfl, rfl⟩, fun c child => clauseless_type types (below c child) ?_⟩
  exact fits_type_of_mem types here c child

theorem clauseless_elemType {x : ν} {elemType source : Marked ι ν}
    (sorted : (Marked.node m (.fromClause x (some elemType) source)).WellSorted checked) : Clauseless elemType := by
  obtain ⟨here, below⟩ := Marked.wellSorted_node.mp sorted
  cases here with
  | cons fits _ => exact clauseless_type types (below elemType List.mem_cons_self) (fits types)

/-- A value that needs no let clause is the name under which it is known, with type arguments. -/
theorem clauseless_of_letName [DecidableEq ν] {value : Marked ι ν} {declared : Option ν}
    (sorted : value.WellSorted checked) (named : letName declared value.kind = .ok none) : Clauseless value := by
  obtain ⟨m, k⟩ := value
  cases k with
  | ident x args => exact clauseless_ident types sorted
  | _ => cases declared <;> cases named

/-- What cleaning turns into an identifier has no clauses, so none is lost. -/
theorem clauseless_of_cleaned {transparent : ν → Bool} {t : Marked ι ν} (sorted : t.WellSorted checked) {x : ν}
    {args : List (Marked ι ν)} (ident : (cleaned transparent t).1.kind = .ident x args) : Clauseless t := by
  induction t using Marked.induction generalizing x args with
  | step m k ih =>
    rcases kind_cleaned transparent (.node m k) with same | ⟨target, y, typeArgs, access, -⟩
    · rw [ident] at same
      cases k <;> simp only [Marked.kind_node, Kind.map, reduceCtorEq] at same
      exact clauseless_ident types sorted
    · cases access
      -- The target is an identifier after cleaning, and the rest are type arguments.
      obtain ⟨z, targetArgs, inner, -⟩ := cleaned_target rfl ident
      obtain ⟨here, below⟩ := Marked.wellSorted_node.mp sorted
      refine Marked.all_node.mpr ⟨⟨rfl, rfl⟩, fun c child => ?_⟩
      cases here with
      | cons _ arranged =>
        rcases List.mem_cons.mp child with rfl | member
        · exact ih c child (below c child) inner
        · exact clauseless_type types (below c child) (fits_type_of_mem types arranged c member)

end

/-! ### The work at a query -/

variable [DecidableEq ν]

/-- The new clauses keep to the grammar. An initializer without a name is an expression, so where
expressions are checked, initializers have to be. -/
theorem carries_arranged (initializers : checked .expression = true → checked .initializer = true) :
    Carries (Kind.Arranged (ν := ν) (α := Marked ι ν) checked fun c place => c.kind.fits place = true) where
  lets {select value declared x} sorted shape named := by
    refine .cons (fun looked => ?_) .nil
    obtain ⟨record, first, second, -, projection, pair, -, either⟩ := shape.initializers
    have inRecord : record ∈ select.subtrees := projection.child_mem (by simp [Kind.children])
    rcases either with ⟨y, -, declared⟩ | ⟨-, rfl, k, is, anonymous⟩
    · have low : second ∈ record.subtrees := pair.child_mem (by simp [Kind.children])
      have here := sorted second (Marked.mem_subtrees_trans low inRecord)
      rw [show second.kind = _ from declared] at here
      cases here with
      | cons fits _ => exact fits looked
    · -- The value is the initializer itself, in the place of one.
      have here := sorted record inRecord
      rw [show record.kind = _ from pair] at here
      cases here with
      | cons _ rest =>
        cases rest with
        | cons fits _ =>
          have fits : second.kind.fits .initializer = true := fits (initializers looked)
          rw [show second.kind = k from is] at fits ⊢
          cases k with
          | named y v => exact absurd rfl (anonymous y v)
          | _ => exact fits
  continues _ query := by
    refine .cons (fun _ => ?_) .nil
    obtain ⟨clauses, is⟩ := Kind.eq_query_of_isQuery query
    rw [is]
    rfl
  annotates _ sorted shape := by
    obtain ⟨call, member, -⟩ := shape
    rename_i target _
    have here := sorted target (call.child_mem (by simp [Kind.children]))
    rw [show target.kind = _ from member] at here
    cases here with
    | cons base types =>
      cases types with
      | cons type _ => exact .cons type (.cons base .nil)

theorem arranged_layer (reading : Reading ν) (fresh : ι)
    (sorted : (Marked.node m k).WellSorted checked) :
    ((action reading k).layer fresh k).Arranged checked fun c place => c.kind.fits place = true := by
  obtain ⟨here, below⟩ := Marked.wellSorted_node.mp sorted
  obtain ⟨asks, asked, known⟩ := exists_asks reading k
  rw [asked]
  cases known with
  | keep | stop => exact here
  | continuation refused =>
    obtain ⟨first, between, last, is, -, each, ends⟩ := Kind.arranged_query.mp here
    cases is
    exact Kind.arranged_query.mpr ⟨_, between, last, rfl, fun _ => rfl, each, ends⟩
  | annotate enabled shape =>
    obtain ⟨first, between, last, is, -, each, ends⟩ := Kind.arranged_query.mp here
    cases is
    exact Kind.arranged_query.mpr ⟨_, between, last, rfl, fun _ => rfl, each, ends⟩
  | splice transparent shape named =>
    rename_i fm im x elemType moved rest select value declared name
    -- The opening is that of the nested query, the ending that of the query itself.
    have inFirst := (Marked.wellSorted_node.mp (below _ List.mem_cons_self)).2
    have inSource := (Marked.wellSorted_node.mp
      (inFirst (.node im (.query (moved ++ [select]))) (by simp [Kind.children]))).1
    obtain ⟨opening, before, select', is', opens, each', -⟩ := Kind.arranged_query.mp inSource
    obtain ⟨first, after, last, is, -, each, ends⟩ := Kind.arranged_query.mp here
    rw [← List.cons_append] at is'
    obtain ⟨rfl, -⟩ := List.append_inj' is' rfl
    cases is
    refine Kind.arranged_query.mpr
      ⟨opening, before ++ letClauses fresh (name.map (·, value)) ++ after, last, by simp, opens, ?_, ends⟩
    intro c member
    rcases List.mem_append.mp member with member | member
    · rcases List.mem_append.mp member with member | member
      · exact each' c member
      · cases name with
        | none => cases member
        | some y =>
          obtain rfl := List.mem_singleton.mp member
          exact fun _ => rfl
    · exact each c member

theorem wellSorted_layer (reading : Reading ν) (fresh : ι)
    (initializers : checked .expression = true → checked .initializer = true)
    (sorted : (Marked.node m k).WellSorted checked) :
    (Marked.node m ((action reading k).layer fresh k)).WellSorted checked :=
  Marked.wellSorted_node.mpr ⟨arranged_layer reading fresh sorted,
    (asks_action reading k).all_children (carries_arranged initializers) fresh (Marked.wellSorted_node.mp sorted).2⟩

theorem fits_settle (reading : Reading ν) (fresh m : ι) (k : Kind ν (Marked ι ν)) (place : Place) :
    (settle reading fresh m k).1.kind.fits place = k.fits place := by
  cases query : k.isQuery with
  | false => rw [settle_other _ _ _ query, Marked.kind_node]
  | true => exact Kind.fits_of_isQuery query (isQuery_settle query) place

theorem wellSorted_settle (reading : Reading ν) (fresh : ι)
    (initializers : checked .expression = true → checked .initializer = true)
    (sorted : (Marked.node m k).WellSorted checked) : (settle reading fresh m k).1.WellSorted checked :=
  all_settle (carries_arranged initializers) fresh m (Marked.wellSorted_node.mp sorted).2
    (fun _ => wellSorted_cleaned _) (arranged_layer reading fresh sorted)

/-! ### Whole visits -/

/-- A visit keeps to the grammar from any progress on, and what it leaves fits where the tree did. -/
theorem wellSorted_visitTree (reading : Reading ν) (fresh : ι)
    (initializers : checked .expression = true → checked .initializer = true) {t : Marked ι ν}
    (sorted : t.WellSorted checked) (p : Progress ι) :
    ((visitTree reading fresh t).run p).1.WellSorted checked ∧
      ∀ place, ((visitTree reading fresh t).run p).1.kind.fits place = t.kind.fits place := by
  induction t using Marked.induction generalizing p with
  | step m k ih =>
    obtain ⟨here, below⟩ := Marked.wellSorted_node.mp sorted
    rw [visitTree_run_node, Kind.traverse_run]
    -- Every child is visited from some progress, so the statement is about all of them.
    have visits := Kind.forall₂_mapM_run (f := visitTree reading fresh) k.children p
    have length := visits.length_eq.symm
    have visited :
        (Marked.node m (k.refill ((k.children.mapM (visitTree reading fresh)).run p).1)).WellSorted checked := by
      refine Marked.wellSorted_node.mpr ⟨here.mono (Kind.places_refill length) ?_, fun c child => ?_⟩
      · rw [Kind.children_refill length]
        refine ((List.forall₂_and_left _ _).mpr ⟨fun _ child => child, visits⟩).imp ?_
        rintro c c' ⟨child, q, rfl⟩ place fits
        rwa [(ih c child (below c child) q).2]
      · rw [Kind.children_refill length] at child
        obtain ⟨d, inLayer, q, rfl⟩ := Kind.mem_mapM_run child
        exact (ih d inLayer (below d inLayer) q).1
    cases after : ((k.children.mapM (visitTree reading fresh)).run p).2.breach with
    | none =>
      rw [settleUnlessBroken_run_none reading fresh after]
      refine ⟨wellSorted_settle reading fresh initializers visited, fun place => ?_⟩
      rw [fits_settle, Kind.fits_refill, Marked.kind_node]
    | some breach =>
      rw [settleUnlessBroken_run_some reading fresh (by simp [after])]
      exact ⟨visited, fun place => Kind.fits_refill k _ place⟩

theorem wellSorted_normal {reading : Reading ν} {fresh : ι}
    (initializers : checked .expression = true → checked .initializer = true) {t : Marked ι ν}
    (sorted : t.WellSorted checked) : (normal reading fresh t).WellSorted checked :=
  (wellSorted_visitTree reading fresh initializers sorted {}).1

theorem wellSorted_visited {reading : Reading ν} {fresh : ι}
    (initializers : checked .expression = true → checked .initializer = true)
    (sorted : (Marked.node m k).WellSorted checked) :
    (Marked.node m (k.map id (normal reading fresh))).WellSorted checked := by
  obtain ⟨here, below⟩ := Marked.wellSorted_node.mp sorted
  refine Marked.wellSorted_node.mpr ⟨Kind.arranged_map.mpr (here.mono rfl ?_), ?_⟩
  · refine List.forall₂_same.mpr fun c child place fits => ?_
    exact ((wellSorted_visitTree reading fresh initializers (below c child) {}).2 place).trans fits
  · simp only [Kind.children_map, List.mem_map]
    rintro _ ⟨c, child, rfl⟩
    exact wellSorted_normal initializers (below c child)

end

section
variable (rules : Rules) (names : NameTable) {s : Store} {root : NodeId}

theorem ResultOf.ends {ι α : Type} {f : NodeId → ι} {a : α} {breach : Option (Breach ι)}
    {result : Except Failure α} (known : ResultOf f a breach result) :
    (∃ a, result = .ok a) ∨ ∃ e, result = .error (.broken e) := by
  cases breach with
  | none => exact .inl ⟨a, known⟩
  | some breach =>
    obtain ⟨e, broken, -⟩ := known
    exact .inr ⟨e, broken⟩

theorem normalize_wellSorted {checked : Place → Bool} {l : Layout}
    (initializers : checked .expression = true → checked .initializer = true) (forest : s.Forest [l])
    (sorted : l.WellSorted checked) :
    ∃ l' : Layout, Store.Rewrites s [l] (normalize rules names s l.mark).store [l'] ∧
      l'.WellSorted checked := by
  obtain ⟨l', change, image, -⟩ := normalize_run_shape rules names forest
  have shape : l.shape.WellSorted checked := (Marked.wellSorted_map _).mpr sorted
  have visited := (wellSorted_visitTree (rules.numbered names) () initializers shape {}).1
  rw [← image] at visited
  exact ⟨l', change, (Marked.wellSorted_map _).mp visited⟩

/-- A run below a root that keeps to the grammar leaves one that does, whether it succeeds or ends at a
broken invariant; there is no other way for it to end. -/
theorem normalize_wellFormed (wellFormed : s.WellFormedAt root) :
    (normalize rules names s root).store.WellFormedAt root ∧
      ((∃ stats, (normalize rules names s root).result = .ok stats) ∨
        ∃ e, (normalize rules names s root).result = .error (.broken e)) := by
  obtain ⟨l, rfl, holds, nodup, sorted⟩ := Store.wellFormedAt_iff.mp wellFormed
  have forest : s.Forest [l] := .single holds nodup
  obtain ⟨-, -, -, known, -⟩ := normalize_run_shape rules names forest
  refine ⟨?_, known.ends⟩
  obtain ⟨l', change, sorted'⟩ := normalize_wellSorted rules names (fun _ => rfl) forest sorted
  apply Store.wellFormedAt_iff.mpr
  exact ⟨l', change.root, change.forest.holds_single, change.forest.nodup_single, sorted'⟩

theorem normalize_wellFormed_unnamed :
    let rules : Rules := ⟨{}, (· = "t")⟩
    let names : NameTable := ⟨#["", "xs", "T", "Cast", "x", "f", "y", "t"], ∅⟩
    let s := Layout.unnamed.store
    s.WellFormedAt ⟨14⟩ ∧
      (normalize rules names s ⟨14⟩).result =
        .error (.broken ⟨⟨6⟩, .none, .unnamedInitializer "literal"⟩) ∧
      (normalize rules names s ⟨14⟩).store ≠ s ∧ (normalize rules names s ⟨14⟩).store.WellFormedAt ⟨14⟩ := by
  intro rules names s
  have wellFormed : s.WellFormedAt ⟨14⟩ := Store.wellFormedAt_iff.mpr
    ⟨Layout.unnamed, rfl, Layout.holds_store (by decide) (by decide), by decide, by decide⟩
  have stops : (normalize rules names s ⟨14⟩).result =
      .error (.broken ⟨⟨6⟩, .none, .unnamedInitializer "literal"⟩) := by
    decide +kernel +zetaReduce
  have changes : (normalize rules names s ⟨14⟩).store ≠ s := by
    decide +kernel +zetaReduce
  exact ⟨wellFormed, stops, changes, (normalize_wellFormed rules names wellFormed).1⟩

end

end Normalize

end Comprehension
