import Comprehension.Proofs.Canonical
import Comprehension.Proofs.Simulation
import Mathlib.Tactic.Abel
import Mathlib.Tactic.IntervalCases

/-! A run on what a run has left, whole or in part, has nothing to do there. -/

set_option autoImplicit false

namespace Comprehension

section
variable {ι κ ν μ : Type} {part part' t t' : Marked ι ν}

inductive Marked.Replaces (part part' : Marked ι ν) : Marked ι ν → Marked ι ν → Prop where
  | here : Replaces part part' part part'
  | child {m : ι} {k : Kind ν (Marked ι ν)} {before after : List (Marked ι ν)} {c c' : Marked ι ν}
      (split : k.children = before ++ c :: after) (inside : Replaces part part' c c') :
      Replaces part part' (.node m k) (.node m (k.refill (before ++ c' :: after)))

theorem Marked.Replaces.map (f : ι → κ) (g : ν → μ) (replaces : Replaces part part' t t') :
    Replaces (part.map f g) (part'.map f g) (t.map f g) (t'.map f g) := by
  induction replaces with
  | here => exact .here
  | @child m k before after c c' split _ ih =>
    rw [Marked.map_node, Marked.map_node, Kind.map_refill, List.map_append, List.map_cons]
    exact .child (by rw [Kind.children_map, split, List.map_append, List.map_cons]) ih

end

namespace Normalize

variable {ι ν : Type} [DecidableEq ν] {reading : Reading ν} {fresh : ι}

/-- A visit does not see whether a part of the tree has been visited before. What there was to count
in the part has been counted then. -/
theorem normal_of_replaces {part t t' : Marked ι ν} (replaces : part.Replaces (normal reading fresh part) t t')
    (canonical : Canonical reading (normal reading fresh part)) (succeeds : Succeeds reading fresh t) :
    Succeeds reading fresh t' ∧ normal reading fresh t' = normal reading fresh t ∧
      tally reading fresh part + tally reading fresh t' = tally reading fresh t := by
  induction replaces with
  | here =>
    obtain ⟨succeeds', same, nothing⟩ := canonical.fixed fresh
    exact ⟨succeeds', same, by rw [nothing, add_zero]⟩
  | @child m k before after c c' split _ ih =>
    obtain ⟨children, going⟩ := succeeds_node_iff.mp succeeds
    obtain ⟨inChild, same, sum⟩ := ih (children c (by simp [split]))
    have length : (before ++ c' :: after).length = k.children.length := by simp [split]
    have children' : ∀ d ∈ (k.refill (before ++ c' :: after)).children, Succeeds reading fresh d := by
      rw [Kind.children_refill length]
      intro d member
      simp only [List.mem_append, List.mem_cons] at member
      rcases member with early | rfl | late
      · exact children d (by simp [split, early])
      · exact inChild
      · exact children d (by simp [split, late])
    have layer : (k.refill (before ++ c' :: after)).map id (normal reading fresh) =
        k.map id (normal reading fresh) := by
      rw [Kind.map_refill, List.map_append, List.map_cons, same, ← List.map_cons,
        ← List.map_append, ← split, ← Kind.children_map id, Kind.refill_children]
    -- The node is settled over the same layer in both visits, so only the counts below it differ.
    refine ⟨succeeds_node_iff.mpr ⟨children', by rwa [layer]⟩, ?_, ?_⟩
    · rw [normal_node children', normal_node children, layer]
    · rw [tally_node children', tally_node children, layer, Kind.children_refill length, split]
      simp only [List.map_append, List.map_cons, List.sum_append, List.sum_cons, ← sum]
      abel

end Normalize

namespace Store

variable {s s' : Store} {l part part' : Layout}

theorem Rewrites.among {before after : List Layout} (forest : s.Forest (before ++ part :: after))
    (change : Rewrites s [part] s' [part']) :
    Rewrites s (before ++ part :: after) s' (before ++ part' :: after) := by
  induction before with
  | nil => exact .cons forest change (.refl (forest_tail forest change))
  | cons l before ih => exact .cons forest (.refl forest.head) (ih forest.tail)

/-- A change to a part of a layout is a change to the layout. -/
theorem Rewrites.below (forest : s.Forest [l]) (low : part ∈ l.subtrees)
    (change : Rewrites s [part] s' [part']) :
    ∃ l' : Layout, part.Replaces part' l l' ∧ Rewrites s [l] s' [l'] := by
  induction l using Marked.induction with
  | step m k ih =>
    rcases Marked.mem_subtrees_node.mp low with rfl | ⟨c, child, low⟩
    · exact ⟨part', .here, change⟩
    · obtain ⟨before, after, split⟩ := List.append_of_mem child
      have children := forest.children
      rw [split] at children
      have alone : s.Forest [c] :=
        .single (children.holds c (by simp)) (children.nodup.sublist (by simp))
      obtain ⟨c', replaces, change⟩ := ih c child alone low
      have change := change.among children
      rw [← split] at change
      exact ⟨_, .child split replaces, .node forest change⟩

end Store

def Store.NoSelectAt (s : Store) (root : NodeId) : Prop :=
  ∀ {path query first rest projection}, s.follow root path = some query →
    s.kind? query = some (.query (first :: rest)) → s.kind? first ≠ some (.selectClause projection)

/-- Below a root no query begins with a select clause, and no cast to be folded is called on a query. -/
structure Store.ProperAt (s : Store) (rules : Normalize.Rules) (names : NameTable) (root : NodeId) : Prop where
  plain : s.NoSelectAt root
  uncast : rules.config.foldCasts = true → ∀ {path call target base x elemType clauses},
    s.follow root path = some call → s.kind? call = some (.call target []) →
    s.kind? target = some (.member base x [elemType]) → names.lookup x = rules.config.castMethod →
    s.kind? base ≠ some (.query clauses)

namespace Normalize

variable {rules : Rules} {names : NameTable} {s : Store} {root : NodeId} {l : Layout}

theorem firstClauses_of_noSelectAt (plain : s.NoSelectAt l.mark) (holds : s.Holds l) : FirstClauses NoSelect l := by
  intro n below clause rest is projection layer
  obtain ⟨path, found⟩ := holds.exists_follow_iff.mpr ⟨n, below, rfl⟩
  have child : clause ∈ n.subtrees := Marked.mem_subtrees_of_child (by simp [is, Kind.children])
  have here := layerMap_holds.forth (holds.of_mem below) is
  have first := layerMap_holds.forth (holds.of_mem (Marked.mem_subtrees_trans child below)) layer
  exact plain found here first

theorem Proper.of_store (proper : s.ProperAt rules names l.mark) (holds : s.Holds l) :
    Proper (rules.numbered names) l where
  plain := firstClauses_of_noSelectAt proper.plain holds
  uncast n below clause rest is enabled x source base elemType layer found := by
    have inClause : clause ∈ n.subtrees := Marked.mem_subtrees_of_child (by simp [is, Kind.children])
    have inSource : source ∈ clause.subtrees := Marked.mem_subtrees_of_child (by simp [layer, Kind.children])
    have low := Marked.mem_subtrees_trans (Marked.mem_subtrees_trans inSource inClause) below
    obtain ⟨path, found'⟩ := holds.exists_follow_iff.mpr ⟨source, low, rfl⟩
    have shape := castParts?_eq_some_iff.mp found
    have inBase := holds.of_mem (Marked.mem_subtrees_trans shape.base_mem low)
    have ⟨call, member, method⟩ := shape.map layerMap_holds (holds.of_mem low)
    by_contra query
    obtain ⟨clauses, query⟩ := Kind.eq_query_of_isQuery (by simpa using query)
    have method : names.lookup _ = rules.config.castMethod := of_decide_eq_true method
    exact proper.uncast enabled found' call member method (layerMap_holds.forth inBase query)

section
variable {ι κ ν : Type} {reading : Reading ν} (f : ι → κ)

theorem firstClauses_map {P : Marked κ ν → Prop} {t : Marked ι ν} :
    FirstClauses P (t.map f id) ↔ FirstClauses (fun clause => P (clause.map f id)) t := by
  simp only [FirstClauses, Marked.All, Marked.subtrees_map, List.forall_mem_map, Marked.kind_map]
  refine forall₂_congr fun n below => ⟨fun all clause rest is => ?_, fun all clause rest is => ?_⟩
  · exact all _ (rest.map (Marked.map f id)) (by rw [is]; rfl)
  · cases layer : n.kind <;> simp only [layer, Kind.map, reduceCtorEq, Kind.query.injEq] at is
    obtain ⟨first, others, rfl, rfl, -⟩ := List.map_eq_cons_iff.mp is
    exact all first others layer

theorem noSelect_map {clause : Marked ι ν} (plain : NoSelect clause) : NoSelect (clause.map f id) := by
  intro projection layer
  obtain ⟨projection, selects, -, rfl⟩ := (layerMap_map f id).back_select trivial layer
  exact plain projection selects

theorem uncast_map {clause : Marked ι ν} : Uncast reading (clause.map f id) ↔ Uncast reading clause := by
  constructor
  · intro uncast enabled x source base elemType layer found
    have simple := uncast enabled x (source.map f id) (base.map f id) (elemType.map f id)
      (by rw [Marked.kind_map, layer]; rfl) (by rw [castParts?_map]; exact congrArg (Option.map _) found)
    rwa [Marked.kind_map, Kind.isQuery_map] at simple
  · intro uncast enabled x source base elemType layer found
    cases before : clause.kind <;>
      simp only [Marked.kind_map, before, Kind.map, reduceCtorEq, Kind.fromClause.injEq] at layer
    obtain ⟨rfl, untyped, rfl⟩ := layer
    obtain rfl := Option.map_eq_none_iff.mp untyped
    obtain ⟨base, elemType, shape, rfl, rfl⟩ :=
      CastsOn.of_map (layerMap_map f id) trivial (castParts?_eq_some_iff.mp found)
    rw [Marked.kind_map, Kind.isQuery_map]
    exact uncast enabled _ _ base elemType before (castParts?_eq_some_iff.mpr shape)

theorem Proper.map {t : Marked ι ν} (proper : Proper reading t) : Proper reading (t.map f id) where
  plain := (firstClauses_map f).mpr (proper.plain.imp fun _ => noSelect_map f)
  uncast := (firstClauses_map f).mpr (proper.uncast.imp fun _ => (uncast_map f).mpr)

end

variable (rules names)

theorem normalize_canonical (forest : s.Forest [l]) (canonical : Canonical (rules.numbered names) l.shape) :
    (normalize rules names s l.mark).result = .ok 0 ∧ (normalize rules names s l.mark).store = s := by
  obtain ⟨succeeds, -, nothing⟩ := canonical.fixed ()
  obtain ⟨result, quiet, -⟩ := normalize_of_succeeds rules names forest succeeds
  exact ⟨nothing ▸ result, quiet nothing⟩

/-- A run below a part of a tree whose normal form is canonical, and then one on the whole. -/
theorem normalize_part (forest : s.Forest [l]) {part : Layout} (below : part ∈ l.subtrees)
    (canonical : Canonical (rules.numbered names) (normal (rules.numbered names) () part.shape))
    (succeeds : Succeeds (rules.numbered names) () l.shape) :
    ∃ first second,
      (normalize rules names s part.mark).result = .ok first ∧
      (normalize rules names (normalize rules names s part.mark).store l.mark).result = .ok second ∧
      first + second = tally (rules.numbered names) () l.shape ∧
      ∃ l' : Layout, l'.shape = normal (rules.numbered names) () l.shape ∧ Store.Rewrites s [l]
        (normalize rules names (normalize rules names s part.mark).store l.mark).store [l'] := by
  have alone : s.Forest [part] := .single (forest.holds_single.of_mem below)
    (forest.nodup_single.sublist (Marked.marks_sublist_of_mem below))
  obtain ⟨result, -, part', shape, change⟩ :=
    normalize_of_succeeds rules names alone (succeeds.of_mem (Layout.shape_mem below))
  -- In the store the part has changed in place; the tree of the whole has it replaced.
  obtain ⟨l₁, replaces, change₁⟩ := change.below forest below
  have image : part.shape.Replaces (normal (rules.numbered names) () part.shape) l.shape l₁.shape :=
    shape ▸ replaces.map (fun _ => ()) id
  obtain ⟨succeeds₁, same, sum⟩ := normal_of_replaces image canonical succeeds
  obtain ⟨result₁, -, l₂, shape₂, change₂⟩ := normalize_of_succeeds rules names change₁.forest succeeds₁
  rw [change₁.root] at result₁ change₂
  exact ⟨_, _, result, result₁, sum, l₂, shape₂.trans same, change₁.trans change₂⟩

/-- Let a run below the root of a tree succeed, where no query begins with a select clause and no cast
to be folded is called on a query. Then a second run finds nothing to count and leaves the whole store
as it is. A run below any node of the tree, and then one below the root, do together what the one run
does. -/
theorem normalize_idempotent {stats : Stats} (tree : s.TreeAt root) (proper : s.ProperAt rules names root)
    (done : (normalize rules names s root).result = .ok stats) :
    (normalize rules names (normalize rules names s root).store root).result = .ok 0 ∧
      (normalize rules names (normalize rules names s root).store root).store =
        (normalize rules names s root).store ∧
      ∀ path node, s.follow root path = some node →
        ∃ first second,
          (normalize rules names s node).result = .ok first ∧
          (normalize rules names (normalize rules names s node).store root).result = .ok second ∧
          first + second = stats ∧
          ∀ table : NameTable, ∃ t,
            (normalize rules names s root).store.unfold table root = .ok t ∧
            (normalize rules names (normalize rules names s node).store root).store.unfold table root =
              .ok t := by
  obtain ⟨l, rfl, holds, nodup⟩ := Store.treeAt_iff.mp tree
  have forest : s.Forest [l] := .single holds nodup
  have succeeds := succeeds_of_normalize rules names forest done
  have proper : Proper (rules.numbered names) l.shape := (Proper.of_store proper holds).map _
  -- Every part of the tree is proper too, and its normal form is canonical.
  have canonical {part : Layout} (below : part ∈ l.subtrees) :
      Canonical (rules.numbered names) (normal (rules.numbered names) () part.shape) := by
    have low := Layout.shape_mem below
    exact ((proper.of_mem low).firstClauses_normal (succeeds.of_mem low)).imp fun _ opening => opening.1
  obtain ⟨result, -, l₁, shape₁, change₁⟩ := normalize_of_succeeds rules names forest succeeds
  obtain rfl : tally (rules.numbered names) () l.shape = stats := Except.ok.inj (result.symm.trans done)
  have again := normalize_canonical rules names change₁.forest (shape₁ ▸ canonical (Marked.self_mem_subtrees l))
  rw [change₁.root] at again
  refine ⟨again.1, again.2, fun path node found => ?_⟩
  obtain ⟨part, below, rfl⟩ := holds.exists_follow_iff.mp ⟨path, found⟩
  obtain ⟨first, second, result, result', sum, l₂, shape₂, change₂⟩ :=
    normalize_part rules names forest below (canonical below) succeeds
  refine ⟨first, second, result, result', sum, fun table => ⟨l₁.tree table, change₁.unfold_eq table, ?_⟩⟩
  rw [l₁.tree_eq_map, shape₁, ← shape₂, ← l₂.tree_eq_map]
  exact change₂.unfold_eq table

theorem normalize_idempotent_nested :
    let rules : Rules := ⟨{}, (· = "t")⟩
    let names : NameTable := ⟨#["", "xs", "T", "Cast", "x", "f", "y", "t"], ∅⟩
    let s := Layout.nested.store
    s.TreeAt ⟨16⟩ ∧ s.ProperAt rules names ⟨16⟩ ∧ (normalize rules names s ⟨16⟩).result = .ok ⟨1, 1, 1, 0, 1⟩ ∧
      (normalize rules names (normalize rules names s ⟨16⟩).store ⟨16⟩).result = .ok 0 ∧
      ∃ second, (normalize rules names (normalize rules names s ⟨11⟩).store ⟨16⟩).result = .ok second ∧
        ⟨0, 0, 0, 0, 1⟩ + second = (⟨1, 1, 1, 0, 1⟩ : Stats) := by
  intro rules names s
  have tree : s.TreeAt ⟨16⟩ := Layout.treeAt_store (by decide) (by decide)
  have proper : s.ProperAt rules names ⟨16⟩ := by
    constructor
    · intro path query first rest projection found here select
      obtain ⟨i⟩ := query
      have bound : i < 17 := Store.index_lt_of_kind? here
      interval_cases i <;> cases here <;> cases select
    · intro enabled path call target base x elemType clauses found here member method query
      obtain ⟨i⟩ := call
      have bound : i < 17 := Store.index_lt_of_kind? here
      interval_cases i <;> cases here
      cases member
      cases query
  have done : (normalize rules names s ⟨16⟩).result = .ok ⟨1, 1, 1, 0, 1⟩ := by
    decide +kernel +zetaReduce
  have doneInside : (normalize rules names s ⟨11⟩).result = .ok ⟨0, 0, 0, 0, 1⟩ := by
    decide +kernel +zetaReduce
  obtain ⟨again, -, parts⟩ := normalize_idempotent rules names tree proper done
  obtain ⟨first, second, result, result', sum, -⟩ := parts [0, 0] ⟨11⟩ rfl
  obtain rfl := Except.ok.inj (doneInside.symm.trans result)
  exact ⟨tree, proper, done, again, second, result', sum⟩

end Normalize

end Comprehension
