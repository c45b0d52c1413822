import Comprehension.Proofs.CanonicalForm
import Comprehension.Proofs.Records

/-! Accesses through transparent names. If each of them lies below a query that binds such a name to a
query, and no such query is left to a continuation, then a run leaves none: every binding query is
flattened and cleaned, and nothing that happens later makes an access again. -/

set_option autoImplicit false

namespace Comprehension

namespace Store

variable (s : Store) (transparent : Name → Bool)

def AccessesThrough (access : NodeId) : Prop :=
  ∃ target x typeArgs t args, s.kind? access = some (.member target x typeArgs) ∧
    s.kind? target = some (.ident t args) ∧ transparent t = true

def BindsQuery (query : NodeId) : Prop :=
  ∃ first rest t elemType source inner, s.kind? query = some (.query (first :: rest)) ∧
    s.kind? first = some (.fromClause t elemType source) ∧ transparent t = true ∧
    s.kind? source = some (.query inner)

/-- Every access through a transparent name below a root is below a query there that binds such a name to
a query. -/
def CoveredAt (root : NodeId) : Prop :=
  ∀ {path access}, s.follow root path = some access → s.AccessesThrough transparent access →
    ∃ above below query, s.follow root above = some query ∧ s.BindsQuery transparent query ∧
      s.follow query below = some access

end Store

/-- `from u in (from t in (from x in xs select new { x, y = x.f }) select new { t, z = t.y }) select u.t.y`,
where the texts of the names are, in the order of their numbers: nothing, `xs`, `x`, `f`, `y`, `t`, `z`
and `u`. -/
def Layout.chained : Layout :=
  .node ⟨20⟩ (.query [
    .node ⟨15⟩ (.fromClause ⟨7⟩ none (.node ⟨14⟩ (.query [
      .node ⟨8⟩ (.fromClause ⟨5⟩ none (.node ⟨7⟩ (.query [
        .node ⟨1⟩ (.fromClause ⟨2⟩ none (.node ⟨0⟩ (.ident ⟨1⟩ []))),
        .node ⟨6⟩ (.selectClause (.node ⟨5⟩ (.record [
          .node ⟨2⟩ (.ident ⟨2⟩ []),
          .node ⟨21⟩ (.named ⟨4⟩ (.node ⟨4⟩ (.member (.node ⟨3⟩ (.ident ⟨2⟩ [])) ⟨3⟩ [])))])))]))),
      .node ⟨13⟩ (.selectClause (.node ⟨12⟩ (.record [
        .node ⟨9⟩ (.ident ⟨5⟩ []),
        .node ⟨22⟩ (.named ⟨6⟩ (.node ⟨11⟩ (.member (.node ⟨10⟩ (.ident ⟨5⟩ [])) ⟨4⟩ [])))])))]))),
    .node ⟨19⟩ (.selectClause (.node ⟨18⟩ (.member (.node ⟨17⟩ (.member (.node ⟨16⟩ (.ident ⟨7⟩ [])) ⟨5⟩ []))
      ⟨4⟩ [])))])

namespace Normalize

variable {ι ν : Type} {transparent : ν → Bool} {m fresh : ι} {k : Kind ν (Marked ι ν)}

/-! ### Covered trees -/

def Binds (transparent : ν → Bool) (t : Marked ι ν) : Prop :=
  ∃ first rest x elemType source, t.kind = .query (first :: rest) ∧
    first.kind = .fromClause x elemType source ∧ transparent x = true ∧ source.kind.isQuery = true

inductive Covered (transparent : ν → Bool) : Marked ι ν → Prop where
  | binds {t : Marked ι ν} (here : Binds transparent t) : Covered transparent t
  | node {m : ι} {k : Kind ν (Marked ι ν)} (plain : plainLayer? transparent k = none)
      (children : ∀ c ∈ k.children, Covered transparent c) : Covered transparent (.node m k)

theorem plainLayer?_eq_none_iff : plainLayer? transparent k = none ↔
    ∀ target x typeArgs t args, k = .member target x typeArgs → target.kind = .ident t args →
      transparent t = false := by
  constructor
  · rintro plain ⟨tm, tk⟩ x typeArgs t args rfl rfl
    by_contra through
    simp [plainLayer?, through] at plain
  · intro other
    unfold plainLayer?
    split
    next tm t args x typeArgs => simp [other _ _ _ t args rfl rfl]
    next => rfl

theorem clean_iff_all {t : Marked ι ν} :
    Clean transparent t ↔ t.All fun k => plainLayer? transparent k = none := by
  induction t using Marked.induction with
  | step m k ih =>
    rw [clean_node, Marked.all_node, and_comm]
    exact and_congr_right fun _ => forall₂_congr ih

/-! ### Whole visits -/

section
variable [DecidableEq ν] {reading : Reading ν}

theorem carries_plain :
    Carries fun k : Kind ν (Marked ι ν) => plainLayer? reading.transparent k = none where
  lets _ _ _ := rfl
  continues _ _ := rfl
  annotates _ _ _ := rfl

theorem clean_settle (children : ∀ c ∈ k.children, Clean reading.transparent c)
    (plain : plainLayer? reading.transparent k = none) :
    Clean reading.transparent (settle reading fresh m k).1 := by
  have top : plainLayer? reading.transparent ((action reading k).layer fresh k) = none := by
    cases action reading k with
    | keep | stop => exact plain
    | _ => rfl
  refine clean_iff_all.mpr (all_settle carries_plain fresh m ?_ ?_ top)
  · exact fun c child => clean_iff_all.mp (children c child)
  · exact fun t _ => clean_iff_all.mp (clean_cleaned t)

/-- A visit turns no target into a transparent name. -/
theorem plainLayer?_visited (children : ∀ c ∈ k.children, Succeeds reading fresh c)
    (plain : plainLayer? reading.transparent k = none) :
    plainLayer? reading.transparent (k.map id (normal reading fresh)) = none := by
  rw [plainLayer?_eq_none_iff] at plain ⊢
  intro visited x typeArgs t args access ident
  cases k <;> simp only [Kind.map, reduceCtorEq, Kind.member.injEq] at access
  obtain ⟨rfl, rfl, -⟩ := access
  rename_i target _ _
  have layer := kind_of_normal (children target List.mem_cons_self) ident rfl
  cases before : target.kind <;> simp only [before, Kind.map, reduceCtorEq, Kind.ident.injEq] at layer
  obtain ⟨rfl, -⟩ := layer
  exact plain _ _ _ _ _ rfl before

theorem Binds.visited (binds : Binds reading.transparent (.node m k))
    (children : ∀ c ∈ k.children, Succeeds reading fresh c) :
    Binds reading.transparent (.node m (k.map id (normal reading fresh))) := by
  obtain ⟨⟨fm, fk⟩, rest, x, elemType, source, is, clause, through, query⟩ := binds
  cases is
  cases clause
  have inFirst : Succeeds reading fresh (.node fm (.fromClause x elemType source)) :=
    children _ List.mem_cons_self
  refine ⟨_, _, x, elemType.map (normal reading fresh), normal reading fresh source, rfl, ?_, through, ?_⟩
  · rw [normal_other inFirst rfl]
    rfl
  · rw [isQuery_normal (inFirst.child (by simp [Kind.children])), query]

/-- A query that binds a transparent name to a query is flattened, and then clean, if it does not become a
continuation. -/
theorem Binds.clean (binds : Binds reading.transparent (.node m k))
    (going : (settle reading fresh m k).2.breach = none)
    (flattened : (settle reading fresh m k).2.stats.continuations = 0) :
    Clean reading.transparent (settle reading fresh m k).1 := by
  obtain ⟨first, rest, x, elemType, source, rfl, clause, through, nested⟩ := binds
  obtain ⟨asks, asked, known⟩ := exists_asks reading (.query (first :: rest))
  rw [settle, asked] at going flattened ⊢
  cases known with
  | keep found =>
    rw [(settled_of_action_eq_keep found x elemType source clause).1] at nested
    cases nested
  | splice => exact clean_cleaned (.node m (.query _))
  | continuation => cases flattened
  | annotate enabled shape =>
    obtain ⟨sm, tm, y, rfl, -⟩ := shape.eq_call
    cases clause
    cases nested
  | stop => cases going

/-- A visit of a covered tree that makes no continuation leaves a clean one. -/
theorem Covered.clean_normal {t : Marked ι ν} (covered : Covered reading.transparent t)
    (succeeds : Succeeds reading fresh t) (flattened : (tally reading fresh t).continuations = 0) :
    Clean reading.transparent (normal reading fresh t) := by
  induction t using Marked.induction with
  | step m k ih =>
    obtain ⟨children, going⟩ := succeeds_node_iff.mp succeeds
    rw [tally_node children, Stats.add_def] at flattened
    obtain ⟨below, here⟩ := Nat.add_eq_zero_iff.mp flattened
    rw [normal_node children]
    cases covered with
    | binds binds => exact (binds.visited children).clean going here
    | node plain inside =>
      refine clean_settle ?_ (plainLayer?_visited children plain)
      simp only [Kind.children_map, List.forall_mem_map]
      refine fun c child => ih c child (inside c child) (children c child) ?_
      exact Stats.forall_of_sum (P := (·.continuations = 0)) (fun _ _ => Nat.add_eq_zero_iff.mp) below _
        (List.mem_map_of_mem child)

end

/-! ### Runs -/

section
open Store
variable (rules : Rules) (names : NameTable) {s : Store} {root : NodeId} {l : Layout}

theorem bindsQuery_iff {transparent : Name → Bool} (holds : s.Holds l) :
    s.BindsQuery transparent l.mark ↔ Binds transparent l := by
  constructor
  · rintro ⟨first, rest, t, elemType, source, inner, here, clause, through, nested⟩
    obtain ⟨m, k⟩ := l
    obtain ⟨e, source, ls, rfl, -, rfl, -⟩ := exists_first_layout holds here clause
    have inSource : s.Holds source :=
      (holds_node.mp ((holds_node.mp holds).2 _ List.mem_cons_self)).2 source (by simp [Kind.children])
    exact ⟨_, _, t, e, source, rfl, rfl, through, isQuery_of_layer inSource nested⟩
  · rintro ⟨first, rest, x, elemType, source, is, clause, through, nested⟩
    obtain ⟨inner, nested⟩ := Kind.eq_query_of_isQuery nested
    have inFirst := layerMap_holds.below holds is List.mem_cons_self
    have inSource := layerMap_holds.below inFirst clause (c := source) (by simp [Kind.children])
    exact ⟨_, _, x, _, _, _, layerMap_holds.forth holds is, layerMap_holds.forth inFirst clause, through,
      layerMap_holds.forth inSource nested⟩

theorem not_accessesThrough_iff {transparent : Name → Bool} (holds : s.Holds l) :
    ¬ s.AccessesThrough transparent l.mark ↔ plainLayer? transparent l.kind = none := by
  rw [plainLayer?_eq_none_iff]
  constructor
  · intro other target x typeArgs t args access ident
    have inTarget := layerMap_holds.below holds access List.mem_cons_self
    by_contra through
    exact other ⟨_, x, _, t, _, layerMap_holds.forth holds access, layerMap_holds.forth inTarget ident,
      by simpa using through⟩
  · rintro plain ⟨target, x, typeArgs, t, args, access, ident, through⟩
    obtain ⟨k, layer, image⟩ := layerMap_holds.back holds access
    cases k <;> simp only [Kind.map, reduceCtorEq, Kind.member.injEq] at image
    obtain ⟨rfl, rfl, -⟩ := image
    have inTarget := layerMap_holds.below holds layer List.mem_cons_self
    obtain ⟨k, layer', image⟩ := layerMap_holds.back inTarget ident
    cases k <;> simp only [Kind.map, reduceCtorEq, Kind.ident.injEq] at image
    obtain ⟨rfl, -⟩ := image
    exact Bool.false_ne_true ((plain _ _ _ _ _ layer layer').symm.trans through)

theorem covered_of_store {transparent : Name → Bool} (tree : s.TreeAt l.mark) (holds : s.Holds l)
    (covered : s.CoveredAt transparent l.mark) : Covered transparent l := by
  -- A place is covered if nothing above it binds: then an access in it would be covered by something inside.
  suffices inside : ∀ (n : Layout) (path : List Nat), l.at? path = some n →
      (∀ above below q, path = above ++ below → below ≠ [] → l.at? above = some q → ¬ Binds transparent q) →
      Covered transparent n by
    refine inside l [] rfl fun above below q split proper => ?_
    exact absurd (List.append_eq_nil_iff.mp split.symm).2 proper
  intro n
  induction n using Marked.induction with
  | step m k ih =>
    intro path place free
    by_cases here : Binds transparent (.node m k)
    · exact .binds here
    have found : s.follow l.mark path = some m := by
      rw [holds.follow_eq, place]
      rfl
    refine .node ?_ fun c child => ?_
    · by_contra access
      have inside := holds.of_mem (Marked.mem_subtrees_of_at? place)
      obtain ⟨above, below, query, high, binds, low⟩ :=
        covered found (not_not.mp fun other => access ((not_accessesThrough_iff inside).mp other))
      have split : path = above ++ below := tree.single found (by rw [follow_append, high]; exact low)
      rw [holds.follow_eq] at high
      obtain ⟨q, place', rfl⟩ := Option.map_eq_some_iff.mp high
      have binds := (bindsQuery_iff (holds.of_mem (Marked.mem_subtrees_of_at? place'))).mp binds
      by_cases same : below = []
      · rw [same, List.append_nil] at split
        rw [← split, place] at place'
        cases place'
        exact here binds
      · exact free above below q split same place' binds
    · obtain ⟨i, bound, rfl⟩ := List.mem_iff_getElem.mp child
      refine ih _ child (path ++ [i]) (by rw [Marked.at?_append, place]; simp [Marked.at?, bound]) ?_
      intro above below q split proper place' binds
      -- What is above a child is the node itself, or above the node.
      obtain ⟨init, last, rfl⟩ := (List.eq_nil_or_concat' below).resolve_left proper
      rw [← List.append_assoc] at split
      obtain ⟨rfl, -⟩ := List.append_inj' split rfl
      by_cases same : init = []
      · rw [same, List.append_nil, place'] at place
        cases place
        exact here binds
      · exact free above init q rfl same place' binds

theorem clean_map {ι κ ν : Type} {transparent : ν → Bool} (f : ι → κ) {t : Marked ι ν} :
    Clean transparent (t.map f id) ↔ Clean transparent t := by
  simp only [clean_iff_all, Marked.All, Marked.subtrees_map, List.forall_mem_map, Marked.kind_map,
    plainLayer?_map, id, Option.map_eq_none_iff]

/-- Let every access through a transparent name lie below a query that binds one to a query. After a run
that succeeds without making a continuation there is no such access. -/
theorem normalize_accessFree {stats : Stats} (tree : s.TreeAt root)
    (covered : s.CoveredAt (isTransparent rules names) root)
    (done : (normalize rules names s root).result = .ok stats) (flattened : stats.continuations = 0)
    {path : List Nat} {access : NodeId}
    (found : (normalize rules names s root).store.follow root path = some access) :
    ¬ (normalize rules names s root).store.AccessesThrough (isTransparent rules names) access := by
  obtain ⟨l, rfl, holds, nodup⟩ := treeAt_iff.mp tree
  obtain ⟨succeeds, rfl, l', change, image, -⟩ := normalize_run_collapsed rules names (.single holds nodup) done
  have covered : Covered (rules.numbered names).transparent l := covered_of_store tree holds covered
  have clean := covered.clean_normal succeeds flattened
  rw [← image, clean_map, clean_iff_all] at clean
  have below' : ∃ path, (normalize rules names s l.mark).store.follow l'.mark path = some access :=
    ⟨path, change.root ▸ found⟩
  obtain ⟨n, below, rfl⟩ := change.forest.holds_single.exists_follow_iff.mp below'
  exact (not_accessesThrough_iff (change.forest.holds_single.of_mem below)).mpr (clean n below)

theorem normalize_accessFree_chained :
    let rules : Rules := ⟨{}, fun x => x = "t" ∨ x = "u"⟩
    let names : NameTable := ⟨#["", "xs", "x", "f", "y", "t", "z", "u"], ∅⟩
    let s := Layout.chained.store
    let s' := (normalize rules names s ⟨20⟩).store
    s.TreeAt ⟨20⟩ ∧ s.CoveredAt (isTransparent rules names) ⟨20⟩ ∧
      (normalize rules names s ⟨20⟩).result = .ok ⟨2, 2, 3, 0, 0⟩ ∧
      s.AccessesThrough (isTransparent rules names) ⟨17⟩ ∧
      s'.kind? ⟨19⟩ = some (.selectClause ⟨18⟩) ∧ ¬ s'.AccessesThrough (isTransparent rules names) ⟨18⟩ := by
  intro rules names s s'
  have tree : s.TreeAt ⟨20⟩ := Layout.treeAt_store (by decide) (by decide)
  have covered : s.CoveredAt (isTransparent rules names) ⟨20⟩ := by
    intro path access found through
    refine ⟨[], path, ⟨20⟩, rfl, ?_, found⟩
    exact ⟨⟨15⟩, [⟨19⟩], ⟨7⟩, none, ⟨14⟩, [⟨8⟩, ⟨13⟩], by decide, by decide, by decide, by decide⟩
  have done : (normalize rules names s ⟨20⟩).result = .ok ⟨2, 2, 3, 0, 0⟩ := by
    decide +kernel +zetaReduce
  have found : s'.follow ⟨20⟩ [3, 0] = some ⟨18⟩ := by decide +kernel +zetaReduce
  refine ⟨tree, covered, done, ?_, by decide +kernel +zetaReduce,
    normalize_accessFree rules names tree covered done rfl found⟩
  exact ⟨⟨16⟩, ⟨5⟩, [], ⟨7⟩, [], by decide, by decide, by decide⟩

end

end Normalize

end Comprehension
