import Comprehension.Proofs.Collection
import Comprehension.Proofs.Ledger
import Comprehension.Proofs.Ranking
import Comprehension.Proofs.ReferenceSafety

/-! Cleaning references where nodes are shared. A shared node is visited once for every path to it, and
from the second time on it is found as the first visit left it. What carries the proof is that at any time
a node is as it was at the start, or else it and all that was below it are in their final form. -/

set_option autoImplicit false

namespace Comprehension

theorem Store.put_of_kind? {s : Store} {id : NodeId} {kind : NodeKind} (here : s.kind? id = some kind) :
    s.put id kind = s := by
  obtain ⟨node, found, rfl⟩ := Option.map_eq_some_iff.mp here
  have slots : (s.put id node.kind).nodes = s.nodes := by
    refine Array.ext_getElem? fun i => ?_
    have slot := Store.node?_put s id ⟨i⟩ node.kind
    split at slot
    next same =>
      subst same
      rw [found] at slot
      exact slot.trans found.symm
    next => exact slot
  exact congrArg Store.mk slots

namespace Normalize
open Program Store

/-! ### Cleaned trees -/

section
variable {ι ν : Type} {transparent : ν → Bool}

theorem mem_children_cleaned {m : ι} {k : Kind ν (Marked ι ν)} {c : Marked ι ν}
    (child : c ∈ (cleaned transparent (.node m k)).1.kind.children) :
    ∃ o ∈ k.children, c = (cleaned transparent o).1 := by
  rcases kind_cleaned transparent (.node m k) with same | ⟨target, x, typeArgs, access, ident⟩
  · rw [same, Kind.children_map] at child
    obtain ⟨o, member, rfl⟩ := List.mem_map.mp child
    exact ⟨o, member, rfl⟩
  · rw [ident] at child
    cases access
    obtain ⟨o, member, rfl⟩ := List.mem_map.mp child
    exact ⟨o, List.mem_cons_of_mem _ member, rfl⟩

theorem mem_subtrees_cleaned {t n : Marked ι ν} (below : n ∈ (cleaned transparent t).1.subtrees) :
    ∃ o ∈ t.subtrees, n = (cleaned transparent o).1 := by
  induction t using Marked.induction with
  | step m k ih =>
    rw [← Marked.node_mark_kind (cleaned transparent (.node m k)).1] at below
    rcases Marked.mem_subtrees_node.mp below with rfl | ⟨c, child, low⟩
    · exact ⟨_, Marked.self_mem_subtrees _, Marked.node_mark_kind _⟩
    · obtain ⟨o, member, rfl⟩ := mem_children_cleaned child
      obtain ⟨o', below', rfl⟩ := ih o member low
      exact ⟨o', Marked.mem_subtrees_node.mpr (.inr ⟨o, member, below'⟩), rfl⟩

theorem height_cleaned_le (t : Marked ι ν) : (cleaned transparent t).1.height ≤ t.height := by
  induction t using Marked.induction with
  | step m k ih =>
    rw [← Marked.node_mark_kind (cleaned transparent (.node m k)).1, Marked.height_node m k, Marked.height_le_iff]
    intro c child
    obtain ⟨o, member, rfl⟩ := mem_children_cleaned child
    have low : o.height < (Marked.node m k).height := Marked.height_lt member
    rw [Marked.height_node] at low
    exact (ih o member).trans (Nat.le_of_lt_succ low)

/-- Accesses that become identifiers: their target, once it is cleaned, is a transparent name. -/
def Collapses (transparent : ν → Bool) (t : Marked ι ν) : Prop :=
  ∃ target x typeArgs z args, t.kind = .member target x typeArgs ∧
    (cleaned transparent target).1.kind = .ident z args ∧ transparent z = true

theorem Collapses.kind_cleaned {t : Marked ι ν} (collapses : Collapses transparent t) :
    ∃ target x typeArgs, t.kind = .member target x typeArgs ∧
      (cleaned transparent t).1.kind = .ident x (typeArgs.map fun c => (cleaned transparent c).1) := by
  obtain ⟨target, x, typeArgs, z, args, access, ident, through⟩ := collapses
  obtain ⟨m, k⟩ := t
  cases access
  exact ⟨target, x, typeArgs, rfl, by rw [cleaned_through ident through, Marked.kind_node]⟩

theorem kind_cleaned_of_not_collapses {t : Marked ι ν} (stays : ¬ Collapses transparent t) :
    (cleaned transparent t).1.kind = t.kind.map id fun c => (cleaned transparent c).1 := by
  rcases kind_cleaned transparent t with same | ⟨target, x, typeArgs, access, ident⟩
  · exact same
  · obtain ⟨z, args, inTarget, through⟩ := cleaned_target access ident
    exact absurd ⟨target, x, typeArgs, z, args, access, inTarget, through⟩ stays

theorem collapses_map {κ μ : Type} (f : ι → κ) (g : ν → μ) {transparent : μ → Bool} {t : Marked ι ν} :
    Collapses transparent (t.map f g) ↔ Collapses (fun x => transparent (g x)) t := by
  simp only [Collapses, Marked.kind_map]
  constructor
  · rintro ⟨target, x, typeArgs, z, args, access, ident, through⟩
    cases layer : t.kind <;> rw [layer] at access <;> cases access
    rw [cleaned_map, Marked.kind_map] at ident
    cases inTarget : (cleaned (fun x => transparent (g x)) _).1.kind <;> rw [inTarget] at ident <;> cases ident
    exact ⟨_, _, _, _, _, rfl, inTarget, through⟩
  · rintro ⟨target, x, typeArgs, z, args, access, ident, through⟩
    refine ⟨target.map f g, g x, typeArgs.map (Marked.map f g), g z, args.map (Marked.map f g), ?_, ?_, through⟩
    · rw [access]
      rfl
    · rw [cleaned_map, Marked.kind_map, ident]
      rfl

end

section
variable {transparent : Name → Bool} {s s₁ s₂ : Store} {l : Layout} {m : NodeId} {k : Kind Name Layout}

theorem map_mark_cleaned (k : Kind Name Layout) :
    (k.map id fun c => (cleaned transparent c).1).map id Marked.mark = k.map id Marked.mark := by
  rw [Kind.map_map, Function.id_comp]
  exact Kind.map_children_congr fun c _ => mark_cleaned transparent c

theorem Collapses.cell_cleaned (collapses : Collapses transparent l) : ∃ target x typeArgs,
    l.cell = .member target x typeArgs ∧ (cleaned transparent l).1.cell = .ident x typeArgs := by
  obtain ⟨target, x, typeArgs, access, ident⟩ := collapses.kind_cleaned
  refine ⟨target.mark, x, typeArgs.map Marked.mark, ?_, ?_⟩
  · rw [Marked.cell, access]
    rfl
  · rw [Marked.cell, ident]
    exact map_mark_cleaned (.ident x typeArgs)

theorem cell_cleaned_of_not_collapses (stays : ¬ Collapses transparent l) :
    (cleaned transparent l).1.cell = l.cell := by
  rw [Marked.cell, kind_cleaned_of_not_collapses stays]
  exact map_mark_cleaned l.kind

/-! ### Final forms -/

def Final (transparent : Name → Bool) (s : Store) (l : Layout) : Prop :=
  ∀ n ∈ l.subtrees, s.kind? n.mark = some (cleaned transparent n).1.cell

/-- Every node of the first store is as it was, or else all that was below it is in its final form. -/
def Halfway (transparent : Name → Bool) (s s' : Store) : Prop :=
  ∀ l, s.Holds l → s'.kind? l.mark = some l.cell ∨ Final transparent s' l

theorem Final.holds (final : Final transparent s l) : s.Holds (cleaned transparent l).1 := by
  intro n below
  obtain ⟨o, low, rfl⟩ := mem_subtrees_cleaned below
  rw [mark_cleaned]
  exact final o low

theorem final_node : Final transparent s (.node m k) ↔
    s.kind? m = some (cleaned transparent (.node m k)).1.cell ∧ ∀ c ∈ k.children, Final transparent s c := by
  constructor
  · intro final
    exact ⟨final _ (Marked.self_mem_subtrees _),
      fun c child n below => final n (Marked.mem_subtrees_node.mpr (.inr ⟨c, child, below⟩))⟩
  · rintro ⟨here, children⟩ n below
    rcases Marked.mem_subtrees_node.mp below with rfl | ⟨c, child, low⟩
    · exact here
    · exact children c child n low

theorem Halfway.refl : Halfway transparent s s := fun _ holds => .inl holds.kind?

theorem mark_not_mem_children (holds : s.Holds (.node m k)) : m ∉ k.children.flatMap Marked.marks := by
  intro member
  obtain ⟨c, child, marked⟩ := List.mem_flatMap.mp member
  obtain ⟨n, below, is⟩ := Marked.mem_marks.mp marked
  have inside : n ∈ (Marked.node m k).subtrees := Marked.mem_subtrees_node.mpr (.inr ⟨c, child, below⟩)
  obtain rfl := (holds.of_mem inside).unique holds is
  have count := (Marked.marks_sublist_of_mem below).length_le
  exact absurd (Marked.length_marks_lt child) (Nat.not_lt_of_le count)

/-- Putting a node into its final form keeps all that is final. -/
theorem Final.put {n : Layout} (final : Final transparent s₁ n) (holds : s.Holds n) (here : s.Holds l)
    (used : l.mark.index < s₁.size) :
    Final transparent (s₁.put l.mark (cleaned transparent l).1.cell) n := by
  intro o below
  by_cases same : l.mark = o.mark
  · obtain ⟨k, known⟩ := exists_kind?_of_lt used
    obtain rfl := here.unique (holds.of_mem below) same
    exact kind?_put_self known _
  · rw [kind?_put_of_ne same]
    exact final o below

/-! ### Visits -/

theorem mapM_clean {visit : NodeId → StoreM Nat} {ls : List Layout} (each : ∀ l ∈ ls, visit l.mark s = .ok 0 s) :
    ∃ counts, (ls.map Marked.mark).mapM visit s = .ok counts s ∧ counts.foldr (· + ·) 0 = 0 := by
  induction ls with
  | nil => exact ⟨[], rfl, rfl⟩
  | cons l ls ih =>
    obtain ⟨first, rest⟩ := List.forall_mem_cons.mp each
    obtain ⟨counts, done, nothing⟩ := ih rest
    exact ⟨0 :: counts, mapM_cons_ok first done, by rw [List.foldr_cons, nothing]⟩

/-- A visit finds nothing to do below a root that is clean. -/
theorem stripReferences_clean {budget : Nat} (holds : s.Holds l) (clean : Clean transparent l)
    (enough : l.height ≤ budget) : stripReferences transparent budget l.mark s = .ok 0 s := by
  induction l using Marked.induction generalizing budget with
  | step m k ih =>
    obtain ⟨budget, rfl⟩ : ∃ b, budget = b + 1 := Nat.exists_eq_add_one.mpr (Marked.height_pos.trans_le enough)
    obtain ⟨below, plain⟩ := clean_node.mp clean
    obtain ⟨here, inside⟩ := holds_node.mp holds
    obtain ⟨counts, done, nothing⟩ : ∃ counts,
        (k.children.map Marked.mark).mapM (stripReferences transparent budget) s = .ok counts s ∧
          counts.foldr (· + ·) 0 = 0 :=
      mapM_clean fun c child => ih c child (inside c child) (below c child) (Marked.height_le_iff.mp enough c child)
    rw [stripReferences, Marked.mark_node, bind_ok (read_ok (children_eq here)), bind_ok done,
      bind_ok (read_ok (plainReference?_eq holds)), plain, nothing]
    rfl

structure Visits (transparent : Name → Bool) (s : Store) (ls : List Layout) (s₁ s₂ : Store) : Prop where
  halfway : Halfway transparent s s₂
  final : ∀ l ∈ ls, Final transparent s₂ l
  stays : ∀ n, s.Holds n → Final transparent s₁ n → Final transparent s₂ n
  elsewhere : ∀ id ∉ ls.flatMap Marked.marks, s₂.node? id = s₁.node? id

theorem Visits.nil (before : Halfway transparent s s₁) : Visits transparent s [] s₁ s₁ :=
  ⟨before, fun _ member => absurd member List.not_mem_nil, fun _ _ => id, fun _ _ => rfl⟩

theorem Visits.cons {ls : List Layout} {s₃ : Store} (holds : s.Holds l) (first : Visits transparent s [l] s₁ s₂)
    (rest : Visits transparent s ls s₂ s₃) : Visits transparent s (l :: ls) s₁ s₃ where
  halfway := rest.halfway
  final := List.forall_mem_cons.mpr ⟨rest.stays l holds (first.final l List.mem_cons_self), rest.final⟩
  stays n known final := rest.stays n known (first.stays n known final)
  elsewhere id other := by
    rw [List.flatMap_cons, List.mem_append, not_or] at other
    rw [rest.elsewhere id other.2, first.elsewhere id (by rw [List.flatMap_singleton]; exact other.1)]

theorem Visits.node (holds : s.Holds (.node m k)) (below : Visits transparent s k.children s₁ s₂)
    (used : m.index < s₂.size) :
    Visits transparent s [.node m k] s₁ (s₂.put m (cleaned transparent (.node m k)).1.cell) := by
  have keeps (n : Layout) (known : s.Holds n) (final : Final transparent s₂ n) :
      Final transparent (s₂.put m (cleaned transparent (.node m k)).1.cell) n := final.put known holds used
  have here : Final transparent (s₂.put m (cleaned transparent (.node m k)).1.cell) (.node m k) := by
    obtain ⟨old, known⟩ := exists_kind?_of_lt used
    exact final_node.mpr ⟨kind?_put_self known _,
      fun c child => keeps c ((holds_node.mp holds).2 c child) (below.final c child)⟩
  refine ⟨fun n known => ?_, by simpa using here, fun n known final => keeps n known (below.stays n known final),
    fun id other => ?_⟩
  · by_cases same : m = n.mark
    · obtain rfl := holds.unique known same
      exact .inr here
    · rw [kind?_put_of_ne same]
      exact (below.halfway n known).imp_right (keeps n known)
  · rw [List.flatMap_singleton, Marked.marks_node, List.mem_cons, not_or] at other
    rw [node?_put, if_neg (Ne.symm other.1), below.elsewhere id other.2]

theorem mapM_visits {visit : NodeId → StoreM Nat} {ls : List Layout} (holds : ∀ l ∈ ls, s.Holds l)
    (each : ∀ l ∈ ls, ∀ s₁, Halfway transparent s s₁ →
      ∃ count s₂, visit l.mark s₁ = .ok count s₂ ∧ Visits transparent s [l] s₁ s₂)
    (before : Halfway transparent s s₁) :
    ∃ counts s₂, (ls.map Marked.mark).mapM visit s₁ = .ok counts s₂ ∧ Visits transparent s ls s₁ s₂ := by
  induction ls generalizing s₁ with
  | nil => exact ⟨[], s₁, rfl, .nil before⟩
  | cons l ls ih =>
    obtain ⟨here, others⟩ := List.forall_mem_cons.mp holds
    obtain ⟨count, s₂, done, first⟩ := each l List.mem_cons_self s₁ before
    obtain ⟨counts, s₃, done', rest⟩ :=
      ih others (fun o member => each o (List.mem_cons_of_mem _ member)) first.halfway
    exact ⟨count :: counts, s₃, mapM_cons_ok done done', .cons here first rest⟩

/-- A visit of a node of the first store, at any time on the way. -/
theorem stripReferences_visits {budget : Nat} (holds : s.Holds l) (enough : l.height ≤ budget)
    (before : Halfway transparent s s₁) :
    ∃ count s₂, stripReferences transparent budget l.mark s₁ = .ok count s₂ ∧ Visits transparent s [l] s₁ s₂ := by
  induction l using Marked.induction generalizing budget s₁ with
  | step m k ih =>
    rcases before _ holds with same | final
    · obtain ⟨budget, rfl⟩ : ∃ b, budget = b + 1 := Nat.exists_eq_add_one.mpr (Marked.height_pos.trans_le enough)
      rw [Marked.mark_node, Marked.cell_node] at same
      have inside := (holds_node.mp holds).2
      obtain ⟨counts, s₂, done, below⟩ : ∃ counts s₂, (k.children.map Marked.mark).mapM
          (stripReferences transparent budget) s₁ = .ok counts s₂ ∧ Visits transparent s k.children s₁ s₂ :=
        mapM_visits inside (fun c child s₁ => ih c child (inside c child) (Marked.height_le_iff.mp enough c child))
          before
      -- No visit below comes back to the node: it still is as it was, and its children are clean by now.
      have unchanged : s₂.kind? m = some (k.map id Marked.mark) := by
        rw [kind?, below.elsewhere m (mark_not_mem_children holds)]
        exact same
      have now : s₂.Holds (.node m (k.map id fun c => (cleaned transparent c).1)) := by
        refine holds_node.mpr ⟨?_, fun c child => ?_⟩
        · rw [unchanged, map_mark_cleaned]
        · rw [Kind.children_map] at child
          obtain ⟨o, member, rfl⟩ := List.mem_map.mp child
          exact (below.final o member).holds
      have visits := Visits.node holds below (index_lt_of_kind? unchanged)
      rw [stripReferences, Marked.mark_node, bind_ok (read_ok (children_eq same)), bind_ok done,
        bind_ok (read_ok (plainReference?_eq now))]
      rw [cleaned_node_fst, Marked.cell_node] at visits
      cases found : plainLayer? transparent (k.map id fun c => (cleaned transparent c).1) with
      | none =>
        have stays := put_of_kind? (holds_node.mp now).1
        rw [found, Option.getD_none, stays] at visits
        exact ⟨_, s₂, rfl, visits⟩
      | some plain =>
        rw [found] at visits
        exact ⟨_, _, rfl, visits⟩
    · -- A node that was changed before is clean, and the visit passes over it.
      have clean : Clean transparent (cleaned transparent (.node m k)).1 := clean_cleaned _
      have done := stripReferences_clean final.holds clean ((height_cleaned_le _).trans enough)
      rw [mark_cleaned] at done
      exact ⟨0, s₁, done, before, by simpa using final, fun _ _ known => known, fun _ _ => rfl⟩

theorem Visits.node?_eq (visits : Visits transparent s [l] s s₁) (grows : s.Grows s₁) (holds : s.Holds l)
    {n : Layout} (below : n ∈ l.subtrees) : ∃ span, s.node? n.mark = some ⟨n.cell, span⟩ ∧
      s₁.node? n.mark = some ⟨(cleaned transparent n).1.cell, span⟩ := by
  have old : n.mark.index < s.size := index_lt_of_kind? (holds n below)
  obtain ⟨span, known⟩ := exists_span old
  have known' : s₁.span n.mark = .ok span := (grows.span_eq old).trans known
  obtain ⟨k, here⟩ := span_eq_ok_iff.mp known
  obtain ⟨k', here'⟩ := span_eq_ok_iff.mp known'
  have kind := holds n below
  have kind' := visits.final l List.mem_cons_self n below
  rw [kind?, here] at kind
  rw [kind?, here'] at kind'
  cases kind
  cases kind'
  exact ⟨span, here, here'⟩

theorem Visits.node?_ne_iff (visits : Visits transparent s [l] s s₁) (grows : s.Grows s₁) (holds : s.Holds l)
    {id : NodeId} : s₁.node? id ≠ s.node? id ↔ ∃ n ∈ l.subtrees, n.mark = id ∧ Collapses transparent n := by
  constructor
  · intro differs
    have marked : id ∈ l.marks := by
      by_contra other
      exact differs (visits.elsewhere id (by rwa [List.flatMap_singleton]))
    obtain ⟨n, below, rfl⟩ := Marked.mem_marks.mp marked
    obtain ⟨span, old, new⟩ := visits.node?_eq grows holds below
    refine ⟨n, below, rfl, ?_⟩
    by_contra stays
    exact differs (by rw [old, new, cell_cleaned_of_not_collapses stays])
  · rintro ⟨n, below, rfl, collapses⟩ same
    obtain ⟨span, old, new⟩ := visits.node?_eq grows holds below
    obtain ⟨target, x, typeArgs, access, ident⟩ := collapses.cell_cleaned
    rw [old, new, access, ident] at same
    cases same

theorem Visits.access_of_node?_ne (visits : Visits transparent s [l] s s₁) (grows : s.Grows s₁) (holds : s.Holds l)
    {id : NodeId} (differs : s₁.node? id ≠ s.node? id) : ∃ target x typeArgs span,
      s.node? id = some ⟨.member target x typeArgs, span⟩ ∧ s₁.node? id = some ⟨.ident x typeArgs, span⟩ := by
  obtain ⟨n, below, rfl, collapses⟩ := (visits.node?_ne_iff grows holds).mp differs
  obtain ⟨span, old, new⟩ := visits.node?_eq grows holds below
  obtain ⟨target, x, typeArgs, access, ident⟩ := collapses.cell_cleaned
  exact ⟨target, x, typeArgs, span, access ▸ old, ident ▸ new⟩

theorem changed_stripped (access : ∀ id, s₁.node? id ≠ s.node? id → ∃ target x typeArgs span,
      s.node? id = some ⟨.member target x typeArgs, span⟩ ∧ s₁.node? id = some ⟨.ident x typeArgs, span⟩) :
    changed s s₁ .stripped = {i ∈ Finset.range s.size | s₁.node? ⟨i⟩ ≠ s.node? ⟨i⟩} := by
  refine Finset.filter_congr fun i _ => ⟨?_, fun differs => ?_⟩
  · rintro ⟨k, here, k', here', counts⟩ same
    rw [kind?, same] at here'
    obtain rfl : k = k' := Option.some.inj (here.symm.trans here')
    rw [Counter.counts_self] at counts
    cases counts
  · obtain ⟨target, x, typeArgs, span, old, new⟩ := access ⟨i⟩ differs
    exact ⟨.member target x typeArgs, by rw [kind?, old]; rfl, .ident x typeArgs, by rw [kind?, new]; rfl, rfl⟩

end

/-! ### Shared stores -/

section
variable (rules : Rules) (names : NameTable) {s : Store} {root : NodeId} {l : Layout}

/-- However nodes are shared, stripping references below a root leaves a store that stands for the cleaned
tree. The slots that differ are those of the accesses below the root that collapse, and each of them gets
the identifier with its name and type arguments. A shared access is counted once, no access through a
transparent name is left below the root, and a second time there is nothing to do. -/
theorem stripReferences_cleans (closed : s.Closed) (acyclic : s.Acyclic) (inside : root.index < s.size) :
    ∃ tree count s', s.unfold names root = .ok tree ∧
      stripReferences (isTransparent rules names) (s.size + 1) root s = .ok count s' ∧
      s'.unfold names root = .ok (cleaned rules.transparent tree).1 ∧
      (∀ id, s'.node? id ≠ s.node? id ↔ (∃ path, s.follow root path = some id) ∧
        ∃ below, s.unfold names id = .ok below ∧ Collapses rules.transparent below) ∧
      (∀ id, s'.node? id ≠ s.node? id → ∃ target x typeArgs span,
        s.node? id = some ⟨.member target x typeArgs, span⟩ ∧ s'.node? id = some ⟨.ident x typeArgs, span⟩) ∧
      count = {i ∈ Finset.range s.size | s'.node? ⟨i⟩ ≠ s.node? ⟨i⟩}.card ∧
      (∀ path access, s'.follow root path = some access →
        ¬ s'.AccessesThrough (isTransparent rules names) access) ∧
      stripReferences (isTransparent rules names) (s'.size + 1) root s' = .ok 0 s' := by
  obtain ⟨l, rfl, holds⟩ := dagAt_iff.mp (closed.dagAt acyclic inside)
  obtain ⟨count, s', done, visits⟩ : ∃ count s', stripReferences (isTransparent rules names) (s.size + 1) l.mark s =
      .ok count s' ∧ Visits (isTransparent rules names) s [l] s s' :=
    stripReferences_visits holds (holds.height_le.trans (Nat.le_succ _)) .refl
  have strips := stripReferences_strips done
  -- What was visited holds the cleaned layout, so the store stands for its tree.
  have final : s'.Holds (cleaned (isTransparent rules names) l).1 := (visits.final l List.mem_cons_self).holds
  have clean : Clean (isTransparent rules names) (cleaned (isTransparent rules names) l).1 := clean_cleaned _
  have access (id : NodeId) := @Visits.access_of_node?_ne _ _ _ _ visits strips.grows holds id
  have root : (cleaned (isTransparent rules names) l).1.mark = l.mark := mark_cleaned _ l
  have texts (n : Layout) : Collapses rules.transparent (n.tree names) ↔ Collapses (isTransparent rules names) n :=
    collapses_map _ _
  refine ⟨l.tree names, count, s', holds.unfold_tree names, done, ?_, fun id => ?_, access, ?_, ?_, ?_⟩
  · have tree := final.unfold_tree names
    rw [root] at tree
    rw [tree, Layout.tree, Layout.tree, cleaned_map]
    rfl
  · rw [visits.node?_ne_iff strips.grows holds, holds.exists_follow_iff]
    constructor
    · rintro ⟨n, below, rfl, collapses⟩
      exact ⟨⟨n, below, rfl⟩, _, (holds.of_mem below).unfold_tree names, (texts n).mpr collapses⟩
    · rintro ⟨⟨n, below, rfl⟩, tree, unfolds, collapses⟩
      cases ((holds.of_mem below).unfold_tree names).symm.trans unfolds
      exact ⟨n, below, rfl, (texts n).mp collapses⟩
  · rw [← changed_stripped access]
    exact (strips.ledger.counts .stripped).symm
  · intro path id found
    rw [← root] at found
    obtain ⟨n, below, rfl⟩ := final.exists_follow_iff.mp ⟨path, found⟩
    exact (not_accessesThrough_iff (final.of_mem below)).mpr (clean_iff_all.mp clean n below)
  · rw [← root]
    exact stripReferences_clean final clean (final.height_le.trans (Nat.le_succ _))

end

theorem stripReferences_cleans_operands :
    let rules : Rules := ⟨{}, fun x => x = "t" ∨ x = "u"⟩
    let names : NameTable := ⟨#["", "u", "t", "x", "T"], ∅⟩
    let slots (kinds : List NodeKind) : Store := ⟨(kinds.map (⟨·, .none⟩)).toArray⟩
    let s := slots [.ident ⟨1⟩ [], .member ⟨0⟩ ⟨2⟩ [], .typeRef ⟨4⟩ [], .member ⟨1⟩ ⟨3⟩ [⟨2⟩],
      .binary .add ⟨3⟩ ⟨3⟩, .binary .add ⟨4⟩ ⟨1⟩]
    let s' := slots [.ident ⟨1⟩ [], .ident ⟨2⟩ [], .typeRef ⟨4⟩ [], .ident ⟨3⟩ [⟨2⟩],
      .binary .add ⟨3⟩ ⟨3⟩, .binary .add ⟨4⟩ ⟨1⟩]
    s.Closed ∧ s.Acyclic ∧ stripReferences (isTransparent rules names) 7 ⟨5⟩ s = .ok 2 s' ∧
      (∃ tree, s.unfold names ⟨5⟩ = .ok tree ∧ s'.unfold names ⟨5⟩ = .ok (cleaned rules.transparent tree).1) ∧
      {i ∈ Finset.range s.size | s'.node? ⟨i⟩ ≠ s.node? ⟨i⟩}.card = 2 ∧
      stripReferences (isTransparent rules names) 7 ⟨5⟩ s' = .ok 0 s' := by
  intro rules names slots s s'
  have ranked : s.Ranked NodeId.index := ranked_index (by decide)
  have inside : (⟨5⟩ : NodeId).index < s.size := by decide
  have run : stripReferences (isTransparent rules names) 7 ⟨5⟩ s = .ok 2 s' := rfl
  obtain ⟨tree, count, s₁, unfolds, done, cleans, -, -, counts, -, again⟩ :=
    stripReferences_cleans rules names ranked.closed ranked.acyclic inside
  cases run.symm.trans done
  exact ⟨ranked.closed, ranked.acyclic, run, ⟨tree, unfolds, cleans⟩, counts.symm, again⟩

end Normalize

end Comprehension
