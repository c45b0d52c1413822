import Comprehension.Proofs.Subtree
import Comprehension.Store.Preorder
import Mathlib.Data.List.Nodup
import Mathlib.Data.List.Perm.Subperm

/-! Stores that hold a tree. A layout is a tree whose marks say in which slot every node lies. A root
has a layout exactly if every path from it leads to a slot in use and no path comes back to where it has
been; the layout then unfolds to the tree of the root. It has different slots for different nodes exactly
if no two paths lead to the same slot. -/

set_option autoImplicit false

namespace Comprehension

abbrev Layout := Marked NodeId Name

def Layout.tree (names : NameTable) (l : Layout) : Tree := l.map (fun _ => ()) names.lookup

def Layout.shape (l : Layout) : Marked Unit Name := l.map (fun _ => ()) id

theorem Layout.tree_eq_map (l : Layout) (names : NameTable) : l.tree names = l.shape.map id names.lookup := by
  rw [shape, Marked.map_map]
  rfl

theorem Layout.shape_mem {l n : Layout} (below : n ∈ l.subtrees) : n.shape ∈ l.shape.subtrees := by
  rw [shape, shape, Marked.subtrees_map]
  exact List.mem_map_of_mem below

namespace Marked

variable {ι ν : Type}

def at? (t : Marked ι ν) : List Nat → Option (Marked ι ν)
  | [] => some t
  | i :: path => t.kind.children[i]?.bind fun c => c.at? path

theorem at?_append (t : Marked ι ν) (path path' : List Nat) :
    t.at? (path ++ path') = (t.at? path).bind (·.at? path') := by
  induction path generalizing t with
  | nil => rfl
  | cons i path ih =>
    rw [List.cons_append, at?, at?]
    cases t.kind.children[i]? with
    | none => rfl
    | some c => exact ih c

theorem at?_map {κ μ : Type} (f : ι → κ) (g : ν → μ) (t : Marked ι ν) (path : List Nat) :
    (t.map f g).at? path = (t.at? path).map (map f g) := by
  induction path generalizing t with
  | nil => rfl
  | cons i path ih =>
    rw [at?, at?, kind_map, Kind.children_map, List.getElem?_map]
    cases t.kind.children[i]? with
    | none => rfl
    | some c => exact ih c

theorem mem_subtrees_of_at? {t n : Marked ι ν} {path : List Nat} (found : t.at? path = some n) :
    n ∈ t.subtrees := by
  induction path generalizing t with
  | nil =>
    cases found
    exact self_mem_subtrees _
  | cons i path ih =>
    obtain ⟨c, child, found⟩ := Option.bind_eq_some_iff.mp found
    exact mem_subtrees_trans (ih found) (mem_subtrees_of_child (List.mem_of_getElem? child))

theorem height_le_of_at? {t n : Marked ι ν} {path : List Nat} (found : t.at? path = some n) :
    n.height + path.length ≤ t.height := by
  induction path generalizing t with
  | nil =>
    cases found
    exact Nat.le_refl _
  | cons i path ih =>
    obtain ⟨m, k⟩ := t
    obtain ⟨c, child, found⟩ := Option.bind_eq_some_iff.mp found
    have low : c.height < (node m k).height := height_lt (List.mem_of_getElem? child)
    exact Nat.le_trans (Nat.succ_le_succ (ih found)) low

theorem height_le_of_paths {t : Marked ι ν} {n : Nat}
    (short : ∀ path o, t.at? path = some o → path.length < n) : t.height ≤ n := by
  induction t using Marked.induction generalizing n with
  | step m k ih =>
    obtain ⟨n, rfl⟩ : ∃ n', n = n' + 1 := Nat.exists_eq_add_one.mpr (short [] _ rfl)
    refine height_le_iff.mpr fun c child => ih c child fun path o found => ?_
    obtain ⟨i, bound, rfl⟩ := List.mem_iff_getElem.mp child
    exact Nat.lt_of_succ_lt_succ (short (i :: path) o (by simp [at?, bound, found]))

theorem exists_at?_of_mem {t n : Marked ι ν} (below : n ∈ t.subtrees) : ∃ path, t.at? path = some n := by
  induction t using Marked.induction with
  | step m k ih =>
    rcases mem_subtrees_node.mp below with rfl | ⟨c, child, below⟩
    · exact ⟨[], rfl⟩
    · obtain ⟨path, found⟩ := ih c child below
      obtain ⟨i, bound, rfl⟩ := List.mem_iff_getElem.mp child
      exact ⟨i :: path, by simp [at?, bound, found]⟩

def SinglePlaces (t : Marked ι ν) : Prop :=
  ∀ {path path' n n'}, t.at? path = some n → t.at? path' = some n' → n.mark = n'.mark → path = path'

theorem SinglePlaces.child {m : ι} {k : Kind ν (Marked ι ν)} (single : SinglePlaces (node m k))
    {c : Marked ι ν} (child : c ∈ k.children) : c.SinglePlaces := by
  intro path path' n n' found found' same
  obtain ⟨i, bound, rfl⟩ := List.mem_iff_getElem.mp child
  have equal : i :: path = i :: path' :=
    single (by simp [at?, bound, found]) (by simp [at?, bound, found']) same
  exact (List.cons.inj equal).2

theorem nodup_marks_of_singlePlaces {t : Marked ι ν} (single : t.SinglePlaces) : t.marks.Nodup := by
  induction t using Marked.induction with
  | step m k ih =>
    rw [marks_node, List.nodup_cons, List.nodup_flatMap]
    refine ⟨?_, fun c child => ih c child (single.child child), ?_⟩
    · -- The mark of the root does not occur below it.
      intro member
      obtain ⟨c, child, member⟩ := List.mem_flatMap.mp member
      obtain ⟨n, below, same⟩ := mem_marks.mp member
      obtain ⟨path, found⟩ := exists_at?_of_mem below
      obtain ⟨i, bound, rfl⟩ := List.mem_iff_getElem.mp child
      have equal : i :: path = [] := single (by simp [at?, bound, found]) rfl same
      cases equal
    · -- No mark occurs below two children: the places would differ in their first step.
      rw [List.pairwise_iff_getElem]
      intro i j hi hj less x inFirst inSecond
      obtain ⟨n, below, rfl⟩ := mem_marks.mp inFirst
      obtain ⟨n', below', same⟩ := mem_marks.mp inSecond
      obtain ⟨path, found⟩ := exists_at?_of_mem below
      obtain ⟨path', found'⟩ := exists_at?_of_mem below'
      have equal : i :: path = j :: path' :=
        single (by simp [at?, hi, found]) (by simp [at?, hj, found']) same.symm
      exact absurd (List.cons.inj equal).1 (Nat.ne_of_lt less)

theorem singlePlaces_of_nodup_marks {t : Marked ι ν} (nodup : t.marks.Nodup) : t.SinglePlaces := by
  induction t using Marked.induction with
  | step m k ih =>
    rw [marks_node, List.nodup_cons, List.nodup_flatMap, List.pairwise_iff_getElem] at nodup
    obtain ⟨notBelow, each, disjoint⟩ := nodup
    -- A place below the root is a child and a place in it.
    have place : ∀ {i path n}, (node m k).at? (i :: path) = some n →
        ∃ bound : i < k.children.length, k.children[i].at? path = some n := by
      intro i path n found
      obtain ⟨c, child, found⟩ := Option.bind_eq_some_iff.mp found
      obtain ⟨bound, rfl⟩ := List.getElem?_eq_some_iff.mp child
      exact ⟨bound, found⟩
    have below : ∀ {i path n} (bound : i < k.children.length), k.children[i].at? path = some n →
        n.mark ∈ k.children[i].marks := fun _ found => mem_marks.mpr ⟨_, mem_subtrees_of_at? found, rfl⟩
    intro path path' n n' found found' same
    cases path with
    | nil =>
      cases path' with
      | nil => rfl
      | cons j path' =>
        obtain ⟨bound, found'⟩ := place found'
        cases found
        have same : m = n'.mark := same
        exact absurd (List.mem_flatMap.mpr ⟨_, List.getElem_mem bound, same ▸ below bound found'⟩) notBelow
    | cons i path =>
      obtain ⟨bound, found⟩ := place found
      cases path' with
      | nil =>
        cases found'
        have same : n.mark = m := same
        exact absurd (List.mem_flatMap.mpr ⟨_, List.getElem_mem bound, same ▸ below bound found⟩) notBelow
      | cons j path' =>
        obtain ⟨bound', found'⟩ := place found'
        have equal : i = j := by
          rcases Nat.lt_trichotomy i j with less | equal | more
          · exact absurd (same ▸ below bound' found') (disjoint i j bound bound' less (below bound found))
          · exact equal
          · exact absurd (below bound found)
              (disjoint j i bound' bound more (same ▸ below bound' found'))
        subst equal
        rw [ih _ (List.getElem_mem bound) (each _ (List.getElem_mem bound)) found found' same]

end Marked

namespace Store

def Holds (s : Store) (l : Layout) : Prop := ∀ n ∈ l.subtrees, s.kind? n.mark = some n.cell

def follow (s : Store) (id : NodeId) : List Nat → Option NodeId
  | [] => some id
  | i :: path => (s.kind? id).bind fun k => k.children[i]?.bind fun c => s.follow c path

/-- Every path from a root leads to a slot in use, and none leads back to a node that it has passed. -/
structure DagAt (s : Store) (root : NodeId) : Prop where
  allocated : ∀ {path id}, s.follow root path = some id → id.index < s.size
  acyclic : ∀ {path loop id}, s.follow root path = some id → s.follow id loop = some id → loop = []

structure TreeAt (s : Store) (root : NodeId) : Prop where
  allocated : ∀ {path id}, s.follow root path = some id → id.index < s.size
  single : ∀ {path path' id}, s.follow root path = some id → s.follow root path' = some id → path = path'

variable {s : Store}

theorem index_lt_of_kind? {id : NodeId} {k : NodeKind} (found : s.kind? id = some k) :
    id.index < s.size := by
  by_contra beyond
  have absent : s.node? id = none := node?_eq_none_iff.mpr (Nat.le_of_not_lt beyond)
  simp [kind?, absent] at found

theorem exists_kind?_of_lt {id : NodeId} (bound : id.index < s.size) : ∃ k, s.kind? id = some k := by
  cases found : s.node? id with
  | none => exact absurd (node?_eq_none_iff.mp found) (Nat.not_le_of_lt bound)
  | some n => exact ⟨n.kind, by simp [kind?, found]⟩

theorem follow_append (id : NodeId) (path path' : List Nat) :
    s.follow id (path ++ path') = (s.follow id path).bind (s.follow · path') := by
  induction path generalizing id with
  | nil => rfl
  | cons i path ih =>
    rw [List.cons_append, follow, follow]
    cases s.kind? id with
    | none => rfl
    | some k =>
      cases child : k.children[i]? with
      | none => simp [child]
      | some c => simp [child, ih]

/-! ### What a held layout says -/

theorem Holds.kind? {l : Layout} (holds : s.Holds l) : s.kind? l.mark = some l.cell :=
  holds l (Marked.self_mem_subtrees l)

theorem Holds.node? {l : Layout} (holds : s.Holds l) :
    ∃ span, s.node? l.mark = some ⟨l.cell, span⟩ ∧ s.span l.mark = .ok span := by
  obtain ⟨n, found, kind⟩ := Option.map_eq_some_iff.mp holds.kind?
  refine ⟨n.span, ?_, ?_⟩
  · rw [found, ← kind]
  · rw [Store.span, found]

theorem Holds.of_mem {l n : Layout} (holds : s.Holds l) (below : n ∈ l.subtrees) : s.Holds n :=
  fun o low => holds o (Marked.mem_subtrees_trans low below)

theorem holds_node {m : NodeId} {k : Kind Name Layout} :
    s.Holds (.node m k) ↔ s.kind? m = some (k.map id Marked.mark) ∧ ∀ c ∈ k.children, s.Holds c := by
  constructor
  · intro holds
    exact ⟨holds.kind?, fun c child => holds.of_mem (Marked.mem_subtrees_of_child child)⟩
  · rintro ⟨here, children⟩ n below
    rcases Marked.mem_subtrees_node.mp below with rfl | ⟨c, child, below⟩
    · exact here
    · exact children c child n below

theorem children_eq {m : NodeId} {k : Kind Name Layout} (here : s.kind? m = some (k.map id Marked.mark)) :
    s.children m = .ok (k.children.map Marked.mark) := by
  rw [children, kind_eq_ok_iff.mpr here]
  exact congrArg Except.ok (Kind.children_map ..)

theorem Holds.index_lt {l : Layout} (holds : s.Holds l) {m : NodeId} (member : m ∈ l.marks) :
    m.index < s.size := by
  obtain ⟨n, below, rfl⟩ := Marked.mem_marks.mp member
  exact index_lt_of_kind? (holds n below)

theorem Holds.follow_eq {l : Layout} (holds : s.Holds l) (path : List Nat) :
    s.follow l.mark path = (l.at? path).map Marked.mark := by
  induction path generalizing l with
  | nil => rfl
  | cons i path ih =>
    obtain ⟨m, k⟩ := l
    obtain ⟨here, children⟩ := holds_node.mp holds
    simp only [follow, Marked.mark_node, here, Option.bind_some, Kind.children_map, List.getElem?_map,
      Marked.at?, Marked.kind_node]
    cases child : k.children[i]? with
    | none => rfl
    | some c => exact ih (children c (List.mem_of_getElem? child))

theorem Holds.index_lt_of_follow {l : Layout} (holds : s.Holds l) {path : List Nat} {id : NodeId}
    (found : s.follow l.mark path = some id) : id.index < s.size := by
  rw [holds.follow_eq] at found
  obtain ⟨n, place, rfl⟩ := Option.map_eq_some_iff.mp found
  exact holds.index_lt (Marked.mem_marks.mpr ⟨n, Marked.mem_subtrees_of_at? place, rfl⟩)

/-- Slots are numbered below the size, so a layout without repetitions is no larger than the store. -/
theorem Holds.length_marks_le {l : Layout} (holds : s.Holds l) (nodup : l.marks.Nodup) :
    l.marks.length ≤ s.size := by
  have numbers : (l.marks.map NodeId.index).Nodup :=
    nodup.map fun a b same => by cases a; cases b; exact congrArg NodeId.mk same
  have inside : l.marks.map NodeId.index ⊆ List.range s.size := by
    intro i member
    obtain ⟨m, marked, rfl⟩ := List.mem_map.mp member
    exact List.mem_range.mpr (holds.index_lt marked)
  simpa using (numbers.subperm inside).length_le

theorem Holds.unfoldWithin_eq {l : Layout} (holds : s.Holds l) (names : NameTable) {budget : Nat}
    (enough : l.height ≤ budget) : s.unfoldWithin names budget l.mark = .ok (l.tree names) := by
  induction l using Marked.induction generalizing budget with
  | step m k ih =>
    obtain ⟨here, children⟩ := holds_node.mp holds
    obtain ⟨budget, rfl⟩ : ∃ b, budget = b + 1 :=
      Nat.exists_eq_add_one.mpr (Marked.height_pos.trans_le enough)
    have each : ∀ c ∈ k.children, (s.unfoldWithin names budget ∘ Marked.mark) c = .ok (Layout.tree names c) := by
      intro c child
      exact ih c child (children c child) (Nat.le_of_lt_succ ((Marked.height_lt child).trans_le enough))
    rw [unfoldWithin, Marked.mark_node, kind_eq_ok_iff.mpr here]
    change (do
      let layer ← (k.map id Marked.mark).traverse (s.unfoldWithin names budget)
      return Marked.node () (layer.map names.lookup fun t => t)) = _
    rw [Kind.traverse_map, Kind.traverse_ok each]
    change Except.ok (Marked.node () ((k.map id (Layout.tree names)).map names.lookup fun t => t)) = _
    rw [Kind.map_map, Layout.tree, Marked.map_node]
    rfl

theorem Holds.unfold_eq {l : Layout} (holds : s.Holds l) (nodup : l.marks.Nodup) (names : NameTable) :
    s.unfold names l.mark = .ok (l.tree names) :=
  holds.unfoldWithin_eq names
    (Nat.le_succ_of_le (l.height_le_length_marks.trans (holds.length_marks_le nodup)))

/-- A layout on top of a stack is listed before what lies under it. -/
theorem Holds.preorderFrom_eq {l : Layout} (holds : s.Holds l) {budget : Nat} (enough : l.height ≤ budget)
    (rest : List (Nat × NodeId)) (listed : Array NodeId) :
    s.preorderFrom ((budget, l.mark) :: rest) listed = s.preorderFrom rest (listed ++ l.marks.toArray) := by
  induction l using Marked.induction generalizing budget rest listed with
  | step m k ih =>
    obtain ⟨here, children⟩ := holds_node.mp holds
    obtain ⟨budget, rfl⟩ : ∃ b, budget = b + 1 :=
      Nat.exists_eq_add_one.mpr (Marked.height_pos.trans_le enough)
    -- The children take the place of the node on the stack, each with one step less.
    have below : ∀ (ls : List Layout) (listed : Array NodeId), (∀ c ∈ ls, c ∈ k.children) →
        s.preorderFrom (ls.map (fun c => (budget, c.mark)) ++ rest) listed =
          s.preorderFrom rest (listed ++ (ls.flatMap Marked.marks).toArray) := by
      intro ls
      induction ls with
      | nil => simp
      | cons c ls tail =>
        intro listed inside
        obtain ⟨child, inside⟩ := List.forall_mem_cons.mp inside
        have fits : c.height ≤ budget := Nat.le_of_lt_succ ((Marked.height_lt child).trans_le enough)
        rw [List.map_cons, List.cons_append, ih c child (children c child) fits, tail _ inside]
        simp
    have read := kind_eq_ok_iff.mpr here
    rw [Marked.mark_node, preorderFrom]
    split
    · next e failed =>
      rw [read] at failed
      cases failed
    · next k' found =>
      obtain rfl := Except.ok.inj (read.symm.trans found)
      rw [Kind.children_map, List.map_map]
      refine (below k.children _ fun _ => id).trans ?_
      simp [Marked.marks_node]

theorem Holds.preorder_eq {l : Layout} (holds : s.Holds l) (nodup : l.marks.Nodup) :
    s.preorder l.mark = .ok l.marks.toArray := by
  have enough : l.height ≤ s.size := l.height_le_length_marks.trans (holds.length_marks_le nodup)
  rw [preorder, holds.preorderFrom_eq (Nat.le_succ_of_le enough), preorderFrom, Array.empty_append]

/-! ### Roots of trees have layouts -/

theorem follow_take {root id : NodeId} {path : List Nat} (found : s.follow root path = some id) (i : Nat) :
    ∃ passed, s.follow root (path.take i) = some passed := by
  have whole : s.follow root (path.take i ++ path.drop i) = some id := by rwa [List.take_append_drop]
  rw [follow_append] at whole
  obtain ⟨passed, found, -⟩ := Option.bind_eq_some_iff.mp whole
  exact ⟨passed, found⟩

/-- The nodes on a path are different, so a path has fewer steps than there are slots. -/
theorem DagAt.length_lt {root id : NodeId} {path : List Nat} (dag : s.DagAt root)
    (found : s.follow root path = some id) : path.length < s.size := by
  -- Between equal nodes on the path there would be a way back.
  let passed (i : Nat) : Nat := ((s.follow root (path.take i)).getD root).index
  have less {i j : Nat} (low : i < j) (high : j ≤ path.length) : passed i ≠ passed j := by
    intro same
    obtain ⟨a, first⟩ := follow_take found i
    obtain ⟨b, second⟩ := follow_take found j
    have equal : a = b := by
      cases a; cases b
      simpa [passed, first, second] using same
    have parts : path.take j = path.take i ++ (path.take j).drop i := by
      refine (List.take_append_drop i (path.take j)).symm.trans ?_
      rw [List.take_take, Nat.min_eq_left (Nat.le_of_lt low)]
    rw [parts, follow_append, first, Option.bind_some, ← equal] at second
    have short := congrArg List.length (dag.acyclic first second)
    simp only [List.length_drop, List.length_take, List.length_nil] at short
    omega
  have numbers : ((List.range (path.length + 1)).map passed).Nodup := by
    refine List.nodup_range.map_on fun i hi j hj same => ?_
    rw [List.mem_range] at hi hj
    rcases Nat.lt_trichotomy i j with low | equal | low
    · exact absurd same (less low (Nat.le_of_lt_succ hj))
    · exact equal
    · exact absurd same.symm (less low (Nat.le_of_lt_succ hi))
  have inside : (List.range (path.length + 1)).map passed ⊆ List.range s.size := by
    intro n member
    obtain ⟨i, -, rfl⟩ := List.mem_map.mp member
    obtain ⟨a, first⟩ := follow_take found i
    simpa [passed, first] using dag.allocated first
  have lengths := (numbers.subperm inside).length_le
  simp only [List.length_map, List.length_range] at lengths
  omega

private theorem DagAt.exists_holds {root : NodeId} (dag : s.DagAt root) (left : Nat) (path : List Nat)
    (reached : NodeId) (found : s.follow root path = some reached) (enough : s.size ≤ path.length + left) :
    ∃ l : Layout, l.mark = reached ∧ s.Holds l := by
  induction left generalizing path reached with
  | zero => exact absurd (dag.length_lt found) (Nat.not_lt_of_le enough)
  | succ left ih =>
    obtain ⟨k, here⟩ := exists_kind?_of_lt (dag.allocated found)
    have children : ∀ c ∈ k.children, ∃ l : Layout, l.mark = c ∧ s.Holds l := by
      intro c child
      obtain ⟨i, bound, rfl⟩ := List.mem_iff_getElem.mp child
      refine ih (path ++ [i]) _ ?_ (by simp; omega)
      simp [follow_append, found, follow, here, bound]
    -- Layouts of the children are chosen one by one and put into the layer.
    have : Nonempty Layout := ⟨.node reached (.literal .null)⟩
    choose! layout marked held using children
    have image : (k.map id layout).map id Marked.mark = k := by
      rw [Kind.map_map]
      exact Kind.map_id_of marked
    refine ⟨.node reached (k.map id layout), rfl, holds_node.mpr ⟨?_, ?_⟩⟩
    · rw [here, image]
    · simp only [Kind.children_map, List.mem_map]
      rintro _ ⟨c, child, rfl⟩
      exact held c child

theorem Holds.unique {l l' : Layout} (holds : s.Holds l) (holds' : s.Holds l') (same : l.mark = l'.mark) :
    l = l' := by
  induction l using Marked.induction generalizing l' with
  | step m k ih =>
    obtain ⟨m', k'⟩ := l'
    obtain rfl : m = m' := same
    obtain ⟨here, children⟩ := holds_node.mp holds
    obtain ⟨here', children'⟩ := holds_node.mp holds'
    have cells : k.map id Marked.mark = k'.map id Marked.mark := Option.some.inj (here.symm.trans here')
    -- A layout for every slot that has one gives the children of both nodes.
    classical
    let held (id : NodeId) : Layout := if h : ∃ c, s.Holds c ∧ c.mark = id then h.choose else .node id (.query [])
    have first : ∀ c ∈ k.children, held c.mark = c := fun c child => by
      have some : ∃ o, s.Holds o ∧ o.mark = c.mark := ⟨c, children c child, rfl⟩
      rw [show held c.mark = some.choose from dif_pos some]
      exact (ih c child (children c child) some.choose_spec.1 some.choose_spec.2.symm).symm
    have second : ∀ c ∈ k'.children, held c.mark = c := fun c child => by
      have marked : c.mark ∈ (k.map id Marked.mark).children := by
        rw [cells, Kind.children_map]
        exact List.mem_map_of_mem child
      rw [Kind.children_map] at marked
      obtain ⟨o, member, is⟩ := List.mem_map.mp marked
      rw [← is, first o member]
      exact ih o member (children o member) (children' c child) is
    have image : k = (k.map id Marked.mark).map id held := by
      rw [Kind.map_map]
      exact (Kind.map_id_of first).symm
    have image' : k' = (k'.map id Marked.mark).map id held := by
      rw [Kind.map_map]
      exact (Kind.map_id_of second).symm
    rw [image, image', cells]

/-- A root has a layout exactly if no path from it leads astray. -/
theorem dagAt_iff {root : NodeId} : s.DagAt root ↔ ∃ l : Layout, l.mark = root ∧ s.Holds l := by
  constructor
  · intro dag
    exact dag.exists_holds s.size [] root rfl (by simp)
  · rintro ⟨l, rfl, holds⟩
    refine ⟨holds.index_lt_of_follow, fun {path loop id} found circle => ?_⟩
    rw [holds.follow_eq] at found
    obtain ⟨n, place, rfl⟩ := Option.map_eq_some_iff.mp found
    have low : s.Holds n := holds.of_mem (Marked.mem_subtrees_of_at? place)
    rw [low.follow_eq] at circle
    obtain ⟨n', place', same⟩ := Option.map_eq_some_iff.mp circle
    -- What lies at the end of the circle is the same layout, which is not lower than itself.
    obtain rfl := (low.of_mem (Marked.mem_subtrees_of_at? place')).unique low same
    have lower := Marked.height_le_of_at? place'
    exact List.length_eq_zero_iff.mp (by omega)

theorem Holds.height_le {l : Layout} (holds : s.Holds l) : l.height ≤ s.size := by
  refine Marked.height_le_of_paths fun path n place => ?_
  have found : s.follow l.mark path = some n.mark := by
    rw [holds.follow_eq, place, Option.map_some]
  exact (dagAt_iff.mpr ⟨l, rfl, holds⟩).length_lt found

theorem Holds.unfold_tree {l : Layout} (holds : s.Holds l) (names : NameTable) :
    s.unfold names l.mark = .ok (l.tree names) :=
  holds.unfoldWithin_eq names (Nat.le_succ_of_le holds.height_le)

theorem TreeAt.dagAt {root : NodeId} (tree : s.TreeAt root) : s.DagAt root where
  allocated := tree.allocated
  acyclic {path loop id} found circle := by
    have longer : s.follow root (path ++ loop) = some id := by
      rw [follow_append, found, Option.bind_some, circle]
    exact List.append_right_eq_self.mp (tree.single longer found)

/-- A root has a layout without repetitions exactly if it is the root of a tree. -/
theorem treeAt_iff {root : NodeId} :
    s.TreeAt root ↔ ∃ l : Layout, l.mark = root ∧ s.Holds l ∧ l.marks.Nodup := by
  constructor
  · intro tree
    obtain ⟨l, rfl, holds⟩ := dagAt_iff.mp tree.dagAt
    refine ⟨l, rfl, holds, Marked.nodup_marks_of_singlePlaces ?_⟩
    intro path path' n n' found found' same
    have first : s.follow l.mark path = some n.mark := by
      rw [holds.follow_eq, found, Option.map_some]
    have second : s.follow l.mark path' = some n.mark := by
      rw [holds.follow_eq, found', Option.map_some, same]
    exact tree.single first second
  · rintro ⟨l, rfl, holds, nodup⟩
    refine ⟨holds.index_lt_of_follow, fun {path path' id} found found' => ?_⟩
    rw [holds.follow_eq] at found found'
    obtain ⟨n, place, rfl⟩ := Option.map_eq_some_iff.mp found
    obtain ⟨n', place', same⟩ := Option.map_eq_some_iff.mp found'
    exact Marked.singlePlaces_of_nodup_marks nodup place place' same.symm

theorem Holds.exists_follow_iff {l : Layout} (holds : s.Holds l) {id : NodeId} :
    (∃ path, s.follow l.mark path = some id) ↔ ∃ n ∈ l.subtrees, n.mark = id := by
  constructor
  · rintro ⟨path, found⟩
    rw [holds.follow_eq] at found
    obtain ⟨n, place, rfl⟩ := Option.map_eq_some_iff.mp found
    exact ⟨n, Marked.mem_subtrees_of_at? place, rfl⟩
  · rintro ⟨n, below, rfl⟩
    obtain ⟨path, place⟩ := Marked.exists_at?_of_mem below
    exact ⟨path, by rw [holds.follow_eq, place, Option.map_some]⟩

end Store

/-! ### Stores for layouts -/

namespace Layout

variable {l : Layout}

def slot (l : Layout) (i : Nat) : Node := ⟨((l.subtrees.find? (·.mark.index == i)).getD l).cell, .none⟩

def store (l : Layout) : Store := ⟨((List.range l.marks.length).map l.slot).toArray⟩

theorem holds_store (nodup : l.marks.Nodup) (filled : ∀ id ∈ l.marks, id.index < l.marks.length) :
    l.store.Holds l := by
  intro n below
  have bound : n.mark.index < l.marks.length := filled n.mark (Marked.mem_marks.mpr ⟨n, below, rfl⟩)
  have found : l.subtrees.find? (·.mark.index == n.mark.index) = some n := by
    cases search : l.subtrees.find? (·.mark.index == n.mark.index) with
    | none => exact absurd (List.find?_eq_none.mp search n below) (by simp)
    | some o =>
      have index : o.mark.index = n.mark.index := by simpa using List.find?_some search
      have same : o.mark = n.mark := congrArg NodeId.mk index
      exact congrArg some (List.inj_on_of_nodup_map nodup (List.mem_of_find?_eq_some search) below same)
  simp [Store.kind?, Store.node?, store, bound, slot, found]

theorem treeAt_store (nodup : l.marks.Nodup) (filled : ∀ id ∈ l.marks, id.index < l.marks.length) :
    l.store.TreeAt l.mark :=
  Store.treeAt_iff.mpr ⟨l, rfl, holds_store nodup filled, nodup⟩

/-- `from t in (from x in xs.Cast<T>() select new { x, y = x.f }) select t.y`, where the texts of the
names are, in the order of their numbers: nothing, `xs`, `T`, `Cast`, `x`, `f`, `y` and `t`. -/
def nested : Layout :=
  .node ⟨16⟩ (.query [
    .node ⟨12⟩ (.fromClause ⟨7⟩ none (.node ⟨11⟩ (.query [
      .node ⟨4⟩ (.fromClause ⟨4⟩ none (.node ⟨3⟩ (.call (.node ⟨2⟩ (.member (.node ⟨0⟩ (.ident ⟨1⟩ [])) ⟨3⟩
        [.node ⟨1⟩ (.typeRef ⟨2⟩ [])])) []))),
      .node ⟨10⟩ (.selectClause (.node ⟨9⟩ (.record [
        .node ⟨5⟩ (.ident ⟨4⟩ []),
        .node ⟨8⟩ (.named ⟨6⟩ (.node ⟨7⟩ (.member (.node ⟨6⟩ (.ident ⟨4⟩ [])) ⟨5⟩ [])))])))]))),
    .node ⟨15⟩ (.selectClause (.node ⟨14⟩ (.member (.node ⟨13⟩ (.ident ⟨7⟩ [])) ⟨6⟩ [])))])

end Layout

end Comprehension
