import Comprehension.Proofs.Ranking
import Mathlib.Data.List.Lex
import Mathlib.Data.Prod.Basic
import Mathlib.Data.Set.Card

/-! What the loop over a stack lists. The budgets of the stack only serve to stop it on a store with a cycle:
it returns a list exactly if the loop without them ends, and that is the case if no path from the root leads
astray. The list then has the root first and after it the lists of the children, as a recursive walk would
have them; it consists of the ends of all paths from the root, in the order of the paths. -/

set_option autoImplicit false

namespace Comprehension

namespace Marked

variable {ι ν : Type}

def paths : Marked ι ν → List (List Nat) :=
  fold fun _ k => [] :: k.children.zipIdx.flatMap fun p => p.1.map (p.2 :: ·)

theorem paths_node (m : ι) (k : Kind ν (Marked ι ν)) :
    (node m k).paths = [] :: k.children.zipIdx.flatMap fun p => p.1.paths.map (p.2 :: ·) := by
  rw [paths, fold_node, Kind.children_map, List.zipIdx_map, List.flatMap_map]
  rfl

theorem map_at?_paths (t : Marked ι ν) : t.paths.map t.at? = t.subtrees.map some := by
  induction t using Marked.induction with
  | step m k ih =>
    have each : ∀ p ∈ k.children.zipIdx, (p.1.paths.map (p.2 :: ·)).map (node m k).at? = p.1.subtrees.map some := by
      rintro ⟨c, i⟩ member
      have child : k.children[i]? = some c := List.mem_zipIdx_iff_getElem?.mp member
      rw [← ih c (List.mem_of_getElem? child), List.map_map]
      refine List.map_congr_left fun path _ => ?_
      rw [Function.comp_apply, at?, kind_node, child, Option.bind_some]
    rw [paths_node, subtrees_node, List.map_cons, List.map_cons, List.map_flatMap, List.map_flatMap,
      List.flatMap_congr each, ← List.flatMap_map Prod.fst fun c => (subtrees c).map some, List.zipIdx_map_fst]
    rfl

theorem mem_paths {t : Marked ι ν} {path : List Nat} : path ∈ t.paths ↔ ∃ n, t.at? path = some n := by
  induction t using Marked.induction generalizing path with
  | step m k ih =>
    rw [paths_node, List.mem_cons, List.mem_flatMap]
    constructor
    · rintro (rfl | ⟨⟨c, i⟩, member, inside⟩)
      · exact ⟨_, rfl⟩
      · have child : k.children[i]? = some c := List.mem_zipIdx_iff_getElem?.mp member
        obtain ⟨path, below, rfl⟩ := List.mem_map.mp inside
        rw [at?, kind_node, child]
        exact (ih c (List.mem_of_getElem? child)).mp below
    · rintro ⟨n, found⟩
      cases path with
      | nil => exact .inl rfl
      | cons i path =>
        obtain ⟨c, child, found⟩ := Option.bind_eq_some_iff.mp found
        have below : path ∈ c.paths := (ih c (List.mem_of_getElem? child)).mpr ⟨n, found⟩
        exact .inr ⟨(c, i), List.mem_zipIdx_iff_getElem?.mpr child, List.mem_map_of_mem below⟩

/-- Paths are listed in lexicographic order. -/
theorem paths_sorted (t : Marked ι ν) : t.paths.Pairwise (· < ·) := by
  induction t using Marked.induction with
  | step m k ih =>
    have numbers : k.children.zipIdx.Pairwise fun p q => p.2 < q.2 := by
      rw [← List.pairwise_map (f := Prod.snd) (R := (· < ·)), List.zipIdx_map_snd]
      exact List.pairwise_lt_range'
    rw [paths_node, List.pairwise_cons, List.pairwise_flatMap]
    refine ⟨?_, ?_, ?_⟩
    · intro path member
      obtain ⟨p, -, inside⟩ := List.mem_flatMap.mp member
      obtain ⟨path, -, rfl⟩ := List.mem_map.mp inside
      exact List.nil_lt_cons _ _
    · rintro ⟨c, i⟩ member
      refine List.pairwise_map.mpr ((ih c ?_).imp fun less => ?_)
      · exact List.mem_of_getElem? (List.mem_zipIdx_iff_getElem?.mp member)
      · exact List.cons_lt_cons_iff.mpr (.inr ⟨rfl, less⟩)
    · refine numbers.imp fun less path member path' member' => ?_
      obtain ⟨path, -, rfl⟩ := List.mem_map.mp member
      obtain ⟨path', -, rfl⟩ := List.mem_map.mp member'
      exact List.cons_lt_cons_iff.mpr (.inl less)

end Marked

namespace Store

variable {s : Store}

/-- The loop as it runs without budgets: as long as there is a last node on the stack, it is taken off and
listed, and its children are put on the stack, the first of them last. -/
inductive Walks (s : Store) : Array NodeId → Array NodeId → Array NodeId → Prop where
  | done {listed : Array NodeId} : Walks s #[] listed listed
  | round {stack listed ids : Array NodeId} {id : NodeId} {k : NodeKind} (top : stack.back? = some id)
      (here : s.kind? id = some k) (after : Walks s (stack.pop ++ k.children.reverse.toArray) (listed.push id) ids) :
      Walks s stack listed ids

theorem Walks.unique {stack listed ids ids' : Array NodeId} (walk : s.Walks stack listed ids)
    (walk' : s.Walks stack listed ids') : ids = ids' := by
  induction walk with
  | done =>
    cases walk' with
    | done => rfl
    | round top => cases top
  | round top here _ ih =>
    cases walk' with
    | done => cases top
    | round top' here' after' =>
      cases top.symm.trans top'
      cases here.symm.trans here'
      exact ih after'

theorem walks_of_preorderFrom {stack : List (Nat × NodeId)} {listed ids : Array NodeId}
    (done : s.preorderFrom stack listed = .ok ids) : s.Walks (stack.map Prod.snd).reverse.toArray listed ids := by
  fun_induction preorderFrom s stack listed with
  | case1 listed =>
    cases done
    exact .done
  | case2 => cases done
  | case3 => cases done
  | case4 listed budget id rest k found ih =>
    -- One stack has its top in front and the other at its end, which is why the children are turned around.
    have top : (((budget + 1, id) :: rest).map Prod.snd).reverse.toArray.back? = some id := by simp
    refine .round top (kind_eq_ok_iff.mp found) ?_
    simpa using ih done

theorem dagAt_of_children {id : NodeId} {k : NodeKind} (here : s.kind? id = some k)
    (below : ∀ c ∈ k.children, s.DagAt c) : s.DagAt id := by
  have step : ∀ {i path j}, s.follow id (i :: path) = some j → ∃ c, s.DagAt c ∧ s.follow c path = some j := by
    intro i path j found
    rw [follow, here, Option.bind_some] at found
    obtain ⟨c, child, found⟩ := Option.bind_eq_some_iff.mp found
    exact ⟨c, below c (List.mem_of_getElem? child), found⟩
  constructor
  · intro path j found
    cases path with
    | nil =>
      cases found
      exact index_lt_of_kind? here
    | cons i path =>
      obtain ⟨c, dag, found⟩ := step found
      exact dag.allocated found
  · intro path loop j found circle
    cases path with
    | cons i path =>
      obtain ⟨c, dag, found⟩ := step found
      exact dag.acyclic found circle
    | nil =>
      cases found
      cases loop with
      | nil => rfl
      | cons i loop =>
        -- The way back to the node starts at one of its children, which lies on it once more.
        obtain ⟨c, dag, found⟩ := step circle
        exact dag.acyclic found circle

/-- The loop ends only if no path from a node on its stack leads astray. -/
theorem Walks.dagAt {stack listed ids : Array NodeId} (walk : s.Walks stack listed ids) :
    ∀ id ∈ stack, s.DagAt id := by
  induction walk with
  | done => simp
  | @round stack listed ids id k top here _ ih =>
    obtain ⟨rest, rfl⟩ := Array.back?_eq_some_iff.mp top
    intro j member
    rcases Array.mem_push.mp member with waiting | rfl
    · exact ih j (by simp [waiting])
    · exact dagAt_of_children here fun c child => ih c (by simp [child])

theorem Holds.preorder_marks {l : Layout} (holds : s.Holds l) : s.preorder l.mark = .ok l.marks.toArray := by
  rw [preorder, holds.preorderFrom_eq (Nat.le_succ_of_le holds.height_le), preorderFrom, Array.empty_append]

/-- The budgets do not matter: on any store the answer is that of the loop without them. -/
theorem preorder_eq_ok_iff {root : NodeId} {ids : Array NodeId} :
    s.preorder root = .ok ids ↔ s.Walks #[root] #[] ids := by
  constructor
  · intro done
    exact walks_of_preorderFrom done
  · intro walk
    obtain ⟨l, rfl, holds⟩ := dagAt_iff.mp (walk.dagAt root (by simp))
    have done := holds.preorder_marks
    rw [walk.unique (walks_of_preorderFrom done), done]

theorem Holds.map_follow_paths {l : Layout} (holds : s.Holds l) :
    l.paths.map (s.follow l.mark) = l.marks.map some := by
  have ends : s.follow l.mark = Option.map Marked.mark ∘ l.at? := funext holds.follow_eq
  rw [ends, ← List.map_map, Marked.map_at?_paths, List.map_map, Marked.marks, List.map_map]
  rfl

theorem Holds.encard_paths {l : Layout} (holds : s.Holds l) (id : NodeId) :
    {path | s.follow l.mark path = some id}.encard = l.marks.count id := by
  have nodup : l.paths.Nodup := l.paths_sorted.imp ne_of_lt
  have those : {path | s.follow l.mark path = some id} =
      (l.paths.filter (s.follow l.mark · == some id)).toFinset := by
    ext path
    have inside : s.follow l.mark path = some id → path ∈ l.paths := by
      intro found
      rw [holds.follow_eq] at found
      obtain ⟨n, place, -⟩ := Option.map_eq_some_iff.mp found
      exact Marked.mem_paths.mpr ⟨n, place⟩
    simpa using inside
  have count : l.marks.count id = (l.paths.map (s.follow l.mark)).count (some id) := by
    rw [holds.map_follow_paths, List.count_map_of_injective _ _ (Option.some_injective _)]
  rw [those, Set.encard_coe_eq_coe_finsetCard, List.toFinset_card_of_nodup (nodup.filter _), count,
    List.count, List.countP_map, List.countP_eq_length_filter]
  rfl

/-- A recursive walk has no other answer. -/
theorem Holds.eq_marks {l : Layout} (holds : s.Holds l) {list : NodeId → List NodeId}
    (recursive : ∀ id k, s.kind? id = some k → list id = id :: k.children.flatMap list) :
    list l.mark = l.marks := by
  induction l using Marked.induction with
  | step m k ih =>
    obtain ⟨here, children⟩ := holds_node.mp holds
    rw [Marked.mark_node, recursive m _ here, Kind.children_map, List.flatMap_map, Marked.marks_node]
    exact congrArg (m :: ·) (List.flatMap_congr fun c child => ih c child (children c child))

/-- In a closed store without cycles, however nodes are shared, the loop ends below every node. It lists the
node and then, child by child, what it lists for the children, and no other function that recurses so gives
another list. A node is listed once for every path that leads to it, so that exactly the nodes that can be
reached are listed. -/
theorem preorder_recursive {root : NodeId} (closed : s.Closed) (acyclic : s.Acyclic)
    (inside : root.index < s.size) :
    ∃ ids children lists, s.preorder root = .ok ids ∧ (∀ final, s.Walks #[root] #[] final ↔ final = ids) ∧
      s.children root = .ok children ∧ children.mapM s.preorder = .ok lists ∧
      ids.toList = root :: lists.flatMap Array.toList ∧
      (∀ list : NodeId → List NodeId,
        (∀ id k, s.kind? id = some k → list id = id :: k.children.flatMap list) → list root = ids.toList) ∧
      (∀ id, {path | s.follow root path = some id}.encard = ids.count id) ∧
      ∀ id, id ∈ ids ↔ ∃ path, s.follow root path = some id := by
  obtain ⟨⟨m, k⟩, rfl, holds⟩ := dagAt_iff.mp (closed.dagAt acyclic inside)
  have done := holds.preorder_marks
  obtain ⟨here, below⟩ := holds_node.mp holds
  have lists : (k.children.map Marked.mark).mapM s.preorder = .ok (k.children.map fun c => c.marks.toArray) := by
    rw [List.mapM_map]
    exact Kind.mapM_ok fun c child => (below c child).preorder_marks
  refine ⟨_, _, _, done, fun final => ?_, children_eq here, lists, ?_, fun _ => holds.eq_marks, fun id => ?_, fun id => ?_⟩
  · rw [← preorder_eq_ok_iff, done, Except.ok.injEq, eq_comm]
  · simp [Marked.marks_node, List.flatMap_map]
  · rw [holds.encard_paths, List.count_toArray]
  · rw [holds.exists_follow_iff, List.mem_toArray, Marked.mem_marks]

theorem preorder_recursive_operands :
    let slots (kinds : List NodeKind) : Store := ⟨(kinds.map (⟨·, .none⟩)).toArray⟩
    let s := slots [.ident ⟨1⟩ [], .member ⟨0⟩ ⟨2⟩ [], .typeRef ⟨4⟩ [], .member ⟨1⟩ ⟨3⟩ [⟨2⟩],
      .binary .add ⟨3⟩ ⟨3⟩, .binary .add ⟨4⟩ ⟨1⟩]
    s.Closed ∧ s.Acyclic ∧
      s.preorder ⟨5⟩ = .ok (#[5, 4, 3, 1, 0, 2, 3, 1, 0, 2, 1, 0].map NodeId.mk) ∧
      {path | s.follow ⟨5⟩ path = some ⟨1⟩}.encard = 3 := by
  intro slots s
  have ranked : s.Ranked NodeId.index := ranked_index (by decide)
  have run : s.preorder ⟨5⟩ = .ok (#[5, 4, 3, 1, 0, 2, 3, 1, 0, 2, 1, 0].map NodeId.mk) := by
    cbv
  obtain ⟨ids, children, lists, done, -, -, -, -, -, once, -⟩ :=
    preorder_recursive ranked.closed ranked.acyclic (show (⟨5⟩ : NodeId).index < s.size by decide)
  cases run.symm.trans done
  have count : (#[5, 4, 3, 1, 0, 2, 3, 1, 0, 2, 1, 0].map NodeId.mk).count ⟨1⟩ = 3 := by cbv
  refine ⟨ranked.closed, ranked.acyclic, run, ?_⟩
  rw [once, count]
  rfl

end Store

end Comprehension
