import Comprehension.Proofs.Layer
import Comprehension.Tree
import Mathlib.Data.Nat.Basic
import Mathlib.Order.MinMax

/-! The trees below a tree, their marks, and trees with other marks and names. -/

set_option autoImplicit false

namespace Comprehension.Marked

variable {ι κ ν μ : Type}

def listLayer (m : ι) (k : Kind ν (Marked ι ν × List (Marked ι ν))) :
    Marked ι ν × List (Marked ι ν) :=
  (.node m (k.map id Prod.fst), .node m (k.map id Prod.fst) :: k.children.flatMap Prod.snd)

def subtrees (t : Marked ι ν) : List (Marked ι ν) := (fold listLayer t).2

def marks (t : Marked ι ν) : List ι := t.subtrees.map mark

def height : Marked ι ν → Nat := fold fun _ k => k.children.foldr max 0 + 1

def map (f : ι → κ) (g : ν → μ) : Marked ι ν → Marked κ μ :=
  fold fun m k => .node (f m) (k.map g id)

/-- What a store holds for the root of a tree: the kind, with marks in place of the children. -/
def cell (t : Marked ι ν) : Kind ν ι := t.kind.map id mark

@[simp] theorem mark_node (m : ι) (k : Kind ν (Marked ι ν)) : (node m k).mark = m := rfl

@[simp] theorem kind_node (m : ι) (k : Kind ν (Marked ι ν)) : (node m k).kind = k := rfl

@[simp] theorem cell_node (m : ι) (k : Kind ν (Marked ι ν)) : (node m k).cell = k.map id mark := rfl

theorem node_mark_kind (t : Marked ι ν) : node t.mark t.kind = t := by
  cases t
  rfl

private theorem fold_listLayer_fst (t : Marked ι ν) : (fold listLayer t).1 = t := by
  induction t using Marked.induction with
  | step m k ih =>
    rw [fold_node, listLayer, Kind.map_map]
    exact congrArg (node m) (Kind.map_id_of ih)

theorem subtrees_node (m : ι) (k : Kind ν (Marked ι ν)) :
    (node m k).subtrees = node m k :: k.children.flatMap subtrees := by
  -- The fold builds the tree again beside the list; the head of the list is that copy.
  have whole : (fold listLayer (node m k)).1 = node m k := fold_listLayer_fst (node m k)
  rw [fold_node] at whole
  rw [subtrees, fold_node, listLayer, Kind.children_map, List.flatMap_map]
  exact congrArg (· :: k.children.flatMap subtrees) whole

theorem marks_node (m : ι) (k : Kind ν (Marked ι ν)) :
    (node m k).marks = m :: k.children.flatMap marks := by
  rw [marks, subtrees_node, List.map_cons, List.map_flatMap]
  rfl

theorem map_node (f : ι → κ) (g : ν → μ) (m : ι) (k : Kind ν (Marked ι ν)) :
    (node m k).map f g = .node (f m) (k.map g (map f g)) := by
  rw [map, fold_node, Kind.map_map]
  rfl

@[simp] theorem mark_map (f : ι → κ) (g : ν → μ) (t : Marked ι ν) : (t.map f g).mark = f t.mark := by
  cases t
  rw [map_node]
  rfl

@[simp] theorem kind_map (f : ι → κ) (g : ν → μ) (t : Marked ι ν) :
    (t.map f g).kind = t.kind.map g (map f g) := by
  cases t
  rw [map_node]
  rfl

theorem cell_map (f : ι → κ) (t : Marked ι ν) : (t.map f id).cell = t.cell.map id f := by
  rw [cell, cell, kind_map, Kind.map_map, Kind.map_map]
  congr 1
  funext c
  exact mark_map f id c

theorem map_map {ρ τ : Type} (f : ι → κ) (g : ν → μ) (f' : κ → ρ) (g' : μ → τ) (t : Marked ι ν) :
    (t.map f g).map f' g' = t.map (f' ∘ f) (g' ∘ g) := by
  induction t using Marked.induction with
  | step m k ih =>
    simp only [map_node, Kind.map_map]
    exact congrArg (node (f' (f m))) (Kind.map_children_congr ih)

/-! ### Being below -/

theorem mem_subtrees_node {n : Marked ι ν} {m : ι} {k : Kind ν (Marked ι ν)} :
    n ∈ (node m k).subtrees ↔ n = node m k ∨ ∃ c ∈ k.children, n ∈ c.subtrees := by
  simp [subtrees_node]

@[simp] theorem self_mem_subtrees (t : Marked ι ν) : t ∈ t.subtrees := by
  cases t
  simp [subtrees_node]

theorem mem_subtrees_of_child {t c : Marked ι ν} (child : c ∈ t.kind.children) : c ∈ t.subtrees := by
  cases t
  exact mem_subtrees_node.mpr (.inr ⟨c, child, self_mem_subtrees c⟩)

theorem mem_subtrees_trans {a b c : Marked ι ν} (low : a ∈ b.subtrees) (high : b ∈ c.subtrees) :
    a ∈ c.subtrees := by
  induction c using Marked.induction with
  | step m k ih =>
    rcases mem_subtrees_node.mp high with rfl | ⟨child, member, below⟩
    · exact low
    · exact mem_subtrees_node.mpr (.inr ⟨child, member, ih child member below⟩)

@[simp] theorem mark_mem_marks (t : Marked ι ν) : t.mark ∈ t.marks :=
  List.mem_map_of_mem (self_mem_subtrees t)

theorem map_marks_id {f : ι → ι} {t : Marked ι ν} (same : ∀ m ∈ t.marks, f m = m) : t.map f id = t := by
  induction t using Marked.induction with
  | step m k ih =>
    rw [marks_node] at same
    obtain ⟨here, below⟩ := List.forall_mem_cons.mp same
    rw [map_node, here, Kind.map_id_of fun c child => ih c child fun n member => below n ?_]
    exact List.mem_flatMap.mpr ⟨c, child, member⟩

theorem mem_marks {x : ι} {t : Marked ι ν} : x ∈ t.marks ↔ ∃ n ∈ t.subtrees, n.mark = x := by
  simp [marks]

theorem marks_sublist_of_mem {n t : Marked ι ν} (below : n ∈ t.subtrees) :
    n.marks.Sublist t.marks := by
  induction t using Marked.induction with
  | step m k ih =>
    rcases mem_subtrees_node.mp below with rfl | ⟨c, child, low⟩
    · exact List.Sublist.refl _
    · rw [marks_node]
      apply List.Sublist.cons
      exact (ih c child low).trans (List.sublist_flatten_of_mem (List.mem_map_of_mem child))

theorem length_marks_pos {t : Marked ι ν} : 0 < t.marks.length :=
  List.length_pos_of_mem (mark_mem_marks t)

theorem length_marks_lt {m : ι} {k : Kind ν (Marked ι ν)} {c : Marked ι ν} (child : c ∈ k.children) :
    c.marks.length < (node m k).marks.length := by
  rw [marks_node, List.length_cons, Nat.lt_succ_iff]
  exact (List.sublist_flatten_of_mem (List.mem_map_of_mem child)).length_le

theorem height_node (m : ι) (k : Kind ν (Marked ι ν)) :
    (node m k).height = (k.children.map height).foldr max 0 + 1 := by
  rw [height, fold_node, Kind.children_map]

theorem height_pos {t : Marked ι ν} : 0 < t.height := by
  cases t
  rw [height_node]
  exact Nat.succ_pos _

theorem height_le_iff {m : ι} {k : Kind ν (Marked ι ν)} {n : Nat} :
    (node m k).height ≤ n + 1 ↔ ∀ c ∈ k.children, c.height ≤ n := by
  rw [height_node, Nat.add_le_add_iff_right]
  induction k.children with
  | nil => simp
  | cons c l ih => simp [ih]

theorem height_lt {m : ι} {k : Kind ν (Marked ι ν)} {c : Marked ι ν} (child : c ∈ k.children) :
    c.height < (node m k).height := by
  rw [height_node]
  exact Nat.lt_succ_of_le (height_le_iff.mp (Nat.le_of_eq (height_node m k)) c child)

theorem height_le_length_marks (t : Marked ι ν) : t.height ≤ t.marks.length := by
  induction t using Marked.induction with
  | step m k ih =>
    obtain ⟨n, count⟩ := Nat.exists_eq_add_one.mpr (length_marks_pos (t := node m k))
    rw [count]
    refine height_le_iff.mpr fun c child => (ih c child).trans (Nat.le_of_lt_succ ?_)
    exact (length_marks_lt child).trans_eq count

theorem subtrees_map (f : ι → κ) (g : ν → μ) (t : Marked ι ν) :
    (t.map f g).subtrees = t.subtrees.map (map f g) := by
  induction t using Marked.induction with
  | step m k ih =>
    rw [map_node, subtrees_node, subtrees_node, Kind.children_map, List.map_cons, map_node,
      List.map_flatMap, List.flatMap_map]
    congr 1
    exact List.flatMap_congr ih

/-! ### Conditions on all layers -/

def All (P : Kind ν (Marked ι ν) → Prop) (t : Marked ι ν) : Prop := ∀ n ∈ t.subtrees, P n.kind

instance {P : Kind ν (Marked ι ν) → Prop} [DecidablePred P] (t : Marked ι ν) : Decidable (All P t) :=
  inferInstanceAs (Decidable (∀ n ∈ t.subtrees, P n.kind))

theorem all_node {P : Kind ν (Marked ι ν) → Prop} {m : ι} {k : Kind ν (Marked ι ν)} :
    All P (node m k) ↔ P k ∧ ∀ c ∈ k.children, All P c := by
  constructor
  · intro all
    refine ⟨all _ (self_mem_subtrees _), fun c child n below => ?_⟩
    exact all n (mem_subtrees_node.mpr (.inr ⟨c, child, below⟩))
  · rintro ⟨here, children⟩ n below
    rcases mem_subtrees_node.mp below with rfl | ⟨c, child, below⟩
    · exact here
    · exact children c child n below

theorem All.of_mem {P : Kind ν (Marked ι ν) → Prop} {n t : Marked ι ν} (all : All P t) (below : n ∈ t.subtrees) :
    All P n := fun o low => all o (mem_subtrees_trans low below)

def NamesIn (P : ν → Prop) (t : Marked ι ν) : Prop := t.All fun k => ∀ x ∈ k.names, P x

instance {P : ν → Prop} [DecidablePred P] (t : Marked ι ν) : Decidable (NamesIn P t) :=
  inferInstanceAs (Decidable (t.All fun k => ∀ x ∈ k.names, P x))

theorem namesIn_node {P : ν → Prop} {m : ι} {k : Kind ν (Marked ι ν)} :
    NamesIn P (node m k) ↔ (∀ x ∈ k.names, P x) ∧ ∀ c ∈ k.children, NamesIn P c := all_node

theorem NamesIn.of_mem {P : ν → Prop} {n t : Marked ι ν} (all : NamesIn P t) (below : n ∈ t.subtrees) :
    NamesIn P n := All.of_mem all below

theorem namesIn_map {P : μ → Prop} {f : ι → κ} {g : ν → μ} {t : Marked ι ν} :
    NamesIn P (t.map f g) ↔ NamesIn (fun x => P (g x)) t := by
  simp [NamesIn, All, subtrees_map]

theorem map_congr_names {f : ι → κ} {g g' : ν → μ} {t : Marked ι ν} (same : t.NamesIn fun x => g x = g' x) :
    t.map f g = t.map f g' := by
  induction t using Marked.induction with
  | step m k ih =>
    obtain ⟨here, children⟩ := namesIn_node.mp same
    rw [map_node, map_node]
    exact congrArg (node (f m)) (Kind.map_congr here fun c child => ih c child (children c child))

end Comprehension.Marked
