import Comprehension.Proofs.Grammar

/-! Lists of what the single nodes of a tree hold, in pre-order. Where only clauses hold something, cleaning
loses nothing of it, and all that a selected record has lies in its value. -/

set_option autoImplicit false

namespace Comprehension

variable {ι κ ν β γ : Type}

namespace Marked

/-- What the nodes of a tree hold, parents before their children; a node is its mark with its layer, in
which the children are given by their marks. -/
def collect (f : ι → Kind ν ι → List β) (t : Marked ι ν) : List β := t.subtrees.flatMap fun n => f n.mark n.cell

variable {f : ι → Kind ν ι → List β}

theorem mem_collect {t : Marked ι ν} {a : β} : a ∈ t.collect f ↔ ∃ n ∈ t.subtrees, a ∈ f n.mark n.cell :=
  List.mem_flatMap

theorem collect_node (m : ι) (k : Kind ν (Marked ι ν)) :
    (node m k).collect f = f m (k.map id mark) ++ k.children.flatMap (collect f) := by
  rw [collect, subtrees_node, List.flatMap_cons, List.flatMap_assoc]
  rfl

theorem collect_node_map {g : Marked ι ν → Marked ι ν} {m : ι} {k : Kind ν (Marked ι ν)}
    (same : ∀ c ∈ k.children, (g c).mark = c.mark) :
    (node m (k.map id g)).collect f = f m (k.map id mark) ++ k.children.flatMap fun c => (g c).collect f := by
  have layer : (k.map id g).map id mark = k.map id mark := by
    rw [Kind.map_map]
    exact Kind.map_children_congr same
  rw [collect_node, layer, Kind.children_map, List.flatMap_map]

theorem collect_map {f' : κ → Kind ν κ → List γ} {g : ι → κ} {h : β → γ}
    (natural : ∀ m k, f' (g m) (k.map id g) = (f m k).map h) (t : Marked ι ν) :
    (t.map g id).collect f' = (t.collect f).map h := by
  have each : ∀ n : Marked ι ν, f' (n.map g id).mark (n.map g id).cell = (f n.mark n.cell).map h := by
    intro n
    rw [cell_map, mark_map, natural]
  rw [collect, subtrees_map, List.flatMap_map, collect, List.map_flatMap]
  exact List.flatMap_congr fun n _ => each n

end Marked

theorem Store.Holds.mem_collect {s : Store} {l : Layout} (holds : s.Holds l) {f : NodeId → Kind Name NodeId → List β}
    {a : β} : a ∈ l.collect f ↔ ∃ path id k, s.follow l.mark path = some id ∧ s.kind? id = some k ∧ a ∈ f id k := by
  rw [Marked.mem_collect]
  constructor
  · rintro ⟨n, below, member⟩
    obtain ⟨path, found⟩ := holds.exists_follow_iff.mpr ⟨n, below, rfl⟩
    exact ⟨path, n.mark, n.cell, found, holds n below, member⟩
  · rintro ⟨path, id, k, found, here, member⟩
    obtain ⟨n, below, rfl⟩ := holds.exists_follow_iff.mp ⟨path, found⟩
    cases here.symm.trans (holds n below)
    exact ⟨n, below, member⟩

namespace Normalize

theorem mark_cleaned (transparent : ν → Bool) (t : Marked ι ν) : (cleaned transparent t).1.mark = t.mark := by
  obtain ⟨m, k⟩ := t
  rw [cleaned_node_fst]
  rfl

section
variable {checked : Place → Bool} {f : ι → Kind ν ι → List β} (clauses : ∀ m k, k.isClause = false → f m k = [])
include clauses

theorem collect_other {m : ι} {k : Kind ν (Marked ι ν)} (other : k.isClause = false) :
    (Marked.node m k).collect f = k.children.flatMap (Marked.collect f) := by
  rw [Marked.collect_node, clauses m _ ((Kind.isClause_map id Marked.mark k).trans other), List.nil_append]

theorem Clauseless.collect {t : Marked ι ν} (clauseless : Clauseless t) : t.collect f = [] := by
  refine List.flatMap_eq_nil_iff.mpr fun n below => clauses n.mark n.cell ?_
  rw [Marked.cell, Kind.isClause_map]
  exact (clauseless n below).2

theorem collect_cleaned (types : checked .type = true) (transparent : ν → Bool) {t : Marked ι ν}
    (sorted : t.WellSorted checked) : (cleaned transparent t).1.collect f = t.collect f := by
  induction t using Marked.induction with
  | step m k ih =>
    obtain ⟨-, below⟩ := Marked.wellSorted_node.mp sorted
    rcases kind_cleaned transparent (.node m k) with same | ⟨target, x, typeArgs, access, ident⟩
    · rw [← Marked.node_mark_kind (cleaned transparent (.node m k)).1, mark_cleaned, Marked.mark_node, same,
        Marked.kind_node, Marked.collect_node_map fun c _ => mark_cleaned transparent c, Marked.collect_node]
      exact congrArg _ (List.flatMap_congr fun c child => ih c child (below c child))
    · -- Both what is left and what was there have no clauses in them.
      have before := clauseless_of_cleaned types sorted ident
      have left : Clauseless (cleaned transparent (.node m k)).1 := by
        have sorted' := wellSorted_cleaned transparent sorted
        rw [← Marked.node_mark_kind (cleaned transparent (.node m k)).1, ident] at sorted' ⊢
        exact clauseless_ident types sorted'
      rw [left.collect clauses, before.collect clauses]

/-- Besides the clause itself, all that a selecting clause has lies in the value. -/
theorem Selects.collect {select value : Marked ι ν} {declared : Option ν}
    (shape : Selects IsLayer select declared value) :
    ∃ projection, select.kind = .selectClause projection ∧
      select.collect f = f select.mark (.selectClause projection.mark) ++ value.collect f := by
  obtain ⟨record, first, second, x, projection, pair, either, last⟩ := shape.initializers
  obtain ⟨sm, sk⟩ := select
  obtain ⟨rm, rk⟩ := record
  obtain ⟨fm, fk⟩ := first
  cases projection
  cases pair
  have inFirst : (Marked.node fm fk).collect f = [] := by
    rcases either with ident | ⟨⟨im, ik⟩, named, ident⟩
    · cases ident
      exact collect_other clauses rfl
    · cases named
      cases ident
      rw [collect_other clauses rfl, Kind.children, List.flatMap_singleton]
      exact collect_other clauses rfl
  have inSecond : second.collect f = value.collect f := by
    rcases last with ⟨y, -, named⟩ | ⟨-, rfl, -⟩
    · obtain ⟨wm, wk⟩ := second
      cases named
      rw [collect_other clauses rfl, Kind.children, List.flatMap_singleton]
    · rfl
  refine ⟨_, rfl, ?_⟩
  rw [Marked.collect_node, Kind.children, List.flatMap_singleton, collect_other clauses rfl]
  simp [Kind.map, Kind.children, inFirst, inSecond]

end

end Normalize

end Comprehension
