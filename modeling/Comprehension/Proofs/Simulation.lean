import Comprehension.Proofs.Cleaning
import Comprehension.Proofs.Relabelling
import Comprehension.Proofs.Step

/-! A visit of a store does to every layout in it what a visit of trees does. The layout afterwards has
the old slots where the tree has old marks, and slots that were not in use before where the tree has
new ones. -/

set_option autoImplicit false

namespace Comprehension.Normalize
open Store

variable {s : Store} {m : NodeId}

theorem layerMap_holds : LayerMap s.Holds IsLayer s.Layer id Marked.mark where
  forth {l k} holds layer := by
    have here := holds.kind?
    rwa [Marked.cell, show l.kind = k from layer] at here
  back {l k'} holds found := ⟨l.kind, rfl, Layer.unique found holds.kind?⟩
  below {l k c} holds layer child := holds.of_mem (IsLayer.child_mem layer child)

theorem letName_cell (declared : Option Name) (l : Layout) :
    letName declared l.cell = letName declared l.kind := by
  rw [Marked.cell]
  cases declared <;> cases l.kind <;> rfl

/-! ### Splices -/

abbrev nestedLayout (m fm im : NodeId) (x : Name) (elemType : Option Layout) (inner rest : List Layout) :
    Layout :=
  .node m (.query (.node fm (.fromClause x elemType (.node im (.query inner))) :: rest))

section
variable {select value : Layout} {fm im : NodeId} {x : Name} {elemType : Option Layout}
  {moved rest : List Layout} {declared : Option Name} (binding : Option Name)

/-- The slots of a query that is to be flattened and of what is left of it afterwards. -/
theorem sublist_marks (shape : Selects IsLayer select declared value) :
    (m :: im :: (moved.flatMap Marked.marks ++ (value.marks ++ rest.flatMap Marked.marks))).Sublist
      (nestedLayout m fm im x elemType (moved ++ [select]) rest).marks := by
  have part : value.marks.Sublist select.marks := Marked.marks_sublist_of_mem shape.mem_subtrees
  have clauses : (im :: (moved.flatMap Marked.marks ++ value.marks)).Sublist
      (Marked.node fm (.fromClause x elemType (.node im (.query (moved ++ [select]))))).marks := by
    simp only [Marked.marks_node, Kind.children, List.flatMap_append, List.flatMap_cons, List.flatMap_nil,
      List.append_nil]
    exact (((part.append_left _).cons_cons im).trans (List.sublist_append_right _ _)).cons fm
  have whole := (clauses.append (List.Sublist.refl (rest.flatMap Marked.marks))).cons_cons m
  simpa [Marked.marks_node m, Kind.children, List.append_assoc] using whole

theorem marks_flattened (fresh : NodeId) :
    (Marked.node m (.query (moved ++ letClauses fresh (binding.map (·, value)) ++ rest)) : Layout).marks =
      m :: (moved.flatMap Marked.marks ++ ((binding.map fun _ => fresh :: value.marks).getD [] ++
        rest.flatMap Marked.marks)) := by
  cases binding <;> simp [Marked.marks_node, Kind.children, letClauses]

theorem nodup_flattened {fresh : NodeId}
    (nodup : (m :: im :: (moved.flatMap Marked.marks ++ (value.marks ++ rest.flatMap Marked.marks))).Nodup)
    (newer : ∀ id ∈ m :: im :: (moved.flatMap Marked.marks ++ (value.marks ++ rest.flatMap Marked.marks)),
      id ≠ fresh) :
    (m :: (moved.flatMap Marked.marks ++ ((binding.map fun _ => fresh :: value.marks).getD [] ++
      rest.flatMap Marked.marks))).Nodup := by
  have part : (m :: (moved.flatMap Marked.marks ++ (value.marks ++ rest.flatMap Marked.marks))).Sublist
      (m :: im :: (moved.flatMap Marked.marks ++ (value.marks ++ rest.flatMap Marked.marks))) :=
    (List.sublist_cons_self im _).cons_cons m
  cases binding with
  | none =>
    refine nodup.sublist (List.Sublist.trans ?_ part)
    exact ((List.sublist_append_right _ _).append_left _).cons_cons m
  | some y =>
    -- The slot of the let clause can be moved to the front.
    have apart :
        (fresh :: (m :: moved.flatMap Marked.marks ++ (value.marks ++ rest.flatMap Marked.marks))).Nodup :=
      List.nodup_cons.mpr ⟨fun member => newer fresh (part.subset member) rfl, nodup.sublist part⟩
    exact List.nodup_middle.mpr apart

theorem mem_flattened {fresh id : NodeId}
    (member : id ∈ m :: (moved.flatMap Marked.marks ++ ((binding.map fun _ => fresh :: value.marks).getD [] ++
      rest.flatMap Marked.marks))) :
    id = fresh ∨ id ∈ m :: im :: (moved.flatMap Marked.marks ++ (value.marks ++ rest.flatMap Marked.marks)) := by
  cases binding <;>
    simp only [Option.map_none, Option.map_some, Option.getD_none, Option.getD_some, List.nil_append,
      List.mem_cons, List.mem_append] at member ⊢ <;>
    tauto

theorem Rewrites.splice (span : Span)
    (forest : s.Forest [nestedLayout m fm im x elemType (moved ++ [select]) rest])
    (shape : Selects IsLayer select declared value) :
    Rewrites s [nestedLayout m fm im x elemType (moved ++ [select]) rest]
      (spliced s m im ⟨value.mark, binding⟩ ((moved ++ [select]).map Marked.mark) (rest.map Marked.mark) span)
      [.node m (.query (moved ++ letClauses ⟨s.size⟩ (binding.map (·, value)) ++ rest))] := by
  have part : (m :: im :: (moved.flatMap Marked.marks ++ (value.marks ++ rest.flatMap Marked.marks))).Sublist
    (nestedLayout m fm im x elemType (moved ++ [select]) rest).marks := sublist_marks shape
  have nodup := forest.nodup_single.sublist part
  have old : ∀ id ∈ m :: im :: (moved.flatMap Marked.marks ++ (value.marks ++ rest.flatMap Marked.marks)),
    id.index < s.size := fun id member => forest.holds_single.index_lt (part.subset member)
  generalize flattened : spliced s m im ⟨value.mark, binding⟩ _ _ span = s'
  have belowInner : ∀ c ∈ moved ++ [select],
      c ∈ (nestedLayout m fm im x elemType (moved ++ [select]) rest).subtrees := by
    intro c member
    have inSource : c ∈ (Marked.node im (.query (moved ++ [select])) : Layout).subtrees :=
      Marked.mem_subtrees_of_child member
    have inClause : (Marked.node im (.query (moved ++ [select])) : Layout) ∈
        (Marked.node fm (.fromClause x elemType (.node im (.query (moved ++ [select])))) : Layout).subtrees :=
      Marked.mem_subtrees_of_child (by simp [Kind.children])
    exact Marked.mem_subtrees_trans (Marked.mem_subtrees_trans inSource inClause)
      (Marked.mem_subtrees_of_child List.mem_cons_self)
  -- Parts of the query stay where they are.
  have keeps : ∀ l : Layout, l ∈ (nestedLayout m fm im x elemType (moved ++ [select]) rest).subtrees →
      l.marks ⊆ moved.flatMap Marked.marks ++ (value.marks ++ rest.flatMap Marked.marks) → s'.Holds l := by
    intro l below inside
    refine (forest.holds_single.of_mem below).congr fun id marked => ?_
    rw [← flattened]
    rw [List.nodup_cons, List.nodup_cons] at nodup
    refine kind?_spliced ?_ ?_ (old id (.tail _ (.tail _ (inside marked))))
    · rintro rfl
      exact nodup.1 (.tail _ (inside marked))
    · rintro rfl
      exact nodup.2.1 (inside marked)
  have newer : ∀ id ∈ m :: im :: (moved.flatMap Marked.marks ++ (value.marks ++ rest.flatMap Marked.marks)),
    id ≠ ⟨s.size⟩ := fun id member is => Nat.lt_irrefl _ (is ▸ old id member)
  have bound : m.index < s.size := old m List.mem_cons_self
  refine ⟨?_, rfl, .single (holds_node.mpr ⟨?_, ?_⟩) ?_, ?_, ?_⟩
  · rw [← flattened, size_spliced]
    exact Nat.le_add_right _ _
  · rw [← flattened, kind?_spliced_query bound]
    cases binding <;> simp [Kind.map, letClauses, added]
  · intro c member
    have member : c ∈ moved ∨ c ∈ letClauses ⟨s.size⟩ (binding.map (·, value)) ∨ c ∈ rest := by
      simpa [Kind.children] using member
    rcases member with member | member | member
    · exact keeps c (belowInner c (List.mem_append_left _ member)) fun id marked =>
        List.mem_append_left _ (List.mem_flatMap.mpr ⟨c, member, marked⟩)
    · cases binding with
      | none => cases member
      | some y =>
        obtain rfl := List.mem_singleton.mp member
        refine holds_node.mpr ⟨?_, ?_⟩
        · rw [← flattened, kind?_spliced_added rfl bound]
          rfl
        · simp only [Kind.children, List.mem_singleton, forall_eq]
          exact keeps value (Marked.mem_subtrees_trans shape.mem_subtrees (belowInner select (by simp)))
            fun id marked => List.mem_append_right _ (List.mem_append_left _ marked)
    · exact keeps c (Marked.mem_subtrees_of_child (List.mem_cons_of_mem _ member)) fun id marked =>
        List.mem_append_right _ (List.mem_append_right _ (List.mem_flatMap.mpr ⟨c, member, marked⟩))
  · rw [marks_flattened]
    exact nodup_flattened binding nodup newer
  · intro id member
    rw [List.flatMap_singleton, marks_flattened] at member
    rw [List.flatMap_singleton]
    rcases mem_flattened binding member with rfl | old
    · exact .inr (Nat.le_refl _)
    · exact .inl (part.subset old)
  · intro id low outside
    rw [List.flatMap_singleton] at outside
    rw [← flattened]
    refine node?_spliced ?_ ?_ low
    · rintro rfl
      exact outside (part.subset List.mem_cons_self)
    · rintro rfl
      exact outside (part.subset (.tail _ List.mem_cons_self))

end

/-! ### Shapes in a store and in its layouts -/

section
variable {reading : Reading Name} {k : Kind Name Layout}

theorem exists_query_layout {clauses : List NodeId} (holds : s.Holds (.node m k))
    (here : s.Layer m (.query clauses)) : ∃ cs, k = .query cs ∧ cs.map Marked.mark = clauses := by
  obtain ⟨k', layer, image⟩ := layerMap_holds.back holds here
  cases layer
  cases k <;> simp only [Marked.kind_node, Kind.map, reduceCtorEq, Kind.query.injEq] at image
  exact ⟨_, rfl, image.symm⟩

theorem exists_from_layout {c : Layout} {x : Name} {elemType : Option NodeId} {source : NodeId}
    (holds : s.Holds c) (here : s.Layer c.mark (.fromClause x elemType source)) :
    ∃ e l, c = .node c.mark (.fromClause x e l) ∧ e.map Marked.mark = elemType ∧ l.mark = source := by
  obtain ⟨k', layer, image⟩ := layerMap_holds.back holds here
  obtain ⟨cm, k⟩ := c
  cases layer
  cases k <;> simp only [Marked.kind_node, Kind.map, reduceCtorEq, Kind.fromClause.injEq] at image
  obtain ⟨rfl, rfl, rfl⟩ := image
  exact ⟨_, _, rfl, rfl, rfl⟩

theorem exists_first_layout {first : NodeId} {rest : List NodeId} {x : Name} {elemType : Option NodeId}
    {source : NodeId} (holds : s.Holds (.node m k)) (here : s.Layer m (.query (first :: rest)))
    (clause : s.Layer first (.fromClause x elemType source)) :
    ∃ e l ls, k = .query (.node first (.fromClause x e l) :: ls) ∧ e.map Marked.mark = elemType ∧
      l.mark = source ∧ ls.map Marked.mark = rest := by
  obtain ⟨cs, rfl, marks⟩ := exists_query_layout holds here
  obtain ⟨c, ls, rfl, rfl, rfl⟩ := List.map_eq_cons_iff.mp marks
  obtain ⟨e, l, same, rfl, rfl⟩ := exists_from_layout ((holds_node.mp holds).2 c List.mem_cons_self) clause
  refine ⟨e, l, ls, ?_, rfl, rfl, rfl⟩
  rw [← same]

theorem NestedFrom.exists_layout (n : NestedFrom s m) (holds : s.Holds (.node m k)) :
    ∃ e inner ls, Marked.node m k = nestedLayout m n.first n.source n.ident e inner ls ∧
      inner.map Marked.mark = n.inner ∧ ls.map Marked.mark = n.rest := by
  obtain ⟨e, ⟨im, ki⟩, ls, rfl, -, source, rest⟩ := exists_first_layout holds n.here n.clause
  have same : im = n.source := source
  have inSource : s.Holds (.node im ki) :=
    (holds_node.mp ((holds_node.mp holds).2 _ List.mem_cons_self)).2 _ (by simp [Kind.children])
  obtain ⟨inner, rfl, marks⟩ := exists_query_layout inSource (same ▸ n.nested)
  exact ⟨e, inner, ls, by rw [same], marks, rest⟩

theorem NestedFrom.source_ne (n : NestedFrom s m) (forest : s.Forest [.node m k]) : m ≠ n.source := by
  obtain ⟨e, inner, ls, same, -, -⟩ := n.exists_layout forest.holds_single
  have nodup := forest.nodup_single
  rw [same, Marked.marks_node, List.nodup_cons] at nodup
  rintro is
  refine nodup.1 (List.mem_flatMap.mpr ⟨_, List.mem_cons_self, ?_⟩)
  simp [Marked.marks_node, Kind.children, ← is]

def NestedFrom.ofLayout {fm im : NodeId} {x : Name} {e : Option Layout} {inner rest : List Layout}
    (holds : s.Holds (nestedLayout m fm im x e inner rest)) : NestedFrom s m :=
  have inClause := holds_node.mp ((holds_node.mp holds).2 _ List.mem_cons_self)
  have inSource := holds_node.mp (inClause.2 (.node im (.query inner)) (by simp [Kind.children]))
  ⟨fm, rest.map Marked.mark, x, e.map Marked.mark, im, inner.map Marked.mark, (holds_node.mp holds).1,
    inClause.1, inSource.1⟩

theorem holds_inner {fm im : NodeId} {x : Name} {e : Option Layout} {inner rest : List Layout}
    (holds : s.Holds (nestedLayout m fm im x e inner rest)) : ∀ c ∈ inner, s.Holds c :=
  have inClause := holds_node.mp ((holds_node.mp holds).2 _ List.mem_cons_self)
  (holds_node.mp (inClause.2 (.node im (.query inner)) (by simp [Kind.children]))).2

theorem recognized?_eq_none {fm im : NodeId} {x : Name} {e : Option Layout} {inner rest : List Layout}
    (holds : s.Holds (nestedLayout m fm im x e inner rest)) (refused : Elimination reading s m → False) :
    recognized? reading x inner = none := by
  by_contra found
  obtain ⟨⟨declared, value⟩, found⟩ := Option.ne_none_iff_exists'.mp found
  obtain ⟨enabled, bound, select, last, shape⟩ := recognized?_eq_some found
  have inSelect : s.Holds select := holds_inner holds select (List.mem_of_getLast? last)
  obtain ⟨node, here, -⟩ := Option.map_eq_some_iff.mp (inSelect.of_mem shape.mem_subtrees).kind?
  have last : (inner.map Marked.mark).getLast? = some select.mark := by
    rw [List.getLast?_map, last, Option.map_some]
  have shape := shape.map layerMap_holds inSelect
  exact refused ⟨NestedFrom.ofLayout holds, select.mark, declared.map id, value.mark, node, enabled, bound,
    last, shape, here⟩

theorem Elimination.exists_layout (e : Elimination reading s m) (holds : s.Holds (.node m k)) :
    ∃ type inner ls value, Marked.node m k = nestedLayout m e.first e.source e.ident type inner ls ∧
      inner.map Marked.mark = e.inner ∧ ls.map Marked.mark = e.rest ∧
      recognized? reading e.ident inner = some (e.declared, value) ∧
      value.mark = e.value ∧ value.cell = e.node.kind := by
  obtain ⟨type, inner, ls, same, marks, rest⟩ := e.toNestedFrom.exists_layout holds
  rw [same] at holds
  have last := e.last
  rw [← marks, List.getLast?_map] at last
  obtain ⟨select, last, marked⟩ := Option.map_eq_some_iff.mp last
  have inSelect : s.Holds select := holds_inner holds select (List.mem_of_getLast? last)
  have shape := e.shape
  rw [← marked] at shape
  obtain ⟨declared, value, shape, names, place⟩ := shape.of_map layerMap_holds inSelect fun _ _ _ _ same => same
  have declares : e.declared = declared := by simpa using names
  refine ⟨type, inner, ls, value, same, marks, rest, ?_, place.symm, ?_⟩
  · rw [recognized?, e.enabled, e.bound, declares]
    simpa [last] using selected?_eq_some_iff.mpr shape
  · have here := (inSelect.of_mem shape.mem_subtrees).kind?
    rw [← place, Store.kind?, e.found] at here
    exact (Option.some.inj here).symm

/-! ### The work at a query -/

theorem Rewrites.firstClause {s' : Store} {c c' : Layout} {rest : List Layout}
    (forest : s.Forest [.node m (.query (c :: rest))]) (change : Rewrites s [c] s' [c']) :
    Rewrites s [.node m (.query (c :: rest))] s' [.node m (.query (c' :: rest))] :=
  have others := Rewrites.refl (Rewrites.forest_tail forest.children change)
  Rewrites.node forest (Rewrites.cons forest.children change others)

/-- The results of a run that ends with a value, or with a breach at a mark that `f` makes of a slot. -/
def ResultOf {ι α : Type} (f : NodeId → ι) (a : α) : Option (Breach ι) → Except Failure α → Prop
  | none, result => result = .ok a
  | some breach, result =>
    ∃ e, result = .error (.broken e) ∧ f e.node = breach.mark ∧ e.violation = breach.violation

theorem ResultOf.ok {ι α : Type} {f : NodeId → ι} {a b : α} {breach : Option (Breach ι)}
    (known : ResultOf f a breach (.ok b)) : breach = none ∧ a = b := by
  cases breach with
  | none => exact ⟨rfl, (Except.ok.inj known).symm⟩
  | some breach =>
    obtain ⟨e, error, -⟩ := known
    cases error

theorem action_eq_keep {clauses : List NodeId} (holds : s.Holds (.node m k))
    (here : s.Layer m (.query clauses)) (flat : NestedFrom s m → False)
    (uncast : reading.foldCasts = true → ∀ {first rest x source base elemType}, clauses = first :: rest →
      s.Layer first (.fromClause x none source) → ¬ CastsOn s.Layer reading.cast source base elemType) :
    action reading k = .keep := by
  obtain ⟨asks, asked, known⟩ := exists_asks reading k
  rw [asked]
  cases known with
  | keep => rfl
  | splice | continuation | stop => exact (flat (NestedFrom.ofLayout holds)).elim
  | annotate enabled shape =>
    obtain ⟨here', children⟩ := holds_node.mp holds
    have inClause := children _ List.mem_cons_self
    obtain ⟨clause, inside⟩ := holds_node.mp inClause
    cases Layer.unique here here'
    rename_i source base type rest
    have image : CastsOn s.Layer reading.cast source.mark base.mark type.mark :=
      shape.map layerMap_holds (inside source (by simp [Kind.children]))
    exact (uncast enabled rfl clause image).elim

theorem Rewrites.continuation {fm : NodeId} {x : Name} {e : Option Layout} {source : Layout}
    (forest : s.Forest [.node fm (.fromClause x e source)]) :
    Rewrites s [.node fm (.fromClause x e source)] (s.put fm (.continuation source.mark x))
      [.node fm (.continuation source x)] := by
  have source_mem : source ∈ (Kind.fromClause x e source).children := by simp [Kind.children]
  refine Rewrites.put forest (.continuation source x) (fun c child => ?_) ?_
  · obtain rfl := List.mem_singleton.mp child
    exact Marked.mem_subtrees_of_child source_mem
  · simp only [Kind.children, List.flatMap_append, List.flatMap_singleton]
    exact (List.sublist_append_right _ _).subperm

theorem Rewrites.annotate {fm : NodeId} {x : Name} {source base type : Layout} {cast : Name → Bool}
    (forest : s.Forest [.node fm (.fromClause x none source)])
    (shape : CastsOn IsLayer cast source base type) :
    Rewrites s [.node fm (.fromClause x none source)] (s.put fm (.fromClause x (some type.mark) base.mark))
      [.node fm (.fromClause x (some type) base)] := by
  have source_mem : source ∈ (Marked.node fm (.fromClause x none source)).subtrees :=
    Marked.mem_subtrees_of_child (by simp [Kind.children])
  refine Rewrites.put forest (.fromClause x (some type) base) (fun c child => ?_) ?_
  · have either : c = type ∨ c = base := by simpa [Kind.children] using child
    rcases either with rfl | rfl
    · exact Marked.mem_subtrees_trans shape.elemType_mem source_mem
    · exact Marked.mem_subtrees_trans shape.base_mem source_mem
  · obtain ⟨sm, tm, y, rfl, -⟩ := shape.eq_call
    have part : (base.marks ++ type.marks).Sublist (sm :: tm :: (base.marks ++ type.marks)) :=
      ((List.Sublist.refl _).cons tm).cons sm
    have swapped : (type.marks ++ base.marks).Subperm (sm :: tm :: (base.marks ++ type.marks)) :=
      List.perm_append_comm.subperm.trans part.subperm
    simpa [Kind.children, Marked.marks_node] using swapped

theorem Elimination.flattens (e : Elimination reading s m) {binding : Option Name}
    (named : letName e.declared e.node.kind = .ok binding) (forest : s.Forest [.node m k]) :
    ∃ count s', stripReferences reading.transparent ((e.flattened binding).size + 1) m (e.flattened binding) =
        .ok count s' ∧
      (settle reading ⟨s.size⟩ m k).2 = ⟨⟨1, binding.toList.length, count, 0, 0⟩, none⟩ ∧
      Rewrites s [.node m k] s' [(settle reading ⟨s.size⟩ m k).1] := by
  obtain ⟨type, inner, ls, value, same, inside, rest, found, place, cell⟩ := e.exists_layout forest.holds_single
  obtain ⟨-, -, select, last, shape⟩ := recognized?_eq_some found
  obtain ⟨moved, rfl⟩ := List.getLast?_eq_some_iff.mp last
  rw [← cell, letName_cell] at named
  cases same
  have moves := Rewrites.splice binding e.node.span forest shape
  have store : spliced s m e.source ⟨value.mark, binding⟩ ((moved ++ [select]).map Marked.mark)
      (ls.map Marked.mark) e.node.span = e.flattened binding := by
    rw [Elimination.flattened, place, inside, rest]
  rw [store] at moves
  -- The budget is above the size of the store, and the layout has no more nodes than that.
  have fits := Nat.le_succ_of_le (moves.forest.holds_single.length_marks_le moves.forest.nodup_single)
  obtain ⟨s', done, -, stripped⟩ : ∃ s', stripReferences reading.transparent _ _ _ = .ok _ s' ∧ _ ∧ _ :=
    stripReferences_run moves.forest fits
  have settles : settle reading ⟨s.size⟩ m (.query (.node e.first (.fromClause e.ident type
      (.node e.source (.query (moved ++ [select])))) :: ls)) =
      perform reading ⟨s.size⟩ m (.query (.node e.first (.fromClause e.ident type
        (.node e.source (.query (moved ++ [select])))) :: ls)) (.splice moved (binding.map (·, value)) ls) := by
    rw [settle, action_nested reading rfl, nestedAction, found]
    simp only [named, List.dropLast_concat]
  rw [settles]
  refine ⟨_, s', done, ?_, moves.trans stripped⟩
  cases binding <;> rfl

/-- A step of a run and the work of a tree visit at the same node. -/
theorem QueryStep.settles {result : Except Failure Unit} {s' : Store} {gain : Stats} (k : Kind Name Layout)
    (step : QueryStep reading s m result s' gain) (forest : s.Forest [.node m k]) :
    gain = (settle reading ⟨s.size⟩ m k).2.stats ∧
      ResultOf id () (settle reading ⟨s.size⟩ m k).2.breach result ∧
      Rewrites s [.node m k] s' [(settle reading ⟨s.size⟩ m k).1] := by
  have holds := forest.holds_single
  rw [settle]
  cases step with
  | kept here flat uncast =>
    rw [action_eq_keep holds here flat uncast]
    exact ⟨rfl, rfl, .refl forest⟩
  | continued n refused =>
    obtain ⟨type, inner, ls, same, -, -⟩ := n.exists_layout holds
    cases same
    have none : recognized? reading n.ident inner = none := recognized?_eq_none holds refused
    rw [action_nested reading rfl, nestedAction, none]
    exact ⟨rfl, rfl, Rewrites.firstClause forest (Rewrites.continuation forest.children.head)⟩
  | annotated here clause enabled shape =>
    obtain ⟨e, source, ls, rfl, untyped, rfl, -⟩ := exists_first_layout holds here clause
    obtain rfl := Option.map_eq_none_iff.mp untyped
    have inClause := (holds_node.mp holds).2 _ List.mem_cons_self
    have inSource := (holds_node.mp inClause).2 source (by simp [Kind.children])
    obtain ⟨base, type, casts, rfl, rfl⟩ := shape.of_map layerMap_holds inSource
    have simple : source.kind.isQuery = false := by
      obtain ⟨call, -, -⟩ := casts
      rw [show source.kind = _ from call]
      rfl
    have parts : castParts? reading.cast source = some (base, type) := castParts?_eq_some_iff.mpr casts
    rw [action_source reading simple, sourceAction]
    simp only [enabled, Option.isNone_none, Bool.and_true, if_true, parts]
    exact ⟨rfl, rfl, Rewrites.firstClause forest (Rewrites.annotate forest.children.head casts)⟩
  | stopped e unnamed =>
    obtain ⟨type, inner, ls, value, same, -, -, found, place, cell⟩ := e.exists_layout holds
    cases same
    rw [← cell, letName_cell] at unnamed
    rw [action_nested reading rfl, nestedAction, found]
    simp only [unnamed, perform]
    exact ⟨rfl, ⟨_, rfl, place.symm, rfl⟩, .refl forest⟩
  | eliminated e named stripped =>
    obtain ⟨count, s', done, progress, change⟩ := e.flattens named forest
    cases stripped.symm.trans done
    rw [settle] at progress
    rw [progress]
    exact ⟨rfl, rfl, change⟩
  | faulted e named stripped =>
    -- In a layout there are no cycles, and cleaning does not fault.
    obtain ⟨count, s', done, -, -⟩ := e.flattens named forest
    cases stripped.symm.trans done

end

/-! ### Passes over layouts -/

/-- Passes over layouts side by side: the store and the layouts before them, how they end, and the store,
the layouts and the counts afterwards. A query is worked at after its clauses are visited, and nothing is
visited after a failure. -/
inductive Passes (reading : Reading Name) :
    Store → List Layout → Except Failure Unit → Store → List Layout → Stats → Prop where
  | nil {s : Store} : Passes reading s [] (.ok ()) s [] 0
  | cons {s s₁ s₂ : Store} {l l' : Layout} {ls ls' : List Layout} {result : Except Failure Unit}
      {gain gain' : Stats} (first : Passes reading s [l] (.ok ()) s₁ [l'] gain)
      (rest : Passes reading s₁ ls result s₂ ls' gain') :
      Passes reading s (l :: ls) result s₂ (l' :: ls') (gain + gain')
  | halted {s s₁ : Store} {l l' : Layout} {ls : List Layout} {e : Failure} {gain : Stats}
      (first : Passes reading s [l] (.error e) s₁ [l'] gain) :
      Passes reading s (l :: ls) (.error e) s₁ (l' :: ls) gain
  | node {s s₁ : Store} {m : NodeId} {k : Kind Name Layout} {ls : List Layout}
      {result : Except Failure Unit} {gain : Stats} (below : Passes reading s k.children result s₁ ls gain)
      (stays : result = .ok () → k.isQuery = false) :
      Passes reading s [.node m k] result s₁ [.node m (k.refill ls)] gain
  | query {s s₁ s₂ : Store} {m : NodeId} {cs ls : List Layout} {result : Except Failure Unit}
      {gain gain' : Stats} (below : Passes reading s cs (.ok ()) s₁ ls gain)
      (step : QueryStep reading s₁ m result s₂ gain') :
      Passes reading s [.node m (.query cs)] result s₂ [(settle reading ⟨s₁.size⟩ m (.query ls)).1]
        (gain + gain')

section
variable {ι : Type} {f : NodeId → ι} {fresh : ι}

theorem ResultOf.map {breach : Option (Breach NodeId)} {result : Except Failure Unit}
    (known : ResultOf id () breach result) : ResultOf f () (breach.map (Breach.map f)) result := by
  cases breach with
  | none => exact known
  | some breach =>
    obtain ⟨e, rfl, place, violation⟩ := known
    exact ⟨e, rfl, congrArg f place, violation⟩

theorem settle_collapsed (reading : Reading Name) {new m : NodeId} (k : Kind Name Layout)
    (collapses : f new = fresh) :
    settle reading fresh (f m) (k.map id (Marked.map f id)) =
      ((settle reading new m k).1.map f id, (settle reading new m k).2.map f) := by
  rw [← collapses]
  exact settle_map (P := fun _ => True) (fun _ _ _ _ same => same) reading fun _ _ _ _ _ _ => trivial

end

namespace Passes

variable {reading : Reading Name} {s s' : Store} {ls ls' : List Layout} {result : Except Failure Unit}
  {gain : Stats}

theorem trace (passes : Passes reading s ls result s' ls' gain) : Trace reading s s' gain := by
  induction passes with
  | nil => exact .nil
  | cons _ _ first rest => exact first.trans rest
  | halted _ first => exact first
  | node _ _ below => exact below
  | query _ step below => exact .snoc below step

/-- A pass changes the layouts that it visits and nothing else. -/
theorem rewrites (passes : Passes reading s ls result s' ls' gain) (forest : s.Forest ls) :
    Rewrites s ls s' ls' := by
  induction passes with
  | nil => exact .refl forest
  | cons _ _ first rest =>
    have change := first forest.head
    exact .cons forest change (rest (Rewrites.forest_tail forest change))
  | halted _ first =>
    have change := first forest.head
    exact .cons forest change (.refl (Rewrites.forest_tail forest change))
  | node _ _ below => exact .node forest (below forest.children)
  | query _ step below =>
    have change := Rewrites.node forest (below forest.children)
    exact change.trans (step.settles _ change.forest).2.2

section
variable {ι : Type} {f : NodeId → ι} {fresh : ι}

theorem run_visitTree_eq {l l' : Layout} {progress : Progress ι}
    (run : (([l].map (Marked.map f id)).mapM (visitTree reading fresh)).run {} =
      ([l'].map (Marked.map f id), progress)) :
    (visitTree reading fresh (l.map f id)).run {} = (l'.map f id, progress) := by
  rw [List.map_singleton, Kind.mapM_run_singleton, Prod.mk.injEq] at run
  exact Prod.ext (List.singleton_inj.mp run.1) run.2

theorem mapM_visitTree (passes : Passes reading s ls result s' ls' gain) (forest : s.Forest ls)
    (collapses : ∀ id : NodeId, s.size ≤ id.index → f id = fresh) :
    ∃ breach, ((ls.map (Marked.map f id)).mapM (visitTree reading fresh)).run {} =
        (ls'.map (Marked.map f id), ⟨gain, breach⟩) ∧ ResultOf f () breach result := by
  have tail (ls : List Layout) : Sequential ((ls.map (Marked.map f id)).mapM (visitTree reading fresh))
    (ls.map (Marked.map f id)) := Sequential.mapM fun t _ => sequential_visitTree _ fresh t
  induction passes with
  | nil => exact ⟨none, rfl, rfl⟩
  | cons visit _ first rest =>
    have change := visit.rewrites forest.head
    obtain ⟨breach, run, ok⟩ := first forest.head collapses
    obtain ⟨rfl, -⟩ := ok.ok
    obtain ⟨breach, run', ends⟩ := rest (Rewrites.forest_tail forest change)
      fun id new => collapses id (Nat.le_trans change.grows new)
    refine ⟨breach, ?_, ends⟩
    rw [List.map_cons, Kind.mapM_run_cons, run_visitTree_eq run, (tail _).resumed _ rfl, run']
    rfl
  | halted _ first =>
    obtain ⟨breach, run, ends⟩ := first forest.head collapses
    have broken : breach.isSome := by
      cases breach with
      | none => cases ends
      | some _ => rfl
    refine ⟨breach, ?_, ends⟩
    rw [List.map_cons, Kind.mapM_run_cons, run_visitTree_eq run, (tail _).halted _ broken]
    rfl
  | node _ stays below =>
    obtain ⟨breach, run, ends⟩ := below forest.children collapses
    refine ⟨breach, ?_, ends⟩
    rw [List.map_singleton, Kind.mapM_run_singleton, Marked.map_node, visitTree_run_node, Kind.traverse_run,
      Kind.children_map, run, ← Kind.map_refill]
    cases breach with
    | none =>
      obtain rfl := ends
      rw [settleUnlessBroken_run_none _ _ rfl, settle_other _ _ _ (by simpa using stays rfl),
        Progress.append_nil rfl, List.map_singleton, Marked.map_node]
    | some _ => rw [settleUnlessBroken_run_some _ _ rfl, List.map_singleton, Marked.map_node]
  | query passes step below =>
    obtain ⟨breach, run, ok⟩ := below forest.children collapses
    obtain ⟨rfl, -⟩ := ok.ok
    have change := Rewrites.node forest (passes.rewrites forest.children)
    obtain ⟨rfl, ends, -⟩ := step.settles _ change.forest
    refine ⟨_, ?_, ends.map⟩
    -- The new slot is the next one of the store; `f` takes it to the mark of all new nodes.
    rw [List.map_singleton, Kind.mapM_run_singleton, Marked.map_node, visitTree_run_node, Kind.traverse_run,
      Kind.children_map, Kind.children, run, ← Kind.map_refill, settleUnlessBroken_run_none _ _ rfl,
      settle_collapsed reading _ (collapses ⟨_⟩ change.grows)]
    rfl

end

end Passes

section
variable (rules : Rules) (names : NameTable)

theorem forM_passes {budget : Nat} {ls : List Layout} {s : Store}
    (each : ∀ l ∈ ls, ∀ s : Store, s.Forest [l] → ∃ result s' l' gain,
      Ends (visit rules names budget l.mark) s result s' gain ∧
        Passes (rules.numbered names) s [l] result s' [l'] gain) (forest : s.Forest ls) :
    ∃ result s' ls' gain, Ends ((ls.map Marked.mark).forM (visit rules names budget)) s result s' gain ∧
      Passes (rules.numbered names) s ls result s' ls' gain := by
  induction ls generalizing s with
  | nil => exact ⟨.ok (), s, [], 0, Ends.pure (), .nil⟩
  | cons l ls tail =>
    obtain ⟨result, s₁, l', gain, done, first⟩ := each l List.mem_cons_self s forest.head
    rw [List.map_cons, Program.forM_cons]
    cases result with
    | ok =>
      obtain ⟨result, s₂, ls', gain', done', rest⟩ := tail (fun o member => each o (List.mem_cons_of_mem _ member))
        (Rewrites.forest_tail forest (first.rewrites forest.head))
      exact ⟨result, s₂, l' :: ls', gain + gain', done.bind done', .cons first rest⟩
    | error e => exact ⟨_, s₁, l' :: ls, gain, done.bind_error, .halted first⟩

theorem visit_passes {l : Layout} {s : Store} {budget : Nat} (forest : s.Forest [l])
    (enough : l.marks.length ≤ budget) :
    ∃ result s' l' gain, Ends (visit rules names budget l.mark) s result s' gain ∧
      Passes (rules.numbered names) s [l] result s' [l'] gain := by
  induction l using Marked.induction generalizing s budget with
  | step m k ih =>
    obtain ⟨budget, rfl⟩ : ∃ b, budget = b + 1 :=
      Nat.exists_eq_add_one.mpr (Marked.length_marks_pos.trans_le enough)
    have fits : ∀ l ∈ k.children, l.marks.length ≤ budget := fun l child =>
      Nat.le_of_lt_succ ((Marked.length_marks_lt child).trans_le enough)
    obtain ⟨result, s₁, ls, gain, below, passes⟩ :=
      forM_passes rules names (fun l child s forest => ih l child forest (fits l child)) forest.children
    have here := (holds_node.mp forest.holds_single).1
    rw [← Kind.children_map id] at below
    cases result with
    | error e => exact ⟨_, s₁, _, gain, visit_error rules names here below, .node passes (by simp)⟩
    | ok =>
      have change := (Rewrites.node forest (passes.rewrites forest.children)).forest
      have here₁ := (holds_node.mp change.holds_single).1
      cases isQuery : k.isQuery with
      | false =>
        have other : ((k.refill ls).map id Marked.mark).isQuery = false := by simpa using isQuery
        exact ⟨_, s₁, _, gain, visit_other rules names here below here₁ other, .node passes fun _ => isQuery⟩
      | true =>
        obtain ⟨cs, rfl⟩ := Kind.eq_query_of_isQuery isQuery
        obtain ⟨result, s₂, gain', step, work⟩ := normalizeQuery_ends rules names
          change.holds_single.closedAt here₁ fun n => n.source_ne change
        exact ⟨result, s₂, _, _, visit_query rules names here below here₁ rfl work, .query passes step⟩

theorem normalize_passes {l : Layout} {s : Store} (forest : s.Forest [l]) :
    ∃ result l' gain, Passes (rules.numbered names) s [l] result (normalize rules names s l.mark).store [l'] gain ∧
      (normalize rules names s l.mark).result = result.map fun _ => gain := by
  have enough := Nat.le_succ_of_le (forest.holds_single.length_marks_le forest.nodup_single)
  obtain ⟨result, s', l', gain, ends, passes⟩ := visit_passes rules names forest enough
  obtain ⟨store, ended⟩ := normalize_of_ends rules names ends
  exact ⟨result, l', gain, store ▸ passes, ended⟩

theorem normalize_run {ι : Type} {f : NodeId → ι} {fresh : ι} {l : Layout} {s : Store} (forest : s.Forest [l])
    (collapses : ∀ id : NodeId, s.size ≤ id.index → f id = fresh) :
    ∃ l', Store.Rewrites s [l] (normalize rules names s l.mark).store [l'] ∧
      l'.map f id = ((visitTree (rules.numbered names) fresh (l.map f id)).run {}).1 ∧
      ResultOf f ((visitTree (rules.numbered names) fresh (l.map f id)).run {}).2.stats
        ((visitTree (rules.numbered names) fresh (l.map f id)).run {}).2.breach
        (normalize rules names s l.mark).result ∧
      Trace (rules.numbered names) s (normalize rules names s l.mark).store
        ((visitTree (rules.numbered names) fresh (l.map f id)).run {}).2.stats := by
  obtain ⟨result, l', gain, passes, ended⟩ := normalize_passes rules names forest
  obtain ⟨breach, run, ends⟩ := passes.mapM_visitTree forest collapses
  rw [Passes.run_visitTree_eq run, ended]
  refine ⟨l', passes.rewrites forest, rfl, ?_, passes.trace⟩
  cases breach with
  | none =>
    obtain rfl := ends
    rfl
  | some breach =>
    obtain ⟨e, rfl, place, violation⟩ := ends
    exact ⟨e, rfl, place, violation⟩

theorem normalize_run_shape {l : Layout} {s : Store} (forest : s.Forest [l]) :
    ∃ l' : Layout, Store.Rewrites s [l] (normalize rules names s l.mark).store [l'] ∧
      l'.shape = ((visitTree (rules.numbered names) () l.shape).run {}).1 ∧
      ResultOf (fun _ => ()) ((visitTree (rules.numbered names) () l.shape).run {}).2.stats
        ((visitTree (rules.numbered names) () l.shape).run {}).2.breach (normalize rules names s l.mark).result ∧
      Trace (rules.numbered names) s (normalize rules names s l.mark).store
        ((visitTree (rules.numbered names) () l.shape).run {}).2.stats :=
  normalize_run rules names forest fun _ _ => rfl

theorem succeeds_of_normalize {l : Layout} {s : Store} (forest : s.Forest [l]) {stats : Stats}
    (done : (normalize rules names s l.mark).result = .ok stats) :
    Succeeds (rules.numbered names) () l.shape := by
  obtain ⟨l', -, -, known, -⟩ := normalize_run_shape rules names forest
  rw [done] at known
  exact known.ok.1

theorem normalize_of_succeeds {l : Layout} {s : Store} (forest : s.Forest [l])
    (succeeds : Succeeds (rules.numbered names) () l.shape) :
    (normalize rules names s l.mark).result = .ok (tally (rules.numbered names) () l.shape) ∧
      (tally (rules.numbered names) () l.shape = 0 → (normalize rules names s l.mark).store = s) ∧
      ∃ l' : Layout, l'.shape = normal (rules.numbered names) () l.shape ∧
        Store.Rewrites s [l] (normalize rules names s l.mark).store [l'] := by
  obtain ⟨l', change, image, known, trace⟩ := normalize_run_shape rules names forest
  rw [succeeds] at known
  exact ⟨known, trace.quiet, l', image, change⟩

def collapse (s : Store) (id : NodeId) : NodeId := if id.index < s.size then id else ⟨s.size⟩

theorem collapse_eq_iff {s : Store} {id : NodeId} : collapse s id = ⟨s.size⟩ ↔ s.size ≤ id.index := by
  rw [collapse]
  split
  · next old =>
    constructor
    · rintro rfl
      exact Nat.le_refl _
    · exact fun new => absurd old (Nat.not_lt_of_le new)
  · next new => exact iff_of_true rfl (Nat.le_of_not_lt new)

theorem eq_of_collapse_eq {s : Store} {a b : NodeId} (old : a.index < s.size)
    (same : collapse s a = collapse s b) : a = b := by
  by_cases old' : b.index < s.size
  · rwa [collapse, if_pos old, collapse, if_pos old'] at same
  · rw [collapse, if_pos old, collapse_eq_iff.mpr (Nat.le_of_not_lt old')] at same
    rw [same] at old
    exact absurd old (Nat.lt_irrefl _)

/-- A successful run in the slots of the store. -/
theorem normalize_run_collapsed {l : Layout} {s : Store} {stats : Stats} (forest : s.Forest [l])
    (done : (normalize rules names s l.mark).result = .ok stats) :
    Succeeds (rules.numbered names) ⟨s.size⟩ l ∧ tally (rules.numbered names) ⟨s.size⟩ l = stats ∧
      ∃ l' : Layout, Store.Rewrites s [l] (normalize rules names s l.mark).store [l'] ∧
        l'.map (collapse s) id = normal (rules.numbered names) ⟨s.size⟩ l ∧
        Trace (rules.numbered names) s (normalize rules names s l.mark).store
          (tally (rules.numbered names) ⟨s.size⟩ l) := by
  have same : l.map (collapse s) id = l :=
    Marked.map_marks_id fun id member => if_pos (forest.holds_single.index_lt member)
  obtain ⟨l', change, image, known, trace⟩ := normalize_run (f := collapse s) rules names forest
    fun id new => collapse_eq_iff.mpr new
  rw [same] at image known trace
  rw [done] at known
  exact ⟨known.ok.1, known.ok.2, l', change, image, trace⟩

end

end Comprehension.Normalize
