import Comprehension.Proofs.Layout

/-! Changes to the layouts in a store. A change owns the slots of the layouts that it starts from and
those that it allocates, and leaves all others alone, so changes to disjoint layouts can be put
together. -/

set_option autoImplicit false

namespace Comprehension.Store

structure Forest (s : Store) (layouts : List Layout) : Prop where
  holds : ∀ l ∈ layouts, s.Holds l
  nodup : (layouts.flatMap Marked.marks).Nodup

/-- A change from layouts in one store to layouts with the same roots in another. -/
structure Rewrites (s : Store) (before : List Layout) (s' : Store) (after : List Layout) : Prop where
  grows : s.size ≤ s'.size
  roots : after.map Marked.mark = before.map Marked.mark
  forest : s'.Forest after
  owned : ∀ id ∈ after.flatMap Marked.marks, id ∈ before.flatMap Marked.marks ∨ s.size ≤ id.index
  frame : ∀ id : NodeId, id.index < s.size → id ∉ before.flatMap Marked.marks → s'.node? id = s.node? id

variable {s s' s'' : Store} {l l' : Layout} {ls ls' ls'' : List Layout} {m : NodeId} {k : Kind Name Layout}

theorem Holds.congr (holds : s.Holds l) (same : ∀ id ∈ l.marks, s'.kind? id = s.kind? id) : s'.Holds l := by
  intro n below
  rw [same n.mark (Marked.mem_marks.mpr ⟨n, below, rfl⟩)]
  exact holds n below

namespace Forest

theorem single (holds : s.Holds l) (nodup : l.marks.Nodup) : s.Forest [l] :=
  ⟨by simpa using holds, by simpa using nodup⟩

theorem holds_single (forest : s.Forest [l]) : s.Holds l := forest.holds l (by simp)

theorem nodup_single (forest : s.Forest [l]) : l.marks.Nodup := by simpa using forest.nodup

theorem index_lt (forest : s.Forest ls) {id : NodeId} (member : id ∈ ls.flatMap Marked.marks) :
    id.index < s.size := by
  obtain ⟨l, inside, member⟩ := List.mem_flatMap.mp member
  exact (forest.holds l inside).index_lt member

theorem below (forest : s.Forest [l]) {n : Layout} (low : n ∈ l.subtrees) : s.Forest [n] :=
  single (forest.holds_single.of_mem low) (forest.nodup_single.sublist (Marked.marks_sublist_of_mem low))

theorem head (forest : s.Forest (l :: ls)) : s.Forest [l] := by
  have nodup := forest.nodup
  rw [List.flatMap_cons, List.nodup_append] at nodup
  exact single (forest.holds l List.mem_cons_self) nodup.1

theorem tail (forest : s.Forest (l :: ls)) : s.Forest ls := by
  have nodup := forest.nodup
  rw [List.flatMap_cons, List.nodup_append] at nodup
  exact ⟨fun l' member => forest.holds l' (List.mem_cons_of_mem _ member), nodup.2.1⟩

theorem disjoint (forest : s.Forest (l :: ls)) {id : NodeId} (first : id ∈ l.marks) :
    id ∉ ls.flatMap Marked.marks := by
  have nodup := forest.nodup
  rw [List.flatMap_cons, List.nodup_append] at nodup
  exact fun second => nodup.2.2 id first id second rfl

theorem children (forest : s.Forest [.node m k]) : s.Forest k.children := by
  have nodup := forest.nodup_single
  rw [Marked.marks_node, List.nodup_cons] at nodup
  exact ⟨(holds_node.mp forest.holds_single).2, nodup.2⟩

theorem mark_not_mem (forest : s.Forest [.node m k]) : m ∉ k.children.flatMap Marked.marks := by
  have nodup := forest.nodup_single
  rw [Marked.marks_node, List.nodup_cons] at nodup
  exact nodup.1

end Forest

namespace Rewrites

theorem refl (forest : s.Forest ls) : Rewrites s ls s ls :=
  ⟨Nat.le_refl _, rfl, forest, fun _ member => .inl member, fun _ _ _ => rfl⟩

theorem trans (first : Rewrites s ls s' ls') (second : Rewrites s' ls' s'' ls'') : Rewrites s ls s'' ls'' where
  grows := Nat.le_trans first.grows second.grows
  roots := second.roots.trans first.roots
  forest := second.forest
  owned id member := by
    rcases second.owned id member with inside | new
    · exact first.owned id inside
    · exact .inr (Nat.le_trans first.grows new)
  frame id old outside := by
    have outside' : id ∉ ls'.flatMap Marked.marks := fun inside => by
      rcases first.owned id inside with member | new
      · exact outside member
      · exact absurd new (Nat.not_le_of_lt old)
    rw [second.frame id (Nat.lt_of_lt_of_le old first.grows) outside', first.frame id old outside]

theorem kind?_frame (change : Rewrites s ls s' ls') {id : NodeId} (old : id.index < s.size)
    (outside : id ∉ ls.flatMap Marked.marks) : s'.kind? id = s.kind? id := by
  rw [kind?, change.frame id old outside, kind?]

theorem root (change : Rewrites s [l] s' [l']) : l'.mark = l.mark := by simpa using change.roots

/-- Slots that no path leads to stay as they are. -/
theorem frame_follow (change : Rewrites s [l] s' [l']) (holds : s.Holds l) {id : NodeId} (old : id.index < s.size)
    (outside : ∀ path, s.follow l.mark path ≠ some id) : s'.node? id = s.node? id := by
  refine change.frame id old fun member => ?_
  obtain ⟨n, below, rfl⟩ := Marked.mem_marks.mp (by simpa using member)
  obtain ⟨path, found⟩ := holds.exists_follow_iff.mpr ⟨n, below, rfl⟩
  exact outside path found

theorem unfold_eq (change : Rewrites s [l] s' [l']) (names : NameTable) :
    s'.unfold names l.mark = .ok (l'.tree names) :=
  change.root ▸ change.forest.holds_single.unfold_eq change.forest.nodup_single names

theorem forest_tail (forest : s.Forest (l :: ls)) (change : Rewrites s [l] s' [l']) : s'.Forest ls where
  holds o member := by
    refine (forest.holds o (List.mem_cons_of_mem _ member)).congr fun id marked => ?_
    have inside : id ∈ ls.flatMap Marked.marks := List.mem_flatMap.mpr ⟨o, member, marked⟩
    refine change.kind?_frame (forest.tail.index_lt inside) fun first => ?_
    exact forest.disjoint (by simpa using first) inside
  nodup := forest.tail.nodup

theorem cons (forest : s.Forest (l :: ls)) (first : Rewrites s [l] s' [l']) (rest : Rewrites s' ls s'' ls') :
    Rewrites s (l :: ls) s'' (l' :: ls') := by
  have firstOwned : ∀ id ∈ l'.marks, id ∈ l.marks ∨ s.size ≤ id.index := fun id member => by
    simpa using first.owned id (by simpa using member)
  have firstOld : ∀ id ∈ l'.marks, id.index < s'.size := fun id member =>
    first.forest.holds_single.index_lt member
  -- The slots of the first result are its own or new, so the rest leaves them alone.
  have apart : ∀ id ∈ l'.marks, id ∉ ls.flatMap Marked.marks := by
    intro id member inside
    rcases firstOwned id member with own | new
    · exact forest.disjoint own inside
    · exact absurd (forest.tail.index_lt inside) (Nat.not_lt_of_le new)
  refine ⟨Nat.le_trans first.grows rest.grows, ?_, ⟨?_, ?_⟩, ?_, ?_⟩
  · rw [List.map_cons, List.map_cons, first.root, rest.roots]
  · intro o member
    rcases List.mem_cons.mp member with rfl | member
    · exact first.forest.holds_single.congr fun id marked =>
        rest.kind?_frame (firstOld id marked) (apart id marked)
    · exact rest.forest.holds o member
  · rw [List.flatMap_cons, List.nodup_append]
    refine ⟨first.forest.nodup_single, rest.forest.nodup, ?_⟩
    rintro id inFirst _ inRest rfl
    rcases rest.owned id inRest with own | new
    · exact apart id inFirst own
    · exact absurd (firstOld id inFirst) (Nat.not_lt_of_le new)
  · intro id member
    rw [List.flatMap_cons, List.mem_append] at member ⊢
    rcases member with member | member
    · exact (firstOwned id member).imp_left .inl
    · rcases rest.owned id member with own | new
      · exact .inl (.inr own)
      · exact .inr (Nat.le_trans first.grows new)
  · intro id old outside
    rw [List.flatMap_cons, List.mem_append, not_or] at outside
    rw [rest.frame id (Nat.lt_of_lt_of_le old first.grows) outside.2,
      first.frame id old (by simpa using outside.1)]

/-- A change to the children of a node is one to the node. -/
theorem node (forest : s.Forest [.node m k]) (change : Rewrites s k.children s' ls) :
    Rewrites s [.node m k] s' [.node m (k.refill ls)] := by
  have length : ls.length = k.children.length := by simpa using congrArg List.length change.roots
  have old : m.index < s.size := forest.index_lt (by simp [Marked.marks_node])
  have cell : (k.refill ls).map id Marked.mark = k.map id Marked.mark := by
    rw [Kind.map_refill, change.roots, ← Kind.children_map id, Kind.refill_children]
  have here : s'.kind? m = some ((k.refill ls).map id Marked.mark) := by
    rw [change.kind?_frame old forest.mark_not_mem, cell]
    exact (holds_node.mp forest.holds_single).1
  have fresh : m ∉ ls.flatMap Marked.marks := fun inside => by
    rcases change.owned m inside with own | new
    · exact forest.mark_not_mem own
    · exact absurd old (Nat.not_lt_of_le new)
  refine ⟨change.grows, rfl, .single (holds_node.mpr ⟨here, ?_⟩) ?_, ?_, ?_⟩
  · rw [Kind.children_refill length]
    exact change.forest.holds
  · rw [Marked.marks_node, Kind.children_refill length, List.nodup_cons]
    exact ⟨fresh, change.forest.nodup⟩
  · simp only [List.flatMap_cons, List.flatMap_nil, List.append_nil, Marked.marks_node,
      Kind.children_refill length, List.mem_cons]
    rintro id (rfl | inside)
    · exact .inl (.inl rfl)
    · exact (change.owned id inside).imp_left .inr
  · simp only [List.flatMap_cons, List.flatMap_nil, List.append_nil, Marked.marks_node, List.mem_cons, not_or]
    exact fun id old outside => change.frame id old outside.2

theorem put (forest : s.Forest [.node m k]) (k' : Kind Name Layout)
    (below : ∀ c ∈ k'.children, c ∈ (Marked.node m k).subtrees)
    (part : (k'.children.flatMap Marked.marks).Subperm (k.children.flatMap Marked.marks)) :
    Rewrites s [.node m k] (s.put m (k'.map id Marked.mark)) [.node m k'] := by
  have inside := part.subset
  have fresh : m ∉ k'.children.flatMap Marked.marks := fun member => forest.mark_not_mem (inside member)
  have nodup : (k'.children.flatMap Marked.marks).Nodup := by
    obtain ⟨l, same, sub⟩ := part
    exact same.nodup_iff.mp (forest.children.nodup.sublist sub)
  refine ⟨by simp, rfl, .single (holds_node.mpr ⟨?_, ?_⟩) ?_, ?_, ?_⟩
  · exact kind?_put_self (holds_node.mp forest.holds_single).1 _
  · intro c child
    refine (forest.holds_single.of_mem (below c child)).congr fun id marked => kind?_put_of_ne ?_ _
    rintro rfl
    exact fresh (List.mem_flatMap.mpr ⟨c, child, marked⟩)
  · rw [Marked.marks_node, List.nodup_cons]
    exact ⟨fresh, nodup⟩
  · simp only [List.flatMap_cons, List.flatMap_nil, List.append_nil, Marked.marks_node, List.mem_cons]
    exact fun id member => .inl (member.imp_right fun low => inside low)
  · simp only [List.flatMap_cons, List.flatMap_nil, List.append_nil, Marked.marks_node, List.mem_cons, not_or]
    intro id _ outside
    rw [node?_put, if_neg (Ne.symm outside.1)]

end Rewrites

end Comprehension.Store
