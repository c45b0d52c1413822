import Comprehension.Proofs.Interning
import Comprehension.Proofs.Layout
import Comprehension.Proofs.Program
import Comprehension.Session

/-! Programs that put trees together in a session. What such a program has made so far is a list of trees,
each with the slots of its nodes. A new node takes the place of its children in the list, so that the
session has grown by as many slots as there are nodes in the list. -/

set_option autoImplicit false

namespace Comprehension

namespace NameTable

variable {t : NameTable}

theorem lookup_intern_of_lt (t : NameTable) (text : String) {x : Name} (inUse : x.index < t.size) :
    (t.intern text).2.lookup x = t.lookup x := by
  cases known : t.numbers[text]? with
  | some n => rw [intern_known known]
  | none => rw [intern_fresh known, lookup, lookup, Array.getElem?_push_lt inUse, Array.getElem?_eq_getElem inUse]

theorem size_le_intern (t : NameTable) (text : String) : t.size ≤ (t.intern text).2.size := by
  cases known : t.numbers[text]? with
  | some n => rw [intern_known known]
  | none => simp [intern_fresh known, size]

theorem Consistent.intern_text (consistent : Consistent t) (text : String) :
    (t.intern text).1.index < (t.intern text).2.size ∧ (t.intern text).2.lookup (t.intern text).1 = text := by
  cases known : t.numbers[text]? with
  | some n =>
    have place := (consistent text n).mp known
    rw [intern_known known, lookup, place]
    exact ⟨(Array.getElem?_eq_some_iff.mp place).1, rfl⟩
  | none => simp [intern_fresh known, lookup, size]

end NameTable

namespace Session

/-- So many nodes are new. They have this span, and their children have smaller numbers. Everything that was
there stays: slots with their spans, and the texts of names. -/
structure Adds (span : Span) (s s' : Session) (count : Nat) : Prop where
  size_eq : s'.store.size = s.store.size + count
  node?_eq : ∀ id : NodeId, id.index < s.store.size → s'.store.node? id = s.store.node? id
  new : ∀ id : NodeId, s.store.size ≤ id.index → id.index < s'.store.size →
    ∃ kind, s'.store.node? id = some ⟨kind, span⟩ ∧ ∀ c ∈ kind.children, c.index < id.index
  names_le : s.names.size ≤ s'.names.size
  lookup_eq : ∀ x : Name, x.index < s.names.size → s'.names.lookup x = s.names.lookup x

namespace Adds

variable {span : Span} {s s₁ s₂ : Session} {n n' : Nat}

theorem refl : Adds span s s 0 where
  size_eq := rfl
  node?_eq _ _ := rfl
  new _ new old := absurd old (Nat.not_lt_of_le new)
  names_le := Nat.le_refl _
  lookup_eq _ _ := rfl

theorem size_le (adds : Adds span s s₁ n) : s.store.size ≤ s₁.store.size :=
  adds.size_eq ▸ Nat.le_add_right _ _

theorem trans (first : Adds span s s₁ n) (second : Adds span s₁ s₂ n') : Adds span s s₂ (n + n') where
  size_eq := by rw [second.size_eq, first.size_eq, Nat.add_assoc]
  node?_eq id old := (second.node?_eq id (old.trans_le first.size_le)).trans (first.node?_eq id old)
  new id new bound := by
    by_cases between : id.index < s₁.store.size
    · rw [second.node?_eq id between]
      exact first.new id new between
    · exact second.new id (Nat.le_of_not_lt between) bound
  names_le := first.names_le.trans second.names_le
  lookup_eq x inUse := (second.lookup_eq x (inUse.trans_le first.names_le)).trans (first.lookup_eq x inUse)

theorem intern (text : String) : Adds span s ⟨s.store, (s.names.intern text).2⟩ 0 where
  size_eq := rfl
  node?_eq _ _ := rfl
  new _ new old := absurd old (Nat.not_lt_of_le new)
  names_le := s.names.size_le_intern text
  lookup_eq _ inUse := s.names.lookup_intern_of_lt text inUse

theorem alloc {kind : NodeKind} (below : ∀ c ∈ kind.children, c.index < s.store.size) :
    Adds span s ⟨(s.store.alloc kind span).2, s.names⟩ 1 where
  size_eq := Store.size_alloc ..
  node?_eq id old := by rw [Store.node?_alloc, if_neg (Nat.ne_of_lt old)]
  new id new bound := by
    have last : id.index = s.store.size :=
      Nat.le_antisymm (Nat.le_of_lt_succ (bound.trans_eq (Store.size_alloc ..))) new
    refine ⟨kind, by rw [Store.node?_alloc, if_pos last], fun c child => ?_⟩
    rw [last]
    exact below c child
  names_le := Nat.le_refl _
  lookup_eq _ _ := rfl

theorem kind?_eq (adds : Adds span s s₁ n) {id : NodeId} {kind : NodeKind} (here : s.store.kind? id = some kind) :
    s₁.store.kind? id = some kind := by
  rw [Store.kind?, adds.node?_eq id (Store.index_lt_of_kind? here)]
  exact here

end Adds

def Shows (s : Session) (t : Marked NodeId String) : Prop :=
  ∃ l : Layout, s.store.Holds l ∧ l.NamesIn (·.index < s.names.size) ∧ l.map id s.names.lookup = t

section
variable {span : Span} {s s₁ : Session} {n : Nat} {t : Marked NodeId String}

theorem Shows.later (shows : s.Shows t) (adds : Adds span s s₁ n) : s₁.Shows t := by
  obtain ⟨l, holds, inUse, rfl⟩ := shows
  refine ⟨l, fun o below => adds.kind?_eq (holds o below), fun o below x named => ?_, ?_⟩
  · exact (inUse o below x named).trans_le adds.names_le
  · exact Marked.map_congr_names fun o below x named => adds.lookup_eq x (inUse o below x named)

theorem Shows.index_lt (shows : s.Shows t) : t.mark.index < s.store.size := by
  obtain ⟨l, holds, -, rfl⟩ := shows
  rw [Marked.mark_map]
  exact Store.index_lt_of_kind? holds.kind?

theorem Shows.node {m : NodeId} {k : Kind String (Marked NodeId String)} {x : Name}
    (children : ∀ c ∈ k.children, s.Shows c)
    (here : s.store.kind? m = some (k.map (fun _ => x) Marked.mark))
    (named : ∀ text ∈ k.names, x.index < s.names.size ∧ s.names.lookup x = text) : s.Shows (.node m k) := by
  have : Nonempty Layout := ⟨.node m (.literal .null)⟩
  choose! layout holds inUse image using children
  have marks (c : Marked NodeId String) (child : c ∈ k.children) : (layout c).mark = c.mark :=
    (Marked.mark_map ..).symm.trans (congrArg Marked.mark (image c child))
  refine ⟨.node m (k.map (fun _ => x) layout), Store.holds_node.mpr ⟨?_, fun c child => ?_⟩,
    Marked.namesIn_node.mpr ⟨fun y member => ?_, fun c child => ?_⟩, ?_⟩
  · rw [here, Kind.map_map]
    exact congrArg some (Kind.map_children_congr fun c child => (marks c child).symm)
  · rw [Kind.children_map] at child
    obtain ⟨o, member, rfl⟩ := List.mem_map.mp child
    exact holds o member
  · rw [Kind.names_map] at member
    obtain ⟨text, there, rfl⟩ := List.mem_map.mp member
    exact (named text there).1
  · rw [Kind.children_map] at child
    obtain ⟨o, member, rfl⟩ := List.mem_map.mp child
    exact inUse o member
  · rw [Marked.map_node, Kind.map_map]
    exact congrArg (Marked.node m)
      ((Kind.map_congr (fun text there => (named text there).2) image).trans (Kind.map_id k))

end

def erased (t : Marked NodeId String) : Tree := t.map (fun _ => ()) id

theorem erased_node (m : NodeId) (k : Kind String (Marked NodeId String)) :
    erased (.node m k) = .node () (k.map id erased) := Marked.map_node ..

theorem length_marks_erased (t : Marked NodeId String) : (erased t).marks.length = t.marks.length := by
  rw [erased, Marked.marks, Marked.marks, Marked.subtrees_map, List.map_map, List.length_map, List.length_map]

theorem Shows.unfold_eq {s : Session} {t : Marked NodeId String} (shows : s.Shows t) :
    s.store.unfold s.names t.mark = .ok (erased t) := by
  obtain ⟨l, holds, -, rfl⟩ := shows
  rw [Marked.mark_map, erased, Marked.map_map]
  exact holds.unfold_tree s.names

/-- What has been made since a session began: trees, each of which lies in its slots. -/
structure Assembles (span : Span) (s s' : Session) (ts : List (Marked NodeId String)) : Prop where
  adds : Adds span s s' (ts.flatMap Marked.marks).length
  reachable : s'.names.Reachable
  shows : ∀ t ∈ ts, s'.Shows t

namespace Assembles

variable {span : Span} {s s₁ s₂ : Session} {ts ts' before after : List (Marked NodeId String)}
  {k : Kind String (Marked NodeId String)}

theorem nil (reachable : s.names.Reachable) : Assembles span s s [] :=
  ⟨.refl, reachable, fun _ member => absurd member List.not_mem_nil⟩

theorem append (first : Assembles span s s₁ ts) (second : Assembles span s₁ s₂ ts') :
    Assembles span s s₂ (ts ++ ts') where
  adds := by
    rw [List.flatMap_append, List.length_append]
    exact first.adds.trans second.adds
  reachable := second.reachable
  shows t member := by
    rcases List.mem_append.mp member with old | new
    · exact (first.shows t old).later second.adds
    · exact second.shows t new

theorem intern (assembles : Assembles span s s₁ ts) (text : String) :
    Assembles span s ⟨s₁.store, (s₁.names.intern text).2⟩ ts := by
  have step : Adds span s₁ ⟨s₁.store, (s₁.names.intern text).2⟩ 0 := .intern text
  exact ⟨assembles.adds.trans step, assembles.reachable.intern text,
    fun t member => (assembles.shows t member).later step⟩

theorem alloc (assembles : Assembles span s s₁ (before ++ (k.children ++ after))) (x : Name)
    (named : ∀ text ∈ k.names, x.index < s₁.names.size ∧ s₁.names.lookup x = text) :
    Assembles span s ⟨(s₁.store.alloc (k.map (fun _ => x) Marked.mark) span).2, s₁.names⟩
      (before ++ .node ⟨s₁.store.size⟩ k :: after) := by
  have children (c : Marked NodeId String) (child : c ∈ k.children) : s₁.Shows c :=
    assembles.shows c (by simp [child])
  have step : Adds span s₁ ⟨(s₁.store.alloc (k.map (fun _ => x) Marked.mark) span).2, s₁.names⟩ 1 := by
    refine .alloc fun c child => ?_
    rw [Kind.children_map] at child
    obtain ⟨o, member, rfl⟩ := List.mem_map.mp child
    exact (children o member).index_lt
  refine ⟨?_, assembles.reachable, fun t member => ?_⟩
  · have adds := assembles.adds.trans step
    have count : ((before ++ (k.children ++ after)).flatMap Marked.marks).length + 1 =
        ((before ++ Marked.node ⟨s₁.store.size⟩ k :: after).flatMap Marked.marks).length := by
      simp only [List.flatMap_append, List.flatMap_cons, List.length_append, Marked.marks_node, List.length_cons]
      omega
    rwa [count] at adds
  · rcases List.mem_append.mp member with old | new
    · exact (assembles.shows t (by simp [old])).later step
    · rcases List.mem_cons.mp new with rfl | old
      · refine Shows.node (fun c child => (children c child).later step) ?_ named
        rw [Store.kind?, Store.node?_alloc, if_pos rfl]
        rfl
      · exact (assembles.shows t (by simp [old])).later step

theorem alloc_first (assembles : Assembles span s s₁ (k.children ++ after)) (x : Name)
    (named : ∀ text ∈ k.names, x.index < s₁.names.size ∧ s₁.names.lookup x = text) :
    Assembles span s ⟨(s₁.store.alloc (k.map (fun _ => x) Marked.mark) span).2, s₁.names⟩
      (.node ⟨s₁.store.size⟩ k :: after) := by
  have whole : Assembles span s s₁ ([] ++ (k.children ++ after)) := assembles
  exact whole.alloc x named

theorem alloc_all (assembles : Assembles span s s₁ k.children) (x : Name)
    (named : ∀ text ∈ k.names, x.index < s₁.names.size ∧ s₁.names.lookup x = text) :
    Assembles span s ⟨(s₁.store.alloc (k.map (fun _ => x) Marked.mark) span).2, s₁.names⟩
      [.node ⟨s₁.store.size⟩ k] :=
  alloc_first (by rwa [List.append_nil]) x named

end Assembles

end Session

end Comprehension
