import Comprehension.Proofs.Simulation

/-! What every pass does to a store as a whole, whether it succeeds or not: old slots keep their spans, and
new slots hold let clauses. References are stripped one by one, and each time an access becomes an
identifier. -/

set_option autoImplicit false

namespace Comprehension

namespace Store

def Keeps (p : NodeKind → Prop) (s s' : Store) : Prop :=
  ∀ id k, p k → s.kind? id = some k → s'.kind? id = some k

/-- Old slots keep their spans. Let clauses stay, and new slots hold let clauses with the spans of their
values. -/
structure Grows (s s' : Store) : Prop where
  size_le : s.size ≤ s'.size
  span_eq : ∀ {id : NodeId}, id.index < s.size → s'.span id = s.span id
  keepsLets : Keeps (fun k => ∃ x value, k = .letClause x value) s s'
  newLets : ∀ {id : NodeId}, s.size ≤ id.index → id.index < s'.size →
    ∃ x value, s'.kind? id = some (.letClause x value) ∧ s'.span id = s'.span value

variable {s s₁ s₂ : Store} {id : NodeId} {k : NodeKind} {p : NodeKind → Prop}

theorem span_eq_ok_iff {span : Span} : s.span id = .ok span ↔ ∃ k, s.node? id = some ⟨k, span⟩ := by
  unfold Store.span
  cases s.node? id with
  | none => simp
  | some n =>
    obtain ⟨k, sp⟩ := n
    simp

theorem index_lt_of_span {span : Span} (known : s.span id = .ok span) : id.index < s.size := by
  obtain ⟨k, here⟩ := span_eq_ok_iff.mp known
  exact index_lt_of_kind? (k := k) (by rw [kind?, here]; rfl)

theorem exists_span (old : id.index < s.size) : ∃ span, s.span id = .ok span := by
  obtain ⟨k, here⟩ := exists_kind?_of_lt old
  obtain ⟨n, found, -⟩ := Option.map_eq_some_iff.mp here
  exact ⟨n.span, span_eq_ok_iff.mpr ⟨n.kind, found⟩⟩

namespace Keeps

theorem refl : Keeps p s s := fun _ _ _ here => here

theorem trans (first : Keeps p s s₁) (second : Keeps p s₁ s₂) : Keeps p s s₂ :=
  fun id k known here => second id k known (first id k known here)

theorem put (here : s.kind? id = some k) (other : ¬ p k) (k' : NodeKind) : Keeps p s (s.put id k') := by
  intro id' k₁ known here'
  rw [kind?_put_of_ne _ k', here']
  rintro rfl
  cases here.symm.trans here'
  exact other known

theorem withLet (plan : Normalize.Splice) (span : Span) : Keeps p s (Normalize.withLet s plan span) := by
  intro id k known here
  rw [kind?, Normalize.node?_withLet (index_lt_of_kind? here)]
  exact here

end Keeps

namespace Grows

theorem refl : Grows s s :=
  ⟨Nat.le_refl _, fun _ => rfl, .refl, fun new old => absurd old (Nat.not_lt_of_le new)⟩

theorem trans (first : Grows s s₁) (second : Grows s₁ s₂) : Grows s s₂ where
  size_le := Nat.le_trans first.size_le second.size_le
  span_eq old := (second.span_eq (Nat.lt_of_lt_of_le old first.size_le)).trans (first.span_eq old)
  keepsLets := first.keepsLets.trans second.keepsLets
  newLets {id} new bound := by
    by_cases between : id.index < s₁.size
    · obtain ⟨x, value, here, same⟩ := first.newLets new between
      obtain ⟨span, known⟩ := exists_span between
      have inValue : value.index < s₁.size := index_lt_of_span (same.symm.trans known)
      refine ⟨x, value, second.keepsLets _ _ ⟨x, value, rfl⟩ here, ?_⟩
      rw [second.span_eq between, same, second.span_eq inValue]
    · exact second.newLets (Nat.le_of_not_lt between) bound

theorem put (here : s.kind? id = some k) (other : ¬ ∃ x value, k = .letClause x value) (k' : NodeKind) :
    Grows s (s.put id k') where
  size_le := Nat.le_of_eq (size_put ..).symm
  span_eq _ := Normalize.span_put ..
  keepsLets := .put here other k'
  newLets new bound := absurd bound (by rw [size_put]; exact Nat.not_lt_of_le new)

theorem withLet (plan : Normalize.Splice) {span : Span} (known : s.span plan.value = .ok span) :
    Grows s (Normalize.withLet s plan span) := by
  have span_eq {id : NodeId} (old : id.index < s.size) : (Normalize.withLet s plan span).span id = s.span id := by
    obtain ⟨sp, here⟩ := exists_span old
    rw [here, span_eq_ok_iff, Normalize.node?_withLet old]
    exact span_eq_ok_iff.mp here
  refine ⟨?_, span_eq, .withLet plan span, fun {id} new bound => ?_⟩
  · rw [Normalize.size_withLet]
    exact Nat.le_add_right _ _
  · rw [Normalize.size_withLet] at bound
    cases binds : plan.binding with
    | none =>
      rw [Normalize.added, binds] at bound
      exact absurd bound (Nat.not_lt_of_le new)
    | some x =>
      rw [Normalize.added, binds, List.length_singleton] at bound
      obtain rfl : id = ⟨s.size⟩ := by
        cases id
        exact congrArg NodeId.mk (Nat.le_antisymm (Nat.le_of_lt_succ bound) new)
      refine ⟨x, plan.value, Normalize.kind?_withLet_new binds, ?_⟩
      rw [span_eq (index_lt_of_span known), known, span_eq_ok_iff]
      exact ⟨.letClause x plan.value, by simp [Normalize.withLet, binds, node?_alloc]⟩

end Grows

end Store

namespace Normalize
open Store Program

/-! ### Stripped references -/

inductive Strips (s : Store) : Store → Nat → Prop where
  | nil : Strips s s 0
  | snoc {s₁ : Store} {count : Nat} {id target : NodeId} {x : Name} {typeArgs : List NodeId}
      (before : Strips s s₁ count) (here : s₁.kind? id = some (.member target x typeArgs)) :
      Strips s (s₁.put id (.ident x typeArgs)) (count + 1)

theorem Strips.trans {s s₁ s₂ : Store} {count count' : Nat} (first : Strips s s₁ count)
    (second : Strips s₁ s₂ count') : Strips s s₂ (count + count') := by
  induction second with
  | nil => exact first
  | snoc _ here ih => exact .snoc ih here

theorem eq_member_of_plainReference? {transparent : Name → Bool} {s : Store} {id : NodeId} {k : NodeKind}
    (found : plainReference? transparent s id = .ok (some k)) :
    ∃ target x typeArgs, s.kind? id = some (.member target x typeArgs) ∧ k = .ident x typeArgs := by
  unfold plainReference? at found
  cases here : s.kind id with
  | error e => simp [here, bind, Except.bind] at found
  | ok k' =>
    simp only [here, bind, Except.bind] at found
    cases k' with
    | member target x typeArgs =>
      refine ⟨target, x, typeArgs, kind_eq_ok_iff.mp here, ?_⟩
      cases inTarget : s.kind target with
      | error e => simp [inTarget] at found
      | ok kt =>
        simp only [inTarget] at found
        cases kt with
        | ident t args =>
          by_cases through : transparent t
          · simp only [through, if_true] at found
            cases found
            rfl
          · simp only [through] at found
            cases found
        | _ => cases found
    | _ => cases found

theorem stripReferences_strips {transparent : Name → Bool} {budget : Nat} {id : NodeId} {s s' : Store} {count : Nat}
    (done : stripReferences transparent budget id s = .ok count s') : Strips s s' count := by
  induction budget generalizing id s s' count with
  | zero => cases done
  | succ budget ih =>
    -- The counts of the children are added up in their order.
    have each : ∀ (ids : List NodeId) {s s' : Store} {counts : List Nat},
        ids.mapM (stripReferences transparent budget) s = .ok counts s' →
          Strips s s' (counts.foldr (· + ·) 0) := by
      intro ids
      induction ids with
      | nil =>
        intro s s' counts done
        cases done
        exact .nil
      | cons id ids tail =>
        intro s s' counts done
        rw [List.mapM_cons] at done
        obtain ⟨count, s₁, first, done⟩ := exists_of_bind done
        obtain ⟨counts, s₂, rest, done⟩ := exists_of_bind done
        cases done
        exact (ih first).trans (tail rest)
    rw [stripReferences] at done
    obtain ⟨children, s₀, read, rest⟩ := exists_of_bind done
    obtain ⟨-, rfl⟩ := eq_of_read read
    obtain ⟨counts, s₁, below, rest⟩ := exists_of_bind rest
    obtain ⟨reference, s₂, read', last⟩ := exists_of_bind rest
    obtain ⟨found, rfl⟩ := eq_of_read read'
    cases reference with
    | none =>
      cases last
      exact each children below
    | some k =>
      cases last
      obtain ⟨target, x, typeArgs, here, rfl⟩ := eq_member_of_plainReference? found
      exact .snoc (each children below) here

section
variable {s s' : Store} {count : Nat}

theorem Strips.keeps {p : NodeKind → Prop} (strips : Strips s s' count)
    (other : ∀ target x typeArgs, ¬ p (.member target x typeArgs)) : Keeps p s s' := by
  induction strips with
  | nil => exact .refl
  | snoc _ here ih => exact ih.trans (.put here (other _ _ _) _)

theorem Strips.grows (strips : Strips s s' count) : s.Grows s' := by
  induction strips with
  | nil => exact .refl
  | snoc _ here ih => exact ih.trans (.put here (by simp) _)

end

/-! ### Growth along a pass -/

section
variable {reading : Reading Name} {s s' : Store} {query : NodeId} {k : Kind Name Layout}

abbrev Elimination.emptied (e : Elimination reading s query) (binding : Option Name) : Store :=
  withLet (s.put e.source (.query [])) ⟨e.value, binding⟩ e.node.span

theorem Elimination.kind?_emptied (e : Elimination reading s query) (binding : Option Name)
    (proper : query ≠ e.source) : (e.emptied binding).kind? query = some (.query (e.first :: e.rest)) := by
  refine Keeps.withLet (p := fun _ => True) _ _ _ _ trivial ?_
  rw [kind?_put_of_ne proper.symm]
  exact e.here

theorem Elimination.span_value (e : Elimination reading s query) :
    (s.put e.source (.query [])).span e.value = .ok e.node.span := by
  rw [span_put, span_eq_ok_iff]
  exact ⟨e.node.kind, e.found⟩

theorem Elimination.grows (e : Elimination reading s query) (binding : Option Name) (proper : query ≠ e.source) :
    s.Grows (e.flattened binding) := by
  have emptied : s.Grows (s.put e.source (.query [])) := .put e.nested (by simp) _
  have grown := emptied.trans (.withLet ⟨e.value, binding⟩ e.span_value)
  exact grown.trans (.put (e.kind?_emptied binding proper) (by simp) _)

theorem Elimination.keeps {p : NodeKind → Prop} (e : Elimination reading s query) (binding : Option Name)
    (proper : query ≠ e.source) (other : ∀ clauses, ¬ p (.query clauses)) : Keeps p s (e.flattened binding) := by
  have emptied : Keeps p s (s.put e.source (.query [])) := .put e.nested (other _) _
  exact (emptied.trans (.withLet _ _)).trans (.put (e.kind?_emptied binding proper) (other _) _)

/-- The work at a query keeps spans and adds let clauses only. -/
theorem QueryStep.grows {result : Except Failure Unit} {gain : Stats}
    (step : QueryStep reading s query result s' gain) (forest : s.Forest [.node query k]) : s.Grows s' := by
  cases step with
  | kept | stopped => exact .refl
  | continued n => exact .put n.clause (by simp) _
  | annotated here clause => exact .put clause (by simp) _
  | eliminated e named cleaned =>
    have proper := e.toNestedFrom.source_ne forest
    exact (e.grows _ proper).trans (stripReferences_strips cleaned).grows
  | faulted e named stripped =>
    obtain ⟨count, s', done, -, -⟩ := e.flattens named forest
    cases stripped.symm.trans done

theorem Passes.grows {ls ls' : List Layout} {result : Except Failure Unit} {gain : Stats}
    (passes : Passes reading s ls result s' ls' gain) (forest : s.Forest ls) : s.Grows s' := by
  induction passes with
  | nil => exact .refl
  | cons first _ ih tail =>
    exact (ih forest.head).trans (tail (Rewrites.forest_tail forest (first.rewrites forest.head)))
  | halted _ ih => exact ih forest.head
  | node _ _ ih => exact ih forest.children
  | query below step ih =>
    have change := Rewrites.node forest (below.rewrites forest.children)
    exact (ih forest.children).trans (step.grows change.forest)

end

end Normalize

end Comprehension
