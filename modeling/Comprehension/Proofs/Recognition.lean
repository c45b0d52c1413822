import Comprehension.Normalize.ElementType
import Comprehension.Normalize.Elimination
import Comprehension.Proofs.Layout
import Comprehension.Proofs.Matching
import Comprehension.Proofs.Shape

/-! What a run recognizes in a store. Where no path leads out of the store, the two plans never fault:
they succeed on the shapes of their patterns, refuse everything else, and fail only for want of a
name. -/

set_option autoImplicit false

namespace Comprehension

namespace Store

def Layer (s : Store) (id : NodeId) (k : NodeKind) : Prop := s.kind? id = some k

def ClosedAt (s : Store) (id : NodeId) : Prop := ∀ path j, s.follow id path = some j → j.index < s.size

variable {s : Store} {id : NodeId}

theorem Layer.unique {k k' : NodeKind} (first : s.Layer id k) (second : s.Layer id k') : k = k' :=
  Option.some.inj (first.symm.trans second)

theorem ClosedAt.exists_kind (closed : s.ClosedAt id) : ∃ k, s.kind? id = some k :=
  exists_kind?_of_lt (closed [] id rfl)

theorem ClosedAt.child (closed : s.ClosedAt id) {k : NodeKind} (here : s.kind? id = some k) {c : NodeId}
    (child : c ∈ k.children) : s.ClosedAt c := by
  intro path j found
  obtain ⟨i, bound, rfl⟩ := List.mem_iff_getElem.mp child
  exact closed (i :: path) j (by simp [follow, here, bound, found])

theorem Holds.closedAt {l : Layout} (holds : s.Holds l) : s.ClosedAt l.mark :=
  fun _ _ found => holds.index_lt_of_follow found

end Store

namespace Normalize
open Pattern MatchM

variable {s : Store} (names : NameTable)

inductive Captured (s : Store) (select : NodeId) : Option Captures → Prop where
  | reexport {record first inner second value : NodeId} {x y z : Name}
      (projection : s.Layer select (.selectClause record)) (pair : s.Layer record (.record [first, second]))
      (named : s.Layer first (.named x inner)) (ident : s.Layer inner (.ident y []))
      (declared : s.Layer second (.named z value)) :
      Captured s select (some [("reexport", first), ("second_expr", value), ("second", second)])
  | shorthand {record first second value : NodeId} {x z : Name}
      (projection : s.Layer select (.selectClause record)) (pair : s.Layer record (.record [first, second]))
      (bare : s.Layer first (.ident x [])) (declared : s.Layer second (.named z value)) :
      Captured s select (some [("second_expr", value), ("second", second)])
  | undeclared {record first second : NodeId} {x : Name} {k : NodeKind}
      (projection : s.Layer select (.selectClause record)) (pair : s.Layer record (.record [first, second]))
      (bare : s.Layer first (.ident x [])) (value : s.Layer second k)
      (anonymous : ∀ y v, k ≠ .named y v) : Captured s select (some [("second_expr", second)])
  | nothing (other : ∀ declared value, ¬ Selects s.Layer select declared value) : Captured s select none

section
variable {id : NodeId} {k : NodeKind} (here : s.kind? id = some k)

include here

theorem meaning_any (name : String) : meaning s names (.any (some name)) id = .ok (some [(name, id)]) := by
  rw [meaning, Store.kind_eq_ok_iff.mpr here]
  rfl

theorem meaning_ident_other (other : ∀ x, k ≠ .ident x []) :
    meaning s names (.ident .any) id = .ok none := by
  rw [meaning, Store.kind_eq_ok_iff.mpr here]
  cases k with
  | ident x typeArgs =>
    cases typeArgs with
    | nil => exact absurd rfl (other x)
    | cons => rfl
  | _ => rfl

theorem meaning_capture (name : String) (p : Pattern) :
    meaning s names (.capture name p) id = both (meaning s names p id) (.ok (some [(name, id)])) := by
  rw [meaning, Store.kind_eq_ok_iff.mpr here]
  rfl

theorem meaning_named (p : Pattern) : meaning s names (.named .any p) id = match k with
    | .named _ value => meaning s names p value
    | _ => .ok none := by
  rw [meaning, Store.kind_eq_ok_iff.mpr here]
  cases k <;> rfl

theorem meaning_choice (p q : Pattern) : meaning s names (.choice [p, q]) id =
    either (meaning s names p id) (either (meaning s names q id) (.ok none)) := by
  rw [meaning, Store.kind_eq_ok_iff.mpr here]
  simp only [meaningFirst]
  rfl

theorem meaning_pair_other (other : ∀ first second, k ≠ .record [first, second]) (p q : Pattern) :
    meaning s names (.record [p, q]) id = .ok none := by
  rw [meaning, Store.kind_eq_ok_iff.mpr here]
  cases k with
  | record initializers =>
    match initializers with
    | [first, second] => exact absurd rfl (other first second)
    | [] | [_] | _ :: _ :: _ :: _ => simp [only, bind, Except.bind]
  | _ => rfl

theorem meaning_select (p : Pattern) : meaning s names (.select p) id = match k with
    | .selectClause projection => meaning s names p projection
    | _ => .ok none := by
  rw [meaning, Store.kind_eq_ok_iff.mpr here]
  cases k <;> rfl

end

theorem meaning_ident {id : NodeId} {x : Name} (here : s.kind? id = some (.ident x [])) :
    meaning s names (.ident .any) id = .ok (some []) := by
  rw [meaning, Store.kind_eq_ok_iff.mpr here]
  rfl

theorem meaning_pair {id first second : NodeId} (here : s.kind? id = some (.record [first, second]))
    (p q : Pattern) : meaning s names (.record [p, q]) id =
      both (meaning s names p first) (both (meaning s names q second) (.ok (some []))) := by
  rw [meaning, Store.kind_eq_ok_iff.mpr here]
  simp [only, meaningEach, bind, Except.bind]

theorem meaning_reexport {id : NodeId} (closed : s.ClosedAt id) :
    meaning s names (.capture "reexport" (.named .any (.ident .any))) id = .ok none ∧
        (∀ x inner y, s.Layer id (.named x inner) → ¬ s.Layer inner (.ident y [])) ∨
      meaning s names (.capture "reexport" (.named .any (.ident .any))) id = .ok (some [("reexport", id)]) ∧
        ∃ x inner y, s.Layer id (.named x inner) ∧ s.Layer inner (.ident y []) := by
  obtain ⟨k, here⟩ := closed.exists_kind
  rw [meaning_capture names here, meaning_named names here]
  cases k with
  | named x inner =>
    obtain ⟨k', here'⟩ := (closed.child here (c := inner) (by simp [Kind.children])).exists_kind
    by_cases plain : ∃ y, k' = .ident y []
    · obtain ⟨y, rfl⟩ := plain
      simp only [meaning_ident names here']
      exact .inr ⟨rfl, x, inner, y, here, here'⟩
    · simp only [meaning_ident_other names here' fun y is => plain ⟨y, is⟩]
      refine .inl ⟨rfl, fun x' inner' y named ident => ?_⟩
      cases Store.Layer.unique here named
      exact plain ⟨y, Store.Layer.unique here' ident⟩
  | _ => exact .inl ⟨rfl, fun x' inner' y named ident => by cases Store.Layer.unique here named⟩

theorem meaning_declared {id : NodeId} (closed : s.ClosedAt id) :
    meaning s names (.capture "second" (.named .any (.any (some "second_expr")))) id = .ok none ∧
        (∀ y v, ¬ s.Layer id (.named y v)) ∨
      ∃ y v, s.Layer id (.named y v) ∧
        meaning s names (.capture "second" (.named .any (.any (some "second_expr")))) id =
          .ok (some [("second_expr", v), ("second", id)]) := by
  obtain ⟨k, here⟩ := closed.exists_kind
  rw [meaning_capture names here, meaning_named names here]
  cases k with
  | named y v =>
    obtain ⟨k', here'⟩ := (closed.child here (c := v) (by simp [Kind.children])).exists_kind
    simp only [meaning_any names here']
    exact .inr ⟨y, v, here, rfl⟩
  | _ => exact .inl ⟨rfl, fun y v declared => by cases Store.Layer.unique here declared⟩

theorem Selects.firstForms {select value : NodeId} {declared : Option Name}
    (shape : Selects s.Layer select declared value) : ∃ record first second,
      s.Layer select (.selectClause record) ∧ s.Layer record (.record [first, second]) ∧
        ((∃ x, s.Layer first (.ident x [])) ∨
          (∃ x inner, s.Layer first (.named x inner) ∧ s.Layer inner (.ident x [])) ∧
            ∃ y v, s.Layer second (.named y v)) := by
  cases shape with
  | reexport projection pair named same declared =>
    exact ⟨_, _, _, projection, pair, .inr ⟨⟨_, _, named, same⟩, _, _, declared⟩⟩
  | shorthand projection pair bare declared => exact ⟨_, _, _, projection, pair, .inl ⟨_, bare⟩⟩
  | undeclared projection pair bare value anonymous => exact ⟨_, _, _, projection, pair, .inl ⟨_, bare⟩⟩

/-- The shape of a record of two bindings below a clause that selects it. -/
theorem meaning_selectShape {select : NodeId} (closed : s.ClosedAt select) :
    ∃ result, meaning s names selectShape select = .ok result ∧ Captured s select result := by
  obtain ⟨k, here⟩ := closed.exists_kind
  rw [selectShape, meaning_select names here]
  cases k with
  | selectClause record =>
    have closedRecord := closed.child here (c := record) (by simp [Kind.children])
    obtain ⟨kr, hereRecord⟩ := closedRecord.exists_kind
    simp only [meaning_choice names hereRecord]
    by_cases pair : ∃ first second, kr = .record [first, second]
    · obtain ⟨first, second, rfl⟩ := pair
      have closedFirst := closedRecord.child hereRecord (c := first) (by simp [Kind.children])
      have closedSecond := closedRecord.child hereRecord (c := second) (by simp [Kind.children])
      obtain ⟨kf, hereFirst⟩ := closedFirst.exists_kind
      obtain ⟨ks, hereSecond⟩ := closedSecond.exists_kind
      simp only [meaning_pair names hereRecord, meaning_choice names hereSecond, meaning_any names hereSecond]
      by_cases plain : ∃ x, kf = .ident x []
      · -- The first alternative refuses, so the second one decides.
        obtain ⟨x, rfl⟩ := plain
        rw [meaning_ident names hereFirst]
        rcases meaning_reexport names closedFirst with ⟨refused, -⟩ | ⟨-, x', inner, y, named, -⟩
        · rw [refused]
          rcases meaning_declared names closedSecond with ⟨absent, anonymous⟩ | ⟨y, v, declared, found⟩
          · rw [absent]
            exact ⟨_, rfl, .undeclared here hereRecord hereFirst hereSecond
              fun y v is => anonymous y v (is ▸ hereSecond)⟩
          · rw [found]
            exact ⟨_, rfl, .shorthand here hereRecord hereFirst declared⟩
        · cases Store.Layer.unique hereFirst named
      · -- Only the first alternative can match.
        rw [meaning_ident_other names hereFirst fun x is => plain ⟨x, is⟩]
        rcases meaning_reexport names closedFirst with ⟨refused, other⟩ | ⟨accepted, x, inner, y, named, ident⟩
        · rw [refused]
          refine ⟨none, rfl, .nothing fun declared value shape => ?_⟩
          obtain ⟨_, _, _, projection, pair, first⟩ := shape.firstForms
          cases Store.Layer.unique here projection
          cases Store.Layer.unique hereRecord pair
          rcases first with ⟨x, bare⟩ | ⟨⟨x, inner, named, same⟩, -⟩
          · exact plain ⟨x, Store.Layer.unique hereFirst bare⟩
          · exact other x inner x named same
        · rw [accepted]
          rcases meaning_declared names closedSecond with ⟨absent, anonymous⟩ | ⟨z, v, declared, found⟩
          · rw [absent]
            refine ⟨none, rfl, .nothing fun declared value shape => ?_⟩
            obtain ⟨_, _, _, projection, pair, first⟩ := shape.firstForms
            cases Store.Layer.unique here projection
            cases Store.Layer.unique hereRecord pair
            rcases first with ⟨x, bare⟩ | ⟨-, y, v, named⟩
            · exact plain ⟨x, Store.Layer.unique hereFirst bare⟩
            · exact anonymous y v named
          · rw [found]
            exact ⟨_, rfl, .reexport here hereRecord named ident declared⟩
    · have other : ∀ first second, kr ≠ .record [first, second] := fun first second is => pair ⟨_, _, is⟩
      rw [meaning_pair_other names hereRecord other, meaning_pair_other names hereRecord other]
      refine ⟨none, rfl, .nothing fun declared value shape => ?_⟩
      obtain ⟨_, first, second, projection, pair, -⟩ := shape.firstForms
      cases Store.Layer.unique here projection
      exact other first second (Store.Layer.unique hereRecord pair)
  | _ =>
    refine ⟨none, rfl, .nothing fun declared value shape => ?_⟩
    obtain ⟨record, first, second, projection, -⟩ := shape.firstForms
    cases Store.Layer.unique here projection

theorem Selects.closedAt {select value : NodeId} {declared : Option Name}
    (shape : Selects s.Layer select declared value) (closed : s.ClosedAt select) : s.ClosedAt value := by
  cases shape with
  | reexport projection pair named same declared | shorthand projection pair bare declared =>
    exact ((closed.child projection List.mem_cons_self).child pair (.tail _ List.mem_cons_self)).child
      declared List.mem_cons_self
  | undeclared projection pair bare value anonymous =>
    exact (closed.child projection List.mem_cons_self).child pair (.tail _ List.mem_cons_self)

theorem declaredName_eq {id value : NodeId} {x : Name} (here : s.Layer id (.named x value)) :
    declaredName s id = .ok (some x) := by
  rw [declaredName, Store.kind_eq_ok_iff.mpr here]
  rfl

theorem isReexport_eq {id inner : NodeId} {x y : Name} {typeArgs : List NodeId}
    (named : s.Layer id (.named x inner)) (ident : s.Layer inner (.ident y typeArgs)) :
    isReexport s id = .ok (x = y) := by
  rw [isReexport, Store.kind_eq_ok_iff.mpr named]
  simp only [bind, Except.bind, Store.kind_eq_ok_iff.mpr ident]
  rfl

inductive SplicePlan (s : Store) (transparent : Name → Bool) (x : Name) (clauses : List NodeId) :
    Except Failure (Except Refusal Splice) → Prop where
  | refused {refusal : Refusal}
      (other : transparent x = true → ∀ select ∈ clauses.getLast?, ∀ declared value,
        ¬ Selects s.Layer select declared value) : SplicePlan s transparent x clauses (.ok (.error refusal))
  | accepted {select value : NodeId} {declared binding : Option Name} {k : NodeKind}
      (bound : transparent x = true) (last : clauses.getLast? = some select)
      (shape : Selects s.Layer select declared value) (here : s.Layer value k)
      (named : letName declared k = .ok binding) :
      SplicePlan s transparent x clauses (.ok (.ok ⟨value, binding⟩))
  | failed {select value : NodeId} {declared : Option Name} {k : NodeKind} {span : Span}
      {violation : Violation} (bound : transparent x = true) (last : clauses.getLast? = some select)
      (shape : Selects s.Layer select declared value) (here : s.node? value = some ⟨k, span⟩)
      (unnamed : letName declared k = .error violation) :
      SplicePlan s transparent x clauses (.error (.broken ⟨value, span, violation⟩))

theorem bindingName_eq (declared : Option Name) (value : NodeId) (node : Node) :
    bindingName declared value node =
      match letName declared node.kind with
      | .ok binding => .ok binding
      | .error violation => .error ⟨value, node.span, violation⟩ := by
  obtain ⟨k, span⟩ := node
  cases declared <;> cases k <;> rfl

/-- A selected record leads to a splice, or to a failure for want of a name. -/
theorem SplicePlan.of_selects {transparent : Name → Bool} {x : Name} {clauses : List NodeId}
    {select value : NodeId} {declared : Option Name} (closed : s.ClosedAt value)
    (bound : transparent x = true) (last : clauses.getLast? = some select)
    (shape : Selects s.Layer select declared value) :
    SplicePlan s transparent x clauses (do
      match bindingName declared value (← s.node value) with
      | .ok binding => return .ok ⟨value, binding⟩
      | .error e => throw (.broken e)) := by
  obtain ⟨k, here⟩ := closed.exists_kind
  obtain ⟨⟨k, span⟩, found, rfl⟩ := Option.map_eq_some_iff.mp here
  have read : s.node value = .ok ⟨k, span⟩ := by simp [Store.node, found]
  rw [read]
  change SplicePlan s transparent x clauses (match bindingName declared value ⟨k, span⟩ with
    | .ok binding => .ok (.ok ⟨value, binding⟩)
    | .error e => .error (.broken e))
  rw [bindingName_eq]
  cases named : letName declared k with
  | ok binding => exact .accepted bound last shape here named
  | error violation => exact .failed bound last shape found named

theorem planSplice_cases (transparent : Name → Bool) (x : Name) {inner : NodeId} {clauses : List NodeId}
    (closed : s.ClosedAt inner) (here : s.kind? inner = some (.query clauses)) :
    SplicePlan s transparent x clauses (planSplice transparent names s x inner) := by
  unfold planSplice
  cases bound : transparent x with
  | false => exact .refused fun is => by rw [bound] at is; cases is
  | true =>
    have read : s.clauses inner = .ok clauses := by
      simp [Store.clauses, Store.kind_eq_ok_iff.mpr here, Kind.clauses, bind, Except.bind, pure, Except.pure]
    rw [read]
    cases last : clauses.getLast? with
    | none =>
      simp only [bind, Except.bind, liftM, monadLift, MonadLift.monadLift, Failure.ofFault, last]
      exact .refused (by simp [last])
    | some select =>
      have member : select ∈ clauses := List.mem_of_getLast? last
      have closedSelect := closed.child here (c := select) (by simpa [Kind.children] using member)
      obtain ⟨result, meant, captured⟩ := meaning_selectShape names closedSelect
      have found : selectShape.match? s names select = .ok (result.map fun l => ⟨l.toArray⟩) := by
        rw [match?_eq, meant]
        rfl
      simp only [bind, Except.bind, liftM, monadLift, MonadLift.monadLift, Failure.ofFault, last, found]
      cases captured with
      | nothing other =>
        refine .refused fun _ select' is => ?_
        cases last.symm.trans is
        exact other
      | undeclared projection pair bare value anonymous =>
        have shape := Selects.undeclared projection pair bare value anonymous
        exact .of_selects (shape.closedAt closedSelect) bound last shape
      | shorthand projection pair bare declared =>
        rename_i record first second value y z
        have shape := Selects.shorthand projection pair bare declared
        have absent : Match.first? ⟨#[("second_expr", value), ("second", second)]⟩ "reexport" = none := rfl
        have secondly : Match.first? ⟨#[("second_expr", value), ("second", second)]⟩ "second" = some second := rfl
        simp only [Option.map_some, absent, secondly, declaredName_eq declared]
        exact .of_selects (shape.closedAt closedSelect) bound last shape
      | reexport projection pair named ident declared =>
        rename_i record first inner second value x y z
        let m : Match := ⟨#[("reexport", first), ("second_expr", value), ("second", second)]⟩
        have firstly : m.first? "reexport" = some first := rfl
        have secondly : m.first? "second" = some second := rfl
        simp only [m] at firstly secondly
        simp only [Option.map_some, firstly, secondly, declaredName_eq declared, isReexport_eq named ident]
        by_cases same : x = y
        · subst same
          have shape := Selects.reexport projection pair named ident declared
          simp only [decide_true]
          exact .of_selects (shape.closedAt closedSelect) bound last shape
        · -- The pattern does not compare the two names; the plan does.
          simp only [same, decide_false]
          refine .refused fun _ select' is declared' value' shape => ?_
          cases last.symm.trans is
          obtain ⟨_, _, _, projection', pair', first'⟩ := shape.firstForms
          cases Store.Layer.unique projection projection'
          cases Store.Layer.unique pair pair'
          rcases first' with ⟨x', bare⟩ | ⟨⟨x', inner', named', same'⟩, -⟩
          · cases Store.Layer.unique named bare
          · cases Store.Layer.unique named named'
            cases Store.Layer.unique ident same'
            exact same rfl

/-! ### Casts -/

def isCast (method : String) (x : Name) : Bool := names.lookup x = method

theorem meaning_method (method : String) {id : NodeId} (closed : s.ClosedAt id) :
    (meaning s names (.member (.any (some "base")) (.exactly method) [.any (some "elem_ty")]) id = .ok none ∧
        ∀ base x elemType, s.Layer id (.member base x [elemType]) → isCast names method x = false) ∨
      ∃ base x elemType, s.Layer id (.member base x [elemType]) ∧ isCast names method x = true ∧
        meaning s names (.member (.any (some "base")) (.exactly method) [.any (some "elem_ty")]) id =
          .ok (some [("base", base), ("elem_ty", elemType)]) := by
  obtain ⟨k, here⟩ := closed.exists_kind
  rw [meaning, Store.kind_eq_ok_iff.mpr here]
  cases k with
  | member base x typeArgs =>
    obtain ⟨kb, hereBase⟩ := (closed.child here (c := base) (by simp [Kind.children])).exists_kind
    have accepts : (NamePattern.exactly method).accepts (names.lookup x) = isCast names method x := rfl
    simp only [bind, Except.bind, meaning_any names hereBase, accepts]
    cases isMethod : isCast names method x with
    | false =>
      refine .inl ⟨rfl, fun base' x' elemType member => ?_⟩
      cases Store.Layer.unique here member
      exact isMethod
    | true =>
      rcases typeArgs with _ | ⟨elemType, _ | ⟨second, rest⟩⟩
      · exact .inl ⟨rfl, fun base' x' elemType member => by cases Store.Layer.unique here member⟩
      · obtain ⟨kt, hereType⟩ := (closed.child here (c := elemType) (by simp [Kind.children])).exists_kind
        simp only [meaningEach, meaning_any names hereType]
        exact .inr ⟨base, x, elemType, here, isMethod, rfl⟩
      · exact .inl ⟨rfl, fun base' x' elemType member => by cases Store.Layer.unique here member⟩
  | _ => exact .inl ⟨rfl, fun base x elemType member => by cases Store.Layer.unique here member⟩

theorem meaning_castShape (method : String) {source : NodeId} (closed : s.ClosedAt source) :
    (meaning s names (castShape method) source = .ok none ∧
        ∀ base elemType, ¬ CastsOn s.Layer (isCast names method) source base elemType) ∨
      ∃ base elemType, CastsOn s.Layer (isCast names method) source base elemType ∧
        meaning s names (castShape method) source = .ok (some [("base", base), ("elem_ty", elemType)]) := by
  obtain ⟨k, here⟩ := closed.exists_kind
  rw [castShape, meaning, Store.kind_eq_ok_iff.mpr here]
  cases k with
  | call target args =>
    have closedTarget := closed.child here (c := target) (by simp [Kind.children])
    simp only [bind, Except.bind, meaningEach]
    rcases meaning_method names method closedTarget with
      ⟨refused, other⟩ | ⟨base, x, elemType, member, isMethod, found⟩
    · rw [refused]
      refine .inl ⟨rfl, ?_⟩
      rintro base elemType ⟨call, member, isMethod⟩
      cases Store.Layer.unique here call
      rw [other _ _ _ member] at isMethod
      cases isMethod
    · rw [found]
      cases args with
      | nil => exact .inr ⟨base, elemType, .call here member isMethod, rfl⟩
      | cons arg args =>
        refine .inl ⟨rfl, ?_⟩
        rintro base elemType ⟨call, member, isMethod⟩
        cases Store.Layer.unique here call
  | _ =>
    refine .inl ⟨rfl, ?_⟩
    rintro base elemType ⟨call, member, isMethod⟩
    cases Store.Layer.unique here call

inductive CastPlan (s : Store) (cast : Name → Bool) (k : NodeKind) : Except CastRefusal Cast → Prop where
  | typed (other : ∀ x source, k ≠ .fromClause x none source) : CastPlan s cast k (.error .alreadyTyped)
  | refused {x : Name} {source : NodeId} (clause : k = .fromClause x none source)
      (other : ∀ base elemType, ¬ CastsOn s.Layer cast source base elemType) :
      CastPlan s cast k (.error (.notCast source))
  | accepted {x : Name} {source base elemType : NodeId} (clause : k = .fromClause x none source)
      (shape : CastsOn s.Layer cast source base elemType) :
      CastPlan s cast k (.ok ⟨x, source, base, elemType⟩)

theorem planCast_cases (method : String) {clause : NodeId} {k : NodeKind} (closed : s.ClosedAt clause)
    (here : s.kind? clause = some k) :
    ∃ plan, planCast method names s clause = .ok plan ∧ CastPlan s (isCast names method) k plan := by
  rw [planCast, Store.kind_eq_ok_iff.mpr here]
  by_cases untyped : ∃ x source, k = .fromClause x none source
  · obtain ⟨x, source, rfl⟩ := untyped
    have closedSource := closed.child here (c := source) (by simp [Kind.children])
    simp only [bind, Except.bind, match?_eq]
    rcases meaning_castShape names method closedSource with ⟨refused, other⟩ | ⟨base, elemType, shape, found⟩
    · rw [refused]
      exact ⟨_, rfl, .refused rfl other⟩
    · rw [found]
      exact ⟨_, rfl, .accepted rfl shape⟩
  · have other : ∀ x source, k ≠ .fromClause x none source := fun x source is => untyped ⟨x, source, is⟩
    refine ⟨_, ?_, .typed other⟩
    cases k with
    | fromClause x elemType source =>
      cases elemType with
      | none => exact absurd rfl (other x source)
      | some => rfl
    | _ => rfl

end Normalize

end Comprehension
