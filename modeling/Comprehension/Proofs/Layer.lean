import Comprehension.Kind
import Mathlib.Data.List.Basic

/-! One layer of a tree: the names and the children in a kind, and a kind filled with other children.
An action at every child is an action along the list of children, whose results fill the kind. -/

set_option autoImplicit false

namespace Comprehension.Kind

variable {ν μ κ α β γ : Type}

def names : Kind ν α → List ν
  | .fromClause x _ _ | .letClause x _ | .continuation _ x | .named x _ | .ident x _
  | .member _ x _ | .typeRef x _ | .literal (.str x) => [x]
  | _ => []

/-- The same layer over other children, given in the order of `children`. Children that are missing
stay as they are. -/
def refill : Kind ν α → List α → Kind ν α
  | .query _, l => .query l
  | .fromClause x none source, l => .fromClause x none (l.headD source)
  | .fromClause x (some elemType) source, l =>
    .fromClause x (some (l.headD elemType)) (l.tail.headD source)
  | .letClause x value, l => .letClause x (l.headD value)
  | .whereClause cond, l => .whereClause (l.headD cond)
  | .orderClause _, l => .orderClause l
  | .ordering key direction, l => .ordering (l.headD key) direction
  | .groupClause projection key, l => .groupClause (l.headD projection) (l.tail.headD key)
  | .selectClause projection, l => .selectClause (l.headD projection)
  | .continuation preceding x, l => .continuation (l.headD preceding) x
  | .record _, l => .record l
  | .named x value, l => .named x (l.headD value)
  | .ident x _, l => .ident x l
  | .member target x _, l => .member (l.headD target) x l.tail
  | .call target _, l => .call (l.headD target) l.tail
  | .literal value, _ => .literal value
  | .binary op left right, l => .binary op (l.headD left) (l.tail.headD right)
  | .typeRef x _, l => .typeRef x l

theorem eq_query_of_isQuery {k : Kind ν α} (h : k.isQuery = true) : ∃ clauses, k = .query clauses := by
  cases k <;> simp_all [isQuery]

theorem map_map (name : ν → μ) (name' : μ → κ) (child : α → β) (child' : β → γ) (k : Kind ν α) :
    (k.map name child).map name' child' = k.map (name' ∘ name) (child' ∘ child) := by
  cases k with
  | literal value => cases value <;> rfl
  | _ => simp [map]

theorem map_congr {name name' : ν → μ} {child child' : α → β} {k : Kind ν α}
    (names : ∀ x ∈ k.names, name x = name' x) (children : ∀ c ∈ k.children, child c = child' c) :
    k.map name child = k.map name' child' := by
  cases k with
  | fromClause x elemType source =>
    cases elemType <;> simp_all [map, Kind.names, Kind.children]
  | literal value => cases value <;> simp_all [map, Kind.names, Literal.map]
  | _ => simp_all [map, Kind.names, Kind.children]

theorem map_children_congr {name : ν → μ} {child child' : α → β} {k : Kind ν α}
    (children : ∀ c ∈ k.children, child c = child' c) : k.map name child = k.map name child' :=
  map_congr (fun _ _ => rfl) children

theorem map_id_of {child : α → α} {k : Kind ν α} (children : ∀ c ∈ k.children, child c = c) :
    k.map id child = k := by
  calc k.map id child = k.map id id := map_children_congr children
    _ = k := map_id k

@[simp] theorem names_map (name : ν → μ) (child : α → β) (k : Kind ν α) :
    (k.map name child).names = k.names.map name := by
  cases k with
  | literal value => cases value <;> rfl
  | _ => rfl

theorem children_refill {k : Kind ν α} {l : List α} (same : l.length = k.children.length) :
    (k.refill l).children = l := by
  cases k with
  | fromClause x elemType source =>
    cases elemType
    · obtain ⟨a, rfl⟩ := List.length_eq_one_iff.mp same
      rfl
    · obtain ⟨a, b, rfl⟩ := List.length_eq_two.mp same
      rfl
  | query | orderClause | record | ident | typeRef => rfl
  | groupClause | binary =>
    obtain ⟨a, b, rfl⟩ := List.length_eq_two.mp same
    rfl
  | member | call =>
    cases l with
    | nil => simp [children] at same
    | cons a l => rfl
  | literal value =>
    have empty : l = [] := List.length_eq_zero_iff.mp same
    subst empty
    rfl
  | _ =>
    obtain ⟨a, rfl⟩ := List.length_eq_one_iff.mp same
    rfl

theorem map_refill (name : ν → μ) (child : α → β) (k : Kind ν α) (l : List α) :
    (k.refill l).map name child = (k.map name child).refill (l.map child) := by
  -- A layer takes at most two children apart from the list.
  cases k with
  | fromClause x elemType source => cases elemType <;> rcases l with _ | ⟨a, _ | ⟨b, l⟩⟩ <;> rfl
  | _ => rcases l with _ | ⟨a, _ | ⟨b, l⟩⟩ <;> rfl

@[simp] theorem refill_children (k : Kind ν α) : k.refill k.children = k := by
  cases k with
  | fromClause x elemType source => cases elemType <;> rfl
  | _ => rfl

theorem refill_map (child : α → α) (k : Kind ν α) : k.refill (k.children.map child) = k.map id child := by
  cases k with
  | fromClause x elemType source => cases elemType <;> rfl
  | literal value => cases value <;> rfl
  | _ => rfl

@[simp] theorem isQuery_refill (k : Kind ν α) (l : List α) : (k.refill l).isQuery = k.isQuery := by
  cases k with
  | fromClause x elemType source => cases elemType <;> rfl
  | _ => rfl

@[simp] theorem names_refill (k : Kind ν α) (l : List α) : (k.refill l).names = k.names := by
  cases k with
  | fromClause x elemType source => cases elemType <;> rfl
  | literal value => cases value <;> rfl
  | _ => rfl

section
variable {m : Type → Type} [Monad m] [LawfulMonad m]

theorem traverse_map (f : β → m γ) (g : α → β) (k : Kind ν α) :
    (k.map id g).traverse f = k.traverse (f ∘ g) := by
  cases k with
  | fromClause x elemType source => cases elemType <;> rfl
  | literal value => cases value <;> rfl
  | _ => simp [map, traverse, List.mapM_map]

end

section
variable {σ : Type} {f : α → StateM σ β}

theorem mapM_run_nil (s : σ) : (([] : List α).mapM f).run s = ([], s) := rfl

theorem mapM_run_cons (a : α) (l : List α) (s : σ) :
    ((a :: l).mapM f).run s = (((f a).run s).1 :: ((l.mapM f).run ((f a).run s).2).1,
      ((l.mapM f).run ((f a).run s).2).2) := by
  rw [List.mapM_cons]
  rfl

theorem mapM_run_singleton (a : α) (s : σ) :
    ([a].mapM f).run s = ([((f a).run s).1], ((f a).run s).2) := by
  rw [mapM_run_cons, mapM_run_nil]

theorem length_mapM_run (l : List α) (s : σ) : ((l.mapM f).run s).1.length = l.length := by
  induction l generalizing s with
  | nil => rfl
  | cons a l ih => rw [mapM_run_cons, List.length_cons, ih, List.length_cons]

theorem mem_mapM_run {l : List α} {s : σ} {b : β} (member : b ∈ ((l.mapM f).run s).1) :
    ∃ a ∈ l, ∃ s', b = ((f a).run s').1 := by
  induction l generalizing s with
  | nil => cases member
  | cons a l ih =>
    rw [mapM_run_cons] at member
    rcases List.mem_cons.mp member with rfl | member
    · exact ⟨a, by simp, s, rfl⟩
    · obtain ⟨c, inRest, s', rfl⟩ := ih member
      exact ⟨c, by simp [inRest], s', rfl⟩

theorem forall₂_mapM_run (l : List α) (s : σ) :
    List.Forall₂ (fun a b => ∃ s', b = ((f a).run s').1) l ((l.mapM f).run s).1 := by
  induction l generalizing s with
  | nil => exact .nil
  | cons a l ih =>
    rw [mapM_run_cons]
    exact .cons ⟨s, rfl⟩ (ih _)

end

/-- With a state, the results of an action along the children fill the layer. -/
theorem traverse_run {σ : Type} (f : α → StateM σ α) (k : Kind ν α) (s : σ) :
    (k.traverse f).run s =
      (k.refill ((k.children.mapM f).run s).1, ((k.children.mapM f).run s).2) := by
  cases k with
  | fromClause x elemType source => cases elemType <;> simp [traverse, children, refill] <;> rfl
  | _ =>
    simp [traverse, children, refill]
    rfl

theorem mapM_ok {ε : Type} {f : α → Except ε β} {g : α → β} {l : List α}
    (ok : ∀ a ∈ l, f a = .ok (g a)) : l.mapM f = .ok (l.map g) := by
  induction l with
  | nil => rfl
  | cons a l ih =>
    have first : f a = .ok (g a) := ok a (by simp)
    have rest : l.mapM f = .ok (l.map g) := ih fun b member => ok b (by simp [member])
    rw [List.mapM_cons, first, rest]
    rfl

theorem traverse_ok {ε : Type} {f : α → Except ε β} {g : α → β} {k : Kind ν α}
    (ok : ∀ c ∈ k.children, f c = .ok (g c)) : k.traverse f = .ok (k.map id g) := by
  cases k with
  | fromClause x elemType source =>
    cases elemType with
    | none =>
      have last : f source = .ok (g source) := ok source (by simp [children])
      simp only [traverse, last]
      rfl
    | some elemType =>
      have first : f elemType = .ok (g elemType) := ok elemType (by simp [children])
      have last : f source = .ok (g source) := ok source (by simp [children])
      simp only [traverse, Option.mapM_some, first, last]
      rfl
  | query l | orderClause l | record l | ident _ l | typeRef _ l =>
    have all : l.mapM f = .ok (l.map g) := mapM_ok ok
    simp only [traverse, all]
    rfl
  | member target _ l | call target l =>
    have first : f target = .ok (g target) := ok target (by simp [children])
    have rest : l.mapM f = .ok (l.map g) := mapM_ok fun c member => ok c (by simp [children, member])
    simp only [traverse, first, rest]
    rfl
  | groupClause left right | binary _ left right =>
    have first : f left = .ok (g left) := ok left (by simp [children])
    have last : f right = .ok (g right) := ok right (by simp [children])
    simp only [traverse, first, last]
    rfl
  | literal value => cases value <;> rfl
  | letClause _ c | whereClause c | ordering c | selectClause c | continuation c | named _ c =>
    simp only [traverse, ok c (by simp [children])]
    rfl

end Comprehension.Kind
