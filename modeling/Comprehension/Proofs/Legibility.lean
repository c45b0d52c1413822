import Comprehension.Proofs.Grammar
import Comprehension.Proofs.Spelling

/-! Legible trees, and their texts as lists of characters. A legible tree keeps to the grammar and has plain names,
so that each of its layers can be told from what stands around it. -/

set_option autoImplicit false

namespace Comprehension

/-! ### Legible trees -/

section
variable {ν α : Type}

def Kind.name? : Kind ν α → Option ν
  | .fromClause x .. | .letClause x _ | .continuation _ x | .named x _ | .ident x _ | .member _ x _ | .typeRef x _ =>
    some x
  | _ => none

def Kind.ordersBySome : Kind ν α → Bool
  | .orderClause orderings => !orderings.isEmpty
  | _ => true

end

namespace Tree

/-- A tree that keeps to the grammar, with plain names and without empty lists of orderings. -/
def Legible (t : Tree) : Prop :=
  t.All fun k => k.Arranged (fun _ => true) (fun c place => c.kind.fits place = true) ∧ k.ordersBySome = true ∧
    ∀ x ∈ k.name?, Plain x

instance (t : Tree) : Decidable t.Legible := inferInstanceAs (Decidable (t.All _))

theorem legible_node {k : Kind String Tree} : Legible (.node () k) ↔
    (k.Arranged (fun _ => true) (fun c place => c.kind.fits place = true) ∧ k.ordersBySome = true ∧
      ∀ x ∈ k.name?, Plain x) ∧ ∀ c ∈ k.children, c.Legible :=
  Marked.all_node

/-! ### Texts as characters -/

section
variable (hidden : Char → Bool)

def chars (t : Tree) : List Char := (t.render hidden).toList

def exprChars (t : Tree) : List Char := (t.part hidden).expr.toList

def operandChars (t : Tree) : List Char := (t.part hidden).operand.toList

def listChars (l : List Tree) : List Char := [',', ' '].intercalate (l.map (exprChars hidden))

def typeArgsChars : List Tree → List Char
  | [] => []
  | l => '<' :: (listChars hidden l ++ ['>'])

def initializersChars : List Tree → List Char
  | [] => ['\x7d']
  | l => listChars hidden l ++ [' ', '\x7d']

theorem toList_separated (sep : String) (l : List String) :
    (separated sep l).toList = sep.toList.intercalate (l.map String.toList) := by
  fun_induction separated sep l with
  | case1 => rfl
  | case2 text => simp
  | case3 text next rest ih => simp [ih]

variable {hidden}

@[simp] theorem toList_text (t : Tree) : (t.part hidden).text.toList = t.chars hidden := rfl

@[simp] theorem toList_expr (t : Tree) : (t.part hidden).expr.toList = t.exprChars hidden := rfl

@[simp] theorem toList_operand (t : Tree) : (t.part hidden).operand.toList = t.operandChars hidden := rfl

@[simp] theorem toList_list (l : List Tree) : (Part.list (l.map (part hidden))).toList = listChars hidden l := by
  simp [Part.list, toList_separated, listChars, Function.comp_def]

@[simp] theorem toList_typeArgs (l : List Tree) :
    (Part.typeArgs (l.map (part hidden))).toList = typeArgsChars hidden l := by
  cases l with
  | nil => simp [Part.typeArgs, typeArgsChars]
  | cons t l =>
    have list : (Part.list ((t :: l).map (part hidden))).toList = _ := toList_list (t :: l)
    rw [List.map_cons] at list
    simp [Part.typeArgs, typeArgsChars, list]

theorem part_form (t : Tree) : (t.part hidden).form = Form.ofKind t.kind := by
  obtain ⟨⟨⟩, k⟩ := t
  rw [part, Marked.fold_node]
  cases k <;> rfl

/-- Only a query stands in parentheses as an expression. -/
theorem exprChars_eq (t : Tree) : t.exprChars hidden =
    if t.kind.isQuery then '(' :: (t.chars hidden ++ [')']) else t.chars hidden := by
  have form : (t.part hidden).form = _ := part_form t
  unfold exprChars Part.expr
  rw [form]
  cases t.kind <;> simp [Form.ofKind, Kind.isQuery, Part.parenthesized]

def isBinary : Kind String Tree → Bool
  | .binary .. => true
  | _ => false

theorem operandChars_eq (t : Tree) : t.operandChars hidden =
    if t.kind.isQuery || isBinary t.kind then '(' :: (t.chars hidden ++ [')']) else t.chars hidden := by
  have form : (t.part hidden).form = _ := part_form t
  unfold operandChars Part.operand
  rw [form]
  cases t.kind <;> simp [Form.ofKind, Kind.isQuery, isBinary, Part.parenthesized]

variable (hidden) in
def layerChars : Kind String Tree → List Char
  | .query clauses => [' '].intercalate (clauses.map (chars hidden))
  | .fromClause x none source =>
    ['f', 'r', 'o', 'm', ' '] ++ x.toList ++ [' ', 'i', 'n', ' '] ++ source.exprChars hidden
  | .fromClause x (some elemType) source =>
    ['f', 'r', 'o', 'm', ' '] ++ elemType.chars hidden ++ ' ' :: x.toList ++ [' ', 'i', 'n', ' '] ++
      source.exprChars hidden
  | .letClause x value => ['l', 'e', 't', ' '] ++ x.toList ++ [' ', '=', ' '] ++ value.exprChars hidden
  | .whereClause cond => ['w', 'h', 'e', 'r', 'e', ' '] ++ cond.exprChars hidden
  | .orderClause orderings => ['o', 'r', 'd', 'e', 'r', 'b', 'y', ' '] ++ listChars hidden orderings
  | .ordering key .ascending => key.exprChars hidden
  | .ordering key .descending => key.exprChars hidden ++ [' ', 'd', 'e', 's', 'c', 'e', 'n', 'd', 'i', 'n', 'g']
  | .groupClause projection key =>
    ['g', 'r', 'o', 'u', 'p', ' '] ++ projection.exprChars hidden ++ [' ', 'b', 'y', ' '] ++ key.exprChars hidden
  | .selectClause projection => ['s', 'e', 'l', 'e', 'c', 't', ' '] ++ projection.exprChars hidden
  | .continuation preceding x => preceding.chars hidden ++ [' ', 'i', 'n', 't', 'o', ' '] ++ x.toList
  | .record initializers => ['n', 'e', 'w', ' '] ++ '\x7b' :: ' ' :: initializersChars hidden initializers
  | .named x value => x.toList ++ [' ', '=', ' '] ++ value.exprChars hidden
  | .ident x typeArgs | .typeRef x typeArgs => x.toList ++ typeArgsChars hidden typeArgs
  | .member target x typeArgs => target.operandChars hidden ++ '.' :: x.toList ++ typeArgsChars hidden typeArgs
  | .call target args => target.operandChars hidden ++ '(' :: listChars hidden args ++ [')']
  | .literal value => (value.print hidden).toList
  | .binary op left right =>
    left.operandChars hidden ++ ' ' :: op.symbol.toList ++ ' ' :: right.operandChars hidden

theorem chars_node (k : Kind String Tree) : chars hidden (.node () k) = layerChars hidden k := by
  rw [chars, render_node]
  cases k with
  | query => simp [Kind.map, Kind.print, layerChars, toList_separated, Function.comp_def]
  | fromClause x elemType source => cases elemType <;> simp [Kind.map, Kind.print, layerChars]
  | ordering key direction => cases direction <;> simp [Kind.map, Kind.print, layerChars]
  | record initializers =>
    cases initializers with
    | nil =>
      have empty : Kind.print hidden (.record []) = "new \x7b \x7d" := rfl
      rw [Kind.map, List.map_nil, empty]
      simp [layerChars, initializersChars]
    | cons t l =>
      have list : (Part.list ((t :: l).map (part hidden))).toList = _ := toList_list (t :: l)
      rw [List.map_cons] at list
      simp [Kind.map, Kind.print, layerChars, initializersChars, list]
  | literal value => cases value <;> rfl
  | _ => simp [Kind.map, Kind.print, layerChars]

end

/-! ### Legible layers -/

def At (place : Place) (t : Tree) : Prop := t.kind.fits place = true ∧ t.Legible

def LegibleLayer : Kind String Tree → Prop
  | .query clauses => ∃ first between last, clauses = first :: (between ++ [last]) ∧ At .opening first ∧
    (∀ c ∈ between, At .middle c) ∧ At .ending last
  | .fromClause x elemType source => Plain x ∧ (∀ c ∈ elemType, At .type c) ∧ At .expression source
  | .letClause x value | .named x value => Plain x ∧ At .expression value
  | .whereClause value | .ordering value _ | .selectClause value => At .expression value
  | .orderClause orderings => orderings ≠ [] ∧ ∀ c ∈ orderings, At .ordering c
  | .groupClause first second | .binary _ first second => At .expression first ∧ At .expression second
  | .continuation preceding x => Plain x ∧ At .preceding preceding
  | .record initializers => ∀ c ∈ initializers, At .initializer c
  | .ident x typeArgs | .typeRef x typeArgs => Plain x ∧ ∀ c ∈ typeArgs, At .type c
  | .member target x typeArgs => At .expression target ∧ Plain x ∧ ∀ c ∈ typeArgs, At .type c
  | .call target args => At .expression target ∧ ∀ c ∈ args, At .expression c
  | .literal _ => True

theorem Legible.layer {k : Kind String Tree} (legible : Legible (.node () k)) : LegibleLayer k := by
  obtain ⟨⟨arranged, orders, plain⟩, below⟩ := legible_node.mp legible
  have each {l : List Tree} {place : Place} (arranged : List.Forall₂ (fun c place => true = true →
      c.kind.fits place = true) l (l.map fun _ => place)) (below : ∀ c ∈ l, c.Legible) : ∀ c ∈ l, At place c := by
    rw [List.forall₂_map_right_iff, List.forall₂_same] at arranged
    exact fun c member => ⟨arranged c member rfl, below c member⟩
  cases k with
  | query clauses =>
    obtain ⟨first, between, last, rfl, opens, middle, ends⟩ := Kind.arranged_query.mp arranged
    have below : ∀ c ∈ first :: (between ++ [last]), c.Legible := below
    refine ⟨first, between, last, rfl, ⟨opens rfl, below _ (by simp)⟩, fun c member => ?_, ends rfl, below _ (by simp)⟩
    exact ⟨middle c member rfl, below c (by simp [member])⟩
  | fromClause x elemType source =>
    cases elemType with
    | none =>
      cases arranged with
      | cons fits _ => exact ⟨plain x rfl, by simp, fits rfl, below _ (by simp [Kind.children])⟩
    | some elemType =>
      cases arranged with
      | cons isType rest =>
        cases rest with
        | cons fits _ =>
          refine ⟨plain x rfl, ?_, fits rfl, below _ (by simp [Kind.children])⟩
          rintro c ⟨⟩
          exact ⟨isType rfl, below _ (by simp [Kind.children])⟩
  | letClause x value | named x value =>
    cases arranged with
    | cons fits _ => exact ⟨plain x rfl, fits rfl, below _ (by simp [Kind.children])⟩
  | whereClause value | ordering value _ | selectClause value =>
    cases arranged with
    | cons fits _ => exact ⟨fits rfl, below _ (by simp [Kind.children])⟩
  | orderClause orderings => exact ⟨by simpa [Kind.ordersBySome] using orders, each arranged below⟩
  | groupClause first second | binary _ first second =>
    cases arranged with
    | cons fits rest =>
      cases rest with
      | cons fits' _ =>
        exact ⟨⟨fits rfl, below _ (by simp [Kind.children])⟩, fits' rfl, below _ (by simp [Kind.children])⟩
  | continuation preceding x =>
    cases arranged with
    | cons fits _ => exact ⟨plain x rfl, fits rfl, below _ (by simp [Kind.children])⟩
  | record initializers => exact each arranged below
  | ident x typeArgs | typeRef x typeArgs => exact ⟨plain x rfl, each arranged below⟩
  | member target x typeArgs =>
    cases arranged with
    | cons fits rest =>
      exact ⟨⟨fits rfl, below _ List.mem_cons_self⟩, plain x rfl, each rest fun c member => below c (.tail _ member)⟩
  | call target args =>
    cases arranged with
    | cons fits rest =>
      exact ⟨⟨fits rfl, below _ List.mem_cons_self⟩, each rest fun c member => below c (.tail _ member)⟩
  | literal => trivial

end Tree

end Comprehension
