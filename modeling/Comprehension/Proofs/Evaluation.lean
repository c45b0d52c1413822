import Comprehension.Proofs.FreeNames
import Mathlib.Data.List.Forall2

/-! What queries mean. A query takes the values of the variables around it through its clauses: most of them
turn a list of environments into another one, and the last turns it into the list of results. An environment
gives every name a value, so that free names may mean anything. How records, accesses, calls and literals are
understood is left to an interpretation, as is the order of sorted lists and the form of groups. -/

set_option autoImplicit false

namespace Comprehension

variable {ι ν V α : Type}

/-- How everything but clauses and variables is understood. Types have values too, which only matter to what
they are arguments of. -/
structure Interpretation (ν V : Type) where
  elements : V → List V
  collect : List V → V
  record : List (ν × V) → V
  access : V → ν → V
  instantiate : List V → V → V
  call : V → List V → V
  literal : Literal ν → V
  binary : BinaryOp → V → V → V
  type : ν → List V → V
  /-- The elements of a source as ones of a type. -/
  coerce : V → List V → List V
  holds : V → Bool
  key : Direction → V → V
  /-- The places of rows in their new order, from the keys of all of them. -/
  order : List (List V) → List Nat
  /-- The groups of rows that are given by a value and a key each. -/
  group : List (V × V) → List V
  elements_collect : ∀ l, elements (collect l) = l
  access_record : ∀ {fields x v}, (fields.map Prod.fst).Nodup → (x, v) ∈ fields → access (record fields) x = v
  instantiate_nil : ∀ v, instantiate [] v = v
  order_perm : ∀ keys, (order keys).Perm (List.range keys.length)

def Interpretation.Erases (I : Interpretation ν V) : Prop := ∀ args v, I.instantiate args v = v

/-- The meaning of a tree in each of its roles: as the field of a record, as an expression, as a clause among
others, and as the last one. -/
structure Meaning (ν V : Type) where
  field? : Option ν
  value : (ν → V) → V
  thread : List (ν → V) → List (ν → V)
  result : List (ν → V) → List V

def rearranged (places : List Nat) (l : List α) : List α := places.filterMap (l[·]?)

def Meaning.results : List (Meaning ν V) → List (ν → V) → List V
  | [], _ => []
  | [last], rows => last.result rows
  | clause :: next :: more, rows => results (next :: more) (clause.thread rows)

def Meaning.threads (clauses : List (Meaning ν V)) (rows : List (ν → V)) : List (ν → V) :=
  clauses.foldl (fun rows clause => clause.thread rows) rows

namespace Interpretation

section
variable (I : Interpretation ν V)

def expression (field? : Option ν) (value : (ν → V) → V) : Meaning ν V := ⟨field?, value, id, fun _ => []⟩

def clause (thread : List (ν → V) → List (ν → V)) : Meaning ν V :=
  ⟨none, fun _ => I.collect [], thread, fun _ => []⟩

def last (result : List (ν → V) → List V) : Meaning ν V := ⟨none, fun _ => I.collect [], id, result⟩

variable [DecidableEq ν]

def ranged (x : ν) (source : (ν → V) → List V) (rows : List (ν → V)) : List (ν → V) :=
  rows.flatMap fun ρ => (source ρ).map (Function.update ρ x)

def layer : Kind ν (Meaning ν V) → Meaning ν V
  | .query clauses => expression none fun ρ => I.collect (Meaning.results clauses [ρ])
  | .fromClause x none source => I.clause (ranged x fun ρ => I.elements (source.value ρ))
  | .fromClause x (some type) source =>
    I.clause (ranged x fun ρ => I.coerce (type.value ρ) (I.elements (source.value ρ)))
  | .continuation preceding x => I.clause (ranged x fun ρ => I.elements (preceding.value ρ))
  | .letClause x value => I.clause (List.map fun ρ => Function.update ρ x (value.value ρ))
  | .whereClause cond => I.clause (List.filter fun ρ => I.holds (cond.value ρ))
  | .orderClause orderings =>
    I.clause fun rows => rearranged (I.order (rows.map fun ρ => orderings.map (·.value ρ))) rows
  | .ordering key direction => expression none fun ρ => I.key direction (key.value ρ)
  | .groupClause projection key => I.last fun rows => I.group (rows.map fun ρ => (projection.value ρ, key.value ρ))
  | .selectClause projection => I.last (List.map projection.value)
  | .record initializers => expression none fun ρ =>
    I.record (initializers.filterMap fun initializer => initializer.field?.map (·, initializer.value ρ))
  | .named x value => expression (some x) value.value
  | .ident x typeArgs => expression (some x) fun ρ => I.instantiate (typeArgs.map (·.value ρ)) (ρ x)
  | .member target x typeArgs =>
    expression (some x) fun ρ => I.instantiate (typeArgs.map (·.value ρ)) (I.access (target.value ρ) x)
  | .call target args => expression none fun ρ => I.call (target.value ρ) (args.map (·.value ρ))
  | .literal l => expression none fun _ => I.literal l
  | .binary op left right => expression none fun ρ => I.binary op (left.value ρ) (right.value ρ)
  | .typeRef x args => expression none fun ρ => I.type x (args.map (·.value ρ))

def meaning : Marked ι ν → Meaning ν V := Marked.fold fun _ k => I.layer k

def value (t : Marked ι ν) (ρ : ν → V) : V := (I.meaning t).value ρ

end

end Interpretation

/-! ### Clauses in a row -/

namespace Meaning

variable {clauses more : List (Meaning ν V)} {rows : List (ν → V)}

theorem threads_append : threads (clauses ++ more) rows = threads more (threads clauses rows) := List.foldl_append

theorem results_cons (clause : Meaning ν V) (some : more ≠ []) :
    results (clause :: more) rows = results more (clause.thread rows) := by
  cases more with
  | nil => exact absurd rfl some
  | cons next more => rw [results]

theorem results_append (some : more ≠ []) : results (clauses ++ more) rows = results more (threads clauses rows) := by
  induction clauses generalizing rows with
  | nil => rfl
  | cons clause clauses ih =>
    have rest : clauses ++ more ≠ [] := by simp [some]
    rw [List.cons_append, results_cons clause rest, ih]
    rfl

end Meaning

namespace Interpretation

variable [DecidableEq ν] (I : Interpretation ν V)

theorem meaning_node (m : ι) (k : Kind ν (Marked ι ν)) : I.meaning (.node m k) = I.layer (k.map id I.meaning) :=
  Marked.fold_node _ m k

theorem elements_query (m : ι) (clauses : List (Marked ι ν)) (ρ : ν → V) :
    I.elements (I.value (.node m (.query clauses)) ρ) = Meaning.results (clauses.map I.meaning) [ρ] := by
  rw [value, meaning_node]
  exact I.elements_collect _

variable {I}

theorem mem_rearranged {places : List Nat} {l : List α} {a : α} (member : a ∈ rearranged places l) : a ∈ l := by
  obtain ⟨i, -, found⟩ := List.mem_filterMap.mp member
  exact List.mem_of_getElem? found

theorem mem_ranged {x : ν} {source : (ν → V) → List V} {rows : List (ν → V)} {σ : ν → V}
    (member : σ ∈ ranged x source rows) : ∃ ρ ∈ rows, ∃ v ∈ source ρ, Function.update ρ x v = σ := by
  obtain ⟨ρ, row, inside⟩ := List.mem_flatMap.mp member
  exact ⟨ρ, row, List.mem_map.mp inside⟩

/-- A clause changes no variable but the one that it binds. -/
theorem thread_frame {k : Kind ν (Meaning ν V)} {rows : List (ν → V)} {σ : ν → V}
    (member : σ ∈ (I.layer k).thread rows) : ∃ ρ ∈ rows, ∀ y, k.binder? ≠ some y → σ y = ρ y := by
  have updated {x : ν} {ρ : ν → V} {v : V} (row : ρ ∈ rows) (same : Function.update ρ x v = σ) :
      ∃ ρ ∈ rows, ∀ y, some x ≠ some y → σ y = ρ y := by
    refine ⟨ρ, row, fun y other => ?_⟩
    rw [← same, Function.update_of_ne fun equal => other (congrArg some equal.symm)]
  have kept (row : σ ∈ rows) : ∃ ρ ∈ rows, ∀ y, k.binder? ≠ some y → σ y = ρ y := ⟨σ, row, fun _ _ => rfl⟩
  cases k with
  | fromClause x elemType source =>
    cases elemType <;>
    · obtain ⟨ρ, row, v, -, same⟩ := mem_ranged member
      exact updated row same
  | continuation preceding x =>
    obtain ⟨ρ, row, v, -, same⟩ := mem_ranged member
    exact updated row same
  | letClause x value =>
    obtain ⟨ρ, row, same⟩ := List.mem_map.mp member
    exact updated row same
  | whereClause => exact kept (List.mem_of_mem_filter member)
  | orderClause => exact kept (mem_rearranged member)
  | _ => exact kept member

theorem threads_frame {clauses : List (Marked ι ν)} {rows : List (ν → V)} {σ : ν → V}
    (member : σ ∈ Meaning.threads (clauses.map I.meaning) rows) :
    ∃ ρ ∈ rows, ∀ y ∉ Marked.binders clauses, σ y = ρ y := by
  induction clauses generalizing rows with
  | nil => exact ⟨σ, member, fun _ _ => rfl⟩
  | cons c clauses ih =>
    obtain ⟨m, k⟩ := c
    obtain ⟨τ, between, later⟩ := ih member
    rw [meaning_node] at between
    obtain ⟨ρ, row, first⟩ := thread_frame between
    refine ⟨ρ, row, fun y other => ?_⟩
    rw [Marked.mem_binders_cons, not_or, Marked.kind_node] at other
    rw [later y other.2, first y (by simpa using other.1)]

end Interpretation

/-! ### Meanings side by side -/

section
variable {R S : (ν → V) → (ν → V) → Prop}

structure Meaning.Expresses (R : (ν → V) → (ν → V) → Prop) (d e : Meaning ν V) : Prop where
  field : d.field? = e.field?
  value : ∀ {ρ σ}, R ρ σ → d.value ρ = e.value σ

/-- Clauses that take rows related by one relation to rows related by another, or to the same results. -/
structure Meaning.Simulates (R S : (ν → V) → (ν → V) → Prop) (d e : Meaning ν V) : Prop
    extends Meaning.Expresses R d e where
  thread : ∀ {rows rows'}, List.Forall₂ R rows rows' → List.Forall₂ S (d.thread rows) (e.thread rows')
  result : ∀ {rows rows'}, List.Forall₂ R rows rows' → d.result rows = e.result rows'

theorem Meaning.results_eq {clauses : List α} {f g : α → Meaning ν V} {R : List α → (ν → V) → (ν → V) → Prop}
    (each : ∀ before c after, clauses = before ++ c :: after →
      Meaning.Simulates (R before) (R (before ++ [c])) (f c) (g c)) {rows rows' : List (ν → V)}
    (related : List.Forall₂ (R []) rows rows') :
    Meaning.results (clauses.map f) rows = Meaning.results (clauses.map g) rows' := by
  induction clauses generalizing R rows rows' with
  | nil => rfl
  | cons c clauses ih =>
    have first : Meaning.Simulates (R []) (R [c]) (f c) (g c) := each [] c clauses rfl
    cases clauses with
    | nil => exact first.result related
    | cons next clauses =>
      have later := ih (R := fun before => R (c :: before)) (fun before d after split => ?_)
        (first.thread related)
      · exact later
      · exact each (c :: before) d after (congrArg (c :: ·) split)

theorem map_eq_of_forall₂ {β γ : Type} {R : α → β → Prop} {f : α → γ} {g : β → γ} {l : List α} {l' : List β}
    (related : List.Forall₂ R l l') (same : ∀ {a b}, R a b → f a = g b) : l.map f = l'.map g := by
  induction related with
  | nil => rfl
  | cons first _ ih => rw [List.map_cons, List.map_cons, same first, ih]

theorem forall₂_getElem? {β : Type} {R : α → β → Prop} {l : List α} {l' : List β} (related : List.Forall₂ R l l')
    (i : Nat) : Option.Rel R l[i]? l'[i]? := by
  induction related generalizing i with
  | nil => exact .none
  | cons first _ ih =>
    cases i with
    | zero => exact .some first
    | succ i => exact ih i

theorem forall₂_rearranged {β : Type} {R : α → β → Prop} {l : List α} {l' : List β}
    (related : List.Forall₂ R l l') (places : List Nat) :
    List.Forall₂ R (rearranged places l) (rearranged places l') := by
  have same : List.Forall₂ Eq places places := List.forall₂_eq_eq_eq ▸ rfl
  refine List.rel_filterMap ?_ same
  rintro i _ rfl
  exact forall₂_getElem? related i

namespace Interpretation

variable {I : Interpretation ν V}

theorem expression_simulates {field? : Option ν} {value value' : (ν → V) → V} (stays : ∀ {ρ σ}, R ρ σ → S ρ σ)
    (same : ∀ {ρ σ}, R ρ σ → value ρ = value' σ) :
    Meaning.Simulates R S (expression field? value) (expression field? value') where
  field := rfl
  value := same
  thread related := related.imp fun _ _ => stays
  result _ := rfl

theorem clause_simulates {thread thread' : List (ν → V) → List (ν → V)}
    (steps : ∀ {rows rows'}, List.Forall₂ R rows rows' → List.Forall₂ S (thread rows) (thread' rows')) :
    Meaning.Simulates R S (I.clause thread) (I.clause thread') where
  field := rfl
  value _ := rfl
  thread := steps
  result _ := rfl

theorem last_simulates {result result' : List (ν → V) → List V} (stays : ∀ {ρ σ}, R ρ σ → S ρ σ)
    (same : ∀ {rows rows'}, List.Forall₂ R rows rows' → result rows = result' rows') :
    Meaning.Simulates R S (I.last result) (I.last result') where
  field := rfl
  value _ := rfl
  thread related := related.imp fun _ _ => stays
  result := same

theorem values_eq {f g : α → Meaning ν V} {l : List α} (each : ∀ c ∈ l, Meaning.Expresses R (f c) (g c))
    {ρ σ : ν → V} (related : R ρ σ) : (l.map f).map (·.value ρ) = (l.map g).map (·.value σ) := by
  rw [List.map_map, List.map_map]
  exact List.map_congr_left fun c member => (each c member).value related

theorem fields_eq {f g : α → Meaning ν V} {l : List α} (each : ∀ c ∈ l, Meaning.Expresses R (f c) (g c))
    {ρ σ : ν → V} (related : R ρ σ) :
    (l.map f).filterMap (fun d => d.field?.map (·, d.value ρ)) =
      (l.map g).filterMap fun d => d.field?.map (·, d.value σ) := by
  rw [List.filterMap_map, List.filterMap_map]
  refine List.filterMap_congr fun c member => ?_
  rw [Function.comp_apply, Function.comp_apply, (each c member).field, (each c member).value related]

variable [DecidableEq ν]

theorem forall₂_ranged {x : ν} {source source' : (ν → V) → List V} {rows rows' : List (ν → V)}
    (related : List.Forall₂ R rows rows') (same : ∀ {ρ σ}, R ρ σ → source ρ = source' σ)
    (binds : ∀ {ρ σ} v, R ρ σ → S (Function.update ρ x v) (Function.update σ x v)) :
    List.Forall₂ S (ranged x source rows) (ranged x source' rows') := by
  refine List.rel_flatMap related fun ρ σ here => ?_
  have equal : List.Forall₂ Eq (source ρ) (source' σ) := List.forall₂_eq_eq_eq ▸ same here
  refine List.rel_map ?_ equal
  rintro v _ rfl
  exact binds v here

/-- A node means the same over children that mean the same, if related environments agree on the variable
that it reads and stay related when both get the variable that it binds. -/
theorem layer_simulates {k : Kind ν α} {f g : α → Meaning ν V} (noQuery : k.isQuery = false)
    (stays : k.binder? = none → ∀ {ρ σ}, R ρ σ → S ρ σ)
    (binds : ∀ {x}, k.binder? = some x → ∀ {ρ σ} v, R ρ σ → S (Function.update ρ x v) (Function.update σ x v))
    (reads : ∀ {x typeArgs}, k = .ident x typeArgs → ∀ {ρ σ}, R ρ σ → ρ x = σ x)
    (children : ∀ c ∈ k.children, Meaning.Expresses R (f c) (g c)) :
    Meaning.Simulates R S (I.layer (k.map id f)) (I.layer (k.map id g)) := by
  cases k with
  | query => cases noQuery
  | fromClause x elemType source =>
    have sources {ρ σ : ν → V} (related : R ρ σ) : (f source).value ρ = (g source).value σ :=
      (children source (by simp [Kind.children])).value related
    cases elemType with
    | none =>
      refine clause_simulates fun related => forall₂_ranged related (fun here => ?_) (binds rfl)
      rw [sources here]
    | some type =>
      refine clause_simulates fun related => forall₂_ranged related (fun here => ?_) (binds rfl)
      rw [sources here, (children type (by simp [Kind.children])).value here]
  | continuation preceding x =>
    refine clause_simulates fun related => forall₂_ranged related (fun here => ?_) (binds rfl)
    rw [(children preceding (by simp [Kind.children])).value here]
  | letClause x value =>
    refine clause_simulates fun related => List.rel_map (fun ρ σ here => ?_) related
    rw [(children value (by simp [Kind.children])).value here]
    exact binds rfl _ here
  | whereClause cond =>
    -- Related rows pass or fail together.
    have same {ρ σ : ν → V} (here : R ρ σ) : I.holds ((f cond).value ρ) ↔ I.holds ((g cond).value σ) := by
      rw [(children cond (by simp [Kind.children])).value here]
    refine clause_simulates fun related => ?_
    exact (List.rel_filter (fun _ _ here => same here) related).imp fun _ _ => stays rfl
  | orderClause orderings =>
    refine clause_simulates fun {rows rows'} related => ?_
    -- The new order depends on the keys alone, and both sides have the same.
    have keys : rows.map (fun ρ => (orderings.map f).map (·.value ρ)) =
        rows'.map fun σ => (orderings.map g).map (·.value σ) :=
      map_eq_of_forall₂ related fun here => values_eq children here
    rw [keys]
    exact (forall₂_rearranged related _).imp fun _ _ => stays rfl
  | ordering key direction =>
    refine expression_simulates (stays rfl) fun here => ?_
    rw [(children key (by simp [Kind.children])).value here]
  | groupClause projection key =>
    refine last_simulates (stays rfl) fun related => congrArg I.group (map_eq_of_forall₂ related fun here => ?_)
    rw [(children projection (by simp [Kind.children])).value here,
      (children key (by simp [Kind.children])).value here]
  | selectClause projection =>
    exact last_simulates (stays rfl) fun related =>
      map_eq_of_forall₂ related (children projection (by simp [Kind.children])).value
  | record initializers =>
    exact expression_simulates (stays rfl) fun here => congrArg I.record (fields_eq children here)
  | named x value =>
    exact expression_simulates (stays rfl) (children value (by simp [Kind.children])).value
  | ident x typeArgs =>
    refine expression_simulates (stays rfl) fun here => ?_
    exact congrArg₂ I.instantiate (values_eq children here) (reads rfl here)
  | member target x typeArgs =>
    refine expression_simulates (stays rfl) fun here => ?_
    have args := values_eq (fun c member => children c (List.mem_cons_of_mem target member)) here
    rw [args, (children target List.mem_cons_self).value here]
  | call target args =>
    refine expression_simulates (stays rfl) fun here => ?_
    have args := values_eq (fun c member => children c (List.mem_cons_of_mem target member)) here
    rw [args, (children target List.mem_cons_self).value here]
  | literal l => exact expression_simulates (stays rfl) fun _ => rfl
  | binary op left right =>
    refine expression_simulates (stays rfl) fun here => ?_
    rw [(children left (by simp [Kind.children])).value here, (children right (by simp [Kind.children])).value here]
  | typeRef x args =>
    exact expression_simulates (stays rfl) fun here => congrArg (I.type x) (values_eq children here)

end Interpretation

end

/-! ### A plain interpretation -/

inductive Datum (ν : Type) where
  | constant (value : Literal ν)
  | list (elements : List (Datum ν))
  | record (fields : List (ν × Datum ν))

namespace Datum

def elements : Datum ν → List (Datum ν)
  | .list l => l
  | _ => []

def access [DecidableEq ν] : Datum ν → ν → Datum ν
  | .record fields, x => ((fields.find? (·.1 = x)).map Prod.snd).getD (.constant .null)
  | .list l, _ => .list l
  | .constant _, _ => .constant .null

theorem access_record [DecidableEq ν] {fields : List (ν × Datum ν)} {x : ν} {v : Datum ν}
    (distinct : (fields.map Prod.fst).Nodup) (member : (x, v) ∈ fields) : (record fields).access x = v := by
  have found : fields.find? (·.1 = x) = some (x, v) := by
    induction fields with
    | nil => cases member
    | cons field fields ih =>
      rw [List.map_cons, List.nodup_cons] at distinct
      rcases List.mem_cons.mp member with rfl | later
      · simp
      · have other : field.1 ≠ x := fun same => distinct.1 (List.mem_map.mpr ⟨_, later, same.symm⟩)
        rw [List.find?_cons_of_neg (by simpa using other)]
        exact ih distinct.2 later
  rw [access, found]
  rfl

end Datum

/-- Data as they are: types and calls make no difference, all rows are kept in their order, and a group is one
row. -/
def Interpretation.data [DecidableEq ν] : Interpretation ν (Datum ν) where
  elements := Datum.elements
  collect := .list
  record := .record
  access := Datum.access
  instantiate _ v := v
  call target _ := target
  literal := .constant
  binary _ left _ := left
  type _ _ := .constant .null
  coerce _ l := l
  holds _ := true
  key _ v := v
  order keys := List.range keys.length
  group rows := rows.map Prod.fst
  elements_collect _ := rfl
  access_record := Datum.access_record
  instantiate_nil _ := rfl
  order_perm _ := .refl _

end Comprehension
