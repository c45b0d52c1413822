import Comprehension.Proofs.Matching

/-! What a pattern captures, as a function of the nodes alone. A pattern has a list of captures at a node
or none, whether or not the nodes are there to be read; the nodes that a test looks at are listed apart.
A match ends with the captures of its pattern if all nodes on that list are in use, and in a fault
otherwise, so nothing that a refused alternative or half a list recorded is left in it. -/

set_option autoImplicit false

namespace Comprehension.Pattern
open MatchM

def joined (first second : Option Captures) : Option Captures :=
  first.bind fun captures => second.map (captures ++ ·)

section
variable (store : Store) (names : NameTable)

mutual
def captured? : Pattern → NodeId → Option Captures
  | .any none, _ => some []
  | .any (some name), id => some [(name, id)]
  | .capture name inner, id => joined (captured? inner id) (some [(name, id)])
  | .choice alternatives, id => capturedFirst? alternatives id
  | .ident name, id =>
    match store.kind? id with
    | some (.ident x []) => if name.accepts (names.lookup x) then some [] else none
    | _ => none
  | .member target name typeArgs, id =>
    match store.kind? id with
    | some (.member t x ids) =>
      if name.accepts (names.lookup x) then joined (captured? target t) (capturedEach? typeArgs ids) else none
    | _ => none
  | .call target args, id =>
    match store.kind? id with
    | some (.call t ids) => joined (captured? target t) (capturedEach? args ids)
    | _ => none
  | .record initializers, id =>
    match store.kind? id with
    | some (.record ids) => capturedEach? initializers ids
    | _ => none
  | .named name value, id =>
    match store.kind? id with
    | some (.named x v) => if name.accepts (names.lookup x) then captured? value v else none
    | _ => none
  | .select projection, id =>
    match store.kind? id with
    | some (.selectClause p) => captured? projection p
    | _ => none
  | .typeRef name args, id =>
    match store.kind? id with
    | some (.typeRef x ids) => if name.accepts (names.lookup x) then capturedEach? args ids else none
    | _ => none

def capturedFirst? : List Pattern → NodeId → Option Captures
  | [], _ => none
  | p :: rest, id => (captured? p id).or (capturedFirst? rest id)

def capturedEach? : List Pattern → List NodeId → Option Captures
  | [], [] => some []
  | p :: rest, id :: ids => joined (captured? p id) (capturedEach? rest ids)
  | _, _ => none
end

mutual
/-- The nodes that a test looks at, in order. The parts after one that has no captures are not looked at,
nor are the alternatives after one that has some. -/
def visited : Pattern → NodeId → List NodeId
  | .any _, id | .ident _, id => [id]
  | .capture _ inner, id => id :: visited inner id
  | .choice alternatives, id => id :: visitedFirst alternatives id
  | .member target name typeArgs, id => id ::
    match store.kind? id with
    | some (.member t x ids) =>
      if name.accepts (names.lookup x) then
        visited target t ++
          if (captured? store names target t).isSome then
            if typeArgs.length = ids.length then visitedEach typeArgs ids else []
          else []
      else []
    | _ => []
  | .call target args, id => id ::
    match store.kind? id with
    | some (.call t ids) =>
      visited target t ++
        if (captured? store names target t).isSome then
          if args.length = ids.length then visitedEach args ids else []
        else []
    | _ => []
  | .record initializers, id => id ::
    match store.kind? id with
    | some (.record ids) => if initializers.length = ids.length then visitedEach initializers ids else []
    | _ => []
  | .named name value, id => id ::
    match store.kind? id with
    | some (.named x v) => if name.accepts (names.lookup x) then visited value v else []
    | _ => []
  | .select projection, id => id ::
    match store.kind? id with
    | some (.selectClause p) => visited projection p
    | _ => []
  | .typeRef name args, id => id ::
    match store.kind? id with
    | some (.typeRef x ids) =>
      if name.accepts (names.lookup x) then
        if args.length = ids.length then visitedEach args ids else []
      else []
    | _ => []

def visitedFirst : List Pattern → NodeId → List NodeId
  | [], _ => []
  | p :: rest, id => visited p id ++ if (captured? store names p id).isSome then [] else visitedFirst rest id

def visitedEach : List Pattern → List NodeId → List NodeId
  | p :: rest, id :: ids => visited p id ++ if (captured? store names p id).isSome then visitedEach rest ids else []
  | _, _ => []
end

end

/-! ### Results and the nodes that they need -/

/-- A result that is what was found if all of these nodes are in use, and a fault if one is not. -/
inductive Needs (store : Store) (nodes : List NodeId) (found : Option Captures) :
    Except Fault (Option Captures) → Prop where
  | found (inUse : ∀ id ∈ nodes, id.index < store.size) : Needs store nodes found (.ok found)
  | fault {id : NodeId} {e : Fault} (dangling : id ∈ nodes) (beyond : store.size ≤ id.index) :
      Needs store nodes found (.error e)

namespace Needs

variable {store : Store} {nodes nodes' : List NodeId} {found found' : Option Captures}
  {result result' : Except Fault (Option Captures)}

theorem nothing (found : Option Captures) : Needs store [] found (.ok found) := .found (by simp)

theorem both (first : Needs store nodes found result) (second : Needs store nodes' found' result') :
    Needs store (nodes ++ if found.isSome then nodes' else []) (joined found found') (both result result') := by
  cases first with
  | fault dangling beyond => exact .fault (List.mem_append_left _ dangling) beyond
  | found inUse =>
    cases found with
    | none =>
      apply Needs.found
      simpa using inUse
    | some captures =>
      cases second with
      | fault dangling beyond => exact .fault (List.mem_append_right _ dangling) beyond
      | found inUse' =>
        apply Needs.found
        simp only [Option.isSome_some, if_true, List.mem_append]
        rintro id (member | member)
        · exact inUse id member
        · exact inUse' id member

theorem either (first : Needs store nodes found result) (second : Needs store nodes' found' result') :
    Needs store (nodes ++ if found.isSome then [] else nodes') (found.or found') (either result result') := by
  cases first with
  | fault dangling beyond => exact .fault (List.mem_append_left _ dangling) beyond
  | found inUse =>
    cases found with
    | some captures =>
      apply Needs.found
      simpa using inUse
    | none =>
      cases second with
      | fault dangling beyond => exact .fault (List.mem_append_right _ dangling) beyond
      | found inUse' =>
        apply Needs.found
        simp only [Option.isSome_none, Bool.false_eq_true, if_false, List.mem_append]
        rintro id (member | member)
        · exact inUse id member
        · exact inUse' id member

theorem only (needs : Needs store nodes found result) (condition : Bool) :
    Needs store (if condition then nodes else []) (if condition then found else none) (only condition result) := by
  cases condition with
  | false => exact nothing none
  | true => exact needs

theorem cons (needs : Needs store nodes found result) {id : NodeId} (inside : id.index < store.size) :
    Needs store (id :: nodes) found result := by
  cases needs with
  | fault dangling beyond => exact .fault (List.mem_cons_of_mem _ dangling) beyond
  | found inUse => exact .found (List.forall_mem_cons.mpr ⟨inside, inUse⟩)

theorem atKind {id : NodeId} {result : NodeKind → Except Fault (Option Captures)}
    (needs : ∀ k, store.kind? id = some k → Needs store nodes found (result k)) :
    Needs store (id :: nodes) found (do result (← store.kind id)) := by
  unfold Store.kind
  cases here : store.kind? id with
  | none =>
    have beyond : store.size ≤ id.index := by
      apply Store.node?_eq_none_iff.mp
      exact Option.map_eq_none_iff.mp here
    exact .fault List.mem_cons_self beyond
  | some k =>
    have inside : id.index < store.size := by
      by_contra beyond
      have absent := Store.node?_eq_none_iff.mpr (Nat.le_of_not_lt beyond)
      simp [Store.kind?, absent] at here
    exact (needs k here).cons inside

end Needs

section
variable (store : Store) (names : NameTable)

theorem capturedEach?_of_ne : ∀ (patterns : List Pattern) (ids : List NodeId),
    patterns.length ≠ ids.length → capturedEach? store names patterns ids = none
  | [], [], different => absurd rfl different
  | [], _ :: _, _ => by rw [capturedEach?] <;> simp
  | _ :: _, [], _ => by rw [capturedEach?] <;> simp
  | p :: rest, id :: ids, different => by
    rw [capturedEach?, capturedEach?_of_ne rest ids (by simpa using different)]
    cases captured? store names p id <;> rfl

/-- Lists are looked into only if their lengths agree. -/
theorem Needs.list {patterns : List Pattern} {ids : List NodeId} {result : Except Fault (Option Captures)}
    (needs : patterns.length = ids.length → Needs store (visitedEach store names patterns ids)
      (capturedEach? store names patterns ids) result) :
    Needs store (if patterns.length = ids.length then visitedEach store names patterns ids else [])
      (capturedEach? store names patterns ids) (MatchM.only (patterns.length = ids.length) result) := by
  by_cases same : patterns.length = ids.length
  · simpa [same, MatchM.only] using needs same
  · rw [capturedEach?_of_ne store names patterns ids same]
    simpa [same, MatchM.only] using Needs.nothing none

-- One case for every kind of pattern; at a node of another kind nothing but the node is needed.
mutual
theorem needs_meaning : ∀ (p : Pattern) (id : NodeId),
    Needs store (visited store names p id) (captured? store names p id) (meaning store names p id)
  | .any none, id => by
    rw [visited, captured?, meaning]
    exact .atKind fun _ _ => .nothing _
  | .any (some name), id => by
    rw [visited, captured?, meaning]
    exact .atKind fun _ _ => .nothing _
  | .capture name inner, id => by
    rw [visited, captured?, meaning]
    refine .atKind fun _ _ => ?_
    simpa using (needs_meaning inner id).both (.nothing (some [(name, id)]))
  | .choice alternatives, id => by
    rw [visited, captured?, meaning]
    exact .atKind fun _ _ => needs_meaningFirst alternatives id
  | .ident name, id => by
    rw [visited, captured?, meaning]
    refine .atKind fun k here => ?_
    simp only [here]
    cases k with
    | ident x typeArgs =>
      cases typeArgs with
      | nil => simpa using (Needs.nothing (some [])).only (name.accepts (names.lookup x))
      | cons => exact .nothing none
    | _ => exact .nothing none
  | .member target name typeArgs, id => by
    rw [visited, captured?, meaning]
    refine .atKind fun k here => ?_
    simp only [here]
    cases k with
    | member t x ids =>
      have args := Needs.list store names fun same => needs_meaningEach typeArgs ids same
      exact ((needs_meaning target t).both args).only (name.accepts (names.lookup x))
    | _ => exact .nothing none
  | .call target args, id => by
    rw [visited, captured?, meaning]
    refine .atKind fun k here => ?_
    simp only [here]
    cases k with
    | call t ids =>
      have args := Needs.list store names fun same => needs_meaningEach args ids same
      exact (needs_meaning target t).both args
    | _ => exact .nothing none
  | .record initializers, id => by
    rw [visited, captured?, meaning]
    refine .atKind fun k here => ?_
    simp only [here]
    cases k with
    | record ids => exact Needs.list store names fun same => needs_meaningEach initializers ids same
    | _ => exact .nothing none
  | .named name value, id => by
    rw [visited, captured?, meaning]
    refine .atKind fun k here => ?_
    simp only [here]
    cases k with
    | named x v => exact (needs_meaning value v).only (name.accepts (names.lookup x))
    | _ => exact .nothing none
  | .select projection, id => by
    rw [visited, captured?, meaning]
    refine .atKind fun k here => ?_
    simp only [here]
    cases k with
    | selectClause p => exact needs_meaning projection p
    | _ => exact .nothing none
  | .typeRef name args, id => by
    rw [visited, captured?, meaning]
    refine .atKind fun k here => ?_
    simp only [here]
    cases k with
    | typeRef x ids =>
      have each := Needs.list store names fun same => needs_meaningEach args ids same
      exact each.only (name.accepts (names.lookup x))
    | _ => exact .nothing none

theorem needs_meaningFirst : ∀ (alternatives : List Pattern) (id : NodeId),
    Needs store (visitedFirst store names alternatives id) (capturedFirst? store names alternatives id)
      (meaningFirst store names alternatives id)
  | [], id => by
    rw [visitedFirst, capturedFirst?, meaningFirst]
    exact .nothing none
  | p :: rest, id => by
    rw [visitedFirst, capturedFirst?, meaningFirst]
    exact (needs_meaning p id).either (needs_meaningFirst rest id)

theorem needs_meaningEach : ∀ (patterns : List Pattern) (ids : List NodeId), patterns.length = ids.length →
    Needs store (visitedEach store names patterns ids) (capturedEach? store names patterns ids)
      (meaningEach store names patterns ids)
  | [], [], _ => by
    rw [visitedEach, capturedEach?, meaningEach]
    · exact .nothing _
    all_goals simp
  | [], _ :: _, same => by cases same
  | _ :: _, [], same => by cases same
  | p :: rest, id :: ids, same => by
    rw [visitedEach, capturedEach?, meaningEach]
    exact (needs_meaning p id).both (needs_meaningEach rest ids (Nat.succ.inj same))
end

/-- A match ends exactly if all nodes that it looks at are in use, and then with the captures of the
pattern: those that belong to its parts and no others, in the order of the parts. -/
theorem match?_eq_ok_iff (p : Pattern) (root : NodeId) (result : Option Match) :
    p.match? store names root = .ok result ↔
      (∀ id ∈ visited store names p root, id.index < store.size) ∧
        result = (captured? store names p root).map fun captures => ⟨captures.toArray⟩ := by
  have known := needs_meaning store names p root
  rw [match?_eq]
  generalize meaning store names p root = answer at known
  cases known with
  | found inUse =>
    constructor
    · intro ends
      exact ⟨inUse, (Except.ok.inj ends).symm⟩
    · rintro ⟨-, rfl⟩
      rfl
  | fault dangling beyond =>
    constructor
    · intro ends
      cases ends
    · intro known
      exact absurd (known.1 _ dangling) (Nat.not_lt_of_le beyond)

end

/-- The first alternative accepts the first initializer of `new { x, null }` and refuses the second one;
what it recorded on the way is not in the match. -/
example :
    let kinds : List NodeKind := [.ident ⟨1⟩ [], .literal .null, .record [⟨0⟩, ⟨1⟩]]
    let p : Pattern := .choice [.record [.any (some "a"), .ident .any], .record [.any (some "b"), .any none]]
    p.match? ⟨(kinds.map (⟨·, .none⟩)).toArray⟩ .new ⟨2⟩ = .ok (some ⟨#[("b", ⟨0⟩)]⟩) := by
  rfl

end Comprehension.Pattern
