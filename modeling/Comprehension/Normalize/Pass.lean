import Comprehension.Normalize.Config
import Comprehension.Normalize.ElementType
import Comprehension.Normalize.Elimination
import Comprehension.Normalize.Event
import Comprehension.Normalize.References
import Comprehension.Session

/-! The normalization run: one visit of all nodes below a root, children before their parent, that
looks at the first clause of every query.

    from t in (from x in xs from y in ys select new { x, y }) select t.x
    from x in xs from y in ys select x                                      elimination

    from g in (from x in xs select x.Kind) select g
    from x in xs select x.Kind into g select g                              continuation

    from x in xs.Cast<int>() select x
    from int x in xs select x                                               element type

A nested query is in its final form when the query around it is looked at, so one visit suffices for
any depth. -/

set_option autoImplicit false

namespace Comprehension.Normalize

structure State where
  store : Store
  stats : Stats := {}
  log : Array Event := #[]

/-- Programs of a run. A failure keeps the changes made before it. -/
abbrev PassM := EStateM Failure State

namespace PassM

def ask {α : Type} (f : Store → Except Failure α) : PassM α := fun s =>
  match f s.store with
  | .ok a => .ok a s
  | .error e => .error e s

def kind (id : NodeId) : PassM NodeKind := ask fun store => Failure.ofFault (store.kind id)

def onStore {α : Type} (program : StoreM α) : PassM α := fun ⟨store, stats, log⟩ =>
  match program store with
  | .ok a store => .ok a ⟨store, stats, log⟩
  | .error e store => .error (.fault e) ⟨store, stats, log⟩

def count (f : Stats → Stats) : PassM Unit :=
  modify fun ⟨store, stats, log⟩ => ⟨store, f stats, log⟩

def emit (event : Event) : PassM Unit :=
  modify fun ⟨store, stats, log⟩ => ⟨store, stats, log.push event⟩

end PassM

open PassM

section
variable (rules : Rules) (names : NameTable)

def isTransparent (name : Name) : Bool := rules.transparent (names.lookup name)

/-- The event that a refusal gives rise to; an empty query is passed over in silence. -/
def Refusal.event? (query : NodeId) : Refusal → Option Event
  | .userName => some (.userName query)
  | .noClauses => none
  | .unrecognized select => some (.unrecognized select)
  | .renamed initializer => some (.renamed initializer)

def CastRefusal.event (clause : NodeId) : CastRefusal → Event
  | .alreadyTyped => .alreadyTyped clause
  | .notCast source => .notCast clause source

def eliminate (query : NodeId) (ident : Name) (inner : NodeId) : PassM Bool := do
  match ← ask (planSplice (isTransparent rules names) names · ident inner) with
  | .error refusal =>
    if let some event := refusal.event? query then emit event
    return false
  | .ok plan =>
    let moved ← onStore (splice query inner plan)
    -- A splice with a binding has added one let clause.
    if plan.binding.isSome then count fun s => { s with letsIntroduced := s.letsIntroduced + 1 }
    count fun s => { s with eliminated := s.eliminated + 1 }
    emit (.spliced query inner moved)
    return true

def cleanReferences (query : NodeId) : PassM Unit := do
  let stripped ← onStore do
    stripReferences (isTransparent rules names) ((← get).size + 1) query
  count fun s => { s with referencesStripped := s.referencesStripped + stripped }
  emit (.eliminated query stripped)

def foldContinuation (clause : NodeId) (ident : Name) (inner : NodeId) : PassM Unit := do
  onStore (modify (·.put clause (.continuation inner ident)))
  count fun s => { s with continuations := s.continuations + 1 }
  emit (.continued clause inner)

def foldCast (clause : NodeId) : PassM Unit := do
  match ← ask fun store => planCast rules.config.castMethod names store clause with
  | .error refusal => emit (refusal.event clause)
  | .ok cast =>
    onStore (modify (·.put clause cast.folded))
    count fun s => { s with castsFolded := s.castsFolded + 1 }
    emit (.castFolded clause cast.source)

def normalizeQuery (query : NodeId) : PassM Unit := do
  match (← kind query).clauses with
  | [] => return
  | first :: _ =>
    match ← kind first with
    | .fromClause ident _ source =>
      if (← kind source).isQuery then
        if rules.config.eliminateTransparent then
          if ← eliminate rules names query ident source then cleanReferences rules names query
          else foldContinuation first ident source
        else foldContinuation first ident source
      else if rules.config.foldCasts then foldCast rules names first
    | _ => emit (.notFrom query)

/-- Normalizes all queries below a node, the node itself last. A path may take as many steps as the
budget says. -/
def visit : Nat → NodeId → PassM Unit
  | 0, _ => throw (.fault .cyclic)
  | budget + 1, id => do
    -- The children are those from before their visits; a visit changes slots, not this list.
    (← kind id).children.forM (visit budget)
    if (← kind id).isQuery then normalizeQuery rules names id

def run (root : NodeId) : PassM Stats := do
  emit (.started root)
  -- No path in a store without cycles visits more nodes than there are.
  visit rules names ((← get).store.size + 1) root
  let stats := (← get).stats
  emit (.completed stats)
  return stats

end

structure Outcome where
  result : Except Failure Stats
  store : Store
  log : Array Event

def normalize (rules : Rules) (names : NameTable) (store : Store) (root : NodeId) : Outcome :=
  match run rules names root { store } with
  | .ok stats s => ⟨.ok stats, s.store, s.log⟩
  | .error e s => ⟨.error e, s.store, s.log⟩

end Comprehension.Normalize

namespace Comprehension

def Session.normalize (session : Session) (rules : Normalize.Rules) (root : NodeId) :
    Normalize.Outcome :=
  Normalize.normalize rules session.names session.store root

end Comprehension
