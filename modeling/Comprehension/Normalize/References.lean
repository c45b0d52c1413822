import Comprehension.Store

/-! References through transparent names. Once the record that a transparent name stands for is gone,
an access to one of its fields is the field's name alone. Children come before their parent, so a
chain of accesses through several transparent names collapses to its last name. -/

set_option autoImplicit false

namespace Comprehension.Normalize

def plainReference? (transparent : Name → Bool) (store : Store) (id : NodeId) :
    Except Fault (Option NodeKind) := do
  match ← store.kind id with
  | .member target x typeArgs =>
    match ← store.kind target with
    | .ident t _ => return if transparent t then some (.ident x typeArgs) else none
    | _ => return none
  | _ => return none

/-- Turns every access through a transparent name below a node into an identifier, in place, and
counts them. A path may take as many steps as the budget says. -/
def stripReferences (transparent : Name → Bool) : Nat → NodeId → StoreM Nat
  | 0, _ => throw .cyclic
  | budget + 1, id => do
    let children ← StoreM.read (·.children id)
    let below ← children.mapM (stripReferences transparent budget)
    -- The target is looked at after its own visit: it may have become an identifier just now.
    match ← StoreM.read (plainReference? transparent · id) with
    | some reference =>
      modify (·.put id reference)
      return below.foldr (· + ·) 0 + 1
    | none => return below.foldr (· + ·) 0

end Comprehension.Normalize
