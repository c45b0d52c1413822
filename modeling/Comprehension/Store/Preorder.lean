import Comprehension.Store

/-! Pre-order listing of the nodes below a root, by a loop over a stack. A node that several parents
share is listed once for every path to it. -/

set_option autoImplicit false

namespace Comprehension.Store

def pathCount (s : Store) : Nat → NodeId → Nat
  | 0, _ => 1
  | budget + 1, id =>
    match s.kind? id with
    | some k => 1 + (k.children.map (s.pathCount budget)).foldr (· + ·) 0
    | none => 1

theorem foldr_add (counts : List Nat) (n : Nat) : counts.foldr (· + ·) n = counts.foldr (· + ·) 0 + n := by
  induction counts with
  | nil => exact (Nat.zero_add n).symm
  | cons count counts ih => rw [List.foldr_cons, ih, List.foldr_cons, Nat.add_assoc]

/-- Lists the entries of a stack and what lies below them. Every entry carries how many further
steps a path through it may take, which bounds the loop also on a store with a cycle. -/
def preorderFrom (s : Store) (stack : List (Nat × NodeId)) (listed : Array NodeId) :
    Except Fault (Array NodeId) :=
  match stack with
  | [] => .ok listed
  | (0, _) :: _ => .error .cyclic
  | (budget + 1, id) :: rest =>
    match _found : s.kind id with
    | .error e => .error e
    | .ok k => s.preorderFrom (k.children.map (budget, ·) ++ rest) (listed.push id)
termination_by (stack.map fun entry => s.pathCount entry.1 entry.2).foldr (· + ·) 0
decreasing_by
  simp [pathCount, kind_eq_ok_iff.mp _found, Function.comp_def, foldr_add _ (List.foldr ..)]

def preorder (s : Store) (root : NodeId) : Except Fault (Array NodeId) :=
  s.preorderFrom [(s.size + 1, root)] #[]

end Comprehension.Store
