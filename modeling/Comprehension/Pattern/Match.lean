import Comprehension.Pattern
import Comprehension.Store
import Comprehension.Text.Quoted

/-! Testing a node against a pattern. Captures are recorded in one list as the test proceeds; an
alternative or a captured pattern that fails takes back what was recorded inside it. -/

set_option autoImplicit false

namespace Comprehension

structure Match where
  captures : Array (String × NodeId)
  deriving DecidableEq, Repr

namespace Match

def all (m : Match) (name : String) : List NodeId :=
  (m.captures.toList.filter (·.1 = name)).map (·.2)

def first? (m : Match) (name : String) : Option NodeId := (m.all name).head?

def captureText (capture : String × NodeId) : String :=
  "(" ++ Text.quote Text.isHidden capture.1 ++ ", " ++ capture.2.text ++ ")"

def text (m : Match) : String :=
  "Match \x7b captures: [" ++ String.intercalate ", " (m.captures.toList.map captureText) ++ "] \x7d"

end Match

abbrev MatchM := StateT (Array (String × NodeId)) (Except Fault)

namespace MatchM

def remember (name : String) (id : NodeId) : MatchM Unit := modify (·.push (name, id))

/-- Runs a test and takes back its captures if it fails. -/
def orTakeBack (test : MatchM Bool) : MatchM Bool := do
  let mark := (← get).size
  let accepted ← test
  unless accepted do modify (·.take mark)
  return accepted

def andThen (first second : MatchM Bool) : MatchM Bool := do
  if ← first then second else return false

def provided (condition : Bool) (test : MatchM Bool) : MatchM Bool :=
  if condition then test else return false

end MatchM

namespace Pattern
open MatchM

section
variable (store : Store) (names : NameTable)

mutual
/-- Tests a node. The node is looked up even if the pattern accepts any, and lists of different
lengths are not looked into. -/
def test : Pattern → NodeId → MatchM Bool
  | .any none, id => do
    let _ ← store.kind id
    return true
  | .any (some name), id => do
    let _ ← store.kind id
    remember name id
    return true
  | .capture name inner, id => do
    let _ ← store.kind id
    if ← orTakeBack (test inner id) then
      remember name id
      return true
    else return false
  | .choice alternatives, id => do
    let _ ← store.kind id
    testFirst alternatives id
  | .ident name, id => do
    match ← store.kind id with
    | .ident x typeArgs => return typeArgs.isEmpty && name.accepts (names.lookup x)
    | _ => return false
  | .member target name typeArgs, id => do
    match ← store.kind id with
    | .member t x ids =>
      provided (name.accepts (names.lookup x)) <|
        andThen (test target t) <|
          provided (typeArgs.length = ids.length) <| testEach typeArgs ids
    | _ => return false
  | .call target args, id => do
    match ← store.kind id with
    | .call t ids =>
      andThen (test target t) <| provided (args.length = ids.length) <| testEach args ids
    | _ => return false
  | .record initializers, id => do
    match ← store.kind id with
    | .record ids => provided (initializers.length = ids.length) <| testEach initializers ids
    | _ => return false
  | .named name value, id => do
    match ← store.kind id with
    | .named x v => provided (name.accepts (names.lookup x)) <| test value v
    | _ => return false
  | .select projection, id => do
    match ← store.kind id with
    | .selectClause p => test projection p
    | _ => return false
  | .typeRef name args, id => do
    match ← store.kind id with
    | .typeRef x ids =>
      provided (name.accepts (names.lookup x)) <|
        provided (args.length = ids.length) <| testEach args ids
    | _ => return false

def testFirst : List Pattern → NodeId → MatchM Bool
  | [], _ => return false
  | p :: rest, id => do
    if ← orTakeBack (test p id) then return true else testFirst rest id

def testEach : List Pattern → List NodeId → MatchM Bool
  | p :: rest, id :: ids => andThen (test p id) (testEach rest ids)
  | _, _ => return true
end

def match? (p : Pattern) (root : NodeId) : Except Fault (Option Match) := do
  let (accepted, captures) ← (test store names p root).run #[]
  return if accepted then some ⟨captures⟩ else none

end

end Pattern

end Comprehension
