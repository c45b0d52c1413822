import Comprehension.Pattern.Match
import Mathlib.Data.List.Basic

/-! What a pattern means. The meaning of a pattern at a node is a list of captures or nothing, put
together from the meanings of its parts; nothing is recorded and nothing is taken back. A test records
exactly these captures, and faults where reading the nodes in the same order faults. -/

set_option autoImplicit false

namespace Comprehension

namespace MatchM

abbrev Captures := List (String × NodeId)

/-- The captures of two parts, if both have some. The second part is not looked at without those of
the first. -/
def both (first second : Except Fault (Option Captures)) : Except Fault (Option Captures) := do
  match ← first with
  | some captures => return (← second).map (captures ++ ·)
  | none => return none

def either (first second : Except Fault (Option Captures)) : Except Fault (Option Captures) := do
  match ← first with
  | some captures => return some captures
  | none => second

def only (condition : Bool) (result : Except Fault (Option Captures)) : Except Fault (Option Captures) :=
  if condition then result else .ok none

/-- A test that does what a result says, whatever has been recorded before. A refusal may leave
captures behind. -/
def Computes (test : MatchM Bool) (result : Except Fault (Option Captures)) : Prop :=
  ∀ recorded : Array (String × NodeId),
    match result with
    | .error e => test.run recorded = .error e
    | .ok none => ∃ left, test.run recorded = .ok (false, recorded ++ left)
    | .ok (some captures) => test.run recorded = .ok (true, recorded ++ captures.toArray)

def after (recorded : Array (String × NodeId)) :
    Except Fault (Option Captures) → Except Fault (Bool × Array (String × NodeId))
  | .error e => .error e
  | .ok none => .ok (false, recorded)
  | .ok (some captures) => .ok (true, recorded ++ captures.toArray)

section
variable {α β : Type} {program : MatchM α} {recorded recorded' : Array (String × NodeId)}

theorem run_bind_error {e : Fault} (failed : program.run recorded = .error e) (next : α → MatchM β) :
    (program >>= next).run recorded = .error e := by
  rw [StateT.run_bind, failed]
  rfl

theorem run_bind_ok {a : α} (done : program.run recorded = .ok (a, recorded')) (next : α → MatchM β) :
    (program >>= next).run recorded = (next a).run recorded' := by
  rw [StateT.run_bind, done]
  rfl

end

theorem computes_accept : Computes (pure true) (.ok (some [])) := by
  intro recorded
  rw [StateT.run_pure]
  simp [pure, Except.pure]

theorem computes_refuse : Computes (pure false) (.ok none) := by
  intro recorded
  exact ⟨#[], by rw [StateT.run_pure]; simp [pure, Except.pure]⟩

theorem computes_remember (name : String) (id : NodeId) :
    Computes (do remember name id; return true) (.ok (some [(name, id)])) := by
  intro recorded
  rfl

section
variable {test other : MatchM Bool} {result result' : Except Fault (Option Captures)}

/-- A test that takes back what it recorded leaves nothing behind when it refuses. -/
theorem Computes.orTakeBack_run (computes : Computes test result) (recorded : Array (String × NodeId)) :
    (orTakeBack test).run recorded = after recorded result := by
  have known := computes recorded
  rw [orTakeBack, run_bind_ok rfl]
  match result, known with
  | .error e, known => exact run_bind_error known _
  | .ok none, ⟨left, known⟩ =>
    rw [run_bind_ok known]
    change Except.ok (false, (recorded ++ left).take recorded.size) = Except.ok (false, recorded)
    simp
  | .ok (some captures), known =>
    rw [run_bind_ok known]
    rfl

theorem Computes.capture (computes : Computes test result) (name : String) (id : NodeId) :
    Computes (do if ← orTakeBack test then remember name id; return true else return false)
      (both result (.ok (some [(name, id)]))) := by
  intro recorded
  have known := computes.orTakeBack_run recorded
  match result, known with
  | .error e, known => exact run_bind_error known _
  | .ok none, known =>
    refine ⟨#[], ?_⟩
    rw [run_bind_ok known, Array.append_empty]
    rfl
  | .ok (some captures), known =>
    simp only [both]
    rw [run_bind_ok known]
    change Except.ok (true, (recorded ++ captures.toArray).push (name, id)) =
      Except.ok (true, recorded ++ (captures ++ [(name, id)]).toArray)
    simp

theorem Computes.orElse (computes : Computes test result) (alternative : Computes other result') :
    Computes (do if ← orTakeBack test then return true else other) (either result result') := by
  intro recorded
  have known := computes.orTakeBack_run recorded
  match result, known with
  | .error e, known => exact run_bind_error known _
  | .ok none, known =>
    rw [run_bind_ok known]
    exact alternative recorded
  | .ok (some captures), known => exact run_bind_ok known _

theorem Computes.andThen (computes : Computes test result) (computes' : Computes other result') :
    Computes (andThen test other) (both result result') := by
  intro recorded
  have known := computes recorded
  match result, known with
  | .error e, known => exact run_bind_error known _
  | .ok none, ⟨left, known⟩ => exact ⟨left, run_bind_ok known _⟩
  | .ok (some captures), known =>
    have known' := computes' (recorded ++ captures.toArray)
    rw [MatchM.andThen, run_bind_ok known]
    match result', known' with
    | .error e, known' => exact known'
    | .ok none, ⟨left, known'⟩ =>
      -- The captures of the first part stay behind with those of the second.
      exact ⟨captures.toArray ++ left, by simpa using known'⟩
    | .ok (some captures'), known' =>
      change other.run (recorded ++ captures.toArray) =
        Except.ok (true, recorded ++ (captures ++ captures').toArray)
      simpa using known'

theorem Computes.provided (computes : Computes test result) (condition : Bool) :
    Computes (provided condition test) (only condition result) := by
  cases condition
  · exact computes_refuse
  · exact computes

end

theorem Computes.atKind {store : Store} {id : NodeId} {test : NodeKind → MatchM Bool}
    {result : NodeKind → Except Fault (Option Captures)} (computes : ∀ k, Computes (test k) (result k)) :
    Computes (do test (← store.kind id)) (do result (← store.kind id)) := by
  cases read : store.kind id with
  | error e =>
    intro recorded
    rfl
  | ok k => exact computes k

end MatchM

namespace Pattern
open MatchM

section
variable (store : Store) (names : NameTable)

mutual
def meaning : Pattern → NodeId → Except Fault (Option Captures)
  | .any none, id => do
    let _ ← store.kind id
    return some []
  | .any (some name), id => do
    let _ ← store.kind id
    return some [(name, id)]
  | .capture name inner, id => do
    let _ ← store.kind id
    both (meaning inner id) (.ok (some [(name, id)]))
  | .choice alternatives, id => do
    let _ ← store.kind id
    meaningFirst alternatives id
  | .ident name, id => do
    match ← store.kind id with
    | .ident x typeArgs =>
      only (typeArgs.isEmpty && name.accepts (names.lookup x)) (.ok (some []))
    | _ => return none
  | .member target name typeArgs, id => do
    match ← store.kind id with
    | .member t x ids =>
      only (name.accepts (names.lookup x)) <|
        both (meaning target t) <| only (typeArgs.length = ids.length) <| meaningEach typeArgs ids
    | _ => return none
  | .call target args, id => do
    match ← store.kind id with
    | .call t ids =>
      both (meaning target t) <| only (args.length = ids.length) <| meaningEach args ids
    | _ => return none
  | .record initializers, id => do
    match ← store.kind id with
    | .record ids => only (initializers.length = ids.length) <| meaningEach initializers ids
    | _ => return none
  | .named name value, id => do
    match ← store.kind id with
    | .named x v => only (name.accepts (names.lookup x)) <| meaning value v
    | _ => return none
  | .select projection, id => do
    match ← store.kind id with
    | .selectClause p => meaning projection p
    | _ => return none
  | .typeRef name args, id => do
    match ← store.kind id with
    | .typeRef x ids =>
      only (name.accepts (names.lookup x)) <|
        only (args.length = ids.length) <| meaningEach args ids
    | _ => return none

def meaningFirst : List Pattern → NodeId → Except Fault (Option Captures)
  | [], _ => .ok none
  | p :: rest, id => either (meaning p id) (meaningFirst rest id)

def meaningEach : List Pattern → List NodeId → Except Fault (Option Captures)
  | p :: rest, id :: ids => both (meaning p id) (meaningEach rest ids)
  | _, _ => .ok (some [])
end

mutual
theorem computes_meaning : ∀ (p : Pattern) (id : NodeId),
    Computes (test store names p id) (meaning store names p id)
  | .any none, id => by
    rw [test, meaning]
    exact .atKind fun _ => computes_accept
  | .any (some name), id => by
    rw [test, meaning]
    exact .atKind fun _ => computes_remember name id
  | .capture name inner, id => by
    rw [test, meaning]
    exact .atKind fun _ => (computes_meaning inner id).capture name id
  | .choice alternatives, id => by
    rw [test, meaning]
    exact .atKind fun _ => computes_meaningFirst alternatives id
  | .ident name, id => by
    rw [test, meaning]
    refine .atKind fun k => ?_
    cases k with
    | ident x typeArgs =>
      simp only
      cases typeArgs.isEmpty && name.accepts (names.lookup x)
      · exact computes_refuse
      · exact computes_accept
    | _ => exact computes_refuse
  | .member target name typeArgs, id => by
    rw [test, meaning]
    refine .atKind fun k => ?_
    cases k with
    | member t x ids =>
      have args := (computes_meaningEach typeArgs ids).provided (typeArgs.length = ids.length)
      exact ((computes_meaning target t).andThen args).provided (name.accepts (names.lookup x))
    | _ => exact computes_refuse
  | .call target args, id => by
    rw [test, meaning]
    refine .atKind fun k => ?_
    cases k with
    | call t ids =>
      have args := (computes_meaningEach args ids).provided (args.length = ids.length)
      exact (computes_meaning target t).andThen args
    | _ => exact computes_refuse
  | .record initializers, id => by
    rw [test, meaning]
    refine .atKind fun k => ?_
    cases k with
    | record ids => exact (computes_meaningEach initializers ids).provided (initializers.length = ids.length)
    | _ => exact computes_refuse
  | .named name value, id => by
    rw [test, meaning]
    refine .atKind fun k => ?_
    cases k with
    | named x v => exact (computes_meaning value v).provided (name.accepts (names.lookup x))
    | _ => exact computes_refuse
  | .select projection, id => by
    rw [test, meaning]
    refine .atKind fun k => ?_
    cases k with
    | selectClause p => exact computes_meaning projection p
    | _ => exact computes_refuse
  | .typeRef name args, id => by
    rw [test, meaning]
    refine .atKind fun k => ?_
    cases k with
    | typeRef x ids =>
      have each := (computes_meaningEach args ids).provided (args.length = ids.length)
      exact each.provided (name.accepts (names.lookup x))
    | _ => exact computes_refuse

theorem computes_meaningFirst : ∀ (alternatives : List Pattern) (id : NodeId),
    Computes (testFirst store names alternatives id) (meaningFirst store names alternatives id)
  | [], id => by
    rw [testFirst, meaningFirst]
    exact computes_refuse
  | p :: rest, id => by
    rw [testFirst, meaningFirst]
    exact (computes_meaning p id).orElse (computes_meaningFirst rest id)

theorem computes_meaningEach : ∀ (patterns : List Pattern) (ids : List NodeId),
    Computes (testEach store names patterns ids) (meaningEach store names patterns ids)
  | p :: rest, id :: ids => by
    rw [testEach, meaningEach]
    exact (computes_meaning p id).andThen (computes_meaningEach rest ids)
  | [], _ => by
    rw [testEach, meaningEach]
    · exact computes_accept
    all_goals simp
  | _ :: _, [] => by
    rw [testEach, meaningEach]
    · exact computes_accept
    all_goals simp
end

/-- A match is the meaning of the pattern. -/
theorem match?_eq (p : Pattern) (root : NodeId) :
    p.match? store names root = (meaning store names p root).map (Option.map fun l => ⟨l.toArray⟩) := by
  have known := computes_meaning store names p root #[]
  unfold match?
  match meaning store names p root, known with
  | .error e, known =>
    simp only at known
    rw [known]
    rfl
  | .ok none, ⟨left, known⟩ =>
    rw [known]
    rfl
  | .ok (some captures), known =>
    simp only [Array.empty_append] at known
    rw [known]
    rfl

end

end Pattern

end Comprehension
