import Comprehension.Proofs.Assembly
import Comprehension.Term
import Mathlib.Algebra.Order.Group.Nat

/-! Building terms. A term that mentions no nodes spells out a tree, and building it adds that tree and
nothing else to a session. If an argument of a query is no clause, building stops at the first such query,
with everything built that comes before it. -/

set_option autoImplicit false

namespace Comprehension

namespace Term

/-! ### What terms spell out -/

mutual
/-- The tree that a term spells out. Chains of accesses and calls of members are written out, and every
key of an ordering is a node of its own. Terms that mention nodes or choose spans spell out no tree. -/
def tree? : Term → Option Tree
  | .existing _ | .raw _ | .located _ _ => none
  | .query clauses => return .node () (.query (← trees? clauses))
  | .fromClause x source => return .node () (.fromClause x none (← tree? source))
  | .typedFrom elemType x source =>
    return .node () (.fromClause x (some (← tree? elemType)) (← tree? source))
  | .letClause x value => return .node () (.letClause x (← tree? value))
  | .whereClause cond => return .node () (.whereClause (← tree? cond))
  | .orderBy keys => return .node () (.orderClause (← orderings? keys))
  | .groupBy projection key => return .node () (.groupClause (← tree? projection) (← tree? key))
  | .select projection => return .node () (.selectClause (← tree? projection))
  | .continuation preceding x => return .node () (.continuation (← tree? preceding) x)
  | .ident x typeArgs => return .node () (.ident x (← trees? typeArgs))
  | .member target x typeArgs => return .node () (.member (← tree? target) x (← trees? typeArgs))
  | .path root members =>
    some (members.foldl (fun target x => .node () (.member target x [])) (.node () (.ident root [])))
  | .call target args => return .node () (.call (← tree? target) (← trees? args))
  | .methodCall target x typeArgs args =>
    return .node () (.call (.node () (.member (← tree? target) x (← trees? typeArgs))) (← trees? args))
  | .record initializers => return .node () (.record (← trees? initializers))
  | .named x value => return .node () (.named x (← tree? value))
  | .int value => some (.node () (.literal (.int value)))
  | .str value => some (.node () (.literal (.str value)))
  | .bool value => some (.node () (.literal (.bool value)))
  | .null => some (.node () (.literal .null))
  | .binary op left right => return .node () (.binary op (← tree? left) (← tree? right))
  | .typeRef x args => return .node () (.typeRef x (← trees? args))

def trees? : List Term → Option (List Tree)
  | [] => some []
  | term :: rest => return (← tree? term) :: (← trees? rest)

def orderings? : List (Term × Direction) → Option (List Tree)
  | [] => some []
  | (key, direction) :: rest => return .node () (.ordering (← tree? key) direction) :: (← orderings? rest)
end

def parts : Term → List Term
  | .existing _ | .raw _ | .path _ _ | .int _ | .str _ | .bool _ | .null => []
  | .located _ term => [term]
  | .query clauses => clauses
  | .fromClause _ source => [source]
  | .typedFrom elemType _ source => [elemType, source]
  | .letClause _ value => [value]
  | .whereClause cond => [cond]
  | .orderBy keys => keys.map Prod.fst
  | .groupBy projection key => [projection, key]
  | .select projection => [projection]
  | .continuation preceding _ => [preceding]
  | .ident _ typeArgs => typeArgs
  | .member target _ typeArgs => target :: typeArgs
  | .call target args => target :: args
  | .methodCall target _ typeArgs args => target :: (typeArgs ++ args)
  | .record initializers => initializers
  | .named _ value => [value]
  | .binary _ left right => [left, right]
  | .typeRef _ args => args

def isClause : Term → Bool
  | .fromClause _ _ | .typedFrom _ _ _ | .letClause _ _ | .whereClause _ | .orderBy _ | .groupBy _ _
  | .select _ | .continuation _ _ => true
  | _ => false

inductive Claused : Term → Prop where
  | intro {term : Term} (clauses : ∀ l, term = .query l → ∀ c ∈ l, c.isClause = true)
      (parts : ∀ p ∈ term.parts, Claused p) : Claused term

inductive Reaches : Term → List Term → Term → Prop where
  | here (term : Term) : Reaches term [] term
  | part {term part inner : Term} {before after earlier : List Term} (split : term.parts = before ++ part :: after)
      (inside : Reaches part earlier inner) : Reaches term (before ++ earlier) inner

end Term

namespace Session

/-! ### Programs that leave one tree -/

section
variable {span : Span} {ts after : List (Marked NodeId String)}

/-- The program makes one tree out of these, and its root is the last node. Nothing is said of a program
for no tree. -/
def Leaves (span : Span) (ts : List (Marked NodeId String)) (program : BuildM NodeId) (tree? : Option Tree) : Prop :=
  ∀ (s s₁ : Session) (tree : Tree), Assembles span s s₁ ts → tree? = some tree →
    ∃ t s₂, program s₁ = .ok t.mark s₂ ∧ Assembles span s s₂ [t] ∧ erased t = tree ∧
      t.mark.index + 1 = s₂.store.size

def LeavesAll (span : Span) (program : BuildM (List NodeId)) (trees? : Option (List Tree)) : Prop :=
  ∀ (s : Session) (trees : List Tree), s.names.Reachable → trees? = some trees →
    ∃ ts s₁, program s = .ok (ts.map Marked.mark) s₁ ∧ Assembles span s s₁ ts ∧ ts.map erased = trees

namespace Leaves

theorem bind {program : BuildM NodeId} {tree? : Option Tree} {next : NodeId → BuildM NodeId}
    {f : Tree → Option Tree} (first : Leaves span [] program tree?)
    (rest : ∀ t, Leaves span (ts ++ [t]) (next t.mark) (f (erased t))) :
    Leaves span ts (program >>= next) (tree? >>= f) := by
  intro s s₁ tree assembles spelled
  obtain ⟨tree₁, spelled₁, spelled⟩ := Option.bind_eq_some_iff.mp spelled
  obtain ⟨t, s₂, done, made, rfl, -⟩ := first s₁ s₁ tree₁ (.nil assembles.reachable) spelled₁
  obtain ⟨u, s₃, done', rest⟩ := rest t s s₂ tree (assembles.append made) spelled
  exact ⟨u, s₃, (Program.bind_ok done next).trans done', rest⟩

theorem alloc (k : Kind String (Marked NodeId String)) (unnamed : k.names = []) :
    Leaves span k.children (BuildM.alloc span (k.map (fun _ => Name.empty) Marked.mark))
      (some (.node () (k.map id erased))) := by
  intro s s₁ tree assembles spelled
  cases spelled
  have made := assembles.alloc_all Name.empty (by simp [unnamed])
  exact ⟨_, _, rfl, made, erased_node .., (Store.size_alloc ..).symm⟩

theorem allocNamed_bind (k : Kind String (Marked NodeId String)) {text : String} (named : k.names = [text])
    {next : NodeId → BuildM NodeId} {tree? : Option Tree}
    (rest : ∀ t, erased t = .node () (k.map id erased) → Leaves span (t :: after) (next t.mark) tree?) :
    Leaves span (k.children ++ after) (BuildM.intern text >>= fun x =>
      BuildM.alloc span (k.map (fun _ => x) Marked.mark) >>= next) tree? := by
  intro s s₁ tree assembles spelled
  have known := assembles.reachable.consistent.intern_text text
  have made := (assembles.intern text).alloc_first (s₁.names.intern text).1 (by simpa [named] using known)
  exact rest _ (erased_node ..) s _ tree made spelled

theorem allocNamed (k : Kind String (Marked NodeId String)) {text : String} (named : k.names = [text]) :
    Leaves span k.children (BuildM.intern text >>= fun x => BuildM.alloc span (k.map (fun _ => x) Marked.mark))
      (some (.node () (k.map id erased))) := by
  intro s s₁ tree assembles spelled
  cases spelled
  have known := assembles.reachable.consistent.intern_text text
  have made := (assembles.intern text).alloc_all (s₁.names.intern text).1 (by simpa [named] using known)
  exact ⟨_, _, rfl, made, erased_node .., (Store.size_alloc ..).symm⟩

end Leaves

theorem LeavesAll.bind {program : BuildM (List NodeId)} {trees? : Option (List Tree)}
    {next : List NodeId → BuildM NodeId} {f : List Tree → Option Tree} (first : LeavesAll span program trees?)
    (rest : ∀ us, trees? = some (us.map erased) →
      Leaves span (ts ++ us) (next (us.map Marked.mark)) (f (us.map erased))) :
    Leaves span ts (program >>= next) (trees? >>= f) := by
  intro s s₁ tree assembles spelled
  obtain ⟨trees, spelled₁, spelled⟩ := Option.bind_eq_some_iff.mp spelled
  obtain ⟨us, s₂, done, made, rfl⟩ := first s₁ trees assembles.reachable spelled₁
  obtain ⟨u, s₃, done', rest⟩ := rest us spelled₁ s s₂ tree (assembles.append made) spelled
  exact ⟨u, s₃, (Program.bind_ok done next).trans done', rest⟩

theorem LeavesAll.nil : LeavesAll span (pure []) (some []) := by
  rintro s trees reachable ⟨⟩
  exact ⟨[], s, rfl, .nil reachable, rfl⟩

theorem LeavesAll.cons {program : BuildM NodeId} {programs : BuildM (List NodeId)} {tree? : Option Tree}
    {trees? : Option (List Tree)} (first : Leaves span [] program tree?) (rest : LeavesAll span programs trees?) :
    LeavesAll span (program >>= fun id => programs >>= fun ids => pure (id :: ids))
      (tree? >>= fun tree => trees? >>= fun trees => pure (tree :: trees)) := by
  intro s trees reachable spelled
  obtain ⟨tree, spelled₁, spelled⟩ := Option.bind_eq_some_iff.mp spelled
  obtain ⟨trees, spelled₂, ⟨⟩⟩ := Option.bind_eq_some_iff.mp spelled
  obtain ⟨t, s₁, done, made, rfl, -⟩ := first s s tree (.nil reachable) spelled₁
  obtain ⟨ts, s₂, done', made', rfl⟩ := rest s₁ trees made.reachable spelled₂
  refine ⟨t :: ts, s₂, ?_, made.append made', rfl⟩
  rw [Program.bind_ok done, Program.bind_ok done']
  rfl

/-! ### Orderings, chains and queries -/

def LeavesKeys (span : Span) (program : BuildM (List (NodeId × Direction))) (trees? : Option (List Tree)) : Prop :=
  ∀ (s : Session) (trees : List Tree), s.names.Reachable → trees? = some trees →
    ∃ (keys : List (Marked NodeId String × Direction)) (s₁ : Session),
      program s = .ok (keys.map fun key => (key.1.mark, key.2)) s₁ ∧ Assembles span s s₁ (keys.map Prod.fst) ∧
      keys.map (fun key => .node () (.ordering (erased key.1) key.2)) = trees

theorem LeavesKeys.nil : LeavesKeys span (pure []) (some []) := by
  rintro s trees reachable ⟨⟩
  exact ⟨[], s, rfl, .nil reachable, rfl⟩

theorem LeavesKeys.cons {program : BuildM NodeId} {programs : BuildM (List (NodeId × Direction))}
    {tree? : Option Tree} {trees? : Option (List Tree)} (direction : Direction) (first : Leaves span [] program tree?)
    (rest : LeavesKeys span programs trees?) :
    LeavesKeys span (program >>= fun id => programs >>= fun ids => pure ((id, direction) :: ids))
      (tree? >>= fun tree => trees? >>= fun trees => pure (.node () (.ordering tree direction) :: trees)) := by
  intro s trees reachable spelled
  obtain ⟨tree, spelled₁, spelled⟩ := Option.bind_eq_some_iff.mp spelled
  obtain ⟨trees, spelled₂, ⟨⟩⟩ := Option.bind_eq_some_iff.mp spelled
  obtain ⟨t, s₁, done, made, rfl, -⟩ := first s s tree (.nil reachable) spelled₁
  obtain ⟨keys, s₂, done', made', rfl⟩ := rest s₁ trees made.reachable spelled₂
  refine ⟨(t, direction) :: keys, s₂, ?_, made.append made', rfl⟩
  rw [Program.bind_ok done, Program.bind_ok done']
  rfl

theorem Assembles.orderings {s s₁ : Session} (ts : List (Marked NodeId String))
    (keys : List (Marked NodeId String × Direction)) (assembles : Assembles span s s₁ (ts ++ keys.map Prod.fst)) :
    ∃ us s₂, ((keys.map fun key => (key.1.mark, key.2)).mapM fun (key, direction) =>
        BuildM.alloc span (.ordering key direction) : BuildM _) s₁ = .ok (us.map Marked.mark) s₂ ∧
      Assembles span s s₂ (ts ++ us) ∧
      us.map erased = keys.map fun key => .node () (.ordering (erased key.1) key.2) := by
  induction keys generalizing s₁ ts with
  | nil => exact ⟨[], s₁, rfl, assembles, rfl⟩
  | cons entry keys ih =>
    obtain ⟨key, direction⟩ := entry
    have made := Assembles.alloc (k := .ordering key direction) assembles Name.empty (by simp [Kind.names])
    rw [List.append_cons] at made
    obtain ⟨us, s₂, done, made', same⟩ := ih _ made
    refine ⟨_ :: us, s₂, ?_, by rwa [List.append_cons], ?_⟩
    · exact Program.mapM_cons_ok rfl done
    · rw [List.map_cons, same, erased_node]
      rfl

theorem LeavesKeys.orderings {program : BuildM (List (NodeId × Direction))} {trees? : Option (List Tree)}
    (keys : LeavesKeys span program trees?) :
    LeavesAll span (program >>= fun keys => keys.mapM fun (key, direction) =>
      BuildM.alloc span (.ordering key direction)) trees? := by
  intro s trees reachable spelled
  obtain ⟨keys, s₁, done, made, rfl⟩ := keys s trees reachable spelled
  obtain ⟨us, s₂, done', made', same⟩ := Assembles.orderings [] keys made
  exact ⟨us, s₂, (Program.bind_ok done _).trans done', made', same⟩

theorem Leaves.path {program : BuildM NodeId} {tree : Tree} (first : Leaves span [] program (some tree))
    (members : List String) :
    Leaves span [] (program >>= fun root => members.foldlM (fun target x => do
      BuildM.alloc span (.member target (← BuildM.intern x) [])) root)
      (some (members.foldl (fun target x => .node () (.member target x [])) tree)) := by
  induction members generalizing program tree with
  | nil =>
    have same : (program >>= fun root => pure root) = program := bind_pure program
    rw [← same] at first
    exact first
  | cons x members ih =>
    have step : Leaves span [] (program >>= fun target => BuildM.intern x >>= fun x =>
        BuildM.alloc span (.member target x [])) (some (.node () (.member tree x []))) :=
      first.bind (f := fun tree => some (.node () (.member tree x []))) fun t => .allocNamed (.member t x []) rfl
    have rest := ih step
    rw [bind_assoc] at rest
    exact rest

theorem Shows.kind? {s : Session} {t : Marked NodeId String} (shows : s.Shows t) :
    ∃ kind, s.store.kind? t.mark = some kind ∧ kind.isClause = t.kind.isClause := by
  obtain ⟨l, holds, -, rfl⟩ := shows
  refine ⟨l.cell, ?_, ?_⟩
  · rw [Marked.mark_map]
    exact holds.kind?
  · rw [Marked.cell, Marked.kind_map, Kind.isClause_map, Kind.isClause_map]

theorem requireClause_eq {s : Session} {t : Marked NodeId String} (shows : s.Shows t) :
    BuildM.requireClause t.mark s = if t.kind.isClause then .ok () s else .error .notClause s := by
  obtain ⟨kind, here, same⟩ := shows.kind?
  rw [BuildM.requireClause, Store.kind_eq_ok_iff.mpr here]
  simp [same]

/-- Nodes that are all clauses pass, and otherwise the first that is none stops the program. -/
theorem forM_requireClause_eq {s : Session} (shows : ∀ t ∈ ts, s.Shows t) :
    (ts.map Marked.mark).forM BuildM.requireClause s =
      if ts.all (·.kind.isClause) then .ok () s else .error .notClause s := by
  induction ts with
  | nil => rfl
  | cons t ts ih =>
    obtain ⟨first, rest⟩ := List.forall_mem_cons.mp shows
    rw [List.map_cons, Program.forM_cons, List.all_cons]
    have checked := requireClause_eq first
    cases clause : t.kind.isClause with
    | true =>
      rw [clause, if_pos rfl] at checked
      rw [Program.bind_ok checked, ih rest, Bool.true_and]
    | false =>
      rw [clause, if_neg Bool.false_ne_true] at checked
      rw [Program.bind_error checked, Bool.false_and, if_neg Bool.false_ne_true]

theorem Leaves.query (clauses : ts.all (·.kind.isClause) = true) :
    Leaves span ts (BuildM.query span (ts.map Marked.mark)) (some (.node () (.query (ts.map erased)))) := by
  intro s s₁ tree assembles spelled
  have checked := forM_requireClause_eq assembles.shows
  rw [if_pos clauses] at checked
  rw [BuildM.query, Program.bind_ok checked]
  exact Leaves.alloc (.query ts) rfl s s₁ tree assembles spelled

end

end Session

namespace Term
open Session

theorem Claused.part {term p : Term} (claused : term.Claused) (part : p ∈ term.parts) : p.Claused := by
  obtain ⟨-, parts⟩ := claused
  exact parts p part

theorem isClause_path (members : List String) {tree : Tree} (other : tree.kind.isClause = false) :
    (members.foldl (fun target x => .node () (.member target x [])) tree).kind.isClause = false := by
  induction members generalizing tree with
  | nil => exact other
  | cons x members ih => exact ih rfl

theorem isClause_tree? {term : Term} {tree : Tree} (spelled : term.tree? = some tree) :
    tree.kind.isClause = term.isClause := by
  cases term with
  | path root members =>
    cases spelled
    exact isClause_path members rfl
  | existing | raw | located => cases spelled
  | int | str | bool | null =>
    cases spelled
    rfl
  | typedFrom | groupBy | member | call | binary =>
    obtain ⟨_, -, spelled⟩ := Option.bind_eq_some_iff.mp spelled
    obtain ⟨_, -, ⟨⟩⟩ := Option.bind_eq_some_iff.mp spelled
    rfl
  | methodCall =>
    obtain ⟨_, -, spelled⟩ := Option.bind_eq_some_iff.mp spelled
    obtain ⟨_, -, spelled⟩ := Option.bind_eq_some_iff.mp spelled
    obtain ⟨_, -, ⟨⟩⟩ := Option.bind_eq_some_iff.mp spelled
    rfl
  | _ =>
    obtain ⟨_, -, ⟨⟩⟩ := Option.bind_eq_some_iff.mp spelled
    rfl

theorem all_isClause {terms : List Term} {ts : List (Marked NodeId String)}
    (spelled : trees? terms = some (ts.map erased)) : ts.all (·.kind.isClause) = terms.all isClause := by
  induction terms generalizing ts with
  | nil =>
    cases List.map_eq_nil_iff.mp (Option.some.inj spelled).symm
    rfl
  | cons term terms ih =>
    obtain ⟨tree, first, spelled⟩ := Option.bind_eq_some_iff.mp spelled
    obtain ⟨trees, rest, same⟩ := Option.bind_eq_some_iff.mp spelled
    obtain ⟨t, ts, rfl, rfl, rfl⟩ := List.map_eq_cons_iff.mp (Option.some.inj same).symm
    have clause := isClause_tree? first
    rw [erased, Marked.kind_map, Kind.isClause_map] at clause
    rw [List.all_cons, List.all_cons, clause, ih rest]

theorem Claused.clauses {l : List Term} (claused : (Term.query l).Claused) : l.all isClause = true := by
  obtain ⟨clauses, -⟩ := claused
  exact List.all_eq_true.mpr (clauses l rfl)

-- One case for every kind of term. The trees of the parts are taken in the order in which they are built.
mutual
/-- Building a term leaves the tree that it spells out. -/
theorem leaves (span : Span) : (term : Term) → term.Claused → Leaves span [] (term.build span) term.tree?
  | .existing _, _ => fun _ _ _ _ spelled => by cases spelled
  | .raw _, _ => fun _ _ _ _ spelled => by cases spelled
  | .located _ _, _ => fun _ _ _ _ spelled => by cases spelled
  | .query clauses, claused =>
    (leavesAll span clauses fun p part => claused.part part).bind fun ts spelled =>
      .query ((all_isClause spelled).trans claused.clauses)
  | .fromClause x source, claused =>
    (leaves span source (claused.part (by simp [parts]))).bind fun t => .allocNamed (.fromClause x none t) rfl
  | .typedFrom elemType x source, claused =>
    (leaves span elemType (claused.part (by simp [parts]))).bind fun t =>
      (leaves span source (claused.part (by simp [parts]))).bind fun u =>
        .allocNamed (.fromClause x (some t) u) rfl
  | .letClause x value, claused =>
    (leaves span value (claused.part (by simp [parts]))).bind fun t => .allocNamed (.letClause x t) rfl
  | .whereClause cond, claused =>
    (leaves span cond (claused.part (by simp [parts]))).bind fun t => .alloc (.whereClause t) rfl
  | .orderBy keys, claused => by
    rw [build, ← bind_assoc]
    exact (leavesKeys span keys fun p part => claused.part part).orderings.bind fun ts _ =>
      .alloc (.orderClause ts) rfl
  | .groupBy projection key, claused =>
    (leaves span projection (claused.part (by simp [parts]))).bind fun t =>
      (leaves span key (claused.part (by simp [parts]))).bind fun u => .alloc (.groupClause t u) rfl
  | .select projection, claused =>
    (leaves span projection (claused.part (by simp [parts]))).bind fun t => .alloc (.selectClause t) rfl
  | .continuation preceding x, claused =>
    (leaves span preceding (claused.part (by simp [parts]))).bind fun t => .allocNamed (.continuation t x) rfl
  | .ident x typeArgs, claused =>
    (leavesAll span typeArgs fun _ part => claused.part part).bind fun ts _ => .allocNamed (.ident x ts) rfl
  | .member target x typeArgs, claused =>
    (leaves span target (claused.part (by simp [parts]))).bind fun t =>
      (leavesAll span typeArgs fun _ part => claused.part (by simp [parts, part])).bind fun ts _ =>
        .allocNamed (.member t x ts) rfl
  | .path root members, _ => by
    rw [build, ← bind_assoc]
    exact Leaves.path (.allocNamed (.ident root []) rfl) members
  | .call target args, claused =>
    (leaves span target (claused.part (by simp [parts]))).bind fun t =>
      (leavesAll span args fun _ part => claused.part (by simp [parts, part])).bind fun ts _ =>
        .alloc (.call t ts) rfl
  | .methodCall target x typeArgs args, claused =>
    (leaves span target (claused.part (by simp [parts]))).bind fun t =>
      (leavesAll span typeArgs fun _ part => claused.part (by simp [parts, part])).bind fun ts _ =>
        (leavesAll span args fun _ part => claused.part (by simp [parts, part])).bind fun us _ =>
          -- The access to the method is a node for which the term has no part.
          .allocNamed_bind (.member t x ts) rfl
            fun callee (is : _ = Marked.node () (.member (erased t) x (ts.map erased))) => by
            rw [← is]
            exact .alloc (.call callee us) rfl
  | .record initializers, claused =>
    (leavesAll span initializers fun _ part => claused.part part).bind fun ts _ => .alloc (.record ts) rfl
  | .named x value, claused =>
    (leaves span value (claused.part (by simp [parts]))).bind fun t => .allocNamed (.named x t) rfl
  | .int value, _ => .alloc (.literal (.int value)) rfl
  | .str value, _ => .allocNamed (.literal (.str value)) rfl
  | .bool value, _ => .alloc (.literal (.bool value)) rfl
  | .null, _ => .alloc (.literal .null) rfl
  | .binary op left right, claused =>
    (leaves span left (claused.part (by simp [parts]))).bind fun t =>
      (leaves span right (claused.part (by simp [parts]))).bind fun u => .alloc (.binary op t u) rfl
  | .typeRef x args, claused =>
    (leavesAll span args fun _ part => claused.part part).bind fun ts _ => .allocNamed (.typeRef x ts) rfl

theorem leavesAll (span : Span) : (terms : List Term) → (∀ p ∈ terms, p.Claused) →
    LeavesAll span (buildAll span terms) (trees? terms)
  | [], _ => .nil
  | term :: rest, claused =>
    .cons (leaves span term (claused term List.mem_cons_self))
      (leavesAll span rest fun p part => claused p (List.mem_cons_of_mem _ part))

theorem leavesKeys (span : Span) : (keys : List (Term × Direction)) → (∀ p ∈ keys.map Prod.fst, p.Claused) →
    LeavesKeys span (buildKeys span keys) (orderings? keys)
  | [], _ => .nil
  | (term, direction) :: rest, claused =>
    .cons direction (leaves span term (claused term List.mem_cons_self))
      (leavesKeys span rest fun p part => claused p (List.mem_cons_of_mem _ part))
end

/-! ### Where building stops -/

def BeginsWith (span : Span) (terms : List Term) (program : BuildM NodeId) : Prop :=
  ∀ (s s' : Session) (fault : Fault), buildAll span terms s = .error fault s' → program s = .error fault s'

section
variable {span : Span} {terms : List Term}

theorem BeginsWith.nil (program : BuildM NodeId) : BeginsWith span [] program := by
  intro s s' fault failed
  cases failed

theorem BeginsWith.cons {term : Term} {next : NodeId → BuildM NodeId}
    (rest : ∀ id, BeginsWith span terms (next id)) : BeginsWith span (term :: terms) (term.build span >>= next) := by
  intro s s' fault failed
  cases built : term.build span s with
  | error fault₁ s₁ =>
    rw [buildAll, Program.bind_error built] at failed
    cases failed
    exact Program.bind_error built next
  | ok id s₁ =>
    rw [buildAll, Program.bind_ok built] at failed
    rw [Program.bind_ok built]
    cases others : buildAll span terms s₁ with
    | error fault₂ s₂ =>
      rw [Program.bind_error others] at failed
      cases failed
      exact rest id s₁ _ _ others
    | ok ids s₂ =>
      rw [Program.bind_ok others] at failed
      cases failed

theorem BeginsWith.all {next : List NodeId → BuildM NodeId} (more : List Term)
    (rest : ∀ ids, BeginsWith span terms (next ids)) :
    BeginsWith span (more ++ terms) (buildAll span more >>= next) := by
  induction more generalizing next with
  | nil =>
    intro s s' fault failed
    exact rest [] s s' fault failed
  | cons term more ih =>
    rw [buildAll, bind_assoc]
    refine .cons fun id => ?_
    simp only [bind_assoc, pure_bind]
    exact ih fun ids => rest (id :: ids)

theorem BeginsWith.last {next : List NodeId → BuildM NodeId} (terms : List Term) :
    BeginsWith span terms (buildAll span terms >>= next) := by
  have all : BeginsWith span (terms ++ []) (buildAll span terms >>= next) := .all terms fun ids => .nil (next ids)
  rwa [List.append_nil] at all

theorem BeginsWith.keys {next : List (NodeId × Direction) → BuildM NodeId} (keys : List (Term × Direction)) :
    BeginsWith span (keys.map Prod.fst) (buildKeys span keys >>= next) := by
  induction keys generalizing next with
  | nil => exact .nil _
  | cons entry keys ih =>
    obtain ⟨term, direction⟩ := entry
    rw [buildKeys, bind_assoc]
    refine .cons fun id => ?_
    simp only [bind_assoc]
    exact ih

theorem beginsWith_parts {term : Term} {tree : Tree} (spelled : term.tree? = some tree) :
    BeginsWith span term.parts (term.build span) := by
  cases term with
  | existing | raw | located => cases spelled
  | path | int | str | bool | null => exact .nil _
  | orderBy keys => exact .keys keys
  | query | ident | record | typeRef => exact .last _
  | member | call => exact .cons fun _ => .last _
  | methodCall => exact .cons fun _ => .all _ fun _ => .last _
  | typedFrom | groupBy | binary => exact .cons fun _ => .cons fun _ => .nil _
  | _ => exact .cons fun _ => .nil _

theorem buildAll_append (terms more : List Term) : buildAll span (terms ++ more) = do
    let ids ← buildAll span terms
    let ids' ← buildAll span more
    return ids ++ ids' := by
  induction terms with
  | nil => simp [buildAll]
  | cons term terms ih => simp [buildAll, ih]

theorem trees?_cons {term : Term} {tree : Tree} {trees : List Tree} (first : term.tree? = some tree)
    (rest : trees? terms = some trees) : trees? (term :: terms) = some (tree :: trees) := by
  rw [trees?, first, rest]
  rfl

theorem trees?_append {more : List Term} {trees trees' : List Tree} (first : trees? terms = some trees)
    (second : trees? more = some trees') : trees? (terms ++ more) = some (trees ++ trees') := by
  induction terms generalizing trees with
  | nil =>
    cases first
    exact second
  | cons term terms ih =>
    obtain ⟨tree, spelled, first⟩ := Option.bind_eq_some_iff.mp first
    obtain ⟨trees, rest, ⟨⟩⟩ := Option.bind_eq_some_iff.mp first
    exact trees?_cons spelled (ih rest)

theorem exists_of_trees?_append {more : List Term} {trees : List Tree} (spelled : trees? (terms ++ more) = some trees) :
    ∃ trees₁ trees₂, trees? terms = some trees₁ ∧ trees? more = some trees₂ := by
  induction terms generalizing trees with
  | nil => exact ⟨[], trees, rfl, spelled⟩
  | cons term terms ih =>
    obtain ⟨tree, first, spelled⟩ := Option.bind_eq_some_iff.mp spelled
    obtain ⟨trees, rest, -⟩ := Option.bind_eq_some_iff.mp spelled
    obtain ⟨trees₁, trees₂, rest, last⟩ := ih rest
    exact ⟨tree :: trees₁, trees₂, trees?_cons first rest, last⟩

theorem exists_trees?_keys {keys : List (Term × Direction)} {trees : List Tree}
    (spelled : orderings? keys = some trees) : ∃ trees, trees? (keys.map Prod.fst) = some trees := by
  induction keys generalizing trees with
  | nil => exact ⟨[], rfl⟩
  | cons entry keys ih =>
    obtain ⟨tree, first, spelled⟩ := Option.bind_eq_some_iff.mp spelled
    obtain ⟨trees, rest, -⟩ := Option.bind_eq_some_iff.mp spelled
    obtain ⟨trees, rest⟩ := ih rest
    exact ⟨tree :: trees, trees?_cons first rest⟩

theorem exists_trees?_parts {term : Term} {tree : Tree} (spelled : term.tree? = some tree) :
    ∃ trees, trees? term.parts = some trees := by
  cases term with
  | existing | raw | located => cases spelled
  | path | int | str | bool | null => exact ⟨[], rfl⟩
  | orderBy keys =>
    obtain ⟨trees, spelled, -⟩ := Option.bind_eq_some_iff.mp spelled
    exact exists_trees?_keys spelled
  | query | ident | record | typeRef =>
    obtain ⟨trees, spelled, -⟩ := Option.bind_eq_some_iff.mp spelled
    exact ⟨trees, spelled⟩
  | member | call =>
    obtain ⟨tree, first, spelled⟩ := Option.bind_eq_some_iff.mp spelled
    obtain ⟨trees, rest, -⟩ := Option.bind_eq_some_iff.mp spelled
    exact ⟨tree :: trees, trees?_cons first rest⟩
  | methodCall =>
    obtain ⟨tree, first, spelled⟩ := Option.bind_eq_some_iff.mp spelled
    obtain ⟨trees, types, spelled⟩ := Option.bind_eq_some_iff.mp spelled
    obtain ⟨trees', args, -⟩ := Option.bind_eq_some_iff.mp spelled
    exact ⟨tree :: (trees ++ trees'), trees?_cons first (trees?_append types args)⟩
  | typedFrom | groupBy | binary =>
    obtain ⟨tree, first, spelled⟩ := Option.bind_eq_some_iff.mp spelled
    obtain ⟨tree', second, -⟩ := Option.bind_eq_some_iff.mp spelled
    exact ⟨[tree, tree'], trees?_cons first (trees?_cons second rfl)⟩
  | _ =>
    obtain ⟨tree, first, -⟩ := Option.bind_eq_some_iff.mp spelled
    exact ⟨[tree], trees?_cons first rfl⟩

theorem sizeOf_lt_of_part {term p : Term} (part : p ∈ term.parts) : sizeOf p < sizeOf term := by
  cases term with
  | existing | raw | path | int | str | bool | null => cases part
  | orderBy keys =>
    obtain ⟨key, member, rfl⟩ := List.mem_map.mp part
    have small := List.sizeOf_lt_of_mem member
    obtain ⟨term, direction⟩ := key
    simp at small ⊢
    omega
  | query l | ident _ l | record l | typeRef _ l =>
    have small : sizeOf p < sizeOf l := List.sizeOf_lt_of_mem part
    simp
    omega
  | member target _ l | call target l =>
    rcases List.mem_cons.mp part with rfl | part
    · simp
      omega
    · have small := List.sizeOf_lt_of_mem part
      simp
      omega
  | methodCall target _ typeArgs args =>
    rcases List.mem_cons.mp part with rfl | part
    · simp
      omega
    · rcases List.mem_append.mp part with part | part
      · have small := List.sizeOf_lt_of_mem part
        simp
        omega
      · have small := List.sizeOf_lt_of_mem part
        simp
        omega
  | typedFrom | groupBy | binary =>
    rcases List.mem_cons.mp part with rfl | part
    · simp
      omega
    · cases List.mem_singleton.mp part
      simp
  | _ =>
    cases List.mem_singleton.mp part
    simp
    try omega

/-- A term that is not in order, although its parts are, is a query with something else than clauses. -/
theorem exists_query_of_not_claused {term : Term} (other : ¬ term.Claused) (fine : ∀ p ∈ term.parts, p.Claused) :
    ∃ l, term = .query l ∧ l.all isClause = false := by
  by_contra none
  refine other (.intro (fun l is c member => ?_) fine)
  by_contra clause
  exact none ⟨l, is, List.all_eq_false.mpr ⟨c, member, clause⟩⟩

theorem exists_first_not_claused (loose : ¬ ∀ p ∈ terms, p.Claused) :
    ∃ before p after, terms = before ++ p :: after ∧ (∀ b ∈ before, b.Claused) ∧ ¬ p.Claused := by
  classical
  obtain ⟨q, member, other⟩ : ∃ p ∈ terms, ¬ p.Claused := by simpa using loose
  obtain ⟨p, found⟩ : ∃ p, terms.find? (fun p => ¬ p.Claused) = some p :=
    Option.isSome_iff_exists.mp (List.find?_isSome.mpr ⟨q, member, by simpa using other⟩)
  obtain ⟨stops, before, after, split, fine⟩ := List.find?_eq_some_iff_append.mp found
  exact ⟨before, p, after, split, by simpa using fine, by simpa using stops⟩

/-- Building stops at the first query with an argument that is no clause. All that comes before it has been
built, and it has not. -/
theorem build_stops (span : Span) {term : Term} {tree : Tree} (spelled : term.tree? = some tree)
    (other : ¬ term.Claused) {s : Session} (reachable : s.names.Reachable) :
    ∃ earlier clauses ts s', Reaches term earlier (.query clauses) ∧ (∀ p ∈ earlier ++ clauses, p.Claused) ∧
      clauses.all isClause = false ∧ trees? (earlier ++ clauses) = some (ts.map erased) ∧
      buildAll span (earlier ++ clauses) s = .ok (ts.map Marked.mark) s' ∧ Assembles span s s' ts ∧
      term.build span s = .error .notClause s' := by
  induction size : sizeOf term using Nat.strong_induction_on generalizing term tree s with
  | _ n ih =>
    obtain ⟨trees, partTrees⟩ := exists_trees?_parts spelled
    by_cases parts : ∀ p ∈ term.parts, p.Claused
    · -- All parts are built, and one of them is no clause.
      obtain ⟨l, rfl, mixed⟩ := exists_query_of_not_claused other parts
      have clauseTrees : trees? l = some trees := partTrees
      obtain ⟨ts, s', done, made, rfl⟩ := leavesAll span l parts s trees reachable clauseTrees
      have failed := forM_requireClause_eq made.shows
      rw [all_isClause clauseTrees, mixed, if_neg Bool.false_ne_true] at failed
      refine ⟨[], l, ts, s', .here _, parts, mixed, partTrees, done, made, ?_⟩
      rw [build, Program.bind_ok done, BuildM.query, Program.bind_error failed]
    · -- The parts before the first that is not in order are built, and building that one stops.
      obtain ⟨before, p, after, split, fine, stops⟩ := exists_first_not_claused parts
      rw [split] at partTrees
      obtain ⟨trees₁, trees₂, spelled₁, spelled₂⟩ := exists_of_trees?_append partTrees
      obtain ⟨tree', spelled', -⟩ := Option.bind_eq_some_iff.mp spelled₂
      obtain ⟨us, s₁, done, made, rfl⟩ := leavesAll span before fine s trees₁ reachable spelled₁
      have small : sizeOf p < n := size ▸ sizeOf_lt_of_part (by simp [split])
      obtain ⟨earlier, clauses, ts, s', reaches, claused, mixed, spelled₃, done', made', failed⟩ :=
        ih _ small spelled' stops made.reachable rfl
      refine ⟨before ++ earlier, clauses, us ++ ts, s', .part split reaches, ?_, mixed, ?_, ?_, made.append made', ?_⟩
      · rw [List.append_assoc]
        exact List.forall_mem_append.mpr ⟨fine, claused⟩
      · rw [List.append_assoc, List.map_append]
        exact trees?_append spelled₁ spelled₃
      · rw [List.append_assoc, buildAll_append, Program.bind_ok done, Program.bind_ok done', List.map_append]
        rfl
      · refine beginsWith_parts spelled s s' .notClause ?_
        rw [split, buildAll_append, Program.bind_ok done, buildAll, Program.bind_error (Program.bind_error failed _)]

end

/-- Let a term spell out a tree, and let all its queries be made of clauses. Then building it returns the last
new node, which stands for that tree. The session has grown by the nodes of the tree and by nothing else:
each has the span, its children have smaller numbers, and whatever was there is as it was. If some query
is not made of clauses, building stops at the first such query, after all that comes before it and before
the query takes a slot. -/
theorem build_faithful (span : Span) {session : Session} (reachable : session.names.Reachable) {term : Term}
    {tree : Tree} (spelled : term.tree? = some tree) :
    (term.Claused → ∃ id session', term.build span session = .ok id session' ∧
      session'.store.unfold session'.names id = .ok tree ∧ Adds span session session' tree.marks.length ∧
      id.index + 1 = session'.store.size) ∧
    (¬ term.Claused → ∃ earlier clauses trees ids session', Reaches term earlier (.query clauses) ∧
      (∀ p ∈ earlier ++ clauses, p.Claused) ∧ (∃ c ∈ clauses, c.isClause = false) ∧
      trees? (earlier ++ clauses) = some trees ∧ buildAll span (earlier ++ clauses) session = .ok ids session' ∧
      Adds span session session' (trees.flatMap Marked.marks).length ∧
      term.build span session = .error .notClause session') := by
  constructor
  · intro claused
    obtain ⟨t, session', done, made, rfl, last⟩ :=
      term.leaves span claused session session tree (.nil reachable) spelled
    refine ⟨t.mark, session', done, (made.shows t List.mem_cons_self).unfold_eq, ?_, last⟩
    rw [length_marks_erased, ← List.flatMap_singleton Marked.marks t]
    exact made.adds
  · intro other
    obtain ⟨earlier, clauses, ts, session', reaches, claused, mixed, spelled', done, made, failed⟩ :=
      build_stops span spelled other reachable
    have count : ((ts.map erased).flatMap Marked.marks).length = (ts.flatMap Marked.marks).length := by
      simp only [List.length_flatMap, List.map_map, Function.comp_def, length_marks_erased]
    exact ⟨earlier, clauses, _, _, session', reaches, claused, by simpa using mixed, spelled', done,
      count ▸ made.adds, failed⟩

/-- `from x in db.xs orderby x descending select x.f(3)` after what a session has already, and
`0 + (select 1 2)`, of which two literals and a clause are built. -/
theorem build_faithful_ordered :
    let session : Session := ⟨⟨#[⟨.literal .null, .none⟩]⟩, (NameTable.new.intern "xs").2⟩
    let ordered : Term := .query [.fromClause "x" (.path "db" ["xs"]), .orderBy [(.ident "x" [], .descending)],
      .select (.methodCall (.ident "x" []) "f" [] [.int 3])]
    let mixed : Term := .binary .add (.int 0) (.query [.select (.int 1), .int 2])
    session.names.Reachable ∧ ordered.Claused ∧ ¬ mixed.Claused ∧
      (∃ tree session', ordered.tree? = some tree ∧ ordered.build ⟨2, 5⟩ session = .ok ⟨12⟩ session' ∧
        session'.store.unfold session'.names ⟨12⟩ = .ok tree ∧ Adds ⟨2, 5⟩ session session' 12) ∧
      ∃ session', mixed.build ⟨2, 5⟩ session = .error .notClause session' ∧ Adds ⟨2, 5⟩ session session' 4 := by
  intro session ordered mixed
  have reachable : session.names.Reachable := .intern .new "xs"
  have x : (Term.ident "x" []).Claused := .intro (by simp) (by simp [parts])
  have literal (i : Int) : (Term.int i).Claused := .intro (by simp) (by simp [parts])
  have chain : (Term.path "db" ["xs"]).Claused := .intro (by simp) (by simp [parts])
  have first : (Term.fromClause "x" (.path "db" ["xs"])).Claused := .intro (by simp) (by simp [parts, chain])
  have order : (Term.orderBy [(.ident "x" [], .descending)]).Claused := .intro (by simp) (by simp [parts, x])
  have call : (Term.methodCall (.ident "x" []) "f" [] [.int 3]).Claused :=
    .intro (by simp) (by simp [parts, x, literal])
  have last : (Term.select (.methodCall (.ident "x" []) "f" [] [.int 3])).Claused :=
    .intro (by simp) (by simp [parts, call])
  have claused : ordered.Claused := .intro (by simp [ordered, isClause]) (by simp [ordered, parts, first, order, last])
  have other : ¬ mixed.Claused := fun claused =>
    absurd (claused.part (p := .query [.select (.int 1), .int 2]) (by simp [mixed, parts])).clauses (by simp [isClause])
  have spelled : ordered.tree? = some (ordered.tree?.get rfl) := rfl
  have spelled' : mixed.tree? = some (mixed.tree?.get rfl) := rfl
  obtain ⟨⟨i⟩, session', done, unfolds, adds, index⟩ := (build_faithful ⟨2, 5⟩ reachable spelled).1 claused
  obtain ⟨earlier, clauses, trees, ids, session'', -, -, -, -, -, adds', failed⟩ :=
    (build_faithful ⟨2, 5⟩ reachable spelled').2 other
  have count : (ordered.tree?.get rfl).marks.length = 12 := by decide
  obtain rfl : i = 12 := Nat.succ.inj (index.trans (adds.size_eq.trans (congrArg (1 + ·) count)))
  obtain ⟨s, failed', size⟩ : ∃ s, mixed.build ⟨2, 5⟩ session = .error .notClause s ∧ s.store.size = 1 + 4 :=
    ⟨_, rfl, rfl⟩
  cases failed.symm.trans failed'
  have count' : (trees.flatMap Marked.marks).length = 4 := Nat.add_left_cancel (adds'.size_eq.symm.trans size)
  rw [count] at adds
  rw [count'] at adds'
  exact ⟨reachable, claused, other, ⟨_, session', spelled, done, unfolds, adds⟩, session'', failed, adds'⟩

end Term

end Comprehension
