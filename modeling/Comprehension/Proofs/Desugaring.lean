import Comprehension.Proofs.Refinement
import Comprehension.Proofs.Resolution

/-! Comprehensions in flat form, and the nested queries that they stand for. A clause that binds a
variable after the first one ends the query so far with a record of all variables, and the next query
ranges over such records under a transparent name. A run takes the nested queries back to the flat
form. -/

set_option autoImplicit false

namespace Comprehension.Desugaring
open Normalize

inductive Form where
  /-- `new { cur = cur, x = x }` -/
  | named
  /-- `new { cur, x = x }` -/
  | shorthand
  /-- `new { cur, x }` -/
  | bare

/-- A clause between the first and the last. One that binds a variable has the transparent name under
which the next query ranges over the records, and says what the records look like: for a let clause,
whether the first initializer is `cur` and not `cur = cur`. -/
inductive Step where
  | fromIn (x : String) (source : Tree) (via : String) (form : Form)
  | letBe (x : String) (value : Tree) (via : String) (shorthand : Bool)
  | whereHolds (cond : Tree)

def Step.clause : Step → Tree
  | .fromIn x source _ _ => .node () (.fromClause x none source)
  | .letBe x value _ _ => .node () (.letClause x value)
  | .whereHolds cond => .node () (.whereClause cond)

structure Flat where
  ident : String
  source : Tree
  steps : List Step
  projection : Tree

/-! ### Nested queries -/

def selectPair (shorthand : Bool) (cur : String) (second : Tree) : Tree :=
  let reference : Tree := .node () (.ident cur [])
  let first := if shorthand then reference else .node () (.named cur reference)
  .node () (.selectClause (.node () (.record [first, second])))

def Form.select (form : Form) (cur x : String) : Tree :=
  let reference : Tree := .node () (.ident x [])
  match form with
  | .named => selectPair false cur (.node () (.named x reference))
  | .shorthand => selectPair true cur (.node () (.named x reference))
  | .bare => selectPair true cur reference

def fromRecords (via : String) (clauses : List Tree) : Tree :=
  .node () (.fromClause via none (.node () (.query clauses)))

def nest (cur : String) (scope : Scope) (clauses : List Tree) (projection : Tree) : List Step → Tree
  | [] => .node () (.query (clauses ++ [resolve scope (.node () (.selectClause projection))]))
  | .whereHolds cond :: steps =>
    nest cur scope (clauses ++ [resolve scope (.node () (.whereClause cond))]) projection steps
  | .fromIn x source via form :: steps =>
    let inner := clauses ++ [resolve scope (.node () (.fromClause x none source)), form.select cur x]
    nest via (scope.enter via x) [fromRecords via inner] projection steps
  | .letBe x value via shorthand :: steps =>
    let inner := clauses ++ [selectPair shorthand cur (resolve scope (.node () (.named x value)))]
    nest via (scope.enter via x) [fromRecords via inner] projection steps

def Flat.desugar (c : Flat) : Tree :=
  nest c.ident [(c.ident, [])] [.node () (.fromClause c.ident none c.source)] c.projection c.steps

def foldedCast? (reading : Reading String) (source : Tree) : Option (Tree × Tree) :=
  if reading.foldCasts then castParts? reading.cast source else none

def firstClause (reading : Reading String) (x : String) (source : Tree) : Tree :=
  match foldedCast? reading source with
  | some (base, elemType) => .node () (.fromClause x (some elemType) base)
  | none => .node () (.fromClause x none source)

def Flat.query (reading : Reading String) (c : Flat) : Tree :=
  .node () (.query (firstClause reading c.ident c.source :: c.steps.map Step.clause ++
    [.node () (.selectClause c.projection)]))

/-! ### Visits of nested queries -/

structure Visits (reading : Reading String) (t t' : Tree) (gain : Stats) : Prop where
  succeeds : Succeeds reading () t
  result : normal reading () t = t'
  count : tally reading () t = gain

section
variable {reading : Reading String} {m : Unit} {k : Kind String Tree} {gain gain' : Stats}

theorem QueryFree.visits {t : Tree} (free : QueryFree t) (reading : Reading String) : Visits reading t t 0 := by
  obtain ⟨succeeds, result, count⟩ := (free.canonical reading).fixed ()
  exact ⟨succeeds, result, count⟩

theorem visits_node (k' : Kind String Tree) (children : ∀ c ∈ k.children, Succeeds reading () c)
    (results : k.map id (normal reading ()) = k') (counts : (k.children.map (tally reading ())).sum = gain)
    {t' : Tree} (settles : settle reading () m k' = (t', { stats := gain' })) :
    Visits reading (.node m k) t' (gain + gain') where
  succeeds := succeeds_node_iff.mpr ⟨children, by rw [results, settles]⟩
  result := by rw [normal_node children, results, settles]
  count := by rw [tally_node children, results, settles, counts]

theorem visits_query {first first' : Tree} {rest : List Tree} (visits : Visits reading first first' gain)
    (free : ∀ c ∈ rest, QueryFree c) {t' : Tree}
    (settles : settle reading () m (.query (first' :: rest)) = (t', { stats := gain' })) :
    Visits reading (.node m (.query (first :: rest))) t' (gain + gain') := by
  refine visits_node (.query (first' :: rest)) ?_ ?_ ?_ settles
  · intro c child
    rcases List.mem_cons.mp child with rfl | member
    · exact visits.succeeds
    · exact ((free c member).visits reading).succeeds
  · have same : rest.map (normal reading ()) = rest.map id :=
      List.map_congr_left fun c member => ((free c member).visits reading).result
    rw [Kind.map, List.map_cons, visits.result, same, List.map_id]
  · have nothing : (rest.map (tally reading ())).sum = 0 := by
      refine List.sum_eq_zero fun n member => ?_
      obtain ⟨c, child, rfl⟩ := List.mem_map.mp member
      exact ((free c child).visits reading).count
    rw [Kind.children, List.map_cons, List.sum_cons, visits.count, nothing, add_zero]

/-- A query that ranges over the records of another one becomes part of it. -/
theorem visits_fromRecords (enabled : reading.eliminates = true) {via : String}
    (through : reading.transparent via = true) {inner moved rest : List Tree} {select value : Tree}
    {declared binding : Option String}
    (visits : Visits reading (.node () (.query inner)) (.node () (.query (moved ++ [select]))) gain)
    (selects : selected? select = some (declared, value)) (named : letName declared value.kind = .ok binding)
    (tidy : ∀ c ∈ moved ++ letClauses () (binding.map (·, value)), Tidy reading.transparent c)
    (free : ∀ c ∈ rest, QueryFree c) :
    Visits reading (.node () (.query (fromRecords via inner :: rest)))
      (.node () (.query (moved ++ letClauses () (binding.map (·, value)) ++
        rest.map fun c => (cleaned reading.transparent c).1)))
      (gain + { eliminated := 1, letsIntroduced := binding.toList.length,
                referencesStripped := (rest.map fun c => (cleaned reading.transparent c).2).sum }) := by
  have first : Visits reading (fromRecords via inner)
      (.node () (.fromClause via none (.node () (.query (moved ++ [select]))))) (gain + 0) := by
    refine visits_node (.fromClause via none (.node () (.query (moved ++ [select])))) ?_ ?_ ?_
      (settle_other _ _ _ rfl)
    · simpa [Kind.children] using visits.succeeds
    · rw [Kind.map, visits.result]
      rfl
    · simp [Kind.children, visits.count]
  rw [add_zero] at first
  refine visits_query first free ?_
  have asks : action reading
      (.query (.node () (.fromClause via none (.node () (.query (moved ++ [select])))) :: rest)) =
      .splice moved (binding.map (·, value)) rest := by
    rw [action_nested reading rfl, nestedAction, recognized?, enabled, through]
    simp [selects, named]
  rw [settle, asks, perform, cleaned_query]
  -- The clauses in front are tidy, so only the rest of the query has accesses to lose.
  generalize moved ++ letClauses () (binding.map (·, value)) = front at tidy ⊢
  obtain ⟨kept, nothing⟩ := cleaned_tidy tidy
  simp only [List.map_append, List.sum_append, kept, nothing, Nat.zero_add, Option.toList_map, List.length_map]

end

/-! ### Levels -/

section
variable {reading : Reading String} {scope : Scope} {clauses front : List Tree} {gain : Stats}

/-- What visits make of the queries that begin with these clauses, where the scope says how the clauses
that follow refer to variables. Before the first record there is nothing to be cleaned. -/
structure Level (reading : Reading String) (scope : Scope) (clauses front : List Tree) (gain : Stats) :
    Prop where
  through : ∀ x, ∀ t ∈ scope.way x, reading.transparent t = true
  tidy : ∀ c ∈ front, Tidy reading.transparent c
  visits : ∀ rest : List Tree, (∀ c ∈ rest, QueryFree c) →
    (scope.Plain → ∀ c ∈ rest, Tidy reading.transparent c) →
    Visits reading (.node () (.query (clauses ++ rest)))
      (.node () (.query (front ++ rest.map fun c => (cleaned reading.transparent c).1)))
      (gain + { referencesStripped := (rest.map fun c => (cleaned reading.transparent c).2).sum })

/-- A clause that refers to variables and binds none, or none that later clauses have to go through a
record for. -/
theorem Level.clause (level : Level reading scope clauses front gain) {c : Tree}
    (expression : Expression reading.transparent c) :
    Level reading scope (clauses ++ [resolve scope c]) (front ++ [c])
      (gain + { referencesStripped := accesses scope c }) where
  through := level.through
  tidy d member := by
    rcases List.mem_append.mp member with member | member
    · exact level.tidy d member
    · obtain rfl := List.mem_singleton.mp member
      exact expression.tidy
  visits rest free plain := by
    have cleaned := cleaned_resolve level.through expression.users
    have whole := level.visits (resolve scope c :: rest) ?_ ?_
    · simp only [List.map_cons, List.sum_cons, cleaned] at whole
      rw [List.append_assoc, List.append_assoc, add_assoc]
      exact whole
    · intro d member
      rcases List.mem_cons.mp member with rfl | member
      · exact expression.free.resolve scope
      · exact free d member
    · intro isPlain d member
      rcases List.mem_cons.mp member with rfl | member
      · rw [(isPlain.resolve c).1]
        exact expression.tidy
      · exact plain isPlain d member

theorem queryFree_selectPair (shorthand : Bool) (cur : String) {second : Tree} (free : QueryFree second) :
    QueryFree (selectPair shorthand cur second) := by
  have reference := queryFree_ident cur
  cases shorthand <;> simp [selectPair, queryFree_node, Kind.children, Kind.isQuery, free]

theorem cleaned_selectPair {transparent : String → Bool} (shorthand : Bool) (cur : String)
    {second second' : Tree} {n : Nat} (cleans : cleaned transparent second = (second', n)) :
    cleaned transparent (selectPair shorthand cur second) = (selectPair shorthand cur second', n) := by
  cases shorthand <;> simp [selectPair, cleaned_node, cleanLayer, Kind.map, Kind.children, plainLayer?, cleans]

theorem selected?_selectPair_named (shorthand : Bool) (cur x : String) (value : Tree) :
    selected? (selectPair shorthand cur (.node () (.named x value))) = some (some x, value) := by
  cases shorthand <;> simp [selectPair, selected?]

/-- A record of all variables, and the next query over such records. -/
theorem Level.enter (level : Level reading scope clauses front gain) (enabled : reading.eliminates = true)
    {via : String} (through : reading.transparent via = true) (x : String) {select select' value : Tree}
    {n : Nat} {declared binding : Option String} (free : QueryFree select)
    (cleans : cleaned reading.transparent select = (select', n))
    (plain : scope.Plain → Tidy reading.transparent select)
    (selects : selected? select' = some (declared, value)) (named : letName declared value.kind = .ok binding)
    (tidy : ∀ c ∈ letClauses () (binding.map (·, value)), Tidy reading.transparent c) :
    Level reading (scope.enter via x) [fromRecords via (clauses ++ [select])]
      (front ++ letClauses () (binding.map (·, value)))
      (gain + { eliminated := 1, letsIntroduced := binding.toList.length, referencesStripped := n }) where
  through y t member := by
    rcases Scope.mem_way_enter member with rfl | member
    · exact through
    · exact level.through y t member
  tidy c member := by
    rcases List.mem_append.mp member with member | member
    · exact level.tidy c member
    · exact tidy c member
  visits rest restFree _ := by
    -- The nested query is the level before with the record as its last clause.
    have inner := level.visits [select] (by simpa using free) (by simpa using plain)
    simp only [List.map_cons, List.map_nil, List.sum_cons, List.sum_nil, cleans] at inner
    have whole := visits_fromRecords enabled through inner selects named ?_ restFree
    · have sum (total : Nat) : gain + { referencesStripped := n + 0 } +
          { eliminated := 1, letsIntroduced := binding.toList.length, referencesStripped := total } =
          gain + { eliminated := 1, letsIntroduced := binding.toList.length, referencesStripped := n } +
            { referencesStripped := total } := by
        simp [add_assoc, Stats.add_def]
      rw [← sum]
      exact whole
    · intro c member
      rcases List.mem_append.mp member with member | member
      · exact level.tidy c member
      · exact tidy c member

theorem Form.selects (form : Form) (cur x : String) (transparent : String → Bool) :
    QueryFree (form.select cur x) ∧ Tidy transparent (form.select cur x) ∧
      ∃ declared value, selected? (form.select cur x) = some (declared, value) ∧
        letName declared value.kind = .ok none := by
  have ident := queryFree_ident x
  have named : QueryFree (.node () (.named x (.node () (.ident x [])))) :=
    queryFree_node.mpr ⟨rfl, by simpa [Kind.children] using ident⟩
  have tidy : Tidy transparent (.node () (.named x (.node () (.ident x [])))) := by
    simp [Tidy, cleaned_node, cleanLayer, Kind.map, Kind.children, plainLayer?]
  cases form with
  | named =>
    exact ⟨queryFree_selectPair _ _ named, cleaned_selectPair _ _ tidy, _, _,
      selected?_selectPair_named _ _ _ _, by simp [letName]⟩
  | shorthand =>
    exact ⟨queryFree_selectPair _ _ named, cleaned_selectPair _ _ tidy, _, _,
      selected?_selectPair_named _ _ _ _, by simp [letName]⟩
  | bare =>
    exact ⟨queryFree_selectPair _ _ ident, cleaned_selectPair _ _ (cleaned_ident x), _, _, rfl, rfl⟩

theorem Level.fromIn (level : Level reading scope clauses front gain) (enabled : reading.eliminates = true)
    (cur : String) {x via : String} (form : Form) {source : Tree} (through : reading.transparent via = true)
    (expression : Expression reading.transparent (.node () (.fromClause x none source))) :
    Level reading (scope.enter via x)
      [fromRecords via (clauses ++ [resolve scope (.node () (.fromClause x none source)), form.select cur x])]
      (front ++ [.node () (.fromClause x none source)])
      (gain + { eliminated := 1,
                referencesStripped := accesses scope (.node () (.fromClause x none source)) }) := by
  obtain ⟨free, tidy, declared, value, selects, named⟩ := form.selects cur x reading.transparent
  have next := (level.clause expression).enter enabled through x free tidy (fun _ => tidy) selects named
    (by simp [letClauses])
  have sum (total : Nat) : gain + { referencesStripped := total } +
      { eliminated := 1, letsIntroduced := (none : Option String).toList.length, referencesStripped := 0 } =
      gain + { eliminated := 1, referencesStripped := total } := by
    simp [Stats.add_def]
  rw [sum, List.append_assoc] at next
  simpa [letClauses] using next

theorem Level.letBe (level : Level reading scope clauses front gain) (enabled : reading.eliminates = true)
    (cur : String) {x via : String} (shorthand : Bool) {value : Tree} (through : reading.transparent via = true)
    (user : reading.transparent x = false) (expression : Expression reading.transparent value)
    (other : ∀ typeArgs, value.kind ≠ .ident x typeArgs) :
    Level reading (scope.enter via x)
      [fromRecords via (clauses ++ [selectPair shorthand cur (resolve scope (.node () (.named x value)))])]
      (front ++ [.node () (.letClause x value)])
      (gain + { eliminated := 1, letsIntroduced := 1,
                referencesStripped := accesses scope (.node () (.letClause x value)) }) := by
  have initializer : Expression reading.transparent (.node () (.named x value)) :=
    expression.around rfl rfl (by simp [ownVariable?])
  have clause : Expression reading.transparent (.node () (.letClause x value)) :=
    expression.around rfl rfl (by simpa [ownVariable?] using user)
  have named : letName (some x) value.kind = .ok (some x) := by
    -- Only `x = x` would do without a let clause.
    cases is : value.kind with
    | ident y typeArgs =>
      have differs : x ≠ y := by
        rintro rfl
        exact other typeArgs is
      simp [letName, differs]
    | _ => rfl
  have cleans := cleaned_resolve level.through initializer.users
  have plain : scope.Plain →
      Tidy reading.transparent (selectPair shorthand cur (resolve scope (.node () (.named x value)))) := by
    intro isPlain
    rw [(isPlain.resolve _).1]
    exact cleaned_selectPair shorthand cur initializer.tidy
  exact level.enter enabled through x (queryFree_selectPair _ _ (initializer.free.resolve scope))
    (cleaned_selectPair _ _ cleans) plain (selected?_selectPair_named _ _ _ _) named
    (by simpa [letClauses] using clause.tidy)

end

/-! ### Comprehensions -/

def Step.WellFormed (transparent : String → Bool) : Step → Prop
  | .fromIn x source via _ => transparent via = true ∧ transparent x = false ∧ Expression transparent source
  | .letBe x value via _ => transparent via = true ∧ transparent x = false ∧ Expression transparent value ∧
    ∀ typeArgs, value.kind ≠ .ident x typeArgs
  | .whereHolds cond => Expression transparent cond

structure Flat.WellFormed (transparent : String → Bool) (c : Flat) : Prop where
  ident : transparent c.ident = false
  source : Expression transparent c.source
  steps : ∀ step ∈ c.steps, step.WellFormed transparent
  projection : Expression transparent c.projection

theorem Step.WellFormed.clause {transparent : String → Bool} {step : Step}
    (wellFormed : step.WellFormed transparent) : Expression transparent step.clause := by
  cases step with
  | fromIn x source via form =>
    obtain ⟨-, user, expression⟩ := wellFormed
    exact expression.around rfl rfl (by simpa [ownVariable?] using user)
  | letBe x value via shorthand =>
    obtain ⟨-, user, expression, -⟩ := wellFormed
    exact expression.around rfl rfl (by simpa [ownVariable?] using user)
  | whereHolds cond => exact Expression.around wellFormed rfl rfl (by simp [ownVariable?])

def Step.binds : Step → Bool
  | .whereHolds _ => false
  | _ => true

def Step.isLet : Step → Bool
  | .letBe .. => true
  | _ => false

def Step.after (scope : Scope) : Step → Scope
  | .fromIn x _ via _ => scope.enter via x
  | .letBe x _ via _ => scope.enter via x
  | .whereHolds _ => scope

def inserted (scope : Scope) (projection : Tree) : List Step → Nat
  | [] => accesses scope projection
  | step :: steps => accesses scope step.clause + inserted (step.after scope) projection steps

def Step.count (scope : Scope) (step : Step) : Stats where
  eliminated := step.binds.toNat
  letsIntroduced := step.isLet.toNat
  referencesStripped := accesses scope step.clause

def counted (scope : Scope) (projection : Tree) : List Step → Stats
  | [] => { referencesStripped := accesses scope projection }
  | step :: steps => step.count scope + counted (step.after scope) projection steps

theorem counted_eq (scope : Scope) (projection : Tree) (steps : List Step) :
    counted scope projection steps = { eliminated := steps.countP Step.binds,
                                       letsIntroduced := steps.countP Step.isLet,
                                       referencesStripped := inserted scope projection steps } := by
  induction steps generalizing scope with
  | nil => rfl
  | cons step steps ih =>
    rw [counted, ih, inserted, Step.count, Stats.add_def, List.countP_cons, List.countP_cons]
    cases step <;> simp [Step.binds, Step.isLet, Nat.add_comm]

section
variable {reading : Reading String} {scope : Scope} {clauses front : List Tree} {gain : Stats}

theorem Visits.normalizeTree {rules : Rules} {t t' : Tree} (visits : Visits rules.reading t t' gain) :
    normalizeTree rules t = .ok (t', gain) := by
  rw [Normalize.normalizeTree, visitTree_run_of_succeeds visits.succeeds, visits.result, visits.count]

/-- The rest of a comprehension is visited level after level. -/
theorem Level.visits_nest (level : Level reading scope clauses front gain) (enabled : reading.eliminates = true)
    (cur : String) {projection : Tree} (expression : Expression reading.transparent projection)
    {steps : List Step} (wellFormed : ∀ step ∈ steps, step.WellFormed reading.transparent) :
    Visits reading (nest cur scope clauses projection steps)
      (.node () (.query (front ++ (steps.map Step.clause ++ [.node () (.selectClause projection)]))))
      (gain + counted scope projection steps) := by
  -- The induction is over the clauses that are left, for every level that can come before them.
  induction steps generalizing cur scope clauses front gain with
  | nil =>
    have select : Expression reading.transparent (.node () (.selectClause projection)) :=
      expression.around rfl rfl (by simp [ownVariable?])
    have whole := (level.clause select).visits [] (by simp) (by simp)
    simpa [nest, counted, accesses_node, Kind.children, add_assoc, Stats.add_def] using whole
  | cons step steps ih =>
    have here := wellFormed step List.mem_cons_self
    have later : ∀ step ∈ steps, step.WellFormed reading.transparent :=
      fun step member => wellFormed step (List.mem_cons_of_mem _ member)
    cases step with
    | fromIn x source via form =>
      have whole := ih (level.fromIn enabled cur form here.1 here.clause) via later
      rw [List.append_assoc, add_assoc] at whole
      exact whole
    | letBe x value via shorthand =>
      obtain ⟨through, user, value, other⟩ := here
      have whole := ih (level.letBe enabled cur shorthand through user value other) via later
      rw [List.append_assoc, add_assoc] at whole
      exact whole
    | whereHolds cond =>
      have whole := ih (level.clause here.clause) cur later
      rw [List.append_assoc, add_assoc] at whole
      exact whole

theorem firstClause_expression {x : String} {source : Tree} (user : reading.transparent x = false)
    (expression : Expression reading.transparent source) :
    Expression reading.transparent (firstClause reading x source) := by
  unfold firstClause
  split
  next base elemType found =>
    have parts : castParts? reading.cast source = some (base, elemType) := by
      rw [foldedCast?] at found
      split at found
      · exact found
      · cases found
    have shape := castParts?_eq_some_iff.mp parts
    refine expression_node rfl (by simpa [ownVariable?] using user) fun c child => ?_
    have either : c = elemType ∨ c = base := by simpa [Kind.children] using child
    rcases either with rfl | rfl
    · exact expression.of_mem shape.elemType_mem
    · exact expression.of_mem shape.base_mem
  next => exact expression.around rfl rfl (by simpa [ownVariable?] using user)

theorem settle_firstClause {x : String} {source : Tree} {rest : List Tree}
    (simple : source.kind.isQuery = false) :
    settle reading () () (.query (.node () (.fromClause x none source) :: rest)) =
      (.node () (.query (firstClause reading x source :: rest)),
        { stats := { castsFolded := (foldedCast? reading source).isSome.toNat } }) := by
  rw [settle, action_source reading simple, sourceAction, firstClause]
  have asked : (if reading.foldCasts && (none : Option Tree).isNone then castParts? reading.cast source
      else none) = foldedCast? reading source := by simp [foldedCast?]
  rw [asked]
  cases foldedCast? reading source <;> rfl

theorem Level.first {x : String} {source : Tree} (user : reading.transparent x = false)
    (expression : Expression reading.transparent source) :
    Level reading [(x, [])] [.node () (.fromClause x none source)] [firstClause reading x source]
      { castsFolded := (foldedCast? reading source).isSome.toNat } := by
  have plain : Scope.Plain [(x, [])] := by
    intro y
    rw [Scope.way, List.lookup_cons]
    cases y == x <;> rfl
  refine ⟨fun y t member => ?_, ?_, fun rest free tidy => ?_⟩
  · rw [plain y] at member
    cases member
  · simpa using (firstClause_expression user expression).tidy
  · have clause : QueryFree (.node () (.fromClause x none source)) :=
      queryFree_node.mpr ⟨rfl, by simpa [Kind.children] using expression.free⟩
    have simple := expression.free source (Marked.self_mem_subtrees source)
    have whole := visits_query (m := ()) (clause.visits reading) free (settle_firstClause simple)
    obtain ⟨kept, nothing⟩ := cleaned_tidy (tidy plain)
    rw [kept, nothing]
    rw [zero_add] at whole
    simpa [Stats.add_def] using whole

theorem visits_desugar (reading : Reading String) (enabled : reading.eliminates = true) {c : Flat}
    (wellFormed : c.WellFormed reading.transparent) :
    Visits reading c.desugar (c.query reading)
      { eliminated := c.steps.countP Step.binds, letsIntroduced := c.steps.countP Step.isLet,
        referencesStripped := inserted [(c.ident, [])] c.projection c.steps,
        castsFolded := (foldedCast? reading c.source).isSome.toNat } := by
  have level := Level.first wellFormed.ident wellFormed.source
  have whole := level.visits_nest enabled c.ident wellFormed.projection wellFormed.steps
  rw [counted_eq] at whole
  simpa [Stats.add_def, Flat.desugar, Flat.query] using whole

theorem Flat.WellFormed.users (reading : Reading String) {c : Flat}
    (wellFormed : c.WellFormed reading.transparent) : UserVariables reading.transparent (c.query reading) := by
  have select : Expression reading.transparent (.node () (.selectClause c.projection)) :=
    wellFormed.projection.around rfl rfl (by simp [ownVariable?])
  refine Marked.all_node.mpr ⟨by simp [ownVariable?], fun clause member => ?_⟩
  rcases List.mem_append.mp member with member | last
  · rcases List.mem_cons.mp member with rfl | member
    · exact (firstClause_expression wellFormed.ident wellFormed.source).users
    · obtain ⟨step, inside, rfl⟩ := List.mem_map.mp member
      exact (wellFormed.steps step inside).clause.users
  · obtain rfl := List.mem_singleton.mp last
    exact select.users

end

/-- A run below the nested queries of a comprehension gives its flat form, in which only the cast of the
first source is folded and no transparent name is bound or referred to. It takes one record apart for
every clause that binds a variable, adds a let clause for every let clause, and strips all accesses to
records. -/
theorem normalize_desugar (rules : Rules) {names : NameTable} {s : Store} {root : NodeId} {c : Flat}
    (built : names.Reachable) (tree : s.TreeAt root) (interned : s.InternedAt names root)
    (enabled : rules.config.eliminateTransparent = true) (wellFormed : c.WellFormed rules.transparent)
    (unfolds : s.unfold names root = .ok c.desugar) :
    (normalize rules names s root).result = .ok
        { eliminated := c.steps.countP Step.binds, letsIntroduced := c.steps.countP Step.isLet,
          referencesStripped := inserted [(c.ident, [])] c.projection c.steps, continuations := 0,
          castsFolded := (foldedCast? rules.reading c.source).isSome.toNat } ∧
      (normalize rules names s root).store.unfold names root = .ok (c.query rules.reading) ∧
      UserVariables rules.transparent (c.query rules.reading) := by
  have visits := visits_desugar rules.reading enabled wellFormed
  obtain ⟨t, unfolds', answers⟩ := answers_iff rules built tree interned
  cases unfolds'.symm.trans unfolds
  obtain ⟨result, flat⟩ := (answers _).mpr visits.normalizeTree.symm
  exact ⟨result, flat, wellFormed.users rules.reading⟩

/-- The nested queries of `from x in xs from y in ys let z = y select x + z`, where the texts of the
names are, in the order of their numbers: nothing, `xs`, `x`, `ys`, `y`, `t`, `z` and `u`. -/
def twoLevels : Layout :=
  .node ⟨0⟩ (.query [
    .node ⟨1⟩ (.fromClause ⟨7⟩ none (.node ⟨2⟩ (.query [
      .node ⟨3⟩ (.fromClause ⟨5⟩ none (.node ⟨4⟩ (.query [
        .node ⟨5⟩ (.fromClause ⟨2⟩ none (.node ⟨6⟩ (.ident ⟨1⟩ []))),
        .node ⟨7⟩ (.fromClause ⟨4⟩ none (.node ⟨8⟩ (.ident ⟨3⟩ []))),
        .node ⟨9⟩ (.selectClause (.node ⟨10⟩ (.record [
          .node ⟨11⟩ (.ident ⟨2⟩ []), .node ⟨12⟩ (.ident ⟨4⟩ [])])))]))),
      .node ⟨13⟩ (.selectClause (.node ⟨14⟩ (.record [
        .node ⟨15⟩ (.named ⟨5⟩ (.node ⟨16⟩ (.ident ⟨5⟩ []))),
        .node ⟨17⟩ (.named ⟨6⟩ (.node ⟨18⟩ (.member (.node ⟨19⟩ (.ident ⟨5⟩ [])) ⟨4⟩ [])))])))]))),
    .node ⟨20⟩ (.selectClause (.node ⟨21⟩ (.binary .add
      (.node ⟨22⟩ (.member (.node ⟨23⟩ (.member (.node ⟨24⟩ (.ident ⟨7⟩ [])) ⟨5⟩ [])) ⟨2⟩ []))
      (.node ⟨25⟩ (.member (.node ⟨26⟩ (.ident ⟨7⟩ [])) ⟨6⟩ [])))))])

theorem normalize_desugar_twoLevels :
    let names := NameTable.ofTexts ["xs", "x", "ys", "y", "t", "z", "u"]
    let rules : Rules := ⟨{}, fun x => x = "t" ∨ x = "u"⟩
    let ident (x : String) : Tree := .node () (.ident x [])
    let c : Flat := ⟨"x", ident "xs", [.fromIn "y" (ident "ys") "t" .bare, .letBe "z" (ident "y") "u" false],
      .node () (.binary .add (ident "x") (ident "z"))⟩
    c.WellFormed rules.transparent ∧ twoLevels.store.unfold names ⟨0⟩ = .ok c.desugar ∧
      (normalize rules names twoLevels.store ⟨0⟩).result = .ok ⟨2, 1, 4, 0, 0⟩ ∧
      (normalize rules names twoLevels.store ⟨0⟩).store.unfold names ⟨0⟩ = .ok (.node () (.query [
        .node () (.fromClause "x" none (ident "xs")), .node () (.fromClause "y" none (ident "ys")),
        .node () (.letClause "z" (ident "y")),
        .node () (.selectClause (.node () (.binary .add (ident "x") (ident "z"))))])) := by
  intro names rules ident c
  have distinct : ["", "xs", "x", "ys", "y", "t", "z", "u"].Nodup := by decide
  have nodup : twoLevels.marks.Nodup := by decide
  have holds : twoLevels.store.Holds twoLevels := Layout.holds_store nodup (by decide)
  have interned : twoLevels.store.InternedAt names ⟨0⟩ := by
    refine holds.internedAt ?_
    rw [NameTable.size_ofTexts distinct]
    decide
  have expression (x : String) (user : rules.transparent x = false) : Expression rules.transparent (ident x) :=
    expression_node rfl (by simpa [ownVariable?] using user) (by simp [Kind.children])
  have wellFormed : c.WellFormed rules.transparent := by
    refine ⟨by decide, expression _ (by decide), ?_, ?_⟩
    · simp only [c, List.forall_mem_cons, List.not_mem_nil, false_implies, implies_true, and_true]
      refine ⟨⟨by decide, by decide, expression _ (by decide)⟩,
        by decide, by decide, expression _ (by decide), by simp [ident]⟩
    · refine expression_node rfl (by simp [ownVariable?]) ?_
      simp only [Kind.children, List.forall_mem_cons, List.not_mem_nil, false_implies, implies_true, and_true]
      exact ⟨expression _ (by decide), expression _ (by decide)⟩
  have unfolds : twoLevels.store.unfold names ⟨0⟩ = .ok c.desugar := by
    refine (holds.unfold_eq nodup names).trans ?_
    rw [Layout.tree, NameTable.lookup_ofTexts distinct]
    rfl
  obtain ⟨result, flat, -⟩ := normalize_desugar rules (NameTable.reachable_ofTexts _)
    (Layout.treeAt_store nodup (by decide)) interned rfl wellFormed unfolds
  exact ⟨wellFormed, unfolds, result, flat⟩

end Comprehension.Desugaring
