import Comprehension.Normalize.Pass
import Comprehension.Proofs.Program
import Comprehension.Proofs.Recognition

/-! What the work at one query can do to a store. All that is proved of a run is proved of these
cases; how a run reads the store to choose among them does not matter any more. -/

set_option autoImplicit false

namespace Comprehension.Normalize
open PassM Program

abbrev Rules.numbered (rules : Rules) (names : NameTable) : Reading Name := rules.reading.comap names.lookup

/-! ### Moving the clauses of a nested query -/

def withLet (s : Store) (plan : Splice) (span : Span) : Store :=
  match plan.binding with
  | none => s
  | some x => (s.alloc (.letClause x plan.value) span).2

def added (s : Store) (plan : Splice) : List NodeId :=
  match plan.binding with
  | none => []
  | some _ => [⟨s.size⟩]

def spliced (s : Store) (query source : NodeId) (plan : Splice) (taken rest : List NodeId) (span : Span) :
    Store :=
  (withLet (s.put source (.query [])) plan span).put query (.query (taken.dropLast ++ added s plan ++ rest))

section
variable {s : Store} {query source id : NodeId} {plan : Splice} {taken rest : List NodeId} {span : Span}

theorem added_put (kind : NodeKind) : added (s.put id kind) plan = added s plan := by
  simp [added]

theorem size_withLet : (withLet s plan span).size = s.size + (added s plan).length := by
  unfold withLet added
  cases plan.binding <;> simp

theorem node?_withLet (old : id.index < s.size) : (withLet s plan span).node? id = s.node? id := by
  unfold withLet
  cases plan.binding with
  | none => rfl
  | some x => rw [Store.node?_alloc, if_neg (by omega)]

theorem kind?_withLet_new {x : Name} (binds : plan.binding = some x) :
    (withLet s plan span).kind? ⟨s.size⟩ = some (.letClause x plan.value) := by
  simp [withLet, binds, Store.kind?, Store.node?_alloc]

theorem size_spliced : (spliced s query source plan taken rest span).size = s.size + (added s plan).length := by
  rw [spliced, Store.size_put, size_withLet, Store.size_put, added_put]

theorem node?_spliced (notQuery : query ≠ id) (notSource : source ≠ id) (old : id.index < s.size) :
    (spliced s query source plan taken rest span).node? id = s.node? id := by
  rw [spliced, Store.node?_put, if_neg notQuery, node?_withLet (by simpa using old), Store.node?_put,
    if_neg notSource]

theorem kind?_spliced (notQuery : query ≠ id) (notSource : source ≠ id) (old : id.index < s.size) :
    (spliced s query source plan taken rest span).kind? id = s.kind? id := by
  rw [Store.kind?, node?_spliced notQuery notSource old, Store.kind?]

theorem kind?_spliced_query (bound : query.index < s.size) :
    (spliced s query source plan taken rest span).kind? query =
      some (.query (taken.dropLast ++ added s plan ++ rest)) := by
  have bound : query.index < (withLet (s.put source (.query [])) plan span).size := by
    rw [size_withLet, Store.size_put]
    omega
  obtain ⟨k, here⟩ := Store.exists_kind?_of_lt bound
  exact Store.kind?_put_self here _

theorem kind?_spliced_added {x : Name} (binds : plan.binding = some x) (bound : query.index < s.size) :
    (spliced s query source plan taken rest span).kind? ⟨s.size⟩ = some (.letClause x plan.value) := by
  have other : query ≠ ⟨s.size⟩ := fun is => by
    rw [is] at bound
    exact Nat.lt_irrefl _ bound
  have size : s.size = (s.put source (.query [])).size := (Store.size_put ..).symm
  rw [spliced, Store.kind?_put_of_ne other, size]
  exact kind?_withLet_new binds

end

theorem clauses_eq {s : Store} {id : NodeId} {clauses : List NodeId}
    (here : s.kind? id = some (.query clauses)) : s.clauses id = .ok clauses := by
  rw [Store.clauses, Store.kind_eq_ok_iff.mpr here]
  rfl

theorem span_put (s : Store) (id other : NodeId) (kind : NodeKind) :
    (s.put id kind).span other = s.span other := by
  rw [Store.span, Store.span, Store.node?_put, Store.size_put]
  by_cases same : id = other
  · cases s.node? other <;> simp [same]
  · simp [same]

theorem place_run {s : Store} {query first : NodeId} {rest : List NodeId}
    (here : s.kind? query = some (.query (first :: rest))) (moved : List NodeId) :
    (do let clauses ← StoreM.read (·.clauses query)
        modify (·.setClauses query (moved ++ clauses.tail))
        return moved.length : StoreM Nat) s = .ok moved.length (s.put query (.query (moved ++ rest))) := by
  rw [bind_ok (read_ok (clauses_eq here))]
  change EStateM.Result.ok moved.length (s.setClauses query (moved ++ rest)) = _
  rw [Store.setClauses_query here]

theorem splice_run {s : Store} {query source first : NodeId} {plan : Splice} {taken rest : List NodeId}
    {span : Span} (here : s.kind? query = some (.query (first :: rest)))
    (nested : s.kind? source = some (.query taken)) (other : query ≠ source)
    (value : s.span plan.value = .ok span) : ∃ moved,
      splice query source plan s = .ok moved (spliced s query source plan taken rest span) := by
  let emptied := s.put source (.query [])
  have emptying : (modify (·.setClauses source []) : StoreM Unit) s = .ok () emptied := by
    change EStateM.Result.ok () (s.setClauses source []) = _
    rw [Store.setClauses_query nested]
  have here' : emptied.kind? query = some (.query (first :: rest)) := by
    rw [Store.kind?_put_of_ne other.symm, here]
  -- The query is read only after its source is emptied, so the two must differ.
  unfold splice spliced withLet added
  rw [bind_ok (read_ok (clauses_eq nested)), bind_ok emptying]
  cases plan.binding with
  | none =>
    simp only [List.append_nil]
    exact ⟨_, place_run here' taken.dropLast⟩
  | some x =>
    have reading : emptied.span plan.value = .ok span := by
      rw [span_put]
      exact value
    let grown := (emptied.alloc (.letClause x plan.value) span).2
    have here' : grown.kind? query = some (.query (first :: rest)) := by
      have bound := Store.index_lt_of_kind? here
      rw [Store.kind?, Store.node?_alloc, if_neg (by simp [emptied]; omega)]
      exact here'
    have adding : (modifyGet (·.alloc (.letClause x plan.value) span) : StoreM NodeId) emptied =
        .ok ⟨s.size⟩ grown := by
      rw [← Store.size_put s source (.query [])]
      rfl
    simp only [pure_bind]
    rw [bind_ok (read_ok reading), bind_ok adding]
    rw [place_run here']
    exact ⟨_, rfl⟩

/-! ### Programs without new nodes -/

def AddsNothing {α : Type} (program : StoreM α) : Prop := ∀ s, match program s with
  | .ok _ s' | .error _ s' => s'.size = s.size

namespace AddsNothing

variable {α β : Type} {program : StoreM α}

theorem size_ok (nothing : AddsNothing program) {s s' : Store} {a : α} (done : program s = .ok a s') :
    s'.size = s.size := by
  have known := nothing s
  rwa [done] at known

theorem size_error (nothing : AddsNothing program) {s s' : Store} {e : Fault} (failed : program s = .error e s') :
    s'.size = s.size := by
  have known := nothing s
  rwa [failed] at known

theorem pure (a : α) : AddsNothing (Pure.pure a : StoreM α) := fun _ => rfl

theorem throw (e : Fault) : AddsNothing (MonadExcept.throw e : StoreM α) := fun _ => rfl

theorem read (f : Store → Except Fault α) : AddsNothing (StoreM.read f) := by
  intro s
  cases known : f s with
  | ok a => rw [read_ok known]
  | error e => simp [StoreM.read, known]

theorem put (id : NodeId) (kind : NodeKind) : AddsNothing (modify (·.put id kind) : StoreM Unit) :=
  fun s => Store.size_put s id kind

theorem bind {next : α → StoreM β} (first : AddsNothing program) (second : ∀ a, AddsNothing (next a)) :
    AddsNothing (program >>= next) := by
  intro s
  cases known : program s with
  | ok a s₁ =>
    rw [bind_ok known, ← first.size_ok known]
    exact second a s₁
  | error e s₁ =>
    rw [Program.bind_error known]
    exact first.size_error known

theorem mapM {f : β → StoreM α} (each : ∀ b, AddsNothing (f b)) (l : List β) : AddsNothing (l.mapM f) := by
  induction l with
  | nil => exact pure []
  | cons b l ih =>
    rw [List.mapM_cons]
    exact (each b).bind fun a => ih.bind fun as => pure _

end AddsNothing

theorem stripReferences_addsNothing (transparent : Name → Bool) (budget : Nat) (id : NodeId) :
    AddsNothing (stripReferences transparent budget id) := by
  induction budget generalizing id with
  | zero => exact .throw _
  | succ budget ih =>
    refine (AddsNothing.read _).bind fun children => ?_
    refine (AddsNothing.mapM ih children).bind fun below => ?_
    refine (AddsNothing.read _).bind fun reference => ?_
    cases reference with
    | none => exact .pure _
    | some reference => exact (AddsNothing.put id reference).bind fun _ => .pure _

/-! ### How programs end -/

/-- From this store a program ends with a result, another store and a gain of the counts, whatever the
counts and the log are before it. -/
def Ends {α : Type} (program : PassM α) (s : Store) (result : Except Failure α) (s' : Store) (gain : Stats) :
    Prop :=
  ∀ stats log, ∃ log', program ⟨s, stats, log⟩ = match result with
    | .ok a => .ok a ⟨s', stats + gain, log'⟩
    | .error e => .error e ⟨s', stats + gain, log'⟩

namespace Ends

variable {α β : Type} {program : PassM α} {s s' s'' : Store} {gain gain' : Stats}

theorem pure (a : α) : Ends (Pure.pure a) s (.ok a) s 0 := fun stats log =>
  ⟨log, by rw [add_zero]; rfl⟩

theorem ask {f : Store → Except Failure α} {result : Except Failure α} (known : f s = result) :
    Ends (PassM.ask f) s result s 0 := fun stats log =>
  ⟨log, by cases result <;> simp [PassM.ask, known]⟩

theorem kind {id : NodeId} {k : NodeKind} (here : s.kind? id = some k) : Ends (PassM.kind id) s (.ok k) s 0 :=
  ask (by rw [Store.kind_eq_ok_iff.mpr here]; rfl)

theorem onStore {a : α} {program : StoreM α} (done : program s = .ok a s') :
    Ends (PassM.onStore program) s (.ok a) s' 0 := fun stats log =>
  ⟨log, by simp [PassM.onStore, done]⟩

theorem onStore_error {e : Fault} {program : StoreM α} (failed : program s = .error e s') :
    Ends (PassM.onStore program) s (.error (.fault e)) s' 0 := fun stats log =>
  ⟨log, by simp [PassM.onStore, failed]⟩

theorem count {f : Stats → Stats} (adds : ∀ stats, f stats = stats + gain) :
    Ends (PassM.count f) s (.ok ()) s gain := fun stats log =>
  ⟨log, by rw [← adds]; rfl⟩

theorem emit (event : Event) : Ends (PassM.emit event) s (.ok ()) s 0 := fun stats log =>
  ⟨log.push event, by rw [add_zero]; rfl⟩

theorem bind {a : α} {next : α → PassM β} {result : Except Failure β} (first : Ends program s (.ok a) s' gain)
    (second : Ends (next a) s' result s'' gain') : Ends (program >>= next) s result s'' (gain + gain') := by
  intro stats log
  obtain ⟨log', done⟩ := first stats log
  obtain ⟨log'', done'⟩ := second (stats + gain) log'
  exact ⟨log'', by rw [bind_ok done, done', add_assoc]⟩

theorem bind_error {e : Failure} {next : α → PassM β} (first : Ends program s (.error e) s' gain) :
    Ends (program >>= next) s (.error e) s' gain := by
  intro stats log
  obtain ⟨log', done⟩ := first stats log
  exact ⟨log', Program.bind_error done next⟩

theorem after {a : α} {next : α → PassM β} {result : Except Failure β} (first : Ends program s (.ok a) s 0)
    (second : Ends (next a) s result s' gain) : Ends (program >>= next) s result s' gain := by
  simpa using first.bind second

end Ends

/-! ### The work at a query -/

structure NestedFrom (s : Store) (query : NodeId) where
  first : NodeId
  rest : List NodeId
  ident : Name
  elemType : Option NodeId
  source : NodeId
  inner : List NodeId
  here : s.Layer query (.query (first :: rest))
  clause : s.Layer first (.fromClause ident elemType source)
  nested : s.Layer source (.query inner)

structure Elimination (reading : Reading Name) (s : Store) (query : NodeId) extends NestedFrom s query where
  select : NodeId
  declared : Option Name
  value : NodeId
  node : Node
  enabled : reading.eliminates = true
  bound : reading.transparent ident = true
  last : inner.getLast? = some select
  shape : Selects s.Layer select declared value
  found : s.node? value = some node

def Elimination.flattened {reading : Reading Name} {s : Store} {query : NodeId} (e : Elimination reading s query)
    (binding : Option Name) : Store :=
  spliced s query e.source ⟨e.value, binding⟩ e.inner e.rest e.node.span

inductive QueryStep (reading : Reading Name) (s : Store) (query : NodeId) :
    Except Failure Unit → Store → Stats → Prop where
  | kept {clauses : List NodeId} (here : s.Layer query (.query clauses)) (flat : NestedFrom s query → False)
      (uncast : reading.foldCasts = true → ∀ {first rest x source base elemType}, clauses = first :: rest →
        s.Layer first (.fromClause x none source) → ¬ CastsOn s.Layer reading.cast source base elemType) :
      QueryStep reading s query (.ok ()) s 0
  | continued (n : NestedFrom s query) (refused : Elimination reading s query → False) :
      QueryStep reading s query (.ok ()) (s.put n.first (.continuation n.source n.ident)) { continuations := 1 }
  | annotated {first source base elemType : NodeId} {rest : List NodeId} {x : Name}
      (here : s.Layer query (.query (first :: rest))) (clause : s.Layer first (.fromClause x none source))
      (enabled : reading.foldCasts = true) (shape : CastsOn s.Layer reading.cast source base elemType) :
      QueryStep reading s query (.ok ()) (s.put first (.fromClause x (some elemType) base)) { castsFolded := 1 }
  | stopped (e : Elimination reading s query) {violation : Violation}
      (unnamed : letName e.declared e.node.kind = .error violation) :
      QueryStep reading s query (.error (.broken ⟨e.value, e.node.span, violation⟩)) s 0
  | eliminated (e : Elimination reading s query) {binding : Option Name} {count : Nat} {s' : Store}
      (named : letName e.declared e.node.kind = .ok binding)
      (cleaned : stripReferences reading.transparent ((e.flattened binding).size + 1) query (e.flattened binding) =
        .ok count s') :
      QueryStep reading s query (.ok ()) s'
        { eliminated := 1, letsIntroduced := binding.toList.length, referencesStripped := count }
  | faulted (e : Elimination reading s query) {binding : Option Name} {fault : Fault} {s' : Store}
      (named : letName e.declared e.node.kind = .ok binding)
      (cleaned : stripReferences reading.transparent ((e.flattened binding).size + 1) query (e.flattened binding) =
        .error fault s') :
      QueryStep reading s query (.error (.fault fault)) s'
        { eliminated := 1, letsIntroduced := binding.toList.length }

/-- A step that counts nothing changes nothing. -/
theorem QueryStep.quiet {reading : Reading Name} {s s' : Store} {query : NodeId} {result : Except Failure Unit}
    {gain : Stats} (step : QueryStep reading s query result s' gain) (nothing : gain = 0) : s' = s := by
  cases step with
  | kept | stopped => rfl
  | _ => cases nothing

theorem QueryStep.size {reading : Reading Name} {s s' : Store} {query : NodeId} {result : Except Failure Unit}
    {gain : Stats} (step : QueryStep reading s query result s' gain) : s'.size = s.size + gain.letsIntroduced := by
  have flattened (e : Elimination reading s query) (binding : Option Name) :
      (e.flattened binding).size = s.size + binding.toList.length := by
    rw [Elimination.flattened, size_spliced]
    cases binding <;> rfl
  cases step with
  | kept | stopped => rfl
  | continued | annotated => exact Store.size_put ..
  | eliminated e named cleaned =>
    exact ((stripReferences_addsNothing _ _ _).size_ok cleaned).trans (flattened e _)
  | faulted e named cleaned =>
    exact ((stripReferences_addsNothing _ _ _).size_error cleaned).trans (flattened e _)

/-- The work at one query after the other, from one store to another, and what it counts together. -/
inductive Trace (reading : Reading Name) (s : Store) : Store → Stats → Prop where
  | nil : Trace reading s s 0
  | snoc {s₁ s₂ : Store} {gain gain' : Stats} {query : NodeId} {result : Except Failure Unit}
      (before : Trace reading s s₁ gain) (step : QueryStep reading s₁ query result s₂ gain') :
      Trace reading s s₂ (gain + gain')

section
variable {reading : Reading Name} {s s₁ s₂ : Store} {gain gain' : Stats}

theorem Trace.trans (first : Trace reading s s₁ gain) (second : Trace reading s₁ s₂ gain') :
    Trace reading s s₂ (gain + gain') := by
  induction second with
  | nil => rwa [add_zero]
  | snoc _ step ih =>
    rw [← add_assoc]
    exact .snoc ih step

/-- As many nodes are new as there are new let clauses. -/
theorem Trace.size (trace : Trace reading s s₁ gain) : s₁.size = s.size + gain.letsIntroduced := by
  induction trace with
  | nil => rfl
  | snoc _ step ih => rw [step.size, ih, Stats.add_def, Nat.add_assoc]

theorem Trace.quiet (trace : Trace reading s s₁ gain) (nothing : gain = 0) : s₁ = s := by
  induction trace with
  | nil => rfl
  | snoc _ step ih =>
    obtain ⟨before, last⟩ := Stats.add_eq_zero_iff.mp nothing
    exact (step.quiet last).trans (ih before)

end

section
variable (rules : Rules) (names : NameTable) {s : Store} {query : NodeId}

theorem eliminate_refused {x : Name} {source : NodeId} {refusal : Refusal}
    (planned : planSplice (isTransparent rules names) names s x source = .ok (.error refusal)) :
    Ends (eliminate rules names query x source) s (.ok false) s 0 := by
  refine (Ends.ask planned).after ?_
  cases event : refusal.event? query with
  | none =>
    simp only [event]
    exact Ends.pure false
  | some e =>
    simp only [event]
    exact Ends.after (Ends.emit e) (Ends.pure false)

theorem eliminate_broken {x : Name} {source : NodeId} {failure : Failure}
    (planned : planSplice (isTransparent rules names) names s x source = .error failure) :
    Ends (eliminate rules names query x source) s (.error failure) s 0 :=
  (Ends.ask planned).bind_error

theorem eliminate_accepted {x : Name} {source : NodeId} {plan : Splice} {moved : Nat} {s' : Store}
    (planned : planSplice (isTransparent rules names) names s x source = .ok (.ok plan))
    (done : splice query source plan s = .ok moved s') :
    Ends (eliminate rules names query x source) s (.ok true) s'
      { eliminated := 1, letsIntroduced := plan.binding.toList.length } := by
  have last : Ends (do
      count fun s => { s with eliminated := s.eliminated + 1 }
      emit (.spliced query source moved)
      return true) s' (.ok true) s' ({ eliminated := 1 } + 0) :=
    Ends.bind (Ends.count fun _ => rfl) (Ends.after (Ends.emit _) (Ends.pure true))
  have whole : Ends (eliminate rules names query x source) s (.ok true) s' (0 +
      ({ letsIntroduced := plan.binding.toList.length } + ({ eliminated := 1 } + 0))) := by
    refine (Ends.ask planned).after (Ends.bind (Ends.onStore done) ?_)
    cases plan.binding with
    | none =>
      have nothing : ({ letsIntroduced := (none : Option Name).toList.length } : Stats) = 0 := rfl
      rw [nothing, zero_add]
      exact last
    | some x => exact Ends.bind (Ends.count fun _ => rfl) last
  simpa [Stats.add_def, Stats.zero_def] using whole

theorem cleanReferences_ends {count : Nat} {s' : Store}
    (cleaned : stripReferences (isTransparent rules names) (s.size + 1) query s = .ok count s') :
    Ends (cleanReferences rules names query) s (.ok ()) s' { referencesStripped := count } := by
  have whole : Ends (cleanReferences rules names query) s (.ok ()) s'
      (0 + ({ referencesStripped := count } + 0)) := by
    refine Ends.bind (a := count) (Ends.onStore ?_) (Ends.bind (Ends.count fun _ => rfl) (Ends.emit _))
    exact cleaned
  simpa using whole

theorem cleanReferences_fault {fault : Fault} {s' : Store}
    (cleaned : stripReferences (isTransparent rules names) (s.size + 1) query s = .error fault s') :
    Ends (cleanReferences rules names query) s (.error (.fault fault)) s' 0 := by
  refine Ends.bind_error (Ends.onStore_error ?_)
  exact cleaned

theorem foldContinuation_ends (clause : NodeId) (x : Name) (inner : NodeId) :
    Ends (foldContinuation clause x inner) s (.ok ()) (s.put clause (.continuation inner x))
      { continuations := 1 } := by
  have whole : Ends (foldContinuation clause x inner) s (.ok ()) (s.put clause (.continuation inner x))
      (0 + ({ continuations := 1 } + 0)) :=
    Ends.bind (Ends.onStore rfl) (Ends.bind (Ends.count fun _ => rfl) (Ends.emit _))
  simpa using whole

theorem foldCast_refused {clause : NodeId} {refusal : CastRefusal}
    (planned : planCast rules.config.castMethod names s clause = .ok (.error refusal)) :
    Ends (foldCast rules names clause) s (.ok ()) s 0 := by
  have reads : Ends (ask fun store => planCast rules.config.castMethod names store clause) s
      (.ok (.error refusal)) s 0 := Ends.ask (by rw [planned]; rfl)
  exact reads.after (Ends.emit _)

theorem foldCast_accepted {clause : NodeId} {cast : Cast}
    (planned : planCast rules.config.castMethod names s clause = .ok (.ok cast)) :
    Ends (foldCast rules names clause) s (.ok ()) (s.put clause cast.folded) { castsFolded := 1 } := by
  have reads : Ends (ask fun store => planCast rules.config.castMethod names store clause) s
      (.ok (.ok cast)) s 0 := Ends.ask (by rw [planned]; rfl)
  have whole : Ends (foldCast rules names clause) s (.ok ()) (s.put clause cast.folded)
      (0 + ({ castsFolded := 1 } + 0)) := by
    refine reads.after (Ends.bind (a := ()) (Ends.onStore rfl) ?_)
    exact Ends.bind (Ends.count fun _ => rfl) (Ends.emit _)
  simpa using whole

theorem NestedFrom.unique (n n' : NestedFrom s query) : n = n' := by
  obtain ⟨first, rest, x, elemType, source, inner, here, clause, nested⟩ := n
  obtain ⟨first', rest', x', elemType', source', inner', here', clause', nested'⟩ := n'
  cases Store.Layer.unique here here'
  cases Store.Layer.unique clause clause'
  cases Store.Layer.unique nested nested'
  rfl

theorem continued_ends (n : NestedFrom s query) (refused : Elimination (rules.numbered names) s query → False) :
    ∃ result s' gain, QueryStep (rules.numbered names) s query result s' gain ∧
      Ends (foldContinuation n.first n.ident n.source) s result s' gain :=
  ⟨_, _, _, .continued n refused, foldContinuation_ends n.first n.ident n.source⟩

theorem eliminated_ends (e : Elimination (rules.numbered names) s query) {binding : Option Name}
    (named : letName e.declared e.node.kind = .ok binding)
    (planned : planSplice (isTransparent rules names) names s e.ident e.source = .ok (.ok ⟨e.value, binding⟩))
    (proper : query ≠ e.source) :
    ∃ result s' gain, QueryStep (rules.numbered names) s query result s' gain ∧
      Ends (do
        if ← eliminate rules names query e.ident e.source then cleanReferences rules names query
        else foldContinuation e.first e.ident e.source) s result s' gain := by
  have span : s.span e.value = .ok e.node.span := by
    rw [Store.span, e.found]
  obtain ⟨moved, done⟩ : ∃ moved, splice query e.source ⟨e.value, binding⟩ s = .ok moved (e.flattened binding) :=
    splice_run e.here e.nested proper span
  have flattened := eliminate_accepted rules names planned done
  -- Whether cleaning faults is not known here: nothing is said about cycles.
  cases cleaned : stripReferences (isTransparent rules names) ((e.flattened binding).size + 1) query
      (e.flattened binding) with
  | ok count s' =>
    have sum :
        ({ eliminated := 1, letsIntroduced := binding.toList.length, referencesStripped := count } : Stats) =
        { eliminated := 1, letsIntroduced := binding.toList.length } + { referencesStripped := count } := by
      simp [Stats.add_def]
    refine ⟨_, _, _, .eliminated e named cleaned, ?_⟩
    rw [sum]
    exact flattened.bind (cleanReferences_ends rules names cleaned)
  | error fault s' =>
    refine ⟨_, _, _, .faulted e named cleaned, ?_⟩
    rw [← add_zero ({ eliminated := 1, letsIntroduced := binding.toList.length } : Stats)]
    exact flattened.bind (cleanReferences_fault rules names cleaned)

theorem nested_ends (closed : s.ClosedAt query) (n : NestedFrom s query) (proper : query ≠ n.source)
    (enabled : rules.config.eliminateTransparent = true) :
    ∃ result s' gain, QueryStep (rules.numbered names) s query result s' gain ∧
      Ends (do
        if ← eliminate rules names query n.ident n.source then cleanReferences rules names query
        else foldContinuation n.first n.ident n.source) s result s' gain := by
  have closedSource : s.ClosedAt n.source :=
    (closed.child n.here List.mem_cons_self).child n.clause (by simp [Kind.children])
  have outcome := planSplice_cases names (isTransparent rules names) n.ident closedSource n.nested
  generalize planned : planSplice (isTransparent rules names) names s n.ident n.source = plan at outcome
  cases outcome with
  | refused other =>
    have refused : Elimination (rules.numbered names) s query → False := fun e => by
      obtain rfl := NestedFrom.unique n e.toNestedFrom
      exact other e.bound e.select e.last e.declared e.value e.shape
    obtain ⟨result, s', gain, step, done⟩ := continued_ends rules names n refused
    exact ⟨result, s', gain, step, (eliminate_refused rules names planned).after done⟩
  | failed bound last shape found unnamed =>
    let e : Elimination (rules.numbered names) s query :=
      ⟨n, _, _, _, _, enabled, bound, last, shape, found⟩
    exact ⟨_, _, _, .stopped e unnamed, (eliminate_broken rules names planned).bind_error⟩
  | accepted bound last shape here named =>
    obtain ⟨node, found, rfl⟩ := Option.map_eq_some_iff.mp here
    let e : Elimination (rules.numbered names) s query :=
      ⟨n, _, _, _, _, enabled, bound, last, shape, found⟩
    exact eliminated_ends rules names e named planned proper

theorem source_ends (closed : s.ClosedAt query) {first source : NodeId} {rest : List NodeId} {x : Name}
    {elemType : Option NodeId} {k : NodeKind} (here : s.Layer query (.query (first :: rest)))
    (clause : s.Layer first (.fromClause x elemType source)) (found : s.Layer source k)
    (simple : k.isQuery = false) :
    ∃ result s' gain, QueryStep (rules.numbered names) s query result s' gain ∧
      Ends (if rules.config.foldCasts then foldCast rules names first else Pure.pure ()) s result s' gain := by
  -- The source is no query, so no case of a nested query applies.
  have flat : NestedFrom s query → False := fun n => by
    obtain ⟨first', rest', x', elemType', source', inner, here', clause', nested⟩ := n
    cases Store.Layer.unique here here'
    cases Store.Layer.unique clause clause'
    cases Store.Layer.unique found nested
    cases simple
  by_cases enabled : rules.config.foldCasts
  · simp only [enabled, if_true]
    have closedFirst : s.ClosedAt first := closed.child here List.mem_cons_self
    obtain ⟨plan, planned, outcome⟩ := planCast_cases names rules.config.castMethod closedFirst clause
    cases outcome with
    | typed other =>
      refine ⟨_, _, _, .kept here flat ?_, foldCast_refused rules names planned⟩
      intro _ first' rest' x' source' base type same clause'
      cases same
      exact absurd (Store.Layer.unique clause clause') (other _ _)
    | refused is other =>
      refine ⟨_, _, _, .kept here flat ?_, foldCast_refused rules names planned⟩
      intro _ first' rest' x' source' base type same clause'
      cases same
      cases is
      cases Store.Layer.unique clause clause'
      exact other base type
    | accepted is shape =>
      cases is
      exact ⟨_, _, _, .annotated here clause enabled shape, foldCast_accepted rules names planned⟩
  · simp only [enabled]
    exact ⟨_, _, _, .kept here flat fun is => absurd is enabled, Ends.pure ()⟩

/-- The work at a query is one of the cases, if no path leads out of the store and the query is not
its own source. -/
theorem normalizeQuery_ends (closed : s.ClosedAt query) {clauses : List NodeId}
    (here : s.kind? query = some (.query clauses)) (proper : ∀ n : NestedFrom s query, query ≠ n.source) :
    ∃ result s' gain, QueryStep (rules.numbered names) s query result s' gain ∧
      Ends (normalizeQuery rules names query) s result s' gain := by
  have read := Ends.kind here
  cases clauses with
  | nil =>
    have flat : NestedFrom s query → False := fun n => by cases Store.Layer.unique here n.here
    refine ⟨_, _, _, .kept here flat ?_, read.after (Ends.pure ())⟩
    intro _ _ _ _ _ _ _ same
    cases same
  | cons first rest =>
    have closedFirst : s.ClosedAt first := closed.child here List.mem_cons_self
    obtain ⟨kf, clause⟩ := closedFirst.exists_kind
    have readFirst := Ends.kind clause
    cases kf with
    | fromClause x elemType source =>
      obtain ⟨ks, found⟩ := (closedFirst.child clause (c := source) (by simp [Kind.children])).exists_kind
      -- What is left after the three nodes are read.
      suffices work : ∃ result s' gain, QueryStep (rules.numbered names) s query result s' gain ∧
          Ends (if ks.isQuery then
              if rules.config.eliminateTransparent then do
                if ← eliminate rules names query x source then cleanReferences rules names query
                else foldContinuation first x source
              else foldContinuation first x source
            else if rules.config.foldCasts then foldCast rules names first else Pure.pure ()) s result s' gain by
        obtain ⟨result, s', gain, step, done⟩ := work
        exact ⟨result, s', gain, step, read.after (readFirst.after ((Ends.kind found).after done))⟩
      cases nested : ks.isQuery with
      | true =>
        obtain ⟨inner, rfl⟩ := Kind.eq_query_of_isQuery nested
        let n : NestedFrom s query := ⟨first, rest, x, elemType, source, inner, here, clause, found⟩
        by_cases enabled : rules.config.eliminateTransparent
        · simp only [enabled, if_true]
          exact nested_ends rules names closed n (proper n) enabled
        · simp only [enabled, if_true]
          exact continued_ends rules names n fun e => enabled e.enabled
      | false => exact source_ends rules names closed here clause found nested
    | _ =>
      have flat : NestedFrom s query → False := fun n => by
        cases Store.Layer.unique here n.here
        cases Store.Layer.unique clause n.clause
      refine ⟨_, _, _, .kept here flat ?_, read.after (readFirst.after (Ends.emit _))⟩
      intro _ _ _ _ _ _ _ same clause'
      cases same
      cases Store.Layer.unique clause clause'

/-! ### The visit of a node -/

variable {id : NodeId} {k k' : NodeKind} {budget : Nat} {s' s'' : Store} {gain gain' : Stats}

theorem visit_error {e : Failure} (here : s.kind? id = some k)
    (children : Ends (k.children.forM (visit rules names budget)) s (.error e) s' gain) :
    Ends (visit rules names (budget + 1) id) s (.error e) s' gain :=
  (Ends.kind here).after children.bind_error

theorem visit_other (here : s.kind? id = some k)
    (children : Ends (k.children.forM (visit rules names budget)) s (.ok ()) s' gain)
    (after : s'.kind? id = some k') (other : k'.isQuery = false) :
    Ends (visit rules names (budget + 1) id) s (.ok ()) s' gain := by
  rw [← add_zero gain]
  refine (Ends.kind here).after (children.bind ((Ends.kind after).after ?_))
  rw [other]
  exact Ends.pure ()

theorem visit_query {result : Except Failure Unit} (here : s.kind? id = some k)
    (children : Ends (k.children.forM (visit rules names budget)) s (.ok ()) s' gain)
    (after : s'.kind? id = some k') (query : k'.isQuery = true)
    (work : Ends (normalizeQuery rules names id) s' result s'' gain') :
    Ends (visit rules names (budget + 1) id) s result s'' (gain + gain') := by
  refine (Ends.kind here).after (children.bind ((Ends.kind after).after ?_))
  rw [query]
  exact work

theorem normalize_of_ends {root : NodeId} {result : Except Failure Unit}
    (ends : Ends (visit rules names (s.size + 1) root) s result s' gain) :
    (normalize rules names s root).store = s' ∧
      (normalize rules names s root).result = result.map fun _ => gain := by
  obtain ⟨log, done⟩ := ends {} #[.started root]
  have starts : run rules names root { store := s } = (do
      visit rules names (s.size + 1) root
      let stats := (← get).stats
      emit (.completed stats)
      return stats : PassM Stats) ⟨s, {}, #[.started root]⟩ := rfl
  have nothing : ({} : Stats) + gain = gain := zero_add gain
  rw [normalize, starts]
  cases result with
  | ok => rw [bind_ok done, nothing]; exact ⟨rfl, rfl⟩
  | error e => rw [bind_error done]; exact ⟨rfl, rfl⟩

end

end Comprehension.Normalize
