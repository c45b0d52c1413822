import Comprehension.Proofs.Ranking
import Comprehension.Term

/-! Stores that come about by building terms and by runs, in any order. Terms may refer to any nodes
that there are, any number of times, and runs may begin at any node and may fail. -/

set_option autoImplicit false

namespace Comprehension

mutual
def Term.mentions : Term → List NodeId
  | .existing id => [id]
  | .raw kind => kind.children
  | .located _ term => term.mentions
  | .query clauses => mentionsAll clauses
  | .fromClause _ source => source.mentions
  | .typedFrom elemType _ source => elemType.mentions ++ source.mentions
  | .letClause _ value => value.mentions
  | .whereClause cond => cond.mentions
  | .orderBy keys => mentionsKeys keys
  | .groupBy projection key => projection.mentions ++ key.mentions
  | .select projection => projection.mentions
  | .continuation preceding _ => preceding.mentions
  | .ident _ typeArgs => mentionsAll typeArgs
  | .member target _ typeArgs => target.mentions ++ mentionsAll typeArgs
  | .path _ _ => []
  | .call target args => target.mentions ++ mentionsAll args
  | .methodCall target _ typeArgs args => target.mentions ++ mentionsAll typeArgs ++ mentionsAll args
  | .record initializers => mentionsAll initializers
  | .named _ value => value.mentions
  | .int _ | .str _ | .bool _ | .null => []
  | .binary _ left right => left.mentions ++ right.mentions
  | .typeRef _ args => mentionsAll args

def Term.mentionsAll : List Term → List NodeId
  | [] => []
  | term :: rest => term.mentions ++ mentionsAll rest

def Term.mentionsKeys : List (Term × Direction) → List NodeId
  | [] => []
  | (term, _) :: rest => term.mentions ++ mentionsKeys rest
end

def Known (ids : List NodeId) (n : Nat) : Prop := ∀ id ∈ ids, id.index < n

namespace Known

variable {ids ids' : List NodeId} {n m : Nat}

theorem mono (known : Known ids n) (more : n ≤ m) : Known ids m :=
  fun id member => Nat.lt_of_lt_of_le (known id member) more

theorem left (known : Known (ids ++ ids') n) : Known ids n :=
  fun id member => known id (List.mem_append_left _ member)

theorem right (known : Known (ids ++ ids') n) : Known ids' n :=
  fun id member => known id (List.mem_append_right _ member)

theorem nil : Known [] n := fun _ member => by cases member

theorem cons {id : NodeId} (first : id.index < n) (rest : Known ids n) : Known (id :: ids) n :=
  List.forall_mem_cons.mpr ⟨first, rest⟩

theorem single {id : NodeId} (known : id.index < n) : Known [id] n := nil.cons known

end Known

/-- From a store with ranks and at least so many slots a program ends in one with ranks, which is no
smaller. Unless it faults, its result fits the number of slots. -/
def Builds {α : Type} (program : BuildM α) (n : Nat) (fits : α → Nat → Prop) : Prop :=
  ∀ session : Session, session.store.Rankable → n ≤ session.store.size →
    ∃ session' : Session, session'.store.Rankable ∧ session.store.size ≤ session'.store.size ∧
      ((∃ fault, program session = .error fault session') ∨
        ∃ a, program session = .ok a session' ∧ fits a session'.store.size)

namespace Builds

variable {α β : Type} {program : BuildM α} {n : Nat} {fits : α → Nat → Prop} {fits' : β → Nat → Prop}

theorem pure {a : α} (fit : ∀ m, n ≤ m → fits a m) : Builds (Pure.pure a) n fits :=
  fun session ranked enough => ⟨session, ranked, Nat.le_refl _, .inr ⟨a, rfl, fit _ enough⟩⟩

theorem bind {next : α → BuildM β} (first : Builds program n fits)
    (second : ∀ a m, n ≤ m → fits a m → Builds (next a) m fits') : Builds (program >>= next) n fits' := by
  intro session ranked enough
  obtain ⟨session₁, ranked₁, grows, ⟨fault, failed⟩ | ⟨a, done, fit⟩⟩ := first session ranked enough
  · exact ⟨session₁, ranked₁, grows, .inl ⟨fault, Program.bind_error failed next⟩⟩
  · obtain ⟨session₂, ranked₂, grows', ended⟩ :=
      second a _ (Nat.le_trans enough grows) fit session₁ ranked₁ (Nat.le_refl _)
    rw [Program.bind_ok done]
    exact ⟨session₂, ranked₂, Nat.le_trans grows grows', ended⟩

theorem intern (text : String) : Builds (BuildM.intern text) n fun _ _ => True :=
  fun ⟨store, names⟩ ranked _ =>
    ⟨⟨store, (names.intern text).2⟩, ranked, Nat.le_refl _, .inr ⟨(names.intern text).1, rfl, trivial⟩⟩

theorem alloc (span : Span) (kind : NodeKind) (known : Known kind.children n) :
    Builds (BuildM.alloc span kind) n fun id m => id.index < m := by
  rintro ⟨store, names⟩ ⟨rank, ranked⟩ enough
  have inside : ∀ c ∈ kind.children, c.index < store.size ∧ rank c < store.size := fun c child => by
    have old := known.mono enough c child
    exact ⟨old, ranked.bound old⟩
  -- No rank reaches the size, so the size is free for the new node.
  have grown := ranked.alloc span (Nat.le_refl _) inside
  exact ⟨_, ⟨_, grown.ranked⟩, grown.grows, .inr ⟨_, rfl, by simp [Store.size]⟩⟩

theorem allocNamed (span : Span) (text : String) (kind : Name → NodeKind)
    (known : ∀ x, Known (kind x).children n) :
    Builds (do BuildM.alloc span (kind (← BuildM.intern text))) n fun id m => id.index < m :=
  (intern text).bind fun x _ more _ => alloc span _ ((known x).mono more)

theorem requireClause {id : NodeId} (known : id.index < n) :
    Builds (BuildM.requireClause id) n fun _ _ => True := by
  intro session ranked enough
  obtain ⟨k, here⟩ := Store.exists_kind?_of_lt (Nat.lt_of_lt_of_le known enough)
  refine ⟨session, ranked, Nat.le_refl _, ?_⟩
  rw [BuildM.requireClause, Store.kind_eq_ok_iff.mpr here]
  by_cases clause : k.isClause
  · exact .inr ⟨(), by simp [clause], trivial⟩
  · exact .inl ⟨.notClause, by simp [clause]⟩

theorem forM_requireClause {ids : List NodeId} (known : Known ids n) :
    Builds (ids.forM BuildM.requireClause) n fun _ _ => True := by
  induction ids generalizing n with
  | nil => exact pure fun _ _ => trivial
  | cons id ids ih =>
    obtain ⟨first, rest⟩ := List.forall_mem_cons.mp known
    rw [Program.forM_cons]
    exact (requireClause first).bind fun _ m more _ => ih (Known.mono rest more)

theorem query (span : Span) {clauses : List NodeId} (known : Known clauses n) :
    Builds (BuildM.query span clauses) n fun id m => id.index < m :=
  (forM_requireClause known).bind fun _ _ more _ => alloc span _ (known.mono more)

theorem orderings (span : Span) {keys : List (NodeId × Direction)} (known : Known (keys.map Prod.fst) n) :
    Builds (keys.mapM fun (key, direction) => BuildM.alloc span (.ordering key direction)) n Known := by
  induction keys generalizing n with
  | nil => exact pure fun _ _ => .nil
  | cons entry keys ih =>
    obtain ⟨key, direction⟩ := entry
    obtain ⟨first, rest⟩ := List.forall_mem_cons.mp known
    rw [List.mapM_cons]
    refine (alloc span (.ordering key direction) (.single first)).bind fun id m more fit => ?_
    refine (ih (Known.mono rest more)).bind fun ids m' more' fits => pure fun m'' more'' => ?_
    exact .cons (by omega) (fits.mono more'')

theorem path (span : Span) {target : NodeId} (members : List String) (known : target.index < n) :
    Builds (members.foldlM (fun target x => do BuildM.alloc span (.member target (← BuildM.intern x) []))
      target) n fun id m => id.index < m := by
  induction members generalizing target n with
  | nil => exact pure fun m more => Nat.lt_of_lt_of_le known more
  | cons x members ih =>
    rw [List.foldlM_cons]
    exact (allocNamed span x (.member target · []) fun _ => .single known).bind fun id m more fit => ih fit

end Builds

namespace Term

-- One case for every kind of term. Parts are built in order, so what is known of the earlier ones has
-- to hold in the larger stores after the later ones.
mutual
/-- Building a term over nodes that there are gives a node. -/
theorem builds (span : Span) : (term : Term) → {n : Nat} → Known term.mentions n →
    Builds (term.build span) n fun id m => id.index < m
  | .existing id, _, known => Builds.pure fun _ more => known.mono more id List.mem_cons_self
  | .raw _, _, known => Builds.alloc span _ known
  | .located inner term, _, known => builds inner term known
  | .query clauses, _, known => (buildsAll span clauses known).bind fun _ _ _ fits => Builds.query span fits
  | .fromClause x source, _, known =>
    (builds span source known).bind fun _ _ _ fit => Builds.allocNamed span x _ fun _ => .single fit
  | .typedFrom elemType x source, _, known =>
    (builds span elemType known.left).bind fun _ _ more fit =>
      (builds span source (known.right.mono more)).bind fun _ _ more' fit' =>
        Builds.allocNamed span x _ fun _ => .cons (by omega) (.single fit')
  | .letClause x value, _, known =>
    (builds span value known).bind fun _ _ _ fit => Builds.allocNamed span x _ fun _ => .single fit
  | .whereClause cond, _, known => (builds span cond known).bind fun _ _ _ fit => Builds.alloc span _ (.single fit)
  | .orderBy keys, _, known =>
    (buildsKeys span keys known).bind fun _ _ _ fits =>
      (Builds.orderings span fits).bind fun _ _ _ fits => Builds.alloc span _ fits
  | .groupBy projection key, _, known =>
    (builds span projection known.left).bind fun _ _ more fit =>
      (builds span key (known.right.mono more)).bind fun _ _ more' fit' =>
        Builds.alloc span _ (.cons (by omega) (.single fit'))
  | .select projection, _, known =>
    (builds span projection known).bind fun _ _ _ fit => Builds.alloc span _ (.single fit)
  | .continuation preceding x, _, known =>
    (builds span preceding known).bind fun _ _ _ fit => Builds.allocNamed span x _ fun _ => .single fit
  | .ident x typeArgs, _, known =>
    (buildsAll span typeArgs known).bind fun _ _ _ fits => Builds.allocNamed span x _ fun _ => fits
  | .member target x typeArgs, _, known =>
    (builds span target known.left).bind fun _ _ more fit =>
      (buildsAll span typeArgs (known.right.mono more)).bind fun _ _ more' fits =>
        Builds.allocNamed span x _ fun _ => .cons (by omega) fits
  | .path root members, _, _ =>
    (Builds.allocNamed span root (.ident · []) fun _ => .nil).bind fun _ _ _ fit => Builds.path span members fit
  | .call target args, _, known =>
    (builds span target known.left).bind fun _ _ more fit =>
      (buildsAll span args (known.right.mono more)).bind fun _ _ more' fits =>
        Builds.alloc span _ (.cons (by omega) fits)
  | .methodCall target x typeArgs args, _, known =>
    (builds span target known.left.left).bind fun id _ more fit =>
      (buildsAll span typeArgs (known.left.right.mono more)).bind fun types _ more' fits =>
        (buildsAll span args (known.right.mono (Nat.le_trans more more'))).bind fun ids _ more'' fits' =>
          (Builds.allocNamed span x (.member id · types) fun _ => .cons (by omega) (fits.mono more'')).bind
            fun callee _ grown fit' => Builds.alloc span (.call callee ids) (.cons fit' (fits'.mono grown))
  | .record initializers, _, known =>
    (buildsAll span initializers known).bind fun _ _ _ fits => Builds.alloc span _ fits
  | .named x value, _, known =>
    (builds span value known).bind fun _ _ _ fit => Builds.allocNamed span x _ fun _ => .single fit
  | .int _, _, _ => Builds.alloc span _ .nil
  | .str value, _, _ => Builds.allocNamed span value _ fun _ => .nil
  | .bool _, _, _ => Builds.alloc span _ .nil
  | .null, _, _ => Builds.alloc span _ .nil
  | .binary _ left right, _, known =>
    (builds span left known.left).bind fun _ _ more fit =>
      (builds span right (known.right.mono more)).bind fun _ _ more' fit' =>
        Builds.alloc span _ (.cons (by omega) (.single fit'))
  | .typeRef x args, _, known =>
    (buildsAll span args known).bind fun _ _ _ fits => Builds.allocNamed span x _ fun _ => fits

theorem buildsAll (span : Span) : (terms : List Term) → {n : Nat} → Known (mentionsAll terms) n →
    Builds (buildAll span terms) n Known
  | [], _, _ => Builds.pure fun _ _ => .nil
  | term :: rest, _, known =>
    (builds span term known.left).bind fun _ _ more fit =>
      (buildsAll span rest (known.right.mono more)).bind fun _ _ more' fits =>
        Builds.pure fun _ more'' => .cons (by omega) (fits.mono more'')

theorem buildsKeys (span : Span) : (keys : List (Term × Direction)) → {n : Nat} → Known (mentionsKeys keys) n →
    Builds (buildKeys span keys) n fun keys m => Known (keys.map Prod.fst) m
  | [], _, _ => Builds.pure fun _ _ => .nil
  | (term, _) :: rest, _, known =>
    (builds span term known.left).bind fun _ _ more fit =>
      (buildsKeys span rest (known.right.mono more)).bind fun _ _ more' fits =>
        Builds.pure fun _ more'' => .cons (Nat.lt_of_lt_of_le fit (Nat.le_trans more' more'')) (fits.mono more'')
end

end Term

inductive Store.Reachable : Store → Prop where
  | empty : Reachable .empty
  /-- A term over nodes that there are. Building may fault halfway. -/
  | build {s s' : Store} {names names' : NameTable} (before : Reachable s) (span : Span) {term : Term}
      (known : ∀ id ∈ term.mentions, id.index < s.size)
      (ends : (∃ id, term.build span ⟨s, names⟩ = .ok id ⟨s', names'⟩) ∨
        ∃ fault, term.build span ⟨s, names⟩ = .error fault ⟨s', names'⟩) : Reachable s'
  /-- A run below a node that there is, which may end in a broken invariant. -/
  | run {s : Store} (before : Reachable s) (rules : Normalize.Rules) (names : NameTable) {root : NodeId}
      (known : root.index < s.size) : Reachable (Normalize.normalize rules names s root).store

namespace Store.Reachable
open Normalize

variable {s : Store}

theorem rankable (reachable : s.Reachable) : s.Rankable := by
  induction reachable with
  | empty => exact ⟨fun _ => 0, fun inside => absurd inside (Nat.not_lt_zero _), fun here => by cases here⟩
  | @build s s' names names' before span term known ends ranked =>
    -- A build has one end, in which the store has ranks whether there was a fault or not.
    obtain ⟨session, ranked', -, ended⟩ := term.builds span known ⟨s, names⟩ ranked (Nat.le_refl _)
    have same : session = ⟨s', names'⟩ := by
      rcases ends with ⟨id, done⟩ | ⟨fault, failed⟩ <;> rcases ended with ⟨fault', ended⟩ | ⟨id', ended, -⟩
      · cases done.symm.trans ended
      · cases done.symm.trans ended
        rfl
      · cases failed.symm.trans ended
        rfl
      · cases failed.symm.trans ended
    subst same
    exact ranked'
  | run before rules names known ranked =>
    obtain ⟨rank, ranked⟩ := ranked
    obtain ⟨-, rank', grown⟩ := normalize_ranked rules names ranked known
    exact ⟨rank', grown.ranked⟩

/-- `from t in (from x in xs select new { x, 3 }) select x`, in which both mentions of `x` are one
node. -/
def sharedProjection : Store :=
  let kinds : List NodeKind := [.ident ⟨1⟩ [], .fromClause ⟨2⟩ none ⟨0⟩, .ident ⟨2⟩ [], .literal (.int 3),
    .record [⟨2⟩, ⟨3⟩], .selectClause ⟨4⟩, .query [⟨1⟩, ⟨5⟩], .fromClause ⟨3⟩ none ⟨6⟩, .selectClause ⟨2⟩,
    .query [⟨7⟩, ⟨8⟩]]
  ⟨(kinds.map (⟨·, .none⟩)).toArray⟩

theorem sharedProjection_reachable : sharedProjection.Reachable := by
  have built (s : Store) (s' : Store) (term : Term) (before : s.Reachable)
      (known : ∀ id ∈ term.mentions, id.index < s.size)
      (ends : ∃ id, term.build .none ⟨s, .new⟩ = .ok id ⟨s', .new⟩) : s'.Reachable :=
    before.build .none known (.inl ends)
  have source := built _ _ (.raw (.ident ⟨1⟩ [])) .empty (by decide) ⟨_, rfl⟩
  have first := built _ _ (.raw (.fromClause ⟨2⟩ none ⟨0⟩)) source (by decide) ⟨_, rfl⟩
  have x := built _ _ (.raw (.ident ⟨2⟩ [])) first (by decide) ⟨_, rfl⟩
  have inner := built _ _ (.query [.existing ⟨1⟩, .select (.record [.existing ⟨2⟩, .int 3])]) x
    (by decide) ⟨_, rfl⟩
  have around := built _ _ (.raw (.fromClause ⟨3⟩ none ⟨6⟩)) inner (by decide) ⟨_, rfl⟩
  exact built _ _ (.query [.existing ⟨7⟩, .select (.existing ⟨2⟩)]) around (by decide) ⟨_, rfl⟩

/-- However a store came about, no child dangles and there are no cycles. A run below any of its nodes
ends with counts or with a broken invariant: it reads no slot that is not in use and follows no path
for longer than there are slots. The store that it leaves is again closed and without cycles. -/
theorem closed_acyclic_runs_end (reachable : s.Reachable) :
    s.Closed ∧ s.Acyclic ∧ ∀ (rules : Rules) (names : NameTable) (root : NodeId), root.index < s.size →
      ((∃ stats, (normalize rules names s root).result = .ok stats) ∨
        ∃ e, (normalize rules names s root).result = .error (.broken e)) ∧
      (normalize rules names s root).store.Closed ∧ (normalize rules names s root).store.Acyclic := by
  obtain ⟨rank, ranked⟩ := reachable.rankable
  refine ⟨ranked.closed, ranked.acyclic, fun rules names root known => ?_⟩
  obtain ⟨fine, rank', grown⟩ := normalize_ranked rules names ranked known
  refine ⟨?_, grown.ranked.closed, grown.ranked.acyclic⟩
  cases ended : (normalize rules names s root).result with
  | ok stats => exact .inl ⟨stats, rfl⟩
  | error failure =>
    cases failure with
    | broken e => exact .inr ⟨e, rfl⟩
    | fault fault => exact absurd ended (fine fault)

theorem closed_acyclic_runs_end_broken :
    let broken := normalize ⟨{}, fun _ => true⟩ .new sharedProjection ⟨9⟩
    let again := normalize ⟨{}, fun _ => false⟩ .new broken.store ⟨9⟩
    broken.result = .error (.broken ⟨⟨3⟩, .none, .unnamedInitializer "literal"⟩) ∧
      broken.store.Reachable ∧ broken.store.Closed ∧ broken.store.Acyclic ∧
      again.result = .ok { continuations := 1 } ∧ again.store.Closed ∧ again.store.Acyclic := by
  intro broken again
  have reachable : broken.store.Reachable := sharedProjection_reachable.run _ _ (by decide)
  obtain ⟨closed, acyclic, runs⟩ := closed_acyclic_runs_end reachable
  obtain ⟨-, closed', acyclic'⟩ := runs ⟨{}, fun _ => false⟩ .new ⟨9⟩ (by decide +kernel +zetaReduce)
  exact ⟨by decide +kernel +zetaReduce, reachable, closed, acyclic, by decide +kernel +zetaReduce, closed',
    acyclic'⟩

end Store.Reachable

end Comprehension
