import Comprehension.Normalize.Config
import Comprehension.Normalize.Failure
import Comprehension.Normalize.Stats
import Comprehension.Proofs.Subtree
import Mathlib.Algebra.GroupWithZero.Nat

/-! Normalization as a function of trees. Nothing is numbered, overwritten or shared here: a visit
takes a tree to a tree, says how often it did what, and stops at the first breach. Nodes keep their
marks, and all nodes that are added get the same mark, so that the result of a visit does not depend
on what was added before it. -/

set_option autoImplicit false

namespace Comprehension.Normalize

/-- What a run looks for, in terms of names of any kind. -/
structure Reading (ν : Type) where
  /-- The names of records to be taken apart. -/
  transparent : ν → Bool
  /-- The names of the method that stands for an element type. -/
  cast : ν → Bool
  foldCasts : Bool
  eliminates : Bool

def Reading.comap {ν μ : Type} (g : ν → μ) (reading : Reading μ) : Reading ν where
  transparent x := reading.transparent (g x)
  cast x := reading.cast (g x)
  foldCasts := reading.foldCasts
  eliminates := reading.eliminates

def Rules.reading (rules : Rules) : Reading String where
  transparent := rules.transparent
  cast x := x = rules.config.castMethod
  foldCasts := rules.config.foldCasts
  eliminates := rules.config.eliminateTransparent

structure Breach (ι : Type) where
  mark : ι
  violation : Violation

structure Progress (ι : Type) where
  stats : Stats := {}
  breach : Option (Breach ι) := none

def Progress.append {ι : Type} (before after : Progress ι) : Progress ι :=
  ⟨before.stats + after.stats, after.breach⟩

section
variable {ι ν : Type}

inductive Action (ι ν : Type) where
  | keep
  /-- The moved clauses, and a let clause if there is a binding, take the place of the first one. -/
  | splice (moved : List (Marked ι ν)) (binding : Option (ν × Marked ι ν)) (rest : List (Marked ι ν))
  /-- The first clause becomes a continuation of the query that it ranges over. -/
  | continuation (first : ι) (inner : Marked ι ν) (ident : ν) (rest : List (Marked ι ν))
  /-- The first clause gets an element type and ranges over what the cast was called on. -/
  | annotate (first : ι) (ident : ν) (elemType base : Marked ι ν) (rest : List (Marked ι ν))
  | stop (breach : Breach ι)

/-- The name of the let clause for the second value of a record, which is declared under a name or is
not. A binding under its own name needs none. -/
def letName [DecidableEq ν] {α : Type} (declared : Option ν) (value : Kind ν α) :
    Except Violation (Option ν) :=
  match declared, value with
  | none, .ident .. => .ok none
  | none, .member _ x _ => .ok (some x)
  | none, kind => .error (.unnamedInitializer kind.describe)
  | some x, .ident y _ => .ok (if x = y then none else some x)
  | some x, _ => .ok (some x)

def Nameless {α : Type} (k : Kind ν α) : Prop :=
  (∀ x typeArgs, k ≠ .ident x typeArgs) ∧ ∀ target x typeArgs, k ≠ .member target x typeArgs

theorem letName_eq_error_iff [DecidableEq ν] {α : Type} {declared : Option ν} {k : Kind ν α} {violation : Violation} :
    letName declared k = .error violation ↔
      declared = none ∧ Nameless k ∧ violation = .unnamedInitializer k.describe := by
  cases declared with
  | some x => cases k <;> simp [letName]
  | none => cases k <;> simp [letName, Nameless, eq_comm]

def castParts? (cast : ν → Bool) (source : Marked ι ν) : Option (Marked ι ν × Marked ι ν) :=
  match source.kind with
  | .call (.node _ (.member base x [elemType])) [] => if cast x then some (base, elemType) else none
  | _ => none

def selected? [DecidableEq ν] (select : Marked ι ν) : Option (Option ν × Marked ι ν) :=
  match select.kind with
  | .selectClause (.node _ (.record [first, second])) =>
    match first.kind, second.kind with
    | .named x (.node _ (.ident y [])), .named z value => if x = y then some (some z, value) else none
    | .ident _ [], .named z value => some (some z, value)
    | .ident _ [], _ => some (none, second)
    | _, _ => none
  | _ => none

def plainLayer? (transparent : ν → Bool) : Kind ν (Marked ι ν) → Option (Kind ν (Marked ι ν))
  | .member (.node _ (.ident t _)) x typeArgs =>
    if transparent t then some (.ident x typeArgs) else none
  | _ => none

def cleanLayer (transparent : ν → Bool) (m : ι) (k : Kind ν (Marked ι ν × Nat)) : Marked ι ν × Nat :=
  match plainLayer? transparent (k.map id Prod.fst) with
  | some plain => (.node m plain, (k.children.map Prod.snd).sum + 1)
  | none => (.node m (k.map id Prod.fst), (k.children.map Prod.snd).sum)

def cleaned (transparent : ν → Bool) : Marked ι ν → Marked ι ν × Nat := Marked.fold (cleanLayer transparent)

def letClauses (fresh : ι) : Option (ν × Marked ι ν) → List (Marked ι ν)
  | none => []
  | some (x, value) => [.node fresh (.letClause x value)]

section
variable [DecidableEq ν] (reading : Reading ν) (fresh : ι)

def recognized? (x : ν) (inner : List (Marked ι ν)) : Option (Option ν × Marked ι ν) :=
  if reading.eliminates && reading.transparent x then inner.getLast?.bind selected? else none

def nestedAction (first : ι) (x : ν) (source : Marked ι ν) (inner rest : List (Marked ι ν)) :
    Action ι ν :=
  match recognized? reading x inner with
  | none => .continuation first source x rest
  | some (declared, value) =>
    match letName declared value.kind with
    | .ok binding => .splice inner.dropLast (binding.map (·, value)) rest
    | .error violation => .stop ⟨value.mark, violation⟩

def sourceAction (first : ι) (x : ν) (elemType : Option (Marked ι ν)) (source : Marked ι ν)
    (rest : List (Marked ι ν)) : Action ι ν :=
  match if reading.foldCasts && elemType.isNone then castParts? reading.cast source else none with
  | some (base, elemType) => .annotate first x elemType base rest
  | none => .keep

def action : Kind ν (Marked ι ν) → Action ι ν
  | .query (.node first (.fromClause x elemType source) :: rest) =>
    match source.kind with
    | .query inner => nestedAction reading first x source inner rest
    | _ => sourceAction reading first x elemType source rest
  | _ => .keep

def perform (m : ι) (k : Kind ν (Marked ι ν)) : Action ι ν → Marked ι ν × Progress ι
  | .keep => (.node m k, {})
  | .splice moved binding rest =>
    let clauses := moved ++ letClauses fresh binding ++ rest
    let (tree, count) := cleaned reading.transparent (.node m (.query clauses))
    (tree, { stats := { eliminated := 1, letsIntroduced := binding.toList.length,
                        referencesStripped := count } })
  | .continuation first inner x rest =>
    (.node m (.query (.node first (.continuation inner x) :: rest)), { stats := { continuations := 1 } })
  | .annotate first x elemType base rest =>
    (.node m (.query (.node first (.fromClause x (some elemType) base) :: rest)),
      { stats := { castsFolded := 1 } })
  | .stop breach => (.node m k, { breach := some breach })

def settle (m : ι) (k : Kind ν (Marked ι ν)) : Marked ι ν × Progress ι :=
  perform reading fresh m k (action reading k)

def settleUnlessBroken (m : ι) (k : Kind ν (Marked ι ν)) : StateM (Progress ι) (Marked ι ν) :=
  fun progress =>
    match progress.breach with
    | some _ => (.node m k, progress)
    | none => ((settle reading fresh m k).1, progress.append (settle reading fresh m k).2)

/-- Visits the children from the first to the last, then the node. A breach leaves all that comes
after it as it is. -/
def visitTree : Marked ι ν → StateM (Progress ι) (Marked ι ν) :=
  Marked.fold fun m k => do
    settleUnlessBroken reading fresh m (← k.traverse fun visited => visited)

end

end

/-! ### Which action -/

section
variable {ι ν : Type} [DecidableEq ν] (reading : Reading ν) {first : ι} {x : ν}
  {elemType : Option (Marked ι ν)} {source : Marked ι ν} {rest : List (Marked ι ν)}

theorem action_nested {inner : List (Marked ι ν)} (nested : source.kind = .query inner) :
    action reading (.query (.node first (.fromClause x elemType source) :: rest)) =
      nestedAction reading first x source inner rest := by
  simp only [action, nested]

theorem action_source (simple : source.kind.isQuery = false) :
    action reading (.query (.node first (.fromClause x elemType source) :: rest)) =
      sourceAction reading first x elemType source rest := by
  simp only [action]
  split
  next nested => simp [nested, Kind.isQuery] at simple
  next => rfl

end

theorem settle_other {ι ν : Type} [DecidableEq ν] (reading : Reading ν) (fresh m : ι) {k : Kind ν (Marked ι ν)}
    (other : k.isQuery = false) : settle reading fresh m k = (.node m k, {}) := by
  cases k with
  | query clauses => cases other
  | _ => rfl

/-! ### Cleaning a layer -/

section
variable {ι ν : Type} (transparent : ν → Bool) (m : ι) (k : Kind ν (Marked ι ν))

theorem cleaned_node :
    cleaned transparent (.node m k) = cleanLayer transparent m (k.map id (cleaned transparent)) :=
  Marked.fold_node _ m k

/-- The layer of a cleaned node: that of its cleaned children, unless they make it an access. -/
theorem cleaned_node_fst : (cleaned transparent (.node m k)).1 = .node m
    ((plainLayer? transparent (k.map id fun c => (cleaned transparent c).1)).getD
      (k.map id fun c => (cleaned transparent c).1)) := by
  have layer : (k.map id (cleaned transparent)).map id Prod.fst =
      k.map id fun c => (cleaned transparent c).1 := Kind.map_map _ _ _ _ k
  rw [cleaned_node, cleanLayer, layer]
  cases plainLayer? transparent (k.map id fun c => (cleaned transparent c).1) <;> rfl

theorem cleaned_node_snd : (cleaned transparent (.node m k)).2 =
    (k.children.map fun c => (cleaned transparent c).2).sum +
      (plainLayer? transparent (k.map id fun c => (cleaned transparent c).1)).toList.length := by
  have layer : (k.map id (cleaned transparent)).map id Prod.fst =
      k.map id fun c => (cleaned transparent c).1 := Kind.map_map _ _ _ _ k
  rw [cleaned_node, cleanLayer, layer, Kind.children_map, List.map_map]
  cases plainLayer? transparent (k.map id fun c => (cleaned transparent c).1) <;> rfl

theorem cleaned_query (clauses : List (Marked ι ν)) :
    cleaned transparent (.node m (.query clauses)) =
      (.node m (.query (clauses.map fun c => (cleaned transparent c).1)),
        (clauses.map fun c => (cleaned transparent c).2).sum) := by
  apply Prod.ext
  · rw [cleaned_node_fst]
    rfl
  · rw [cleaned_node_snd]
    rfl

variable {transparent k}

theorem plainLayer?_eq_some {plain : Kind ν (Marked ι ν)} (found : plainLayer? transparent k = some plain) :
    ∃ target x typeArgs, k = .member target x typeArgs ∧ plain = .ident x typeArgs := by
  unfold plainLayer? at found
  split at found
  next tm t args x typeArgs =>
    split at found
    next =>
      cases found
      exact ⟨_, x, typeArgs, rfl, rfl⟩
    next => cases found
  next => cases found

theorem cleaned_other (other : ∀ target x typeArgs, k ≠ .member target x typeArgs) :
    (cleaned transparent (.node m k)).1 = .node m (k.map id fun c => (cleaned transparent c).1) := by
  rw [cleaned_node_fst]
  cases found : plainLayer? transparent (k.map id fun c => (cleaned transparent c).1) with
  | none => rfl
  | some plain =>
    obtain ⟨target, x, typeArgs, is, -⟩ := plainLayer?_eq_some found
    cases k <;> simp only [Kind.map, reduceCtorEq] at is
    exact absurd rfl (other _ _ _)

end

/-! ### Visits one after the other -/

theorem Stats.add_def (a b : Stats) :
    a + b = ⟨a.eliminated + b.eliminated, a.letsIntroduced + b.letsIntroduced,
      a.referencesStripped + b.referencesStripped, a.continuations + b.continuations,
      a.castsFolded + b.castsFolded⟩ := rfl

instance : Zero Stats := ⟨{}⟩

instance : AddCommMonoid Stats where
  add_assoc a b c := by simp only [Stats.add_def, Nat.add_assoc]
  zero_add a := by
    change ({} : Stats) + a = a
    simp [Stats.add_def]
  add_zero a := by
    change a + ({} : Stats) = a
    simp [Stats.add_def]
  add_comm a b := by simp only [Stats.add_def, Nat.add_comm]
  nsmul := nsmulRec

theorem Stats.zero_def : (0 : Stats) = {} := rfl

theorem Stats.add_eq_zero_iff {a b : Stats} : a + b = 0 ↔ a = 0 ∧ b = 0 := by
  cases a; cases b
  simp only [Stats.add_def, Stats.zero_def, Stats.mk.injEq]
  omega

theorem Stats.forall_of_sum {P : Stats → Prop} (both : ∀ a b, P (a + b) → P a ∧ P b) {counts : List Stats}
    (all : P counts.sum) : ∀ a ∈ counts, P a := by
  induction counts with
  | nil => simp
  | cons a counts ih =>
    rw [List.sum_cons] at all
    obtain ⟨first, rest⟩ := both a counts.sum all
    exact List.forall_mem_cons.mpr ⟨first, ih rest⟩

namespace Progress

variable {ι : Type}

theorem append_assoc (a b c : Progress ι) : (a.append b).append c = a.append (b.append c) := by
  simp [append, add_assoc]

theorem append_nil {p : Progress ι} (going : p.breach = none) : p.append {} = p := by
  cases p
  simp_all [append, ← Stats.zero_def]

end Progress

/-- A program that returns a given value once there is a breach, and otherwise adds to the progress
without looking at it. -/
structure Sequential {ι α : Type} (program : StateM (Progress ι) α) (a : α) : Prop where
  halted : ∀ p, p.breach.isSome → program.run p = (a, p)
  resumed : ∀ p, p.breach = none → program.run p = ((program.run {}).1, p.append (program.run {}).2)

namespace Sequential

variable {ι ν α : Type} {f : α → StateM (Progress ι) α}

theorem mapM {l : List α} (each : ∀ a ∈ l, Sequential (f a) a) : Sequential (l.mapM f) l := by
  induction l with
  | nil =>
    refine ⟨fun p _ => rfl, fun p going => ?_⟩
    exact congrArg (Prod.mk []) (Progress.append_nil going).symm
  | cons a l ih =>
    have first : Sequential (f a) a := each a (by simp)
    have rest : Sequential (l.mapM f) l := ih fun b member => each b (by simp [member])
    constructor
    · intro p broken
      rw [Kind.mapM_run_cons, first.halted p broken, rest.halted p broken]
    · intro p going
      rw [Kind.mapM_run_cons, Kind.mapM_run_cons, first.resumed p going]
      cases after : ((f a).run {}).2.breach with
      | none =>
        -- Both runs go on; the second one is resumed after what the first element has added.
        rw [rest.resumed (p.append _) after, rest.resumed _ after, Progress.append_assoc]
      | some breach =>
        -- The breach of the first element halts the rest in both runs.
        rw [rest.halted (p.append _) (by simp [Progress.append, after]), rest.halted _ (by simp [after])]

theorem traverse {k : Kind ν α} (each : ∀ a ∈ k.children, Sequential (f a) a) :
    Sequential (k.traverse f) k := by
  have children : Sequential (k.children.mapM f) k.children := mapM each
  constructor
  · intro p broken
    rw [Kind.traverse_run, children.halted p broken, Kind.refill_children]
  · intro p going
    rw [Kind.traverse_run, Kind.traverse_run, children.resumed p going]

theorem mapM_run {l : List α} (each : ∀ a ∈ l, Sequential (f a) a)
    (succeed : ∀ a ∈ l, ((f a).run {}).2.breach = none) :
    (l.mapM f).run {} =
      (l.map fun a => ((f a).run {}).1, ⟨(l.map fun a => ((f a).run {}).2.stats).sum, none⟩) := by
  induction l with
  | nil => rfl
  | cons a l ih =>
    have rest : Sequential (l.mapM f) l := mapM fun b member => each b (by simp [member])
    have tail := ih (fun b member => each b (by simp [member])) fun b member => succeed b (by simp [member])
    have going : ((f a).run {}).2.breach = none := succeed a (by simp)
    rw [Kind.mapM_run_cons, rest.resumed _ going, tail]
    rfl

theorem succeed_of_mapM {l : List α} (each : ∀ a ∈ l, Sequential (f a) a)
    (whole : ((l.mapM f).run {}).2.breach = none) : ∀ a ∈ l, ((f a).run {}).2.breach = none := by
  induction l with
  | nil => simp
  | cons a l ih =>
    have rest : Sequential (l.mapM f) l := mapM fun b member => each b (by simp [member])
    rw [Kind.mapM_run_cons] at whole
    have going : ((f a).run {}).2.breach = none := by
      by_contra broken
      rw [rest.halted _ (by simpa [Option.isSome_iff_ne_none] using broken)] at whole
      exact broken whole
    rw [rest.resumed _ going] at whole
    intro b member
    rcases List.mem_cons.mp member with rfl | member
    · exact going
    · exact ih (fun c inRest => each c (by simp [inRest])) whole b member

end Sequential

section
variable {ι ν : Type} [DecidableEq ν] (reading : Reading ν) (fresh : ι)

theorem visitTree_node (m : ι) (k : Kind ν (Marked ι ν)) :
    visitTree reading fresh (.node m k) =
      k.traverse (visitTree reading fresh) >>= settleUnlessBroken reading fresh m := by
  rw [visitTree, Marked.fold_node, Kind.traverse_map]
  rfl

theorem visitTree_run_node (m : ι) (k : Kind ν (Marked ι ν)) (p : Progress ι) :
    (visitTree reading fresh (.node m k)).run p =
      (settleUnlessBroken reading fresh m ((k.traverse (visitTree reading fresh)).run p).1).run
        ((k.traverse (visitTree reading fresh)).run p).2 := by
  rw [visitTree_node]
  rfl

theorem settleUnlessBroken_run_none {m : ι} {k : Kind ν (Marked ι ν)} {p : Progress ι}
    (going : p.breach = none) : (settleUnlessBroken reading fresh m k).run p =
      ((settle reading fresh m k).1, p.append (settle reading fresh m k).2) := by
  simp [settleUnlessBroken, StateT.run, going]

theorem settleUnlessBroken_run_some {m : ι} {k : Kind ν (Marked ι ν)} {p : Progress ι}
    (broken : p.breach.isSome) : (settleUnlessBroken reading fresh m k).run p = (.node m k, p) := by
  obtain ⟨breach, found⟩ := Option.isSome_iff_exists.mp broken
  simp [settleUnlessBroken, StateT.run, found]

theorem sequential_visitTree (t : Marked ι ν) : Sequential (visitTree reading fresh t) t := by
  induction t using Marked.induction with
  | step m k ih =>
    have layer : Sequential (k.traverse (visitTree reading fresh)) k := Sequential.traverse ih
    constructor
    · intro p broken
      rw [visitTree_run_node, layer.halted p broken, settleUnlessBroken_run_some reading fresh broken]
    · intro p going
      rw [visitTree_run_node, visitTree_run_node, layer.resumed p going]
      cases after : ((k.traverse (visitTree reading fresh)).run {}).2.breach with
      | none =>
        rw [settleUnlessBroken_run_none (p := p.append _) reading fresh after,
          settleUnlessBroken_run_none reading fresh after, Progress.append_assoc]
      | some breach =>
        rw [settleUnlessBroken_run_some (p := p.append _) reading fresh (by simp [Progress.append, after]),
          settleUnlessBroken_run_some reading fresh (by simp [after])]

def normal (t : Marked ι ν) : Marked ι ν := ((visitTree reading fresh t).run {}).1

def tally (t : Marked ι ν) : Stats := ((visitTree reading fresh t).run {}).2.stats

def Succeeds (t : Marked ι ν) : Prop := ((visitTree reading fresh t).run {}).2.breach = none

variable {reading fresh} {m : ι} {k : Kind ν (Marked ι ν)}

theorem visitTree_run_of_succeeds {t : Marked ι ν} (h : Succeeds reading fresh t) :
    (visitTree reading fresh t).run {} = (normal reading fresh t, ⟨tally reading fresh t, none⟩) := by
  have going : ((visitTree reading fresh t).run {}).2.breach = none := h
  calc (visitTree reading fresh t).run {}
      = (normal reading fresh t, ⟨tally reading fresh t, ((visitTree reading fresh t).run {}).2.breach⟩) := rfl
    _ = (normal reading fresh t, ⟨tally reading fresh t, none⟩) := by rw [going]

theorem traverse_visitTree_run (children : ∀ c ∈ k.children, Succeeds reading fresh c) :
    (k.traverse (visitTree reading fresh)).run {} =
      (k.map id (normal reading fresh), ⟨(k.children.map (tally reading fresh)).sum, none⟩) := by
  rw [Kind.traverse_run, Sequential.mapM_run (fun c _ => sequential_visitTree reading fresh c) children]
  exact congrArg (Prod.mk · _) (Kind.refill_map (normal reading fresh) k)

theorem visitTree_run_node_of_children (children : ∀ c ∈ k.children, Succeeds reading fresh c) :
    (visitTree reading fresh (.node m k)).run {} =
      ((settle reading fresh m (k.map id (normal reading fresh))).1,
        Progress.append ⟨(k.children.map (tally reading fresh)).sum, none⟩
          (settle reading fresh m (k.map id (normal reading fresh))).2) := by
  rw [visitTree_run_node, traverse_visitTree_run children, settleUnlessBroken_run_none reading fresh rfl]

/-- A visit succeeds if it does so at all children and there is no breach at the node itself. -/
theorem succeeds_node_iff : Succeeds reading fresh (.node m k) ↔
    (∀ c ∈ k.children, Succeeds reading fresh c) ∧
      (settle reading fresh m (k.map id (normal reading fresh))).2.breach = none := by
  constructor
  · intro h
    have children : ∀ c ∈ k.children, Succeeds reading fresh c := by
      have layer : ((k.traverse (visitTree reading fresh)).run {}).2.breach = none := by
        -- A breach below is what the visit of the node ends with.
        by_contra broken
        have some : ((k.traverse (visitTree reading fresh)).run {}).2.breach.isSome := by
          simpa [Option.isSome_iff_ne_none] using broken
        rw [Succeeds, visitTree_run_node, settleUnlessBroken_run_some reading fresh some] at h
        exact broken h
      rw [Kind.traverse_run] at layer
      exact Sequential.succeed_of_mapM (fun c _ => sequential_visitTree reading fresh c) layer
    rw [Succeeds, visitTree_run_node_of_children children] at h
    exact ⟨children, h⟩
  · rintro ⟨children, here⟩
    rw [Succeeds, visitTree_run_node_of_children children]
    exact here

theorem Succeeds.child {t c : Marked ι ν} (succeeds : Succeeds reading fresh t) (child : c ∈ t.kind.children) :
    Succeeds reading fresh c := by
  obtain ⟨m, k⟩ := t
  exact (succeeds_node_iff.mp succeeds).1 c child

theorem Succeeds.of_mem {t n : Marked ι ν} (succeeds : Succeeds reading fresh t) (below : n ∈ t.subtrees) :
    Succeeds reading fresh n := by
  induction t using Marked.induction with
  | step m k ih =>
    rcases Marked.mem_subtrees_node.mp below with rfl | ⟨c, child, below⟩
    · exact succeeds
    · exact ih c child (succeeds.child child) below

theorem normal_node (children : ∀ c ∈ k.children, Succeeds reading fresh c) :
    normal reading fresh (.node m k) = (settle reading fresh m (k.map id (normal reading fresh))).1 := by
  rw [normal, visitTree_run_node_of_children children]

theorem tally_node (children : ∀ c ∈ k.children, Succeeds reading fresh c) :
    tally reading fresh (.node m k) = (k.children.map (tally reading fresh)).sum +
      (settle reading fresh m (k.map id (normal reading fresh))).2.stats := by
  rw [tally, visitTree_run_node_of_children children]
  rfl

end

def normalizeTree (rules : Rules) (tree : Tree) : Except Violation (Tree × Stats) :=
  let (normal, progress) := (visitTree rules.reading () tree).run {}
  match progress.breach with
  | none => .ok (normal, progress.stats)
  | some breach => .error breach.violation

end Comprehension.Normalize
