import Comprehension.Proofs.Interning
import Comprehension.Proofs.Simulation

/-! A run in a store is the normalization of a tree. Which slots the nodes lie in, which numbers their
names have and how the store came about makes no difference: only the tree below the root does. -/

set_option autoImplicit false

namespace Comprehension

def Store.InternedAt (s : Store) (names : NameTable) (root : NodeId) : Prop :=
  ∀ path id k, s.follow root path = some id → s.kind? id = some k → ∀ x ∈ k.names, x.index < names.size

theorem Store.InternedAt.namesIn {s : Store} {names : NameTable} {l : Layout}
    (interned : s.InternedAt names l.mark) (holds : s.Holds l) : l.NamesIn fun x => x.index < names.size := by
  intro n below x member
  obtain ⟨path, found⟩ := holds.exists_follow_iff.mpr ⟨n, below, rfl⟩
  refine interned path n.mark n.cell found (holds n below) x ?_
  rw [Marked.cell]
  simpa using member

theorem Store.Holds.internedAt {s : Store} {names : NameTable} {l : Layout} (holds : s.Holds l)
    (names_in : l.NamesIn fun x => x.index < names.size) : s.InternedAt names l.mark := by
  intro path id k found here x member
  obtain ⟨n, below, rfl⟩ := holds.exists_follow_iff.mp ⟨path, found⟩
  cases here.symm.trans (holds n below)
  exact names_in n below x (by simpa [Marked.cell] using member)

namespace Normalize

variable (rules : Rules) {names : NameTable} {s : Store} {root : NodeId}

/-- The outcomes of runs below a root that give an answer: a tree and the counts, or why there is
none. -/
def Outcome.Answers (outcome : Outcome) (names : NameTable) (root : NodeId) :
    Except Violation (Tree × Stats) → Prop
  | .ok (tree, stats) => outcome.result = .ok stats ∧ outcome.store.unfold names root = .ok tree
  | .error violation => ∃ e, outcome.result = .error (.broken e) ∧ e.violation = violation

/-- The answer of a run below the root of a layout is that of its tree. -/
theorem answers_layout (built : names.Reachable) {l : Layout} (forest : s.Forest [l])
    (inTable : l.NamesIn fun x => x.index < names.size) :
    (normalize rules names s l.mark).Answers names l.mark (normalizeTree rules (l.tree names)) := by
  obtain ⟨l', change, image, known, -⟩ := normalize_run_shape rules names forest
  -- The visit of the tree with numbers for names is that of the tree with texts.
  have inShape : l.shape.NamesIn fun x => x.index < names.size := Marked.namesIn_map.mpr inTable
  have renamed : (visitTree rules.reading () (l.shape.map id names.lookup)).run {} =
      (((visitTree (rules.numbered names) () l.shape).run {}).1.map id names.lookup,
        ((visitTree (rules.numbered names) () l.shape).run {}).2.map id) :=
    visitTree_map (f := id) (g := names.lookup) rules.reading () (fun x y => built.consistent.lookup_injective)
      inShape {}
  have tree' := l'.tree_eq_map names
  have unfolds := change.unfold_eq names
  rw [normalizeTree, l.tree_eq_map, renamed]
  rw [image] at tree'
  generalize (visitTree (rules.numbered names) () l.shape).run {} = visited at known tree' ⊢
  cases broken : visited.2.breach with
  | none =>
    simp only [Progress.map, broken, Option.map_none]
    rw [broken] at known
    exact ⟨known, unfolds.trans (congrArg Except.ok tree')⟩
  | some breach =>
    simp only [Progress.map, broken, Option.map_some]
    rw [broken] at known
    obtain ⟨e, failed, -, violation⟩ := known
    exact ⟨e, failed, violation⟩

theorem Outcome.Answers.unique {outcome : Outcome} {answer answer' : Except Violation (Tree × Stats)}
    (first : outcome.Answers names root answer) (second : outcome.Answers names root answer') :
    answer = answer' := by
  match answer, answer', first, second with
  | .ok (tree, stats), .ok (tree', stats'), ⟨result, unfolds⟩, ⟨result', unfolds'⟩ =>
    cases result.symm.trans result'
    cases unfolds.symm.trans unfolds'
    rfl
  | .ok (tree, stats), .error v, ⟨result, _⟩, ⟨e, failed, _⟩ => cases result.symm.trans failed
  | .error v, .ok (tree, stats), ⟨e, failed, _⟩, ⟨result, _⟩ => cases result.symm.trans failed
  | .error v, .error v', ⟨e, failed, violation⟩, ⟨e', failed', violation'⟩ =>
    cases failed.symm.trans failed'
    rw [← violation, ← violation']

theorem answers_iff (built : names.Reachable) (tree : s.TreeAt root) (interned : s.InternedAt names root) :
    ∃ t, s.unfold names root = .ok t ∧ ∀ answer,
      (normalize rules names s root).Answers names root answer ↔ answer = normalizeTree rules t := by
  obtain ⟨l, rfl, holds, nodup⟩ := Store.treeAt_iff.mp tree
  have answers := answers_layout rules built (.single holds nodup) (interned.namesIn holds)
  refine ⟨l.tree names, holds.unfold_eq nodup names, fun answer => ⟨fun known => known.unique answers, ?_⟩⟩
  rintro rfl
  exact answers

/-- A run below the root of a tree with interned names gives the answer that normalization gives for
the tree, so stores that hold the same tree give the same answer. -/
theorem normalize_refines_normalizeTree (built : names.Reachable) (tree : s.TreeAt root)
    (interned : s.InternedAt names root) :
    ∃ t, s.unfold names root = .ok t ∧
      (∀ answer, (normalize rules names s root).Answers names root answer ↔ answer = normalizeTree rules t) ∧
      ∀ {names' : NameTable} {s' : Store} {root' : NodeId}, names'.Reachable → s'.TreeAt root' →
        s'.InternedAt names' root' → s'.unfold names' root' = .ok t → ∀ answer,
          (normalize rules names' s' root').Answers names' root' answer ↔
            (normalize rules names s root).Answers names root answer := by
  obtain ⟨t, unfolds, answers⟩ := answers_iff rules built tree interned
  refine ⟨t, unfolds, answers, ?_⟩
  intro names' s' root' built' tree' interned' same answer
  obtain ⟨t', unfolds', answers'⟩ := answers_iff rules built' tree' interned'
  cases unfolds'.symm.trans same
  rw [answers, answers']

theorem normalize_refines_normalizeTree_nested :
    let names := NameTable.ofTexts ["xs", "T", "Cast", "x", "f", "y", "t"]
    names.Reachable ∧ Layout.nested.store.TreeAt ⟨16⟩ ∧ Layout.nested.store.InternedAt names ⟨16⟩ ∧
      (normalize ⟨{}, (· = "t")⟩ names Layout.nested.store ⟨16⟩).Answers names ⟨16⟩ (.ok (
        .node () (.query [
          .node () (.fromClause "x" (some (.node () (.typeRef "T" []))) (.node () (.ident "xs" []))),
          .node () (.letClause "y" (.node () (.member (.node () (.ident "x" [])) "f" []))),
          .node () (.selectClause (.node () (.ident "y" [])))]),
        ⟨1, 1, 1, 0, 1⟩)) := by
  intro names
  have distinct : ["", "xs", "T", "Cast", "x", "f", "y", "t"].Nodup := by decide
  have built : names.Reachable := NameTable.reachable_ofTexts _
  have nodup : Layout.nested.marks.Nodup := by decide
  have holds : Layout.nested.store.Holds Layout.nested := Layout.holds_store nodup (by decide)
  have tree : Layout.nested.store.TreeAt ⟨16⟩ := Layout.treeAt_store nodup (by decide)
  have interned : Layout.nested.store.InternedAt names ⟨16⟩ := by
    refine holds.internedAt ?_
    rw [NameTable.size_ofTexts distinct]
    decide
  refine ⟨built, tree, interned, ?_⟩
  obtain ⟨t, unfolds, answers, -⟩ := normalize_refines_normalizeTree ⟨{}, (· = "t")⟩ built tree interned
  cases unfolds.symm.trans (holds.unfold_eq nodup names)
  rw [answers, Layout.tree, NameTable.lookup_ofTexts distinct]
  -- The visit, node by node, and then the work at both queries.
  simp [Layout.nested, Marked.map_node, Kind.map, normalizeTree, visitTree_run_node, Kind.traverse_run,
    Kind.children, Kind.refill, Kind.mapM_run_nil, Kind.mapM_run_cons, -List.mapM_nil, -List.mapM_cons,
    settleUnlessBroken_run_none, Progress.append, settle, Rules.reading, action, sourceAction, castParts?,
    nestedAction, recognized?, selected?, letName, Marked.kind, perform, letClauses, cleaned, Marked.fold_node,
    cleanLayer, plainLayer?, Stats.add_def]

end Normalize

end Comprehension
