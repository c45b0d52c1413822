import Comprehension.Proofs.Shape

/-! A visit looks at names only to compare them with each other and with what the rules are about, and
at marks not at all. So it does the same to a tree with other marks and with other names, as long as
different names stay different. -/

set_option autoImplicit false

namespace Comprehension.Normalize

variable {ι κ ν μ : Type} (f : ι → κ) (g : ν → μ)

def Breach.map (breach : Breach ι) : Breach κ := ⟨f breach.mark, breach.violation⟩

def Progress.map (progress : Progress ι) : Progress κ := ⟨progress.stats, progress.breach.map (Breach.map f)⟩

def Action.map : Action ι ν → Action κ μ
  | .keep => .keep
  | .splice moved binding rest =>
    .splice (moved.map (Marked.map f g)) (binding.map (Prod.map g (Marked.map f g)))
      (rest.map (Marked.map f g))
  | .continuation first inner x rest =>
    .continuation (f first) (inner.map f g) (g x) (rest.map (Marked.map f g))
  | .annotate first x elemType base rest =>
    .annotate (f first) (g x) (elemType.map f g) (base.map f g) (rest.map (Marked.map f g))
  | .stop breach => .stop (breach.map f)

/-! ### Cleaning -/

theorem plainLayer?_map (transparent : μ → Bool) (k : Kind ν (Marked ι ν)) :
    plainLayer? transparent (k.map g (Marked.map f g)) =
      (plainLayer? (fun x => transparent (g x)) k).map (Kind.map g (Marked.map f g)) := by
  cases k with
  | member target x typeArgs =>
    obtain ⟨m, k⟩ := target
    cases k with
    | ident t _ => by_cases found : transparent (g t) <;> simp [plainLayer?, Kind.map, Marked.map_node, found]
    | _ => rfl
  | _ => rfl

theorem cleaned_map (transparent : μ → Bool) (t : Marked ι ν) :
    cleaned transparent (t.map f g) =
      ((cleaned (fun x => transparent (g x)) t).1.map f g, (cleaned (fun x => transparent (g x)) t).2) := by
  induction t using Marked.induction with
  | step m k ih =>
    have trees : (k.map g (Marked.map f g)).map id (fun c => (cleaned transparent c).1) =
        (k.map id fun c => (cleaned (fun x => transparent (g x)) c).1).map g (Marked.map f g) := by
      rw [Kind.map_map, Kind.map_map]
      exact Kind.map_children_congr fun c child => congrArg Prod.fst (ih c child)
    have counts : (k.map g (Marked.map f g)).children.map (fun c => (cleaned transparent c).2) =
        k.children.map fun c => (cleaned (fun x => transparent (g x)) c).2 := by
      rw [Kind.children_map, List.map_map]
      exact List.map_congr_left fun c child => congrArg Prod.snd (ih c child)
    rw [Marked.map_node]
    apply Prod.ext
    · rw [cleaned_node_fst, cleaned_node_fst, trees, plainLayer?_map, Marked.map_node]
      cases plainLayer? (fun x => transparent (g x)) _ <;> rfl
    · rw [cleaned_node_snd, cleaned_node_snd, trees, plainLayer?_map, counts]
      cases plainLayer? (fun x => transparent (g x)) _ <;> rfl

/-! ### Shapes and actions -/

theorem layerMap_map : LayerMap (fun _ => True) IsLayer IsLayer g (Marked.map f g) where
  forth {t k} _ layer := by
    rw [IsLayer] at layer
    rw [IsLayer, Marked.kind_map, layer]
  back {t k'} _ layer := ⟨t.kind, rfl, by rw [← Marked.kind_map]; exact Eq.symm layer⟩
  below _ _ _ := trivial

section
variable {f g} {P : ν → Prop} (injective : ∀ x y, P x → P y → g x = g y → x = y)

theorem castParts?_map (cast : μ → Bool) (source : Marked ι ν) :
    castParts? cast (source.map f g) =
      (castParts? (fun x => cast (g x)) source).map (Prod.map (Marked.map f g) (Marked.map f g)) := by
  cases found : castParts? (fun x => cast (g x)) source with
  | some parts =>
    obtain ⟨base, elemType⟩ := parts
    exact castParts?_eq_some_iff.mpr ((castParts?_eq_some_iff.mp found).map (layerMap_map f g) trivial)
  | none =>
    cases image : castParts? cast (source.map f g) with
    | none => rfl
    | some parts =>
      obtain ⟨base, elemType⟩ := parts
      obtain ⟨b, t, shape, -, -⟩ := (castParts?_eq_some_iff.mp image).of_map (layerMap_map f g) trivial
      rw [castParts?_eq_some_iff.mpr shape] at found
      cases found

include injective

theorem letName_map [DecidableEq ν] [DecidableEq μ] {α β : Type} {child : α → β} {declared : Option ν}
    {k : Kind ν α} (declaredIn : ∀ x ∈ declared, P x) (namesIn : ∀ x ∈ k.names, P x) :
    letName (declared.map g) (k.map g child) = (letName declared k).map (Option.map g) := by
  cases declared with
  | none => cases k <;> rfl
  | some x =>
    cases k with
    | ident y _ =>
      have same : g x = g y ↔ x = y :=
        ⟨injective x y (declaredIn x rfl) (namesIn y (by simp [Kind.names])), congrArg g⟩
      by_cases equal : x = y <;> simp [letName, Kind.map, Except.map, same, equal]
    | _ => rfl

theorem selected?_map [DecidableEq ν] [DecidableEq μ] {select : Marked ι ν} (names : select.NamesIn P) :
    selected? (select.map f g) = (selected? select).map (Prod.map (Option.map g) (Marked.map f g)) := by
  cases found : selected? select with
  | some parts =>
    obtain ⟨declared, value⟩ := parts
    exact selected?_eq_some_iff.mpr ((selected?_eq_some_iff.mp found).map (layerMap_map f g) trivial)
  | none =>
    cases image : selected? (select.map f g) with
    | none => rfl
    | some parts =>
      obtain ⟨declared, value⟩ := parts
      -- Only `x = x` compares names, and both of them are names of the clause.
      obtain ⟨d, v, shape, -, -⟩ := by
        refine (selected?_eq_some_iff.mp image).of_map (layerMap_map f g) trivial ?_
        intro record first second inner x y projection pair named ident equal
        have child : ∀ {t c : Marked ι ν} {k : Kind ν (Marked ι ν)}, t.NamesIn P → IsLayer t k →
            c ∈ k.children → c.NamesIn P := fun all layer member =>
          all.of_mem (Marked.mem_subtrees_of_child (layer ▸ member))
        have inFirst : first.NamesIn P :=
          child (child names projection (by simp [Kind.children])) pair (by simp [Kind.children])
        have inInner : inner.NamesIn P := child inFirst named (by simp [Kind.children])
        refine injective y x (inInner inner (by simp) y ?_) (inFirst first (by simp) x ?_) equal
        · rw [show inner.kind = .ident y [] from ident]
          simp [Kind.names]
        · rw [show first.kind = .named x inner from named]
          simp [Kind.names]
      rw [selected?_eq_some_iff.mpr shape] at found
      cases found

section
variable [DecidableEq ν] [DecidableEq μ] (reading : Reading μ)

theorem recognized?_map {x : ν} {inner : List (Marked ι ν)} (names : ∀ c ∈ inner, c.NamesIn P) :
    recognized? reading (g x) (inner.map (Marked.map f g)) =
      (recognized? (reading.comap g) x inner).map (Prod.map (Option.map g) (Marked.map f g)) := by
  unfold recognized?
  by_cases enabled : reading.eliminates && reading.transparent (g x)
  · simp only [enabled, Reading.comap, if_true, List.getLast?_map]
    cases last : inner.getLast? with
    | none => rfl
    | some select => exact selected?_map injective (names select (List.mem_of_getLast? last))
  · simp [Reading.comap, enabled]

theorem nestedAction_map {first : ι} {x : ν} {source : Marked ι ν} {inner rest : List (Marked ι ν)}
    (names : ∀ c ∈ inner, c.NamesIn P) :
    nestedAction reading (f first) (g x) (source.map f g) (inner.map (Marked.map f g))
        (rest.map (Marked.map f g)) =
      (nestedAction (reading.comap g) first x source inner rest).map f g := by
  unfold nestedAction
  rw [recognized?_map injective reading names]
  cases found : recognized? (reading.comap g) x inner with
  | none => rfl
  | some parts =>
    obtain ⟨declared, value⟩ := parts
    obtain ⟨-, -, select, last, shape⟩ := recognized?_eq_some found
    have inSelect : select.NamesIn P := names select (List.mem_of_getLast? last)
    have inValue : ∀ y ∈ value.kind.names, P y := inSelect value shape.mem_subtrees
    have inDeclared : ∀ y ∈ declared, P y := by
      intro y declares
      obtain ⟨n, below, member⟩ := shape.declared_mem declares
      exact inSelect n below y member
    simp only [Option.map_some, Prod.map, Marked.kind_map]
    rw [letName_map injective inDeclared inValue]
    cases letName declared value.kind with
    | error violation => simp [Except.map, Action.map, Breach.map]
    | ok binding => cases binding <;> simp [Except.map, Action.map, List.map_dropLast]

omit injective [DecidableEq ν] [DecidableEq μ] in
theorem sourceAction_map (first : ι) (x : ν) (elemType : Option (Marked ι ν)) (source : Marked ι ν)
    (rest : List (Marked ι ν)) :
    sourceAction reading (f first) (g x) (elemType.map (Marked.map f g)) (source.map f g)
        (rest.map (Marked.map f g)) =
      (sourceAction (reading.comap g) first x elemType source rest).map f g := by
  unfold sourceAction
  rw [castParts?_map]
  by_cases enabled : reading.foldCasts && elemType.isNone
  · simp only [Option.isNone_map, enabled, Reading.comap, if_true]
    cases castParts? (fun y => reading.cast (g y)) source <;> rfl
  · simp [Reading.comap, enabled, Action.map]

theorem action_map {k : Kind ν (Marked ι ν)} (names : ∀ c ∈ k.children, c.NamesIn P) :
    action reading (k.map g (Marked.map f g)) = (action (reading.comap g) k).map f g := by
  cases k with
  | query clauses =>
    cases clauses with
    | nil => rfl
    | cons clause rest =>
      obtain ⟨first, layer⟩ := clause
      cases layer with
      | fromClause x elemType source =>
        simp only [Kind.map, List.map_cons, Marked.map_node]
        by_cases nested : source.kind.isQuery
        · obtain ⟨inner, nested⟩ := Kind.eq_query_of_isQuery nested
          have inClause : (Marked.node first (.fromClause x elemType source)).NamesIn P :=
            names _ (by simp [Kind.children])
          have inSource : source.NamesIn P :=
            (Marked.namesIn_node.mp inClause).2 source (by simp [Kind.children])
          have inInner : ∀ c ∈ inner, c.NamesIn P := fun c member =>
            inSource.of_mem (Marked.mem_subtrees_of_child (by rw [nested]; exact member))
          have image : (source.map f g).kind = .query (inner.map (Marked.map f g)) := by
            rw [Marked.kind_map, nested]
            rfl
          rw [action_nested reading image, action_nested _ nested]
          exact nestedAction_map injective reading inInner
        · have simple : source.kind.isQuery = false := by simpa using nested
          rw [action_source reading (by simpa using simple), action_source _ simple]
          exact sourceAction_map reading first x elemType source rest
      | _ => rfl
  | _ => rfl

omit injective [DecidableEq ν] [DecidableEq μ] in
theorem perform_map (fresh m : ι) (k : Kind ν (Marked ι ν)) (asks : Action ι ν) :
    perform reading (f fresh) (f m) (k.map g (Marked.map f g)) (asks.map f g) =
      ((perform (reading.comap g) fresh m k asks).1.map f g,
        (perform (reading.comap g) fresh m k asks).2.map f) := by
  cases asks with
  | splice moved binding rest =>
    have clauses : moved.map (Marked.map f g) ++
        letClauses (f fresh) (binding.map (Prod.map g (Marked.map f g))) ++ rest.map (Marked.map f g) =
        (moved ++ letClauses fresh binding ++ rest).map (Marked.map f g) := by
      cases binding <;> simp [letClauses, Marked.map_node, Kind.map]
    have query : Marked.node (f m) (.query ((moved ++ letClauses fresh binding ++ rest).map (Marked.map f g))) =
        (Marked.node m (.query (moved ++ letClauses fresh binding ++ rest))).map f g := by
      rw [Marked.map_node]
      rfl
    simp only [Action.map, perform, clauses, query, cleaned_map]
    cases binding <;> rfl
  | _ => simp [Action.map, perform, Progress.map, Marked.map_node, Kind.map]

theorem settle_map {fresh m : ι} {k : Kind ν (Marked ι ν)} (names : ∀ c ∈ k.children, c.NamesIn P) :
    settle reading (f fresh) (f m) (k.map g (Marked.map f g)) =
      ((settle (reading.comap g) fresh m k).1.map f g, (settle (reading.comap g) fresh m k).2.map f) := by
  rw [settle, action_map injective reading names, perform_map]
  rfl

end

end

/-! ### Names stay within bounds -/

section
variable {P : ν → Prop}

theorem namesIn_cleaned (transparent : ν → Bool) {t : Marked ι ν} (names : t.NamesIn P) :
    (cleaned transparent t).1.NamesIn P := by
  induction t using Marked.induction with
  | step m k ih =>
    obtain ⟨here, below⟩ := Marked.namesIn_node.mp names
    have children : ∀ c ∈ (k.map id fun c => (cleaned transparent c).1).children, c.NamesIn P := by
      simp only [Kind.children_map, List.mem_map]
      rintro _ ⟨c, child, rfl⟩
      exact ih c child (below c child)
    have here' : ∀ x ∈ (k.map id fun c => (cleaned transparent c).1).names, P x := by simpa using here
    rw [cleaned_node_fst]
    generalize k.map id (fun c => (cleaned transparent c).1) = layer at here' children
    refine Marked.namesIn_node.mpr ?_
    cases found : plainLayer? transparent layer with
    | none => exact ⟨here', children⟩
    | some plain =>
      obtain ⟨target, x, typeArgs, rfl, rfl⟩ := plainLayer?_eq_some found
      exact ⟨here', fun c child => children c (List.mem_cons_of_mem _ child)⟩

theorem letName_mem [DecidableEq ν] {α : Type} {declared : Option ν} {k : Kind ν α} {x : ν}
    (named : letName declared k = .ok (some x)) : x ∈ declared ∨ x ∈ k.names := by
  cases declared <;> cases k <;> simp_all [letName, Kind.names]

theorem carries_names [DecidableEq ν] (P : ν → Prop) :
    Carries fun k : Kind ν (Marked ι ν) => ∀ x ∈ k.names, P x where
  lets {select value declared x} names shape named := by
    simp only [Kind.names, List.mem_singleton, forall_eq]
    rcases letName_mem named with declares | member
    · obtain ⟨n, below, member⟩ := shape.declared_mem declares
      exact names n below x member
    · exact names value shape.mem_subtrees x member
  continues names _ := names
  annotates names _ _ := names

theorem namesIn_settle [DecidableEq ν] (reading : Reading ν) (fresh : ι) {m : ι} {k : Kind ν (Marked ι ν)}
    (names : (Marked.node m k).NamesIn P) : (settle reading fresh m k).1.NamesIn P := by
  obtain ⟨here, below⟩ := Marked.namesIn_node.mp names
  refine all_settle (carries_names P) fresh m below (fun t names => namesIn_cleaned _ names) ?_
  -- A query has no names of its own.
  cases action reading k with
  | keep | stop => exact here
  | splice | continuation | annotate => simp [Action.layer, Kind.names]

theorem namesIn_visitTree [DecidableEq ν] (reading : Reading ν) (fresh : ι) {t : Marked ι ν}
    (names : t.NamesIn P) (p : Progress ι) : ((visitTree reading fresh t).run p).1.NamesIn P := by
  induction t using Marked.induction generalizing p with
  | step m k ih =>
    obtain ⟨here, below⟩ := Marked.namesIn_node.mp names
    rw [visitTree_run_node, Kind.traverse_run]
    have visited : (Marked.node m (k.refill ((k.children.mapM (visitTree reading fresh)).run p).1)).NamesIn P := by
      refine Marked.namesIn_node.mpr ⟨by simpa using here, fun c child => ?_⟩
      rw [Kind.children_refill (Kind.length_mapM_run _ _)] at child
      obtain ⟨d, inLayer, q, rfl⟩ := Kind.mem_mapM_run child
      exact ih d inLayer (below d inLayer) q
    cases after : ((k.children.mapM (visitTree reading fresh)).run p).2.breach with
    | none =>
      rw [settleUnlessBroken_run_none reading fresh after]
      exact namesIn_settle reading fresh visited
    | some breach =>
      rw [settleUnlessBroken_run_some reading fresh (by simp [after])]
      exact visited

end

/-! ### Whole visits -/

section
variable {f g} [DecidableEq ν] [DecidableEq μ] (reading : Reading μ) (fresh : ι) {P : ν → Prop}
  (injective : ∀ x y, P x → P y → g x = g y → x = y)

theorem Progress.map_append (p q : Progress ι) : (p.append q).map f = (p.map f).append (q.map f) := rfl

include injective

theorem visitTree_map {t : Marked ι ν} (names : t.NamesIn P) (p : Progress ι) :
    (visitTree reading (f fresh) (t.map f g)).run (p.map f) =
      (((visitTree (reading.comap g) fresh t).run p).1.map f g,
        ((visitTree (reading.comap g) fresh t).run p).2.map f) := by
  induction t using Marked.induction generalizing p with
  | step m k ih =>
    obtain ⟨here, below⟩ := Marked.namesIn_node.mp names
    -- The children in order, each with the progress that those before it have left.
    have children : ∀ (l : List (Marked ι ν)) (p : Progress ι), (∀ c ∈ l, c ∈ k.children) →
        ((l.map (Marked.map f g)).mapM (visitTree reading (f fresh))).run (p.map f) =
          (((l.mapM (visitTree (reading.comap g) fresh)).run p).1.map (Marked.map f g),
            ((l.mapM (visitTree (reading.comap g) fresh)).run p).2.map f) := by
      intro l
      induction l with
      | nil => intro p _; rfl
      | cons c l tail =>
        intro p inside
        have child : c ∈ k.children := inside c (by simp)
        rw [List.map_cons, Kind.mapM_run_cons, Kind.mapM_run_cons, ih c child (below c child) p,
          tail _ fun d member => inside d (by simp [member])]
        rfl
    have layer : ((k.map g (Marked.map f g)).traverse (visitTree reading (f fresh))).run (p.map f) =
        (((k.traverse (visitTree (reading.comap g) fresh)).run p).1.map g (Marked.map f g),
          ((k.traverse (visitTree (reading.comap g) fresh)).run p).2.map f) := by
      rw [Kind.traverse_run, Kind.traverse_run, Kind.children_map, children k.children p fun _ => id,
        Kind.map_refill]
    rw [Marked.map_node, visitTree_run_node, visitTree_run_node, layer]
    have visited : ∀ c ∈ ((k.traverse (visitTree (reading.comap g) fresh)).run p).1.children,
        c.NamesIn P := by
      rw [Kind.traverse_run]
      intro c child
      rw [Kind.children_refill (Kind.length_mapM_run _ _)] at child
      obtain ⟨d, inLayer, q, rfl⟩ := Kind.mem_mapM_run child
      exact namesIn_visitTree _ _ (below d inLayer) q
    cases after : ((k.traverse (visitTree (reading.comap g) fresh)).run p).2.breach with
    | none =>
      rw [settleUnlessBroken_run_none _ _ (by simp [Progress.map, after]),
        settleUnlessBroken_run_none _ _ after, settle_map injective reading visited, Progress.map_append]
    | some breach =>
      rw [settleUnlessBroken_run_some _ _ (by simp [Progress.map, after]),
        settleUnlessBroken_run_some _ _ (by simp [after]), Marked.map_node]

end

end Comprehension.Normalize
