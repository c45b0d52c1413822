import Comprehension.Proofs.TreePass

/-! The two shapes that a run looks for, wherever layers can be read: in a tree, where a node has the
kind that it has, and in a store, where it has the kind in its slot. A map that takes layers to layers
takes shapes to shapes. -/

set_option autoImplicit false

namespace Comprehension.Normalize

variable {α β ν μ : Type}

/-- A clause that selects a record of two bindings: the declared name of the second one and its
value. The first initializer is `x = x`, or `x` alone, and then the second one may do without a
name. -/
inductive Selects (layer : α → Kind ν α → Prop) : α → Option ν → α → Prop where
  | reexport {select record first inner second value : α} {x y : ν}
      (projection : layer select (.selectClause record)) (pair : layer record (.record [first, second]))
      (named : layer first (.named x inner)) (same : layer inner (.ident x []))
      (declared : layer second (.named y value)) : Selects layer select (some y) value
  | shorthand {select record first second value : α} {x y : ν}
      (projection : layer select (.selectClause record)) (pair : layer record (.record [first, second]))
      (bare : layer first (.ident x [])) (declared : layer second (.named y value)) :
      Selects layer select (some y) value
  | undeclared {select record first second : α} {x : ν} {k : Kind ν α}
      (projection : layer select (.selectClause record)) (pair : layer record (.record [first, second]))
      (bare : layer first (.ident x [])) (value : layer second k)
      (anonymous : ∀ y v, k ≠ .named y v) : Selects layer select none second

theorem Selects.initializers {layer : α → Kind ν α → Prop} {select value : α} {declared : Option ν}
    (shape : Selects layer select declared value) :
    ∃ record first second x, layer select (.selectClause record) ∧ layer record (.record [first, second]) ∧
      (layer first (.ident x []) ∨ ∃ inner, layer first (.named x inner) ∧ layer inner (.ident x [])) ∧
      ((∃ y, declared = some y ∧ layer second (.named y value)) ∨
        declared = none ∧ second = value ∧ ∃ k, layer value k ∧ ∀ y v, k ≠ .named y v) := by
  cases shape with
  | reexport projection pair named same declared =>
    exact ⟨_, _, _, _, projection, pair, .inr ⟨_, named, same⟩, .inl ⟨_, rfl, declared⟩⟩
  | shorthand projection pair bare declared =>
    exact ⟨_, _, _, _, projection, pair, .inl bare, .inl ⟨_, rfl, declared⟩⟩
  | undeclared projection pair bare found anonymous =>
    exact ⟨_, _, _, _, projection, pair, .inl bare, .inr ⟨rfl, rfl, _, found, anonymous⟩⟩

inductive CastsOn (layer : α → Kind ν α → Prop) (cast : ν → Bool) : α → α → α → Prop where
  | call {source target base elemType : α} {x : ν} (call : layer source (.call target []))
      (member : layer target (.member base x [elemType])) (method : cast x = true) :
      CastsOn layer cast source base elemType

/-- A map that takes the layer of a node to a layer of its image, where no image has another one. It
need not do so everywhere, but below a node as at the node itself. -/
structure LayerMap (domain : α → Prop) (layer : α → Kind ν α → Prop) (layer' : β → Kind μ β → Prop)
    (g : ν → μ) (h : α → β) : Prop where
  forth : ∀ {a k}, domain a → layer a k → layer' (h a) (k.map g h)
  back : ∀ {a k'}, domain a → layer' (h a) k' → ∃ k, layer a k ∧ k' = k.map g h
  below : ∀ {a k c}, domain a → layer a k → c ∈ k.children → domain c

namespace LayerMap

variable {domain : α → Prop} {layer : α → Kind ν α → Prop} {layer' : β → Kind μ β → Prop} {g : ν → μ}
  {h : α → β} (layers : LayerMap domain layer layer' g h) {a : α} (inside : domain a)

include layers inside

theorem back_select {b : β} (found : layer' (h a) (.selectClause b)) :
    ∃ record, layer a (.selectClause record) ∧ domain record ∧ h record = b := by
  obtain ⟨k, has, image⟩ := layers.back inside found
  cases k <;> simp only [Kind.map, reduceCtorEq, Kind.selectClause.injEq] at image
  exact ⟨_, has, layers.below inside has (by simp [Kind.children]), image.symm⟩

theorem back_pair {b c : β} (found : layer' (h a) (.record [b, c])) :
    ∃ first second, layer a (.record [first, second]) ∧ (domain first ∧ domain second) ∧
      h first = b ∧ h second = c := by
  obtain ⟨k, has, image⟩ := layers.back inside found
  cases k <;> simp only [Kind.map, reduceCtorEq, Kind.record.injEq] at image
  obtain ⟨first, l, rfl, rfl, tail⟩ := List.map_eq_cons_iff.mp image.symm
  obtain ⟨second, rfl, rfl⟩ := List.map_eq_singleton_iff.mp tail
  have below := fun c => layers.below inside has (c := c)
  exact ⟨first, second, has, ⟨below first (by simp [Kind.children]), below second (by simp [Kind.children])⟩,
    rfl, rfl⟩

theorem back_named {y : μ} {b : β} (found : layer' (h a) (.named y b)) :
    ∃ x value, layer a (.named x value) ∧ domain value ∧ g x = y ∧ h value = b := by
  obtain ⟨k, has, image⟩ := layers.back inside found
  cases k <;> simp only [Kind.map, reduceCtorEq, Kind.named.injEq] at image
  exact ⟨_, _, has, layers.below inside has (by simp [Kind.children]), image.1.symm, image.2.symm⟩

theorem back_ident {y : μ} (found : layer' (h a) (.ident y [])) :
    ∃ x, layer a (.ident x []) ∧ g x = y := by
  obtain ⟨k, has, image⟩ := layers.back inside found
  cases k <;> simp only [Kind.map, reduceCtorEq, Kind.ident.injEq] at image
  obtain rfl := List.map_eq_nil_iff.mp image.2.symm
  exact ⟨_, has, image.1.symm⟩

theorem back_call {b : β} (found : layer' (h a) (.call b [])) :
    ∃ target, layer a (.call target []) ∧ domain target ∧ h target = b := by
  obtain ⟨k, has, image⟩ := layers.back inside found
  cases k <;> simp only [Kind.map, reduceCtorEq, Kind.call.injEq] at image
  obtain rfl := List.map_eq_nil_iff.mp image.2.symm
  exact ⟨_, has, layers.below inside has (by simp [Kind.children]), image.1.symm⟩

theorem back_member {b c : β} {y : μ} (found : layer' (h a) (.member b y [c])) :
    ∃ target x arg, layer a (.member target x [arg]) ∧ h target = b ∧ g x = y ∧ h arg = c := by
  obtain ⟨k, has, image⟩ := layers.back inside found
  cases k <;> simp only [Kind.map, reduceCtorEq, Kind.member.injEq] at image
  obtain ⟨rfl, rfl, args⟩ := image
  obtain ⟨arg, rfl, rfl⟩ := List.map_eq_singleton_iff.mp args.symm
  exact ⟨_, _, arg, has, rfl, rfl, rfl⟩

end LayerMap

section
variable {domain : α → Prop} {layer : α → Kind ν α → Prop} {layer' : β → Kind μ β → Prop} {g : ν → μ}
  {h : α → β} (layers : LayerMap domain layer layer' g h)

include layers

theorem Selects.map {select value : α} {declared : Option ν} (inside : domain select)
    (shape : Selects layer select declared value) : Selects layer' (h select) (declared.map g) (h value) := by
  cases shape with
  | reexport projection pair named same declared =>
    have record := layers.below inside projection List.mem_cons_self
    have first := layers.below record pair List.mem_cons_self
    have second := layers.below record pair (.tail _ List.mem_cons_self)
    have inner := layers.below first named List.mem_cons_self
    exact .reexport (layers.forth inside projection) (layers.forth record pair) (layers.forth first named)
      (layers.forth inner same) (layers.forth second declared)
  | shorthand projection pair bare declared =>
    have record := layers.below inside projection List.mem_cons_self
    have first := layers.below record pair List.mem_cons_self
    have second := layers.below record pair (.tail _ List.mem_cons_self)
    exact .shorthand (layers.forth inside projection) (layers.forth record pair) (layers.forth first bare)
      (layers.forth second declared)
  | undeclared projection pair bare value anonymous =>
    have record := layers.below inside projection List.mem_cons_self
    have first := layers.below record pair List.mem_cons_self
    have second := layers.below record pair (.tail _ List.mem_cons_self)
    refine .undeclared (layers.forth inside projection) (layers.forth record pair) (layers.forth first bare)
      (layers.forth second value) ?_
    intro y v image
    rename_i k
    cases k <;> simp only [Kind.map, reduceCtorEq] at image
    exact anonymous _ _ rfl

/-- Every shape of an image comes from one, if different names in the record have different images. -/
theorem Selects.of_map {select : α} {declared : Option μ} {value : β} (inside : domain select)
    (injective : ∀ {record first second inner x y}, layer select (.selectClause record) →
      layer record (.record [first, second]) → layer first (.named x inner) →
      layer inner (.ident y []) → g y = g x → y = x)
    (shape : Selects layer' (h select) declared value) :
    ∃ d v, Selects layer select d v ∧ declared = d.map g ∧ value = h v := by
  -- The image has to be a variable for the cases of its shape.
  generalize found : h select = image at shape
  cases shape with
  | reexport projection pair named same declared =>
    subst found
    obtain ⟨record, hprojection, inRecord, rfl⟩ := layers.back_select inside projection
    obtain ⟨first, second, hpair, ⟨inFirst, inSecond⟩, rfl, rfl⟩ := layers.back_pair inRecord pair
    obtain ⟨x, inner, hnamed, inInner, rfl, rfl⟩ := layers.back_named inFirst named
    obtain ⟨y, hident, equal⟩ := layers.back_ident inInner same
    obtain ⟨z, value, hdeclared, -, rfl, rfl⟩ := layers.back_named inSecond declared
    have equal : y = x := injective hprojection hpair hnamed hident equal
    exact ⟨some z, value, .reexport hprojection hpair hnamed (equal ▸ hident) hdeclared, rfl, rfl⟩
  | shorthand projection pair bare declared =>
    subst found
    obtain ⟨record, hprojection, inRecord, rfl⟩ := layers.back_select inside projection
    obtain ⟨first, second, hpair, ⟨inFirst, inSecond⟩, rfl, rfl⟩ := layers.back_pair inRecord pair
    obtain ⟨x, hbare, rfl⟩ := layers.back_ident inFirst bare
    obtain ⟨z, value, hdeclared, -, rfl, rfl⟩ := layers.back_named inSecond declared
    exact ⟨some z, value, .shorthand hprojection hpair hbare hdeclared, rfl, rfl⟩
  | undeclared projection pair bare value anonymous =>
    subst found
    obtain ⟨record, hprojection, inRecord, rfl⟩ := layers.back_select inside projection
    obtain ⟨first, second, hpair, ⟨inFirst, inSecond⟩, rfl, rfl⟩ := layers.back_pair inRecord pair
    obtain ⟨x, hbare, rfl⟩ := layers.back_ident inFirst bare
    obtain ⟨k, hvalue, rfl⟩ := layers.back inSecond value
    refine ⟨none, second, .undeclared hprojection hpair hbare hvalue ?_, rfl, rfl⟩
    rintro y v rfl
    exact anonymous _ _ rfl

theorem CastsOn.map {cast : μ → Bool} {source base elemType : α} (inside : domain source)
    (shape : CastsOn layer (fun x => cast (g x)) source base elemType) :
    CastsOn layer' cast (h source) (h base) (h elemType) := by
  obtain ⟨call, member, method⟩ := shape
  have target := layers.below inside call List.mem_cons_self
  exact .call (layers.forth inside call) (layers.forth target member) method

theorem CastsOn.of_map {cast : μ → Bool} {source : α} {base elemType : β} (inside : domain source)
    (shape : CastsOn layer' cast (h source) base elemType) :
    ∃ b t, CastsOn layer (fun x => cast (g x)) source b t ∧ base = h b ∧ elemType = h t := by
  generalize found : h source = image at shape
  obtain ⟨call, member, method⟩ := shape
  subst found
  obtain ⟨target, hcall, inTarget, rfl⟩ := layers.back_call inside call
  obtain ⟨base, x, elemType, hmember, rfl, rfl, rfl⟩ := layers.back_member inTarget member
  exact ⟨base, elemType, .call hcall hmember method, rfl, rfl⟩

end

/-! ### Shapes in trees -/

section
variable {ι : Type}

def IsLayer (t : Marked ι ν) (k : Kind ν (Marked ι ν)) : Prop := t.kind = k

theorem selected?_eq_some_iff [DecidableEq ν] {select value : Marked ι ν} {declared : Option ν} :
    selected? select = some (declared, value) ↔ Selects IsLayer select declared value := by
  constructor
  · intro found
    unfold selected? at found
    split at found
    next m first second projection =>
      split at found
      next x m y z v named second =>
        split at found
        next same =>
          cases found
          exact .reexport projection rfl named (by rw [same]; rfl) second
        next => cases found
      next x z v bare second =>
        cases found
        exact .shorthand projection rfl bare second
      next x bare anonymous =>
        cases found
        exact .undeclared projection rfl bare rfl anonymous
      next => cases found
    next => cases found
  · intro shape
    cases shape with
    | reexport projection pair named same declared =>
      rename_i record first inner second x y
      obtain ⟨m, k⟩ := record
      obtain ⟨m', k'⟩ := inner
      cases pair
      cases same
      simp only [IsLayer] at projection named declared
      simp [selected?, projection, named, declared]
    | shorthand projection pair bare declared =>
      rename_i record first second x y
      obtain ⟨m, k⟩ := record
      cases pair
      simp only [IsLayer] at projection bare declared
      simp [selected?, projection, bare, declared]
    | undeclared projection pair bare found anonymous =>
      rename_i record first x k
      obtain ⟨m, k'⟩ := record
      cases pair
      simp only [IsLayer] at projection bare found
      subst found
      simp only [selected?, projection, bare]

theorem castParts?_eq_some_iff {cast : ν → Bool} {source base elemType : Marked ι ν} :
    castParts? cast source = some (base, elemType) ↔ CastsOn IsLayer cast source base elemType := by
  constructor
  · intro found
    unfold castParts? at found
    split at found
    next m b x t call =>
      split at found
      next method =>
        cases found
        exact .call call rfl method
      next => cases found
    next => cases found
  · rintro ⟨call, member, method⟩
    rename_i target x
    obtain ⟨m, k⟩ := target
    cases member
    simp only [IsLayer] at call
    simp [castParts?, call, method]

theorem IsLayer.child_mem {t c : Marked ι ν} {k : Kind ν (Marked ι ν)} (layer : IsLayer t k)
    (child : c ∈ k.children) : c ∈ t.subtrees :=
  Marked.mem_subtrees_of_child (layer ▸ child)

theorem Selects.mem_subtrees {select value : Marked ι ν} {declared : Option ν}
    (shape : Selects IsLayer select declared value) : value ∈ select.subtrees := by
  cases shape with
  | reexport projection pair named same declared | shorthand projection pair bare declared =>
    exact Marked.mem_subtrees_trans (declared.child_mem (by simp [Kind.children]))
      (Marked.mem_subtrees_trans (pair.child_mem (by simp [Kind.children]))
        (projection.child_mem (by simp [Kind.children])))
  | undeclared projection pair bare found anonymous =>
    exact Marked.mem_subtrees_trans (pair.child_mem (by simp [Kind.children]))
      (projection.child_mem (by simp [Kind.children]))

theorem Selects.declared_mem {select value : Marked ι ν} {declared : Option ν} {y : ν}
    (shape : Selects IsLayer select declared value) (declares : y ∈ declared) :
    ∃ n ∈ select.subtrees, y ∈ n.kind.names := by
  cases shape with
  | reexport projection pair named same declared | shorthand projection pair bare declared =>
    cases declares
    rename_i record first second x
    refine ⟨second, ?_, ?_⟩
    · exact Marked.mem_subtrees_trans (pair.child_mem (by simp [Kind.children]))
        (projection.child_mem (by simp [Kind.children]))
    · rw [show second.kind = _ from declared]
      simp [Kind.names]
  | undeclared => cases declares

theorem CastsOn.eq_call {cast : ν → Bool} {source base elemType : Marked ι ν}
    (shape : CastsOn IsLayer cast source base elemType) :
    ∃ sm tm x, source = .node sm (.call (.node tm (.member base x [elemType])) []) ∧ cast x = true := by
  obtain ⟨call, member, method⟩ := shape
  rename_i target x
  obtain ⟨sm, sk⟩ := source
  obtain ⟨tm, tk⟩ := target
  cases call
  cases member
  exact ⟨sm, tm, x, rfl, method⟩

theorem CastsOn.base_mem {cast : ν → Bool} {source base elemType : Marked ι ν}
    (shape : CastsOn IsLayer cast source base elemType) : base ∈ source.subtrees := by
  obtain ⟨call, member, -⟩ := shape
  exact Marked.mem_subtrees_trans (member.child_mem (by simp [Kind.children]))
    (call.child_mem (by simp [Kind.children]))

theorem CastsOn.elemType_mem {cast : ν → Bool} {source base elemType : Marked ι ν}
    (shape : CastsOn IsLayer cast source base elemType) : elemType ∈ source.subtrees := by
  obtain ⟨call, member, -⟩ := shape
  exact Marked.mem_subtrees_trans (member.child_mem (by simp [Kind.children]))
    (call.child_mem (by simp [Kind.children]))

inductive Asks [DecidableEq ν] (reading : Reading ν) : Kind ν (Marked ι ν) → Action ι ν → Prop where
  | keep {k : Kind ν (Marked ι ν)} (found : action reading k = .keep) : Asks reading k .keep
  | splice {first im : ι} {x : ν} {elemType : Option (Marked ι ν)} {moved rest : List (Marked ι ν)}
      {select value : Marked ι ν} {declared name : Option ν} (transparent : reading.transparent x = true)
      (shape : Selects IsLayer select declared value) (named : letName declared value.kind = .ok name) :
      Asks reading
        (.query (.node first (.fromClause x elemType (.node im (.query (moved ++ [select])))) :: rest))
        (.splice moved (name.map (·, value)) rest)
  | continuation {first im : ι} {x : ν} {elemType : Option (Marked ι ν)} {inner rest : List (Marked ι ν)}
      (refused : recognized? reading x inner = none) :
      Asks reading (.query (.node first (.fromClause x elemType (.node im (.query inner))) :: rest))
        (.continuation first (.node im (.query inner)) x rest)
  | annotate {first : ι} {x : ν} {source base elemType : Marked ι ν} {rest : List (Marked ι ν)}
      (enabled : reading.foldCasts = true) (shape : CastsOn IsLayer reading.cast source base elemType) :
      Asks reading (.query (.node first (.fromClause x none source) :: rest))
        (.annotate first x elemType base rest)
  | stop {first im : ι} {x : ν} {elemType : Option (Marked ι ν)} {inner rest : List (Marked ι ν)}
      {select value : Marked ι ν} {declared : Option ν} {violation : Violation}
      (last : inner.getLast? = some select) (shape : Selects IsLayer select declared value)
      (unnamed : letName declared value.kind = .error violation) :
      Asks reading (.query (.node first (.fromClause x elemType (.node im (.query inner))) :: rest))
        (.stop ⟨value.mark, violation⟩)

theorem recognized?_eq_some [DecidableEq ν] {reading : Reading ν} {x : ν} {inner : List (Marked ι ν)}
    {declared : Option ν} {value : Marked ι ν} (found : recognized? reading x inner = some (declared, value)) :
    reading.eliminates = true ∧ reading.transparent x = true ∧
      ∃ select, inner.getLast? = some select ∧ Selects IsLayer select declared value := by
  unfold recognized? at found
  split at found
  next enabled =>
    simp only [Bool.and_eq_true] at enabled
    obtain ⟨select, last, selected⟩ := Option.bind_eq_some_iff.mp found
    exact ⟨enabled.1, enabled.2, select, last, selected?_eq_some_iff.mp selected⟩
  next => cases found

theorem asks_action [DecidableEq ν] (reading : Reading ν) (k : Kind ν (Marked ι ν)) :
    Asks reading k (action reading k) := by
  -- The cases of `action`, one after the other; `whole` is for those in which it asks for nothing.
  generalize asked : action reading k = asks
  have whole := asked
  unfold action at asked
  split at asked
  next first x elemType source rest =>
    obtain ⟨im, sourceKind⟩ := source
    split at asked
    next inner isQuery =>
      cases isQuery
      unfold nestedAction at asked
      split at asked
      next refused =>
        subst asked
        exact .continuation refused
      next declared value found =>
        obtain ⟨-, transparent, select, last, shape⟩ := recognized?_eq_some found
        split at asked
        next name named =>
          subst asked
          obtain ⟨moved, rfl⟩ := List.getLast?_eq_some_iff.mp last
          rw [List.dropLast_concat]
          exact .splice transparent shape named
        next violation unnamed =>
          subst asked
          exact .stop last shape unnamed
    next notQuery =>
      unfold sourceAction at asked
      split at asked
      next base elemType' found =>
        subst asked
        split at found
        next enabled =>
          simp only [Bool.and_eq_true, Option.isNone_iff_eq_none] at enabled
          obtain ⟨enabled, rfl⟩ := enabled
          exact .annotate enabled (castParts?_eq_some_iff.mp found)
        next => cases found
      next refused =>
        subst asked
        exact .keep whole
  next notFrom =>
    subst asked
    exact .keep whole

theorem exists_asks [DecidableEq ν] (reading : Reading ν) (k : Kind ν (Marked ι ν)) :
    ∃ asks, action reading k = asks ∧ Asks reading k asks := ⟨_, rfl, asks_action reading k⟩

/-! ### Conditions on all layers -/

def Action.layer (fresh : ι) (k : Kind ν (Marked ι ν)) : Action ι ν → Kind ν (Marked ι ν)
  | .keep | .stop _ => k
  | .splice moved binding rest => .query (moved ++ letClauses fresh binding ++ rest)
  | .continuation first inner x rest => .query (.node first (.continuation inner x) :: rest)
  | .annotate first x elemType base rest => .query (.node first (.fromClause x (some elemType) base) :: rest)

structure Carries [DecidableEq ν] (P : Kind ν (Marked ι ν) → Prop) : Prop where
  lets : ∀ {select value : Marked ι ν} {declared : Option ν} {x : ν}, select.All P →
    Selects IsLayer select declared value → letName declared value.kind = .ok (some x) → P (.letClause x value)
  continues : ∀ {x : ν} {elemType : Option (Marked ι ν)} {source : Marked ι ν},
    P (.fromClause x elemType source) → source.kind.isQuery = true → P (.continuation source x)
  annotates : ∀ {cast : ν → Bool} {x : ν} {source elemType base : Marked ι ν},
    P (.fromClause x none source) → source.All P → CastsOn IsLayer cast source base elemType →
      P (.fromClause x (some elemType) base)

section
variable [DecidableEq ν] {reading : Reading ν} {k : Kind ν (Marked ι ν)} {P : Kind ν (Marked ι ν) → Prop}

theorem Carries.letClauses (carries : Carries P) (fresh : ι) {select value : Marked ι ν}
    {declared name : Option ν} (all : select.All P) (shape : Selects IsLayer select declared value)
    (named : letName declared value.kind = .ok name) :
    ∀ c ∈ letClauses fresh (name.map (·, value)), c.All P := by
  cases name with
  | none => simp [Normalize.letClauses]
  | some x =>
    simp only [Option.map_some, Normalize.letClauses, List.mem_singleton, forall_eq]
    refine Marked.all_node.mpr ⟨carries.lets all shape named, ?_⟩
    simp only [Kind.children, List.mem_singleton, forall_eq]
    exact all.of_mem shape.mem_subtrees

/-- All clauses that an action leaves are old ones, or new ones over parts of old ones. -/
theorem Asks.all_children (carries : Carries P) (fresh : ι) {asks : Action ι ν} (known : Asks reading k asks)
    (children : ∀ c ∈ k.children, c.All P) : ∀ c ∈ (asks.layer fresh k).children, c.All P := by
  cases known with
  | keep | stop => exact children
  | splice transparent shape named =>
    rename_i first im x elemType moved rest select value declared name
    obtain ⟨-, inFirst⟩ := Marked.all_node.mp (children _ List.mem_cons_self)
    obtain ⟨-, inner⟩ := Marked.all_node.mp
      (inFirst (.node im (.query (moved ++ [select]))) (by simp [Kind.children]))
    intro c member
    rcases List.mem_append.mp member with member | member
    · rcases List.mem_append.mp member with member | member
      · exact inner c (List.mem_append_left _ member)
      · exact carries.letClauses fresh (inner select (by simp [Kind.children])) shape named c member
    · exact children c (List.mem_cons_of_mem _ member)
  | continuation refused =>
    obtain ⟨here, inFirst⟩ := Marked.all_node.mp (children _ List.mem_cons_self)
    intro c member
    rcases List.mem_cons.mp member with rfl | member
    · refine Marked.all_node.mpr ⟨carries.continues here rfl, fun d child => inFirst d ?_⟩
      exact List.mem_append_right _ child
    · exact children c (List.mem_cons_of_mem _ member)
  | annotate enabled shape =>
    rename_i source base elemType rest
    obtain ⟨here, inFirst⟩ := Marked.all_node.mp (children _ List.mem_cons_self)
    have inSource : source.All P := inFirst source List.mem_cons_self
    intro c member
    rcases List.mem_cons.mp member with rfl | member
    · refine Marked.all_node.mpr ⟨carries.annotates here inSource shape, fun d child => ?_⟩
      have either : d = elemType ∨ d = base := by simpa [Kind.children] using child
      rcases either with rfl | rfl
      · exact inSource.of_mem shape.elemType_mem
      · exact inSource.of_mem shape.base_mem
    · exact children c (List.mem_cons_of_mem _ member)

/-- The work at a node keeps a condition on all layers, if the layer that it leaves satisfies it and
cleaning keeps it. -/
theorem all_settle (carries : Carries P) (fresh m : ι) (children : ∀ c ∈ k.children, c.All P)
    (cleans : ∀ t : Marked ι ν, t.All P → (cleaned reading.transparent t).1.All P)
    (top : P ((action reading k).layer fresh k)) : (settle reading fresh m k).1.All P := by
  have known := asks_action reading k
  have whole : (Marked.node m ((action reading k).layer fresh k)).All P :=
    Marked.all_node.mpr ⟨top, known.all_children carries fresh children⟩
  rw [settle]
  cases asked : action reading k with
  | splice moved binding rest =>
    rw [asked] at whole
    exact cleans _ whole
  | _ =>
    rw [asked] at whole
    exact whole

end

end

end Comprehension.Normalize
