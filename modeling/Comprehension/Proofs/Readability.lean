import Comprehension.Proofs.Operands

/-! Rendering is unambiguous: legible trees with the same text are the same tree. Every subtree can be told from
what follows it in each of the roles that it can have. -/

set_option autoImplicit false

namespace Comprehension

namespace Tree

/-! ### The other roles -/

section
variable {hidden : Char → Bool} {t t' : Tree} {r r' : List Char}

theorem Read.expression (read : Read hidden .expression t) (fits : At .expression t) (fits' : At .expression t')
    (stop : Closes r) (stop' : Closes r') (same : t.exprChars hidden ++ r = t'.exprChars hidden ++ r') :
    t = t' ∧ r = r' :=
  read fits.1 fits.2 fits'.1 fits'.2 stop stop' same

theorem closes_word {c : Char} (start : isWordStart c = true) (q : List Char) : Closes (' ' :: c :: q) :=
  .inr ⟨c, q, rfl, .inl start⟩

theorem not_closes_symbol (op : BinaryOp) (q : List Char) : ¬ Closes (' ' :: (op.symbol.toList ++ q)) := by
  rintro (bracket | ⟨c, w, is, start⟩)
  · simp at bracket
  · cases op <;> simp [BinaryOp.symbol] at is <;> obtain ⟨rfl, -⟩ := is <;> simp [isWordStart] at start

theorem binary_or_bare (t : Tree) :
    isBinary t.kind = false ∨ ∃ op left right, t = .node () (.binary op left right) := by
  obtain ⟨⟨⟩, k⟩ := t
  cases k with
  | binary op left right => exact .inr ⟨op, left, right, rfl⟩
  | _ => exact .inl rfl

theorem exprChars_bare (bare : isBinary t.kind = false) : t.exprChars hidden = t.operandChars hidden := by
  rw [exprChars_eq, operandChars_eq, bare, Bool.or_false]

theorem exprChars_binary (op : BinaryOp) (left right : Tree) (r : List Char) :
    exprChars hidden (.node () (.binary op left right)) ++ r =
      left.operandChars hidden ++ ' ' :: (op.symbol.toList ++ ' ' :: (right.operandChars hidden ++ r)) := by
  rw [exprChars_node]
  simp [Kind.isQuery, layerChars]

theorem expression_read (below : ∀ u : Tree, u.size < t.size → ∀ role, Read hidden role u) :
    Read hidden .expression t := by
  intro t' r r' takes legible takes' legible' stop stop' same
  have operand := operand_read below
  have same : t.exprChars hidden ++ r = t'.exprChars hidden ++ r' := same
  obtain bare | ⟨op, left, right, rfl⟩ := binary_or_bare t
  · rw [exprChars_bare bare] at same
    obtain bare' | ⟨op', left', right', rfl⟩ := binary_or_bare t'
    · rw [exprChars_bare bare'] at same
      exact operand takes legible takes' legible' stop.follows stop'.follows same
    · rw [exprChars_binary] at same
      have layer' := legible'.layer
      obtain ⟨-, rfl⟩ := operand takes legible layer'.1.1 layer'.1.2 stop.follows (by simp [Role.Ends]) same
      exact absurd stop (not_closes_symbol op' _)
  · have layer := legible.layer
    have readLeft := below left (size_lt (by simp [Kind.children])) .operand
    have readRight := below right (size_lt (by simp [Kind.children])) .operand
    obtain bare' | ⟨op', left', right', rfl⟩ := binary_or_bare t'
    · rw [exprChars_bare bare', exprChars_binary] at same
      obtain ⟨-, rfl⟩ := readLeft layer.1.1 layer.1.2 takes' legible' (by simp [Role.Ends]) stop'.follows same
      exact absurd stop' (not_closes_symbol op _)
    · rw [exprChars_node, exprChars_node] at same
      obtain ⟨kinds, rfl⟩ := binary_read readLeft readRight layer legible'.layer stop.follows stop'.follows same
      rw [kinds]
      exact ⟨rfl, rfl⟩

variable (hidden) in
/-- An expression begins with an operand, and no equals sign stands alone after that. -/
theorem exists_leading (fits : At .expression t) (closes : Closes r) : ∃ u tail, At .expression u ∧
    t.exprChars hidden ++ r = u.operandChars hidden ++ tail ∧ Follows [' ', ')', ','] tail ∧
      ∀ q, tail ≠ ' ' :: '=' :: ' ' :: q := by
  obtain bare | ⟨op, left, right, rfl⟩ := binary_or_bare t
  · refine ⟨t, r, fits, by rw [exprChars_bare bare], closes.follows, ?_⟩
    rintro q rfl
    obtain bracket | ⟨c, w, is, start⟩ := closes
    · simp at bracket
    · cases is
      simp [isWordStart] at start
  · refine ⟨left, _, fits.2.layer.1, exprChars_binary op left right r, by simp, fun q is => ?_⟩
    cases op <;> simp [BinaryOp.symbol] at is

theorem named_ne_expression {x : String} (plain : Plain x) (fits : At .expression t) (closes : Closes r)
    (q : List Char) : x.toList ++ ' ' :: '=' :: ' ' :: q ≠ t.exprChars hidden ++ r := by
  intro same
  obtain ⟨u, tail, fitsOperand, text, follows, other⟩ := exists_leading hidden fits closes
  obtain ⟨spine⟩ := exists_spine fitsOperand
  rw [text, spine.operandChars_eq, List.append_assoc] at same
  obtain ⟨typeArgs, -, rest⟩ := name_head plain spine.fits spine.isHead (by simp)
    (Suffix.follows_suffixes hidden spine.suffixes follows) same
  cases typeArgs with
  | cons => simp [typeArgsChars] at rest
  | nil =>
    cases suffixes : spine.suffixes with
    | nil =>
      rw [suffixes] at rest
      exact other q rest.symm
    | cons a suffixes' =>
      rw [suffixes] at rest
      cases a <;> simp [typeArgsChars, Suffix.chars] at rest

theorem At.of_initializer (fits : At .initializer t) :
    At .expression t ∨ ∃ x value, t = .node () (.named x value) := by
  obtain ⟨⟨⟩, k⟩ := t
  cases k with
  | named x value => exact .inr ⟨x, value, rfl⟩
  | ident | member | call | binary | literal | record | query => exact .inl ⟨rfl, fits.2⟩
  | _ => cases fits.1

theorem exprChars_named (x : String) (value : Tree) (r : List Char) :
    exprChars hidden (.node () (.named x value)) ++ r =
      x.toList ++ ' ' :: '=' :: ' ' :: (value.exprChars hidden ++ r) := by
  rw [exprChars_node]
  simp [Kind.isQuery, layerChars]

theorem initializer_read (below : ∀ u : Tree, u.size < t.size → ∀ role, Read hidden role u) :
    Read hidden .initializer t := by
  intro t' r r' takes legible takes' legible' stop stop' same
  have same : t.exprChars hidden ++ r = t'.exprChars hidden ++ r' := same
  obtain fits | ⟨x, value, rfl⟩ := At.of_initializer ⟨takes, legible⟩
  · obtain fits' | ⟨x', value', rfl⟩ := At.of_initializer ⟨takes', legible'⟩
    · exact expression_read below fits.1 fits.2 fits'.1 fits'.2 stop stop' same
    · rw [exprChars_named] at same
      exact absurd same.symm (named_ne_expression legible'.layer.1 fits stop _)
  · obtain fits' | ⟨x', value', rfl⟩ := At.of_initializer ⟨takes', legible'⟩
    · rw [exprChars_named] at same
      exact absurd same (named_ne_expression legible.layer.1 fits' stop' _)
    · have layer := legible.layer
      have layer' := legible'.layer
      rw [exprChars_named, exprChars_named] at same
      have blank (q : List Char) : Follows [' '] (' ' :: q) := by simp
      obtain ⟨rfl, rest⟩ := layer.1.read layer'.1 (by decide) (blank _) (blank _) same
      simp only [List.cons.injEq, true_and] at rest
      obtain ⟨rfl, rfl⟩ := (below value (size_lt List.mem_cons_self) .expression).expression layer.2 layer'.2 stop
        stop' rest
      exact ⟨rfl, rfl⟩

theorem type_read (below : ∀ u : Tree, u.size < t.size → ∀ role, Read hidden role u) : Read hidden .type t := by
  intro t' r r' takes legible takes' legible' stop stop' same
  obtain ⟨⟨⟩, k⟩ := t
  obtain ⟨⟨⟩, k'⟩ := t'
  have layer := legible.layer
  have layer' := legible'.layer
  cases k with
  | typeRef x args =>
    cases k' with
    | typeRef x' args' =>
      have same : x.toList ++ (typeArgsChars hidden args ++ r) = x'.toList ++ (typeArgsChars hidden args' ++ r') := by
        simpa [Role.chars, exprChars_node, Kind.isQuery, layerChars] using same
      obtain ⟨rfl, rfl, rfl⟩ := applied_read layer.1 layer'.1 (fun u member => below u (size_lt member) .type) layer.2
        layer'.2 (by decide) (by decide) stop stop' same
      exact ⟨rfl, rfl⟩
    | _ => cases takes'
  | _ => cases takes

theorem exprChars_ascending (key : Tree) : exprChars hidden (.node () (.ordering key .ascending)) =
    key.exprChars hidden := by
  rw [exprChars_node]
  rfl

theorem exprChars_descending (key : Tree) (r : List Char) :
    exprChars hidden (.node () (.ordering key .descending)) ++ r =
      key.exprChars hidden ++ ' ' :: 'd' :: ("escending".toList ++ r) := by
  rw [exprChars_node]
  simp [Kind.isQuery, layerChars]

theorem ordering_read (below : ∀ u : Tree, u.size < t.size → ∀ role, Read hidden role u) :
    Read hidden .ordering t := by
  intro t' r r' takes legible takes' legible' stop stop' same
  have same : t.exprChars hidden ++ r = t'.exprChars hidden ++ r' := same
  obtain ⟨⟨⟩, k⟩ := t
  obtain ⟨⟨⟩, k'⟩ := t'
  have layer := legible.layer
  have layer' := legible'.layer
  -- After a key in ascending order there is no word, so the direction is known from what follows the key.
  have word (q : List Char) : Closes (' ' :: 'd' :: q) := closes_word rfl q
  cases k with
  | ordering key direction =>
    have read := below key (size_lt List.mem_cons_self) .expression
    cases k' with
    | ordering key' direction' =>
      cases direction with
      | ascending =>
        rw [exprChars_ascending] at same
        cases direction' with
        | ascending =>
          rw [exprChars_ascending] at same
          obtain ⟨rfl, rfl⟩ := read.expression layer layer' stop.1 stop'.1 same
          exact ⟨rfl, rfl⟩
        | descending =>
          rw [exprChars_descending] at same
          obtain ⟨-, rest⟩ := read.expression layer layer' stop.1 (word _) same
          exact absurd rest (stop.2 _)
      | descending =>
        rw [exprChars_descending] at same
        cases direction' with
        | ascending =>
          rw [exprChars_ascending] at same
          obtain ⟨-, rest⟩ := read.expression layer layer' (word _) stop'.1 same
          exact absurd rest.symm (stop'.2 _)
        | descending =>
          rw [exprChars_descending] at same
          obtain ⟨rfl, rest⟩ := read.expression layer layer' (word _) (word _) same
          simp only [List.cons.injEq, true_and, List.append_cancel_left_eq] at rest
          exact ⟨rfl, rest⟩
    | _ => cases takes'
  | _ => cases takes

theorem in_read {x x' : String} {source source' : Tree} (read : Read hidden .expression source) (plain : Plain x)
    (plain' : Plain x') (fits : At .expression source) (fits' : At .expression source') (stop : Closes r)
    (stop' : Closes r') (same : x.toList ++ ' ' :: 'i' :: 'n' :: ' ' :: (source.exprChars hidden ++ r) =
      x'.toList ++ ' ' :: 'i' :: 'n' :: ' ' :: (source'.exprChars hidden ++ r')) :
    x = x' ∧ source = source' ∧ r = r' := by
  have blank (q : List Char) : Follows [' '] (' ' :: q) := by simp
  obtain ⟨rfl, rest⟩ := plain.read plain' (by decide) (blank _) (blank _) same
  simp only [List.cons.injEq, true_and] at rest
  exact ⟨rfl, read.expression fits fits' stop stop' rest⟩

/-- A name with the source after it is not taken for a type with a name after it. -/
theorem untyped_ne_typed {x x' : String} {elemType : Tree} (plain : Plain x) (plain' : Plain x')
    (fits : At .type elemType) (q q' : List Char) : x.toList ++ ' ' :: 'i' :: 'n' :: ' ' :: q ≠
      elemType.chars hidden ++ ' ' :: (x'.toList ++ ' ' :: q') := by
  intro same
  obtain ⟨⟨⟩, k⟩ := elemType
  have blank (q : List Char) : Follows [' '] (' ' :: q) := by simp
  have layer := fits.2.layer
  rw [chars_node] at same
  cases k with
  | typeRef y args =>
    rw [layerChars, List.append_assoc] at same
    obtain ⟨-, rest⟩ := plain.read layer.1 (by decide) ((blank _).mono (by simp)) (follows_typeArgs args (blank _)) same
    cases args with
    | nil =>
      have rest : "in".toList ++ ' ' :: q = x'.toList ++ ' ' :: q' := List.tail_eq_of_cons_eq rest
      exact plain'.ne_reserved (by decide) (by decide) (blank q') (blank q) rest.symm
    | cons => simp [typeArgsChars] at rest
  | _ => cases fits.1

theorem chars_type (fits : At .type t) : t.chars hidden = t.exprChars hidden := by
  obtain ⟨⟨⟩, k⟩ := t
  rw [exprChars_eq]
  cases k with
  | typeRef => rfl
  | _ => cases fits.1

theorem from_read {x x' : String} {elemType elemType' : Option Tree} {source source' : Tree}
    (types : ∀ u ∈ elemType, Read hidden .type u) (read : Read hidden .expression source)
    (layer : LegibleLayer (.fromClause x elemType source)) (layer' : LegibleLayer (.fromClause x' elemType' source'))
    (stop : Closes r) (stop' : Closes r') (same : layerChars hidden (.fromClause x elemType source) ++ r =
      layerChars hidden (.fromClause x' elemType' source') ++ r') :
    (.fromClause x elemType source : Kind String Tree) = .fromClause x' elemType' source' ∧ r = r' := by
  obtain ⟨plain, fits, source⟩ := layer
  obtain ⟨plain', fits', source'⟩ := layer'
  cases elemType with
  | none =>
    cases elemType' with
    | none =>
      simp only [layerChars, List.cons_append, List.nil_append, List.append_assoc, List.cons.injEq, true_and] at same
      obtain ⟨rfl, rfl, rfl⟩ := in_read read plain plain' source source' stop stop' same
      exact ⟨rfl, rfl⟩
    | some type' =>
      simp only [layerChars, List.cons_append, List.nil_append, List.append_assoc, List.cons.injEq, true_and] at same
      exact absurd same (untyped_ne_typed plain plain' (fits' type' rfl) _ _)
  | some type =>
    cases elemType' with
    | none =>
      simp only [layerChars, List.cons_append, List.nil_append, List.append_assoc, List.cons.injEq, true_and] at same
      exact absurd same.symm (untyped_ne_typed plain' plain (fits type rfl) _ _)
    | some type' =>
      simp only [layerChars, List.cons_append, List.nil_append, List.append_assoc, List.cons.injEq, true_and,
        chars_type (fits type rfl), chars_type (fits' type' rfl)] at same
      have blank (q : List Char) : Role.Ends .type (' ' :: q) := by simp [Role.Ends]
      obtain ⟨rfl, rest⟩ := types type rfl (fits type rfl).1 (fits type rfl).2 (fits' type' rfl).1 (fits' type' rfl).2
        (blank _) (blank _) same
      obtain ⟨rfl, rfl, rfl⟩ := in_read read plain plain' source source' stop stop' (List.tail_eq_of_cons_eq rest)
      exact ⟨rfl, rfl⟩

theorem clause_read (below : ∀ u : Tree, u.size < t.size → ∀ role, Read hidden role u) : Read hidden .clause t := by
  intro t' r r' takes legible takes' legible' stop stop' same
  obtain ⟨⟨⟩, k⟩ := t
  obtain ⟨⟨⟩, k'⟩ := t'
  have layer := legible.layer
  have layer' := legible'.layer
  have below {c : Tree} (child : c ∈ k.children) := below c (size_lt child)
  have same : layerChars hidden k ++ r = layerChars hidden k' ++ r' := by
    rw [← chars_node, ← chars_node]
    exact same
  -- The words for the clauses begin with different letters, so both clauses are of one kind.
  have letters : clauseLetter k = clauseLetter k' := by
    obtain ⟨w, text⟩ : ∃ w, layerChars hidden k = clauseLetter k :: w := layerChars_clause hidden takes
    obtain ⟨w', text'⟩ : ∃ w, layerChars hidden k' = clauseLetter k' :: w := layerChars_clause hidden takes'
    rw [text, text'] at same
    exact List.head_eq_of_cons_eq same
  cases k with
  | fromClause x elemType source =>
    cases k' with
    | fromClause x' elemType' source' =>
      obtain ⟨kinds, rfl⟩ := from_read (fun u member => below (by simp [Kind.children, Option.mem_def.mp member]) .type)
        (below (by simp [Kind.children]) .expression) layer layer' stop.closes stop'.closes same
      rw [kinds]
      exact ⟨rfl, rfl⟩
    | _ => simp [clauseLetter] at letters
  | letClause x value =>
    cases k' with
    | letClause x' value' =>
      simp only [layerChars, List.cons_append, List.nil_append, List.append_assoc, List.cons.injEq, true_and] at same
      have blank (q : List Char) : Follows [' '] (' ' :: q) := by simp
      obtain ⟨rfl, rest⟩ := layer.1.read layer'.1 (by decide) (blank _) (blank _) same
      simp only [List.cons.injEq, true_and] at rest
      obtain ⟨rfl, rfl⟩ := (below List.mem_cons_self .expression).expression layer.2 layer'.2 stop.closes
        stop'.closes rest
      exact ⟨rfl, rfl⟩
    | _ => simp [clauseLetter] at letters
  | whereClause cond =>
    cases k' with
    | whereClause cond' =>
      simp only [layerChars, List.cons_append, List.nil_append, List.cons.injEq, true_and] at same
      obtain ⟨rfl, rfl⟩ := (below List.mem_cons_self .expression).expression layer layer' stop.closes stop'.closes same
      exact ⟨rfl, rfl⟩
    | _ => simp [clauseLetter] at letters
  | orderClause orderings =>
    cases k' with
    | orderClause orderings' =>
      simp only [layerChars, List.cons_append, List.nil_append, List.cons.injEq, true_and] at same
      obtain ⟨rfl, rfl⟩ := listChars_read .ordering rfl (fun u member => below member .ordering) layer.2 layer'.2
        layer.1 layer'.1 stop.ordering stop'.ordering stop.not_comma stop'.not_comma same
      exact ⟨rfl, rfl⟩
    | _ => simp [clauseLetter] at letters
  | selectClause projection =>
    cases k' with
    | selectClause projection' =>
      simp only [layerChars, List.cons_append, List.nil_append, List.cons.injEq, true_and] at same
      obtain ⟨rfl, rfl⟩ := (below List.mem_cons_self .expression).expression layer layer' stop.closes stop'.closes same
      exact ⟨rfl, rfl⟩
    | _ => simp [clauseLetter] at letters
  | groupClause projection key =>
    cases k' with
    | groupClause projection' key' =>
      simp only [layerChars, List.cons_append, List.nil_append, List.append_assoc, List.cons.injEq, true_and] at same
      obtain ⟨rfl, rest⟩ := (below List.mem_cons_self .expression).expression layer.1 layer'.1 (closes_word rfl _)
        (closes_word rfl _) same
      simp only [List.cons.injEq, true_and] at rest
      obtain ⟨rfl, rfl⟩ := (below (.tail _ List.mem_cons_self) .expression).expression layer.2 layer'.2 stop.closes
        stop'.closes rest
      exact ⟨rfl, rfl⟩
    | _ => simp [clauseLetter] at letters
  | _ => cases takes

end

theorem read (hidden : Char → Bool) (role : Role) (t : Tree) : Read hidden role t := by
  induction n : t.size using Nat.strong_induction_on generalizing t role with
  | h n ih =>
    subst n
    have below : ∀ u : Tree, u.size < t.size → ∀ role, Read hidden role u :=
      fun u less role => ih u.size less role u rfl
    cases role with
    | type => exact type_read below
    | operand => exact operand_read below
    | expression => exact expression_read below
    | initializer => exact initializer_read below
    | ordering => exact ordering_read below
    | clause => exact clause_read below
    | query => exact query_read below

/-! ### Whole texts -/

section
variable {hidden : Char → Bool} {t t' : Tree}

/-- A query outside of parentheses is told from the other expressions by its first word. -/
theorem query_ne_expression (query : At .preceding t) (fits : At .expression t') :
    t.chars hidden ≠ t'.exprChars hidden := by
  intro same
  obtain ⟨items, lists, -⟩ := exists_lists query
  obtain ⟨q, text⟩ := lists.exists_from hidden
  obtain ⟨u, tail, fitsOperand, leading, follows, -⟩ := exists_leading hidden fits (.inl follows_nil)
  rw [List.append_nil, ← same, text] at leading
  exact from_ne_operand fitsOperand follows q leading

theorem query_or_expression (hidden : Char → Bool) (fits : At .expression t) :
    At .preceding t ∨ t.exprChars hidden = t.chars hidden := by
  obtain ⟨⟨⟩, k⟩ := t
  cases k with
  | query => exact .inl ⟨rfl, fits.2⟩
  | _ => exact .inr (by rw [exprChars_eq]; rfl)

theorem render_injective (fits : At .expression t) (fits' : At .expression t')
    (same : t.render hidden = t'.render hidden) : t = t' := by
  have same : t.chars hidden = t'.chars hidden := congrArg String.toList same
  obtain query | bare := query_or_expression hidden fits
  · obtain query' | bare' := query_or_expression hidden fits'
    · exact (read hidden .query t query.1 query.2 query'.1 query'.2 follows_nil follows_nil (congrArg (· ++ []) same)).1
    · rw [← bare'] at same
      exact absurd same (query_ne_expression query fits')
  · obtain query' | bare' := query_or_expression hidden fits'
    · rw [← bare] at same
      exact absurd same.symm (query_ne_expression query' fits)
    · rw [← bare, ← bare'] at same
      exact ((read hidden .expression t).expression fits fits' (.inl follows_nil) (.inl follows_nil)
        (congrArg (· ++ []) same)).1

end

end Tree

namespace Store

/-- A root that stands for a legible query or expression. Nodes may be shared. -/
def LegibleAt (s : Store) (names : NameTable) (root : NodeId) : Prop :=
  ∃ t, s.unfold names root = .ok t ∧ t.kind.fits .expression = true ∧ t.Legible

theorem render_eq (s : Store) (names : NameTable) (root : NodeId) :
    s.render names root = (s.unfold names root).map (Tree.render Text.isHidden) := by
  unfold render
  cases s.unfold names root <;> rfl

/-- Roots with the same text stand for the same tree, whatever characters are shown by their code point. -/
theorem render_unambiguous (hidden : Char → Bool) {s s' : Store} {names names' : NameTable} {root root' : NodeId}
    (legible : s.LegibleAt names root) (legible' : s'.LegibleAt names' root') :
    ((s.unfold names root).map (Tree.render hidden) = (s'.unfold names' root').map (Tree.render hidden) →
      s.unfold names root = s'.unfold names' root') ∧
    (s.render names root = s'.render names' root' → s.unfold names root = s'.unfold names' root') := by
  obtain ⟨t, unfolds, fits⟩ := legible
  obtain ⟨t', unfolds', fits'⟩ := legible'
  rw [render_eq, render_eq, unfolds, unfolds']
  constructor
  · intro same
    rw [Tree.render_injective fits fits' (Except.ok.inj same)]
  · intro same
    rw [Tree.render_injective fits fits' (Except.ok.inj same)]

/-- `from t in (from x in xs select new { x, "\"" }) select x`, with one node for both mentions of `x` and with a
node for each. -/
theorem render_unambiguous_shared :
    let store (kinds : List NodeKind) : Store := ⟨(kinds.map (⟨·, .none⟩)).toArray⟩
    let s := store [.ident ⟨1⟩ [], .fromClause ⟨2⟩ none ⟨0⟩, .ident ⟨2⟩ [], .literal (.str ⟨4⟩), .record [⟨2⟩, ⟨3⟩],
      .selectClause ⟨4⟩, .query [⟨1⟩, ⟨5⟩], .fromClause ⟨3⟩ none ⟨6⟩, .selectClause ⟨2⟩, .query [⟨7⟩, ⟨8⟩]]
    let s' := store [.query [⟨1⟩, ⟨9⟩], .fromClause ⟨0⟩ none ⟨2⟩, .query [⟨3⟩, ⟨5⟩], .fromClause ⟨1⟩ none ⟨4⟩,
      .ident ⟨2⟩ [], .selectClause ⟨6⟩, .record [⟨7⟩, ⟨8⟩], .ident ⟨1⟩ [], .literal (.str ⟨3⟩), .selectClause ⟨10⟩,
      .ident ⟨1⟩ []]
    let names : NameTable := ⟨#["", "xs", "x", "t", "\""], ∅⟩
    let names' : NameTable := ⟨#["t", "x", "xs", "\""], ∅⟩
    s.LegibleAt names ⟨9⟩ ∧ s'.LegibleAt names' ⟨0⟩ ∧ s.render names ⟨9⟩ = s'.render names' ⟨0⟩ ∧
      s.unfold names ⟨9⟩ = s'.unfold names' ⟨0⟩ := by
  intro store s s' names names'
  have legible : s.LegibleAt names ⟨9⟩ := ⟨_, rfl, rfl, by decide +kernel⟩
  have legible' : s'.LegibleAt names' ⟨0⟩ := ⟨_, rfl, rfl, by decide +kernel⟩
  have same : s.render names ⟨9⟩ = s'.render names' ⟨0⟩ := by decide +kernel
  exact ⟨legible, legible', same, (render_unambiguous Text.isHidden legible legible').2 same⟩

end Store

end Comprehension
