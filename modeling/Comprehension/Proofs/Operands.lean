import Comprehension.Proofs.Reading

/-! Operands and queries are written from the left: an operand as a head with accesses and calls after it, and a
query with what it continues before it. Both are taken apart into lists to be read. -/

set_option autoImplicit false

namespace Comprehension

namespace Tree

def size (t : Tree) : Nat := t.marks.length

theorem size_lt {k : Kind String Tree} {c : Tree} (child : c ∈ k.children) : c.size < size (.node () k) :=
  Marked.length_marks_lt child

def isHead : Kind String Tree → Bool
  | .member .. | .call .. => false
  | _ => true

/-- An operand as a head and what is written after it. -/
structure Spine (t : Tree) where
  head : Tree
  suffixes : List Suffix
  whole : suffixes.foldl Suffix.onto head = t
  isHead : isHead head.kind = true
  fits : At .expression head
  legible : ∀ a ∈ suffixes, a.Legible
  head_le : head.size ≤ t.size
  parts_lt : ∀ a ∈ suffixes, ∀ u ∈ a.parts, u.size < t.size

theorem Spine.operandChars_eq {t : Tree} (spine : Spine t) (hidden : Char → Bool) :
    t.operandChars hidden = spine.head.operandChars hidden ++ spine.suffixes.flatMap (Suffix.chars hidden) := by
  have foldl := Suffix.operandChars_foldl hidden spine.head spine.suffixes
  rwa [spine.whole] at foldl

def Spine.extend {target : Tree} (spine : Spine target) (a : Suffix) (legible : a.Legible)
    (below : target.size < (a.onto target).size) (parts : ∀ u ∈ a.parts, u.size < (a.onto target).size) :
    Spine (a.onto target) where
  head := spine.head
  suffixes := spine.suffixes ++ [a]
  whole := by rw [List.foldl_append, spine.whole]; rfl
  isHead := spine.isHead
  fits := spine.fits
  legible := List.forall_mem_append.mpr ⟨spine.legible, by simpa using legible⟩
  head_le := Nat.le_trans spine.head_le (Nat.le_of_lt below)
  parts_lt := by
    refine List.forall_mem_append.mpr ⟨fun b member u part => ?_, by simpa using parts⟩
    exact Nat.lt_trans (spine.parts_lt b member u part) below

theorem exists_spine {t : Tree} (fits : At .expression t) : Nonempty (Spine t) := by
  induction t using Marked.induction with
  | step m k ih =>
    have layer := fits.2.layer
    cases k with
    | member target x typeArgs =>
      obtain ⟨spine⟩ := ih target List.mem_cons_self layer.1
      exact ⟨spine.extend (.access x typeArgs) layer.2 (size_lt List.mem_cons_self)
        fun u part => size_lt (.tail _ part)⟩
    | call target args =>
      obtain ⟨spine⟩ := ih target List.mem_cons_self layer.1
      exact ⟨spine.extend (.invoke args) layer.2 (size_lt List.mem_cons_self) fun u part => size_lt (.tail _ part)⟩
    | _ => exact ⟨⟨_, [], rfl, rfl, fits, by simp, Nat.le_refl _, by simp⟩⟩

/-! ### Heads -/

section
variable {hidden : Char → Bool} {x : String} {head head' t : Tree} {q r r' : List Char}

theorem name_head (plain : Plain x) (fits : At .expression head) (isHead : isHead head.kind = true)
    (stop : Follows ['<', ' ', ')', ',', '.', '('] q) (stop' : Follows [' ', ')', ',', '.', '('] r')
    (same : x.toList ++ q = head.operandChars hidden ++ r') :
    ∃ typeArgs, head = .node () (.ident x typeArgs) ∧ q = typeArgsChars hidden typeArgs ++ r' := by
  obtain ⟨⟨⟩, k⟩ := head
  have layer := fits.2.layer
  rw [operandChars_node] at same
  cases k with
  | query | binary => exact absurd same (plain.ne_cons (by decide) _ _)
  | ident x' typeArgs =>
    have same : x.toList ++ q = x'.toList ++ (typeArgsChars hidden typeArgs ++ r') := by
      simpa [Kind.isQuery, isBinary, layerChars] using same
    obtain ⟨rfl, rest⟩ := plain.read layer.1 (by decide) stop (follows_typeArgs typeArgs stop') same
    exact ⟨typeArgs, rfl, rest⟩
  | literal value =>
    have same : x.toList ++ q = (value.print hidden).toList ++ r' := same
    have stop' : Follows ['<', ' ', ')', ',', '.', '('] r' := stop'.mono (by simp)
    cases value with
    | int n => exact absurd same (plain.ne_int n _ _)
    | str y =>
      rw [Literal.toList_print_str] at same
      exact absurd same (plain.ne_cons (by decide) _ _)
    | bool b =>
      cases b with
      | false => exact absurd same (plain.ne_reserved (w := "false") (by decide) (by decide) stop stop')
      | true => exact absurd same (plain.ne_reserved (w := "true") (by decide) (by decide) stop stop')
    | null => exact absurd same (plain.ne_reserved (w := "null") (by decide) (by decide) stop stop')
  | record initializers =>
    have same : x.toList ++ q =
        "new".toList ++ ' ' :: '\x7b' :: ' ' :: (initializersChars hidden initializers ++ r') := by
      simpa [Kind.isQuery, isBinary, layerChars] using same
    exact absurd same (plain.ne_reserved (by decide) (by decide) stop (by simp))
  | member | call => cases isHead
  | _ => cases fits.1

end

/-! ### Queries as lists of items -/

/-- What is listed in a query, with continuations taken apart. -/
inductive Item where
  | clause (t : Tree)
  | into (x : String)

namespace Item

def chars (hidden : Char → Bool) : Item → List Char
  | .clause t => t.chars hidden
  | .into x => 'i' :: 'n' :: 't' :: 'o' :: ' ' :: x.toList

def Legible : Item → Prop
  | .clause t => Role.takes .clause t.kind = true ∧ t.Legible
  | .into x => Plain x

theorem clause_injective : Function.Injective Item.clause := fun _ _ same => by
  cases same
  rfl

/-- The last name that is gone on with divides the items. -/
theorem append_into_inj {l l' : List Item} {rest rest' : List Tree} {x x' : String}
    (same : l ++ .into x :: rest.map .clause = l' ++ .into x' :: rest'.map .clause) :
    l = l' ∧ x = x' ∧ rest = rest' := by
  have cut {b : List Item} {rest rest' : List Tree} {x x' : String}
      (same : Item.into x :: rest.map .clause = b ++ .into x' :: rest'.map .clause) :
      b = [] ∧ x = x' ∧ rest = rest' := by
    cases b with
    | nil =>
      simp only [List.nil_append, List.cons.injEq, Item.into.injEq] at same
      exact ⟨rfl, same.1, clause_injective.list_map same.2⟩
    | cons i b =>
      have tail : rest.map Item.clause = b ++ .into x' :: rest'.map .clause := List.tail_eq_of_cons_eq same
      have member : Item.into x' ∈ rest.map Item.clause := tail ▸ by simp
      simp at member
  obtain ⟨b, rfl, tail⟩ | ⟨b, rfl, tail⟩ := List.append_eq_append_iff.mp same
  · obtain ⟨rfl, rfl, rfl⟩ := cut tail
    exact ⟨by simp, rfl, rfl⟩
  · obtain ⟨rfl, rfl, rfl⟩ := cut tail
    exact ⟨by simp, rfl, rfl⟩

end Item

inductive Lists : Tree → List Item → Prop where
  | opening {x : String} {elemType : Option Tree} {source : Tree} {rest : List Tree} :
      Lists (.node () (.query (.node () (.fromClause x elemType source) :: rest)))
        (.clause (.node () (.fromClause x elemType source)) :: rest.map .clause)
  | continued {preceding : Tree} {x : String} {rest : List Tree} {items : List Item}
      (before : Lists preceding items) :
      Lists (.node () (.query (.node () (.continuation preceding x) :: rest))) (items ++ .into x :: rest.map .clause)

section
variable {hidden : Char → Bool} {t t' : Tree} {items : List Item}

/-- The items determine the query. -/
theorem Lists.unique (lists : Lists t items) (lists' : Lists t' items) : t = t' := by
  induction lists generalizing t' with
  | @opening x elemType source rest =>
    generalize listed : Item.clause (.node () (.fromClause x elemType source)) :: rest.map .clause = items at lists'
    cases lists' with
    | opening =>
      simp only [List.cons.injEq, Item.clause.injEq] at listed
      rw [listed.1, Item.clause_injective.list_map listed.2]
    | @continued preceding y rest' items before =>
      have member : Item.into y ∈ Item.clause (.node () (.fromClause x elemType source)) :: rest.map .clause :=
        listed ▸ by simp
      simp at member
  | @continued preceding x rest items before ih =>
    generalize listed : items ++ .into x :: rest.map .clause = items' at lists'
    cases lists' with
    | @opening y elemType source rest' =>
      have member : Item.into x ∈ Item.clause (.node () (.fromClause y elemType source)) :: rest'.map .clause :=
        listed ▸ by simp
      simp at member
    | continued before' =>
      obtain ⟨rfl, rfl, rfl⟩ := Item.append_into_inj listed
      rw [ih before']

theorem Lists.ne_nil (lists : Lists t items) : items ≠ [] := by
  cases lists <;> simp

theorem Lists.chars_eq (lists : Lists t items) :
    t.chars hidden = [' '].intercalate (items.map (Item.chars hidden)) := by
  induction lists with
  | opening =>
    rw [chars_node, layerChars]
    simp [Item.chars, Function.comp_def]
  | @continued preceding x rest items before ih =>
    obtain ⟨i, items, rfl⟩ := List.exists_cons_of_ne_nil before.ne_nil
    rw [chars_node, layerChars, List.map_cons, chars_node, layerChars, ih]
    simp only [List.map_append, List.map_cons, List.cons_append, intercalate_cons_eq]
    simp [Item.chars, Function.comp_def, List.flatMap_map]

variable (hidden) in
theorem Lists.exists_from (lists : Lists t items) :
    ∃ q, t.chars hidden = 'f' :: 'r' :: 'o' :: 'm' :: ' ' :: q := by
  induction lists with
  | @opening x elemType source rest =>
    rw [chars_node, layerChars, List.map_cons, intercalate_cons_eq, chars_node]
    cases elemType <;> exact ⟨_, rfl⟩
  | continued before ih =>
    obtain ⟨q, text⟩ := ih
    rw [chars_node, layerChars, List.map_cons, intercalate_cons_eq, chars_node, layerChars, text]
    exact ⟨_, rfl⟩

theorem exists_lists (fits : At .preceding t) : ∃ items, Lists t items ∧ (∀ i ∈ items, i.Legible) ∧
    ∀ c, .clause c ∈ items → c.size < t.size := by
  induction n : t.size using Nat.strong_induction_on generalizing t with
  | h n ih =>
    subst n
    obtain ⟨⟨⟩, k⟩ := t
    cases k with
    | query clauses =>
      obtain ⟨first, between, last, rfl, opens, middle, ends⟩ := fits.2.layer
      have rest : ∀ i ∈ (between ++ [last]).map Item.clause, i.Legible := by
        intro i member
        obtain ⟨c, listed, rfl⟩ := List.mem_map.mp member
        obtain inside | final := List.mem_append.mp listed
        · exact ⟨by simp [Role.takes, (middle c inside).1], (middle c inside).2⟩
        · rw [List.mem_singleton.mp final]
          exact ⟨by simp [Role.takes, ends.1], ends.2⟩
      have child {c : Tree} (member : c ∈ first :: (between ++ [last])) :
          c.size < size (.node () (.query (first :: (between ++ [last])))) := size_lt member
      obtain ⟨⟨⟩, k⟩ := first
      cases k with
      | fromClause x elemType source =>
        refine ⟨_, .opening, List.forall_mem_cons.mpr ⟨⟨rfl, opens.2⟩, rest⟩, fun c member => child ?_⟩
        simpa using member
      -- What the query goes on from is taken apart first, and its clauses are smaller still.
      | continuation preceding x =>
        have layer := opens.2.layer
        have smaller : size preceding < size (.node () (.continuation preceding x)) := size_lt List.mem_cons_self
        have first := child List.mem_cons_self
        obtain ⟨items, lists, legible, below⟩ := ih (size preceding) (Nat.lt_trans smaller first) layer.2 rfl
        refine ⟨_, .continued lists, ?_, fun c member => ?_⟩
        · exact List.forall_mem_append.mpr ⟨legible, List.forall_mem_cons.mpr ⟨layer.1, rest⟩⟩
        · obtain earlier | later := List.mem_append.mp member
          · exact Nat.lt_trans (below c earlier) (Nat.lt_trans smaller first)
          · exact child (List.mem_cons_of_mem _ (by simpa using later))
      | _ => cases opens.1
    | _ => cases fits.1

def clauseLetter : Kind String Tree → Char
  | .fromClause .. => 'f'
  | .letClause .. => 'l'
  | .whereClause .. => 'w'
  | .orderClause .. => 'o'
  | .groupClause .. => 'g'
  | .selectClause .. => 's'
  | _ => ' '

variable (hidden) in
theorem layerChars_clause {k : Kind String Tree} (takes : Role.takes .clause k = true) :
    ∃ q, layerChars hidden k = clauseLetter k :: q := by
  cases k with
  | fromClause x elemType source => cases elemType <;> exact ⟨_, rfl⟩
  | letClause | whereClause | orderClause | selectClause | groupClause => exact ⟨_, rfl⟩
  | _ => cases takes

variable (hidden) in
theorem clause_start (takes : Role.takes .clause t.kind = true) :
    ∃ c q, t.chars hidden = c :: q ∧ c ∈ ['f', 'l', 'w', 'o', 'g', 's'] := by
  obtain ⟨⟨⟩, k⟩ := t
  obtain ⟨q, text⟩ := layerChars_clause hidden takes
  refine ⟨clauseLetter k, q, by rw [chars_node]; exact text, ?_⟩
  cases k with
  | fromClause | letClause | whereClause | orderClause | selectClause | groupClause => simp [clauseLetter]
  | _ => cases takes

theorem item_read {i i' : Item} {r r' : List Char} (each : ∀ c, i = .clause c → Read hidden .clause c)
    (legible : i.Legible) (legible' : i'.Legible) (stop : ClosesClause r) (stop' : ClosesClause r')
    (same : i.chars hidden ++ r = i'.chars hidden ++ r') : i = i' ∧ r = r' := by
  have apart {c : Tree} {w : List Char} {r r' : List Char} (takes : Role.takes .clause c.kind = true) :
      c.chars hidden ++ r ≠ 'i' :: w ++ r' := by
    obtain ⟨c, q, text, letter⟩ := clause_start hidden takes
    rw [text]
    intro same
    rw [List.head_eq_of_cons_eq same] at letter
    simp at letter
  cases i with
  | clause c =>
    cases i' with
    | clause c' =>
      obtain ⟨rfl, rfl⟩ := each c rfl legible.1 legible.2 legible'.1 legible'.2 stop stop' same
      exact ⟨rfl, rfl⟩
    | into x' => exact absurd same (apart legible.1)
  | into x =>
    cases i' with
    | clause c' => exact absurd same.symm (apart legible'.1)
    | into x' =>
      simp only [Item.chars, List.cons_append, List.cons.injEq, true_and] at same
      obtain ⟨rfl, rfl⟩ := legible.read legible' (by decide) stop.closes.follows stop'.closes.follows same
      exact ⟨rfl, rfl⟩

theorem item_start {i : Item} (legible : i.Legible) (q : List Char) : ClosesClause (' ' :: (i.chars hidden ++ q)) := by
  cases i with
  | clause c =>
    obtain ⟨c, w, text, letter⟩ := clause_start hidden legible.1
    refine .inr ⟨c, w ++ q, ?_, ?_⟩
    · rw [Item.chars, text]
      rfl
    · exact List.mem_append_left ['i'] letter
  | into x => exact .inr ⟨_, _, rfl, by simp⟩

theorem query_read (below : ∀ u : Tree, u.size < t.size → ∀ role, Read hidden role u) : Read hidden .query t := by
  intro t' r r' takes legible takes' legible' stop stop' same
  obtain ⟨items, lists, each, smaller⟩ := exists_lists ⟨takes, legible⟩
  obtain ⟨items', lists', each', -⟩ := exists_lists ⟨takes', legible'⟩
  have single {i : Item} (member : i ∈ items) : ∀ c, i = .clause c → Read hidden .clause c := by
    rintro c rfl
    exact below c (smaller c member) .clause
  have last {r : List Char} (stop : Follows [')'] r) : ClosesClause r ∧ ¬ [' '] <+: r := by
    refine ⟨.inl stop, ?_⟩
    rintro ⟨q, rfl⟩
    simp at stop
  simp only [Role.chars, lists.chars_eq, lists'.chars_eq] at same
  obtain ⟨rfl, rfl⟩ := intercalate_read (Item.chars hidden) ClosesClause
    (fun i member i' member' r r' => item_read (single member) (each i member) (each' i' member'))
    (fun i member => item_start (member.elim (each i) (each' i))) lists.ne_nil lists'.ne_nil (last stop).1
    (last stop').1 (last stop).2 (last stop').2 same
  exact ⟨lists.unique lists', rfl⟩

end

section
variable {hidden : Char → Bool} {head head' t t' : Tree} {r r' : List Char}

theorem from_ne_head (fits : At .expression head) (isHead : isHead head.kind = true)
    (stop : Follows [' ', ')', ',', '.', '('] r) (q : List Char) :
    'f' :: 'r' :: 'o' :: 'm' :: ' ' :: q ≠ head.operandChars hidden ++ r := by
  obtain ⟨⟨⟩, k⟩ := head
  have layer := fits.2.layer
  intro same
  rw [operandChars_node] at same
  cases k with
  | query | binary => simp [Kind.isQuery, isBinary] at same
  | ident x typeArgs =>
    have same : x.toList ++ (typeArgsChars hidden typeArgs ++ r) = "from".toList ++ ' ' :: q := by
      simpa [Kind.isQuery, isBinary, layerChars] using same.symm
    exact layer.1.ne_reserved (by decide) (by decide) (follows_typeArgs typeArgs stop) (by simp) same
  | literal value =>
    have same : 'f' :: 'r' :: 'o' :: 'm' :: ' ' :: q = (value.print hidden).toList ++ r := same
    have begins := value.begins_print hidden r
    rw [← same] at begins
    cases begins
  | record initializers => simp [Kind.isQuery, isBinary, layerChars] at same
  | member | call => cases isHead
  | _ => cases fits.1

theorem from_ne_operand (fits : At .expression t) (stop : Follows [' ', ')', ','] r) (q : List Char) :
    'f' :: 'r' :: 'o' :: 'm' :: ' ' :: q ≠ t.operandChars hidden ++ r := by
  obtain ⟨spine⟩ := exists_spine fits
  rw [spine.operandChars_eq, List.append_assoc]
  exact from_ne_head spine.fits spine.isHead (Suffix.follows_suffixes hidden spine.suffixes stop) q

/-- The text of a query is not that of a binary expression. -/
theorem query_ne_binary {clauses : List Tree} {op : BinaryOp} {left right : Tree}
    (legible : Legible (.node () (.query clauses))) (layer : LegibleLayer (.binary op left right)) :
    layerChars hidden (.query clauses) ++ r ≠ layerChars hidden (.binary op left right) ++ r' := by
  obtain ⟨items, lists, -⟩ := exists_lists ⟨rfl, legible⟩
  obtain ⟨q, text⟩ := lists.exists_from hidden
  rw [← chars_node, text]
  simp only [layerChars, List.append_assoc, List.cons_append]
  exact from_ne_operand layer.1 (by simp) _

theorem binary_read {op op' : BinaryOp} {left left' right right' : Tree} (readLeft : Read hidden .operand left)
    (readRight : Read hidden .operand right) (layer : LegibleLayer (.binary op left right))
    (layer' : LegibleLayer (.binary op' left' right')) (stop : Follows [' ', ')', ','] r)
    (stop' : Follows [' ', ')', ','] r')
    (same : layerChars hidden (.binary op left right) ++ r = layerChars hidden (.binary op' left' right') ++ r') :
    (.binary op left right : Kind String Tree) = .binary op' left' right' ∧ r = r' := by
  simp only [layerChars, List.cons_append, List.append_assoc] at same
  have blank (q : List Char) : Role.Ends .operand (' ' :: q) := by simp [Role.Ends]
  obtain ⟨rfl, tail⟩ := readLeft layer.1.1 layer.1.2 layer'.1.1 layer'.1.2 (blank _) (blank _) same
  obtain ⟨rfl, last⟩ := BinaryOp.read (List.tail_eq_of_cons_eq tail)
  obtain ⟨rfl, rfl⟩ := readRight layer.2.1 layer.2.2 layer'.2.1 layer'.2.2 stop stop' last
  exact ⟨rfl, rfl⟩

theorem operandChars_ident (x : String) (typeArgs : List Tree) :
    operandChars hidden (.node () (.ident x typeArgs)) = x.toList ++ typeArgsChars hidden typeArgs := by
  rw [operandChars_node]
  rfl

theorem operandChars_paren {k : Kind String Tree} (inParens : (k.isQuery || isBinary k) = true) (r : List Char) :
    operandChars hidden (.node () k) ++ r = '(' :: (layerChars hidden k ++ ')' :: r) := by
  simp [operandChars_node, inParens]

theorem head_ne_paren (fits : At .expression head) (isHead : isHead head.kind = true)
    (bare : head.kind.isQuery = false ∧ isBinary head.kind = false) (q : List Char) :
    '(' :: q ≠ head.operandChars hidden ++ r := by
  obtain ⟨⟨⟩, k⟩ := head
  have layer := fits.2.layer
  intro same
  rw [operandChars_node] at same
  cases k with
  | query => cases bare.1
  | binary => cases bare.2
  | ident x typeArgs =>
    have same : '(' :: q = x.toList ++ (typeArgsChars hidden typeArgs ++ r) := by
      simpa [Kind.isQuery, isBinary, layerChars] using same
    exact layer.1.ne_cons (by decide) _ _ same.symm
  | literal value =>
    have same : '(' :: q = (value.print hidden).toList ++ r := same
    have begins := value.begins_print hidden r
    rw [← same] at begins
    cases begins
  | record initializers => simp [Kind.isQuery, isBinary, layerChars] at same
  | member | call => cases isHead
  | _ => cases fits.1

theorem literal_ne_record (value : Literal String) (initializers : List Tree) :
    operandChars hidden (.node () (.literal value)) ++ r ≠
      operandChars hidden (.node () (.record initializers)) ++ r' := by
  intro same
  rw [operandChars_node, operandChars_node] at same
  have same : (value.print hidden).toList ++ r = 'n' :: 'e' :: 'w' :: ' ' :: _ := same
  have begins := value.begins_print hidden r
  rw [same] at begins
  cases begins

theorem head_read (below : ∀ u : Tree, u.size < head.size → ∀ role, Read hidden role u)
    (fits : At .expression head) (fits' : At .expression head')
    (isHead : isHead head.kind = true) (isHead' : Tree.isHead head'.kind = true)
    (stop : Follows [' ', ')', ',', '.', '('] r) (stop' : Follows [' ', ')', ',', '.', '('] r')
    (same : head.operandChars hidden ++ r = head'.operandChars hidden ++ r') : head = head' ∧ r = r' := by
  obtain ⟨⟨⟩, k⟩ := head
  obtain ⟨⟨⟩, k'⟩ := head'
  have layer := fits.2.layer
  have layer' := fits'.2.layer
  have query := query_read below
  have below {c : Tree} (child : c ∈ k.children) := below c (size_lt child)
  -- The first character tells the heads apart, but for the parenthesis that queries and binary expressions share.
  cases k with
  | query clauses =>
    rw [operandChars_paren rfl] at same
    cases k' with
    | query clauses' =>
      rw [operandChars_paren rfl, ← chars_node, ← chars_node] at same
      obtain ⟨trees, rest⟩ := query rfl fits.2 rfl fits'.2 (by simp [Role.Ends]) (by simp [Role.Ends])
        (List.tail_eq_of_cons_eq same)
      exact ⟨trees, List.tail_eq_of_cons_eq rest⟩
    | binary op left right =>
      rw [operandChars_paren rfl] at same
      exact absurd (List.tail_eq_of_cons_eq same) (query_ne_binary fits.2 layer')
    | ident | literal | record => exact absurd same (head_ne_paren fits' isHead' ⟨rfl, rfl⟩ _)
    | member | call => cases isHead'
    | _ => cases fits'.1
  | binary op left right =>
    rw [operandChars_paren rfl] at same
    cases k' with
    | query clauses' =>
      rw [operandChars_paren rfl] at same
      exact absurd (List.tail_eq_of_cons_eq same).symm (query_ne_binary fits'.2 layer)
    | binary op' left' right' =>
      rw [operandChars_paren rfl] at same
      obtain ⟨kinds, rest⟩ := binary_read (below (by simp [Kind.children]) .operand)
        (below (by simp [Kind.children]) .operand) layer layer' (by simp) (by simp) (List.tail_eq_of_cons_eq same)
      rw [kinds]
      exact ⟨rfl, List.tail_eq_of_cons_eq rest⟩
    | ident | literal | record => exact absurd same (head_ne_paren fits' isHead' ⟨rfl, rfl⟩ _)
    | member | call => cases isHead'
    | _ => cases fits'.1
  | ident x typeArgs =>
    rw [operandChars_ident, List.append_assoc] at same
    obtain ⟨typeArgs', is, rest⟩ := name_head layer.1 fits' isHead' (follows_typeArgs typeArgs stop) stop' same
    cases is
    obtain ⟨rfl, rfl⟩ := typeArgsChars_read (fun t member => below member .type) layer.2 layer'.2
      (stop.ne (by decide)) (stop'.ne (by decide)) rest
    exact ⟨rfl, rfl⟩
  | literal value =>
    cases k' with
    | query | binary =>
      have same := same.symm
      rw [operandChars_paren rfl] at same
      exact absurd same (head_ne_paren fits isHead ⟨rfl, rfl⟩ _)
    | ident x' typeArgs' =>
      rw [operandChars_ident, List.append_assoc] at same
      obtain ⟨_, is, -⟩ := name_head layer'.1 fits isHead (follows_typeArgs typeArgs' stop') stop same.symm
      cases is
    | literal value' =>
      obtain ⟨rfl, rfl⟩ := Literal.read (by decide) stop stop' same
      exact ⟨rfl, rfl⟩
    | record initializers' => exact absurd same (literal_ne_record value initializers')
    | member | call => cases isHead'
    | _ => cases fits'.1
  | record initializers =>
    cases k' with
    | query | binary =>
      have same := same.symm
      rw [operandChars_paren rfl] at same
      exact absurd same (head_ne_paren fits isHead ⟨rfl, rfl⟩ _)
    | ident x' typeArgs' =>
      rw [operandChars_ident, List.append_assoc] at same
      obtain ⟨_, is, -⟩ := name_head layer'.1 fits isHead (follows_typeArgs typeArgs' stop') stop same.symm
      cases is
    | literal value' => exact absurd same.symm (literal_ne_record value' initializers)
    | record initializers' =>
      have same : initializersChars hidden initializers ++ r = initializersChars hidden initializers' ++ r' := by
        simpa [operandChars_node, Kind.isQuery, isBinary, layerChars] using same
      obtain ⟨rfl, rfl⟩ := initializersChars_read (fun t member => below member .initializer) layer layer' same
      exact ⟨rfl, rfl⟩
    | member | call => cases isHead'
    | _ => cases fits'.1
  | member | call => cases isHead
  | _ => cases fits.1

theorem operand_read (below : ∀ u : Tree, u.size < t.size → ∀ role, Read hidden role u) :
    Read hidden .operand t := by
  intro t' r r' takes legible takes' legible' stop stop' same
  obtain ⟨spine⟩ := exists_spine ⟨takes, legible⟩
  obtain ⟨spine'⟩ := exists_spine ⟨takes', legible'⟩
  have smaller : ∀ u : Tree, u.size < spine.head.size → ∀ role, Read hidden role u :=
    fun u less => below u (Nat.lt_of_lt_of_le less spine.head_le)
  simp only [Role.chars, spine.operandChars_eq, spine'.operandChars_eq, List.append_assoc] at same
  obtain ⟨heads, rest⟩ := head_read smaller spine.fits spine'.fits spine.isHead spine'.isHead
    (Suffix.follows_suffixes hidden spine.suffixes stop) (Suffix.follows_suffixes hidden spine'.suffixes stop') same
  obtain ⟨suffixes, rest⟩ := Suffix.suffixes_read (fun a member u part => below u (spine.parts_lt a member u part))
    spine.legible spine'.legible stop stop' rest
  refine ⟨?_, rest⟩
  rw [← spine.whole, ← spine'.whole, heads, suffixes]

end

end Tree

end Comprehension
