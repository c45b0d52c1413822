import Comprehension.Proofs.Legibility
import Mathlib.Tactic.FinCases

/-! What may follow a subtree depends on how it is written. Lists of subtrees, arguments, initializers and what is
written after a target are read from the left, if each subtree in them can be told from what follows it. -/

set_option autoImplicit false

namespace Comprehension

namespace Tree

/-! ### What may follow -/

inductive Role where
  | type
  | operand
  | expression
  | initializer
  | ordering
  | clause
  | query
  deriving DecidableEq, Repr

/-- What may follow an expression. It is not taken for an operator, and a brace has a blank before it. -/
def Closes (r : List Char) : Prop :=
  Follows [')', ','] r ∨ ∃ c q, r = ' ' :: c :: q ∧ (isWordStart c = true ∨ c = '\x7d')

def ClosesClause (r : List Char) : Prop :=
  Follows [')'] r ∨ ∃ c q, r = ' ' :: c :: q ∧ c ∈ ['f', 'l', 'w', 'o', 'g', 's', 'i']

namespace Role

def takes : Role → Kind String Tree → Bool
  | .type, k => k.fits .type
  | .operand, k | .expression, k => k.fits .expression
  | .initializer, k => k.fits .initializer
  | .ordering, k => k.fits .ordering
  | .clause, k => k.fits .middle || k.fits .ending
  | .query, k => k.fits .preceding

def chars (hidden : Char → Bool) : Role → Tree → List Char
  | .operand, t => t.operandChars hidden
  | .clause, t | .query, t => t.chars hidden
  | .type, t | .expression, t | .initializer, t | .ordering, t => t.exprChars hidden

def Ends : Role → List Char → Prop
  | .type, r => Follows [' ', ',', '>'] r
  | .operand, r => Follows [' ', ')', ','] r
  | .expression, r | .initializer, r => Closes r
  | .ordering, r => Closes r ∧ ∀ q, r ≠ ' ' :: 'd' :: q
  | .clause, r => ClosesClause r
  | .query, r => Follows [')'] r

end Role

/-- A tree is told in this role from all others and from what follows. -/
def Read (hidden : Char → Bool) (role : Role) (t : Tree) : Prop :=
  ∀ ⦃t' : Tree⦄ ⦃r r' : List Char⦄, role.takes t.kind = true → t.Legible → role.takes t'.kind = true → t'.Legible →
    role.Ends r → role.Ends r' → role.chars hidden t ++ r = role.chars hidden t' ++ r' → t = t' ∧ r = r'

section
variable {r : List Char}

theorem Closes.follows (closes : Closes r) : Follows [' ', ')', ','] r := by
  obtain bracket | ⟨c, q, rfl, -⟩ := closes
  · exact bracket.mono (by simp)
  · simp

theorem ClosesClause.closes (closes : ClosesClause r) : Closes r := by
  obtain bracket | ⟨c, q, rfl, letter⟩ := closes
  · exact .inl (bracket.mono (by simp))
  · refine .inr ⟨c, q, rfl, .inl ?_⟩
    fin_cases letter <;> rfl

theorem ClosesClause.ordering (closes : ClosesClause r) : Role.Ends .ordering r := by
  refine ⟨closes.closes, fun q is => ?_⟩
  subst is
  obtain bracket | ⟨c, q', is, letter⟩ := closes
  · simp at bracket
  · cases is
    simp at letter

theorem ClosesClause.not_comma (closes : ClosesClause r) (q : List Char) : r ≠ ',' :: q := by
  rintro rfl
  obtain bracket | ⟨c, q', is, -⟩ := closes
  · simp at bracket
  · cases is

end

/-! ### Lists -/

section
variable {α : Type} {text : α → List Char} {sep : List Char} {ends : List Char → Prop} {l l' : List α}
  {r r' : List Char}

theorem intercalate_cons_eq (sep w : List Char) (l : List (List Char)) :
    sep.intercalate (w :: l) = w ++ l.flatMap (sep ++ ·) := by
  induction l generalizing w with
  | nil => simp
  | cons v l ih => simp [ih]

/-- Pieces with a separator before each of them, where a piece can be told from what follows it. -/
theorem pieces_read
    (each : ∀ a ∈ l, ∀ a' ∈ l', ∀ r r', ends r → ends r' → text a ++ r = text a' ++ r' → a = a' ∧ r = r')
    (goes : ∀ a, a ∈ l ∨ a ∈ l' → ∀ r, ends (sep ++ (text a ++ r))) (stop : ends r) (stop' : ends r')
    (last : ¬ sep <+: r) (last' : ¬ sep <+: r')
    (same : l.flatMap (sep ++ text ·) ++ r = l'.flatMap (sep ++ text ·) ++ r') : l = l' ∧ r = r' := by
  -- What follows a piece is the next one with its separator, or the end.
  have rest {m : List α} {q : List Char} (each : ∀ a ∈ m, a ∈ l ∨ a ∈ l') (stop : ends q) :
      ends (m.flatMap (sep ++ text ·) ++ q) := by
    cases m with
    | nil => exact stop
    | cons a m =>
      rw [List.flatMap_cons, List.append_assoc, List.append_assoc]
      exact goes a (each a List.mem_cons_self) _
  induction l generalizing l' with
  | nil =>
    cases l' with
    | nil => exact ⟨rfl, same⟩
    | cons a' l' =>
      rw [List.flatMap_cons, List.append_assoc, List.append_assoc] at same
      exact absurd ⟨_, same.symm⟩ last
  | cons a l ih =>
    cases l' with
    | nil =>
      rw [List.flatMap_cons, List.append_assoc, List.append_assoc] at same
      exact absurd ⟨_, same⟩ last'
    | cons a' l' =>
      simp only [List.flatMap_cons, List.append_assoc] at same
      obtain ⟨rfl, tails⟩ := each a List.mem_cons_self a' List.mem_cons_self _ _
        (rest (fun b member => .inl (.tail _ member)) stop) (rest (fun b member => .inr (.tail _ member)) stop')
        (List.append_cancel_left same)
      obtain ⟨rfl, rfl⟩ := ih (fun b member b' member' => each b (.tail _ member) b' (.tail _ member'))
        (fun b member => goes b (member.imp (.tail _) (.tail _))) tails
        (fun each stop => rest (fun b member => (each b member).imp (.tail _) (.tail _)) stop)
      exact ⟨rfl, rfl⟩

theorem intercalate_read (text : α → List Char) (ends : List Char → Prop)
    (each : ∀ a ∈ l, ∀ a' ∈ l', ∀ r r', ends r → ends r' → text a ++ r = text a' ++ r' → a = a' ∧ r = r')
    (goes : ∀ a, a ∈ l ∨ a ∈ l' → ∀ r, ends (sep ++ (text a ++ r))) (some : l ≠ []) (some' : l' ≠ [])
    (stop : ends r) (stop' : ends r') (last : ¬ sep <+: r) (last' : ¬ sep <+: r')
    (same : sep.intercalate (l.map text) ++ r = sep.intercalate (l'.map text) ++ r') : l = l' ∧ r = r' := by
  -- With a separator in front both lists are pieces with a separator before each.
  have front {m : List α} (some : m ≠ []) : m.flatMap (sep ++ text ·) = sep ++ sep.intercalate (m.map text) := by
    cases m with
    | nil => exact absurd rfl some
    | cons a m => simp [intercalate_cons_eq, List.flatMap_map]
  refine pieces_read each goes stop stop' last last' ?_
  rw [front some, front some', List.append_assoc, List.append_assoc, same]

end

section
variable {hidden : Char → Bool} {l l' : List Tree} {r r' : List Char}

def Role.listed : Role → Bool
  | .type | .expression | .initializer | .ordering => true
  | .operand | .clause | .query => false

theorem listChars_read (role : Role) (listed : role.listed = true) (each : ∀ t ∈ l, Read hidden role t)
    (takes : ∀ t ∈ l, role.takes t.kind = true ∧ t.Legible) (takes' : ∀ t ∈ l', role.takes t.kind = true ∧ t.Legible)
    (some : l ≠ []) (some' : l' ≠ []) (stop : role.Ends r) (stop' : role.Ends r') (last : ∀ q, r ≠ ',' :: q)
    (last' : ∀ q, r' ≠ ',' :: q) (same : listChars hidden l ++ r = listChars hidden l' ++ r') :
    l = l' ∧ r = r' := by
  have goes (q : List Char) : role.Ends ([',', ' '] ++ q) := by
    cases role <;> simp [Role.listed] at listed <;> simp [Role.Ends, Closes]
  have written (t : Tree) : role.chars hidden t = t.exprChars hidden := by
    cases role <;> simp [Role.listed] at listed <;> rfl
  have apart {r : List Char} (last : ∀ q, r ≠ ',' :: q) : ¬ [',', ' '] <+: r := by
    rintro ⟨q, rfl⟩
    exact last _ rfl
  refine intercalate_read (exprChars hidden) role.Ends ?_ (fun t _ q => goes _) some some' stop stop' (apart last)
    (apart last') same
  intro t member t' member' r r' stop stop' same
  rw [← written, ← written] at same
  exact each t member (takes t member).1 (takes t member).2 (takes' t' member').1 (takes' t' member').2 stop stop' same

theorem typeArgsChars_read (each : ∀ t ∈ l, Read hidden .type t) (types : ∀ t ∈ l, At .type t)
    (types' : ∀ t ∈ l', At .type t) (stop : ∀ q, r ≠ '<' :: q) (stop' : ∀ q, r' ≠ '<' :: q)
    (same : typeArgsChars hidden l ++ r = typeArgsChars hidden l' ++ r') : l = l' ∧ r = r' := by
  cases l with
  | nil =>
    cases l' with
    | nil => exact ⟨rfl, same⟩
    | cons t' l' => exact absurd same (stop _)
  | cons t l =>
    cases l' with
    | nil => exact absurd same.symm (stop' _)
    | cons t' l' =>
      simp only [typeArgsChars, List.cons_append, List.append_assoc, List.cons.injEq, true_and] at same
      obtain ⟨lists, rest⟩ := listChars_read .type rfl each types types' (by simp) (by simp) (by simp [Role.Ends])
        (by simp [Role.Ends]) (by simp) (by simp) same
      cases rest
      exact ⟨lists, rfl⟩

end

/-! ### Brackets -/

def Opens (w : List Char) : Prop := ∃ c q, w = c :: q ∧ c ≠ ')' ∧ c ≠ '\x7d'

section
variable {hidden : Char → Bool}

theorem Opens.append {w : List Char} (opens : Opens w) (q : List Char) : Opens (w ++ q) := by
  obtain ⟨c, w, rfl, other⟩ := opens
  exact ⟨c, w ++ q, rfl, other⟩

theorem Opens.ne {w r r' : List Char} (opens : Opens w) : w ++ r ≠ ')' :: r' ∧ w ++ r ≠ '\x7d' :: r' := by
  obtain ⟨c, w, rfl, other, other'⟩ := opens
  exact ⟨fun is => other (List.head_eq_of_cons_eq is), fun is => other' (List.head_eq_of_cons_eq is)⟩

theorem opens_name {x : String} (plain : Plain x) : Opens x.toList := by
  obtain ⟨c, w, letters, start⟩ := plain.exists_cons
  refine ⟨c, w, letters, ?_, ?_⟩ <;> rintro rfl <;> cases start

theorem opens_literal (value : Literal String) : Opens (value.print hidden).toList := by
  have begins := value.begins_print hidden []
  rw [List.append_nil] at begins
  cases text : (value.print hidden).toList with
  | nil =>
    rw [text] at begins
    cases begins
  | cons c w =>
    rw [text] at begins
    refine ⟨c, w, rfl, ?_, ?_⟩ <;> rintro rfl <;> cases begins

theorem operandChars_node (k : Kind String Tree) : operandChars hidden (.node () k) =
    if k.isQuery || isBinary k then '(' :: (layerChars hidden k ++ [')']) else layerChars hidden k := by
  rw [operandChars_eq, chars_node]
  rfl

theorem exprChars_node (k : Kind String Tree) : exprChars hidden (.node () k) =
    if k.isQuery then '(' :: (layerChars hidden k ++ [')']) else layerChars hidden k := by
  rw [exprChars_eq, chars_node]
  rfl

theorem opens_operand {t : Tree} (fits : At .expression t) : Opens (t.operandChars hidden) := by
  induction t using Marked.induction with
  | step m k ih =>
    have layer := fits.2.layer
    rw [operandChars_node]
    cases k with
    | query | binary => exact ⟨'(', _, rfl, by decide, by decide⟩
    | ident x typeArgs => exact (opens_name layer.1).append _
    | member target x typeArgs =>
      exact ((ih target List.mem_cons_self layer.1).append ('.' :: x.toList)).append _
    | call target args =>
      exact ((ih target List.mem_cons_self layer.1).append ('(' :: listChars hidden args)).append _
    | literal value => exact opens_literal value
    | record => exact ⟨'n', _, rfl, by decide, by decide⟩
    | _ => cases fits.1

theorem opens_initializer {t : Tree} (fits : At .initializer t) : Opens (t.exprChars hidden) := by
  obtain ⟨⟨⟩, k⟩ := t
  have layer := fits.2.layer
  have operand (fits : At .expression (.node () k)) : Opens (operandChars hidden (.node () k)) := opens_operand fits
  rw [operandChars_node] at operand
  rw [exprChars_node]
  cases k with
  | query => exact ⟨'(', _, rfl, by decide, by decide⟩
  | binary op left right =>
    exact ((opens_operand layer.1).append (' ' :: op.symbol.toList)).append _
  | named x value => exact ((opens_name layer.1).append [' ', '=', ' ']).append _
  | ident | member | call | literal | record => exact operand fits
  | _ => cases fits.1

end

section
variable {hidden : Char → Bool} {l l' : List Tree} {r r' : List Char}

theorem opens_list (fits : ∀ t ∈ l, At .initializer t) (some : l ≠ []) : Opens (listChars hidden l) := by
  cases l with
  | nil => exact absurd rfl some
  | cons t l =>
    rw [listChars, List.map_cons, intercalate_cons_eq]
    exact (opens_initializer (fits t List.mem_cons_self)).append _

theorem At.initializer {t : Tree} (fits : At .expression t) : At .initializer t := by
  obtain ⟨⟨⟩, k⟩ := t
  refine ⟨?_, fits.2⟩
  cases k with
  | ident | member | call | binary | literal | record | query => rfl
  | _ => cases fits.1

theorem args_read (each : ∀ t ∈ l, Read hidden .expression t) (fits : ∀ t ∈ l, At .expression t)
    (fits' : ∀ t ∈ l', At .expression t) (same : listChars hidden l ++ ')' :: r = listChars hidden l' ++ ')' :: r') :
    l = l' ∧ r = r' := by
  have empty {l : List Tree} {r r' : List Char} (fits : ∀ t ∈ l, At .expression t)
      (same : listChars hidden l ++ r = ')' :: r') : l = [] := by
    by_contra some
    exact (opens_list (fun t member => (fits t member).initializer) some).ne.1 same
  cases l with
  | nil =>
    obtain rfl := empty fits' same.symm
    exact ⟨rfl, List.tail_eq_of_cons_eq same⟩
  | cons t l =>
    cases l' with
    | nil => cases empty fits same
    | cons t' l' =>
      have closes (q : List Char) : Role.Ends .expression (')' :: q) := .inl (by simp)
      obtain ⟨lists, rest⟩ := listChars_read .expression rfl each fits fits' (by simp) (by simp) (closes _) (closes _)
        (by simp) (by simp) same
      exact ⟨lists, List.tail_eq_of_cons_eq rest⟩

theorem initializersChars_read (each : ∀ t ∈ l, Read hidden .initializer t) (fits : ∀ t ∈ l, At .initializer t)
    (fits' : ∀ t ∈ l', At .initializer t)
    (same : initializersChars hidden l ++ r = initializersChars hidden l' ++ r') : l = l' ∧ r = r' := by
  cases l with
  | nil =>
    cases l' with
    | nil => exact ⟨rfl, List.tail_eq_of_cons_eq same⟩
    | cons t' l' =>
      rw [initializersChars, initializersChars, List.append_assoc] at same
      · exact absurd same.symm (opens_list fits' (by simp)).ne.2
      · simp
  | cons t l =>
    cases l' with
    | nil =>
      rw [initializersChars, initializersChars, List.append_assoc] at same
      · exact absurd same (opens_list fits (by simp)).ne.2
      · simp
    | cons t' l' =>
      simp only [initializersChars, List.append_assoc, List.cons_append, List.nil_append] at same
      have closes (q : List Char) : Role.Ends .initializer (' ' :: '\x7d' :: q) := .inr ⟨_, _, rfl, .inr rfl⟩
      obtain ⟨lists, rest⟩ := listChars_read .initializer rfl each fits fits' (by simp) (by simp) (closes _)
        (closes _) (by simp) (by simp) same
      cases rest
      exact ⟨lists, rfl⟩

end

/-! ### Accesses and calls -/

section
variable {hidden : Char → Bool} {allowed : List Char} {l l' : List Tree} {r r' : List Char}

theorem follows_typeArgs (l : List Tree) (stop : Follows allowed r) :
    Follows ('<' :: allowed) (typeArgsChars hidden l ++ r) := by
  cases l with
  | nil => exact stop.mono (by simp)
  | cons t l => simp [typeArgsChars]

theorem applied_read {x x' : String} (plain : Plain x) (plain' : Plain x') (each : ∀ t ∈ l, Read hidden .type t)
    (types : ∀ t ∈ l, At .type t) (types' : ∀ t ∈ l', At .type t)
    (outside : ('<' :: allowed).all (!isWordPart ·) = true) (other : '<' ∉ allowed) (stop : Follows allowed r)
    (stop' : Follows allowed r')
    (same : x.toList ++ (typeArgsChars hidden l ++ r) = x'.toList ++ (typeArgsChars hidden l' ++ r')) :
    x = x' ∧ l = l' ∧ r = r' := by
  obtain ⟨rfl, rest⟩ := plain.read plain' outside (follows_typeArgs l stop) (follows_typeArgs l' stop') same
  exact ⟨rfl, typeArgsChars_read each types types' (stop.ne other) (stop'.ne other) rest⟩

end

inductive Suffix where
  | access (x : String) (typeArgs : List Tree)
  | invoke (args : List Tree)

namespace Suffix

def onto (target : Tree) : Suffix → Tree
  | .access x typeArgs => .node () (.member target x typeArgs)
  | .invoke args => .node () (.call target args)

def parts : Suffix → List Tree
  | .access _ l | .invoke l => l

def chars (hidden : Char → Bool) : Suffix → List Char
  | .access x typeArgs => '.' :: (x.toList ++ typeArgsChars hidden typeArgs)
  | .invoke args => '(' :: (listChars hidden args ++ [')'])

def Legible : Suffix → Prop
  | .access x typeArgs => Plain x ∧ ∀ c ∈ typeArgs, At .type c
  | .invoke args => ∀ c ∈ args, At .expression c

variable (hidden : Char → Bool)

theorem operandChars_onto (target : Tree) (a : Suffix) :
    (a.onto target).operandChars hidden = target.operandChars hidden ++ a.chars hidden := by
  cases a <;> simp [onto, operandChars_node, Kind.isQuery, isBinary, layerChars, chars]

theorem operandChars_foldl (target : Tree) (suffixes : List Suffix) :
    (suffixes.foldl onto target).operandChars hidden =
      target.operandChars hidden ++ suffixes.flatMap (chars hidden) := by
  induction suffixes generalizing target with
  | nil => simp
  | cons a suffixes ih => simp [ih, operandChars_onto]

/-- What follows a suffix or the head of an operand is no letter and no type argument. -/
theorem follows_suffixes {r : List Char} (suffixes : List Suffix) (stop : Follows [' ', ')', ','] r) :
    Follows [' ', ')', ',', '.', '('] (suffixes.flatMap (chars hidden) ++ r) := by
  cases suffixes with
  | nil => exact stop.mono (by simp)
  | cons a suffixes => cases a <;> simp [chars]

variable {hidden}

theorem suffixes_read {suffixes suffixes' : List Suffix} {r r' : List Char}
    (each : ∀ a ∈ suffixes, ∀ u ∈ a.parts, ∀ role, Read hidden role u) (legible : ∀ a ∈ suffixes, a.Legible)
    (legible' : ∀ a ∈ suffixes', a.Legible) (stop : Follows [' ', ')', ','] r) (stop' : Follows [' ', ')', ','] r')
    (same : suffixes.flatMap (chars hidden) ++ r = suffixes'.flatMap (chars hidden) ++ r') :
    suffixes = suffixes' ∧ r = r' := by
  induction suffixes generalizing suffixes' with
  | nil =>
    cases suffixes' with
    | nil => exact ⟨rfl, same⟩
    | cons a' suffixes' =>
      rw [List.flatMap_nil, List.nil_append] at same
      subst same
      cases a' <;> simp [chars] at stop
  | cons a suffixes ih =>
    obtain ⟨here, below⟩ := List.forall_mem_cons.mp legible
    cases suffixes' with
    | nil =>
      rw [List.flatMap_nil, List.nil_append] at same
      subst same
      cases a <;> simp [chars] at stop'
    | cons a' suffixes' =>
      obtain ⟨here', below'⟩ := List.forall_mem_cons.mp legible'
      have rest := follows_suffixes hidden suffixes stop
      have rest' := follows_suffixes hidden suffixes' stop'
      have parts := fun u member => each a List.mem_cons_self u member
      have ih := fun same => ih (fun a member => each a (.tail _ member)) below below' same
      -- A point or a parenthesis tells which of the two it is.
      cases a with
      | access x typeArgs =>
        cases a' with
        | access x' typeArgs' =>
          simp only [List.flatMap_cons, chars, List.cons_append, List.append_assoc, List.cons.injEq, true_and] at same
          obtain ⟨rfl, rfl, same'⟩ := applied_read here.1 here'.1 (fun u member => parts u member .type) here.2 here'.2
            (by decide) (by decide) rest rest' same
          obtain ⟨rfl, rfl⟩ := ih same'
          exact ⟨rfl, rfl⟩
        | invoke args' => simp [chars] at same
      | invoke args =>
        cases a' with
        | access x' typeArgs' => simp [chars] at same
        | invoke args' =>
          simp only [List.flatMap_cons, chars, List.cons_append, List.append_assoc, List.cons.injEq, true_and,
            List.nil_append] at same
          obtain ⟨rfl, same'⟩ := args_read (fun u member => parts u member .expression) here here' same
          obtain ⟨rfl, rfl⟩ := ih same'
          exact ⟨rfl, rfl⟩

end Suffix

end Tree

end Comprehension
