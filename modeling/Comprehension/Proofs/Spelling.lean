import Comprehension.Tree.Printer
import Mathlib.Data.Nat.Init
import Mathlib.Tactic.SplitIfs
import Std.Data.String.ToInt

/-! The smallest parts of a text: words, numbers, quoted texts and operators. Each of them can be told from what
follows it, so that two texts that begin with such a part and are the same begin with the same part. -/

set_option autoImplicit false

namespace Comprehension

/-! ### Runs of characters -/

def Follows (allowed : List Char) (r : List Char) : Prop := ∀ c ∈ r.head?, c ∈ allowed

section
variable {allowed : List Char} {c : Char} {r r' w w' : List Char}

@[simp] theorem follows_nil : Follows allowed [] := fun _ is => by cases is

@[simp] theorem follows_cons : Follows allowed (c :: r) ↔ c ∈ allowed := by simp [Follows]

theorem Follows.mono {allowed' : List Char} (follows : Follows allowed r) (more : allowed ⊆ allowed') :
    Follows allowed' r := fun c is => more (follows c is)

theorem Follows.ne (follows : Follows allowed r) (other : c ∉ allowed) (q : List Char) : r ≠ c :: q := by
  rintro rfl
  exact other (follows_cons.mp follows)

/-- A run of characters of one class ends where the class ends. -/
theorem run_unique {p : Char → Bool} (run : ∀ c ∈ w, p c = true) (run' : ∀ c ∈ w', p c = true)
    (stop : ∀ c ∈ r.head?, p c = false) (stop' : ∀ c ∈ r'.head?, p c = false) (same : w ++ r = w' ++ r') :
    w = w' ∧ r = r' := by
  have nothing {r : List Char} (stop : ∀ c ∈ r.head?, p c = false) : r.takeWhile p = [] := by
    cases r with
    | nil => rfl
    | cons c r => simp [stop c rfl]
  have runs := congrArg (List.takeWhile p) same
  rw [List.takeWhile_append_of_pos run, List.takeWhile_append_of_pos run', nothing stop, nothing stop',
    List.append_nil, List.append_nil] at runs
  subst runs
  exact ⟨rfl, List.append_cancel_left same⟩

theorem run_unique_of_follows {p : Char → Bool} (run : ∀ c ∈ w, p c = true) (run' : ∀ c ∈ w', p c = true)
    (outside : allowed.all (!p ·) = true) (stop : Follows allowed r) (stop' : Follows allowed r')
    (same : w ++ r = w' ++ r') : w = w' ∧ r = r' := by
  have ends {r : List Char} (stop : Follows allowed r) : ∀ c ∈ r.head?, p c = false := by
    intro c is
    simpa using List.all_eq_true.mp outside c (stop c is)
  exact run_unique run run' (ends stop) (ends stop') same

end

/-! ### Words -/

def isWordStart (c : Char) : Bool := c.isAlpha || c == '_'

def isWordPart (c : Char) : Bool := c.isAlphanum || c == '_'

def reserved : List String := ["from", "in", "let", "where", "orderby", "descending", "group", "by", "select",
  "into", "new", "true", "false", "null"]

structure Plain (x : String) : Prop where
  start : x.toList.head?.any isWordStart = true
  run : x.toList.all isWordPart = true
  free : x ∉ reserved

instance (x : String) : Decidable (Plain x) :=
  decidable_of_iff (x.toList.head?.any isWordStart = true ∧ x.toList.all isWordPart = true ∧ x ∉ reserved)
    ⟨fun ⟨start, run, free⟩ => ⟨start, run, free⟩, fun plain => ⟨plain.start, plain.run, plain.free⟩⟩

namespace Plain

variable {allowed : List Char} {x x' : String} {r r' : List Char}

theorem exists_cons (plain : Plain x) : ∃ c w, x.toList = c :: w ∧ isWordStart c = true := by
  have start := plain.start
  cases letters : x.toList with
  | nil => simp [letters] at start
  | cons c w => exact ⟨c, w, rfl, by simpa [letters] using start⟩

theorem ne_cons (plain : Plain x) {c : Char} (other : isWordStart c = false) (q r : List Char) :
    x.toList ++ q ≠ c :: r := by
  obtain ⟨d, w, letters, start⟩ := plain.exists_cons
  rw [letters]
  intro same
  rw [List.head_eq_of_cons_eq same, other] at start
  cases start

theorem read (plain : Plain x) (plain' : Plain x') (outside : allowed.all (!isWordPart ·) = true)
    (stop : Follows allowed r) (stop' : Follows allowed r') (same : x.toList ++ r = x'.toList ++ r') :
    x = x' ∧ r = r' := by
  obtain ⟨letters, rfl⟩ := run_unique_of_follows (List.all_eq_true.mp plain.run) (List.all_eq_true.mp plain'.run)
    outside stop stop' same
  exact ⟨String.toList_inj.mp letters, rfl⟩

theorem ne_reserved (plain : Plain x) {w : String} (word : w ∈ reserved)
    (outside : allowed.all (!isWordPart ·) = true) (stop : Follows allowed r) (stop' : Follows allowed r') :
    x.toList ++ r ≠ w.toList ++ r' := by
  intro same
  have run : ∀ w ∈ reserved, w.toList.all isWordPart = true := by decide
  obtain ⟨letters, -⟩ := run_unique_of_follows (List.all_eq_true.mp plain.run) (List.all_eq_true.mp (run w word))
    outside stop stop' same
  rw [String.toList_inj.mp letters] at plain
  exact plain.free word

end Plain

/-! ### Operators and numbers -/

section
variable {r r' : List Char}

theorem BinaryOp.symbol_injective {op op' : BinaryOp} (same : op.symbol = op'.symbol) : op = op' := by
  cases op <;> cases op' <;> simp_all [symbol]

theorem BinaryOp.read {op op' : BinaryOp}
    (same : op.symbol.toList ++ ' ' :: r = op'.symbol.toList ++ ' ' :: r') : op = op' ∧ r = r' := by
  have run (op : BinaryOp) : ∀ c ∈ op.symbol.toList, (c != ' ') = true := by
    cases op <;> simp [symbol]
  obtain ⟨symbols, rest⟩ := run_unique (run op) (run op') (by simp) (by simp) same
  exact ⟨symbol_injective (String.toList_inj.mp symbols), List.tail_eq_of_cons_eq rest⟩

def isNumberPart (c : Char) : Bool := c.isDigit || c == '-'

theorem isWordStart_of_isNumberPart {c : Char} (digit : isNumberPart c = true) : isWordStart c = false := by
  simp only [isNumberPart, Bool.or_eq_true, beq_iff_eq] at digit
  rcases digit with digit | rfl
  · simp only [Char.isDigit, Bool.and_eq_true, decide_eq_true_eq, UInt32.le_iff_toNat_le] at digit
    have nine : '9'.val.toNat = 57 := rfl
    have capital : 'A'.val.toNat = 65 := rfl
    have small : 'a'.val.toNat = 97 := rfl
    have other : c ≠ '_' := by
      rintro rfl
      simp at digit
    have alpha : c.isAlpha =
        (decide ('A'.val ≤ c.val ∧ c.val ≤ 'Z'.val) || decide ('a'.val ≤ c.val) && decide (c.val ≤ 'z'.val)) := rfl
    simp only [isWordStart, alpha, beq_eq_false_iff_ne.mpr other, Bool.or_false, Bool.or_eq_false_iff,
      Bool.and_eq_false_iff, decide_eq_false_iff_not, UInt32.le_iff_toNat_le]
    omega
  · rfl

theorem int_run (n : Int) : ∀ c ∈ (toString n).toList, isNumberPart c = true := by
  have digits (n : Nat) : ∀ c ∈ n.repr.toList, isNumberPart c = true := by
    intro c member
    rw [Nat.repr_eq_ofList_toDigits, String.toList_ofList] at member
    simp [isNumberPart, Nat.isDigit_of_mem_toDigits (by decide) (by decide) member]
  intro c member
  rw [Int.toString_eq_repr, Int.repr_eq_if] at member
  split at member
  · exact digits _ c member
  · rw [String.toList_append] at member
    obtain minus | digit := List.mem_append.mp member
    · rw [List.mem_singleton.mp minus]
      rfl
    · exact digits _ c digit

theorem int_start (n : Int) : ∃ c w, (toString n).toList = c :: w ∧ isNumberPart c = true := by
  have run := int_run n
  cases letters : (toString n).toList with
  | nil =>
    rw [Int.toString_eq_repr, Int.repr_eq_if] at letters
    split at letters
    · rw [Nat.repr_eq_ofList_toDigits, String.toList_ofList] at letters
      exact absurd letters Nat.toDigits_ne_nil
    · simp at letters
  | cons c w =>
    rw [letters] at run
    exact ⟨c, w, rfl, run c List.mem_cons_self⟩

theorem int_read {n n' : Int} {allowed : List Char} (outside : allowed.all (!isNumberPart ·) = true)
    (stop : Follows allowed r) (stop' : Follows allowed r')
    (same : (toString n).toList ++ r = (toString n').toList ++ r') : n = n' ∧ r = r' := by
  obtain ⟨letters, rfl⟩ := run_unique_of_follows (int_run n) (int_run n') outside stop stop' same
  refine ⟨Int.repr_injective ?_, rfl⟩
  rw [← Int.toString_eq_repr, ← Int.toString_eq_repr]
  exact String.toList_inj.mp letters

end

theorem Plain.ne_int {x : String} (plain : Plain x) (n : Int) (q r : List Char) :
    x.toList ++ q ≠ (toString n).toList ++ r := by
  obtain ⟨c, w, letters, digit⟩ := int_start n
  rw [letters]
  exact plain.ne_cons (isWordStart_of_isNumberPart digit) q _

/-! ### Quoted texts -/

namespace Text

section
variable {n n' : Nat} {r r' : List Char}

def hexDigits : List Char :=
  ['0', '1', '2', '3', '4', '5', '6', '7', '8', '9', 'a', 'b', 'c', 'd', 'e', 'f']

theorem digitChar_mem (bound : n < 16) : n.digitChar ∈ hexDigits := by
  have known : ∀ n : Fin 16, n.val.digitChar ∈ hexDigits := by decide
  exact known ⟨n, bound⟩

theorem digitChar_injective (bound : n < 16) (bound' : n' < 16) (same : n.digitChar = n'.digitChar) : n = n' := by
  have known : ∀ n n' : Fin 16, n.val.digitChar = n'.val.digitChar → n.val = n'.val := by decide
  exact known ⟨n, bound⟩ ⟨n', bound'⟩ same

theorem mem_hexDigits (n : Nat) : ∀ c ∈ Nat.toDigits 16 n, c ∈ hexDigits := by
  induction n using Nat.strong_induction_on with
  | h n ih =>
    intro c member
    by_cases bound : n < 16
    · rw [Nat.toDigits_of_lt_base bound, List.mem_singleton] at member
      rw [member]
      exact digitChar_mem bound
    · rw [Nat.toDigits_of_base_le (by decide) (Nat.le_of_not_lt bound)] at member
      obtain high | low := List.mem_append.mp member
      · exact ih (n / 16) (by omega) c high
      · rw [List.mem_singleton.mp low]
        exact digitChar_mem (Nat.mod_lt _ (by decide))

theorem toDigits_eq_concat (n : Nat) :
    ∃ high, Nat.toDigits 16 n = high ++ [(n % 16).digitChar] ∧
      (high = [] ∧ n < 16 ∨ high = Nat.toDigits 16 (n / 16) ∧ 16 ≤ n) := by
  by_cases bound : n < 16
  · exact ⟨[], by rw [Nat.toDigits_of_lt_base bound, Nat.mod_eq_of_lt bound]; rfl, .inl ⟨rfl, bound⟩⟩
  · have bound := Nat.le_of_not_lt bound
    exact ⟨_, Nat.toDigits_of_base_le (by decide) bound, .inr ⟨rfl, bound⟩⟩

theorem toDigits_injective (same : Nat.toDigits 16 n = Nat.toDigits 16 n') : n = n' := by
  induction n using Nat.strong_induction_on generalizing n' with
  | h n ih =>
    obtain ⟨high, digits, known⟩ := toDigits_eq_concat n
    obtain ⟨high', digits', known'⟩ := toDigits_eq_concat n'
    rw [digits, digits'] at same
    obtain ⟨rfl, last⟩ := List.append_inj' same rfl
    have low : n % 16 = n' % 16 :=
      digitChar_injective (Nat.mod_lt _ (by decide)) (Nat.mod_lt _ (by decide)) (List.head_eq_of_cons_eq last)
    rcases known with ⟨empty, bound⟩ | ⟨rfl, bound⟩
    · rcases known' with ⟨-, bound'⟩ | ⟨digits, bound'⟩
      · omega
      · exact absurd (digits.symm.trans empty) Nat.toDigits_ne_nil
    · rcases known' with ⟨empty, -⟩ | ⟨digits, bound'⟩
      · exact absurd empty Nat.toDigits_ne_nil
      · have rest := ih (n / 16) (by omega) digits
        omega

end

def shortEscapes : List (Char × Char) :=
  [('\x00', '0'), ('\t', 't'), ('\r', 'r'), ('\n', 'n'), ('"', '"'), ('\\', '\\')]

section
variable {hidden : Char → Bool} {c c' : Char} {r r' : List Char}

theorem escapeChar_cases (hidden : Char → Bool) (c : Char) :
    (∃ d, (c, d) ∈ shortEscapes ∧ escapeChar hidden c = ['\\', d]) ∨
      escapeChar hidden c = ['\\', 'u', '\x7b'] ++ Nat.toDigits 16 c.toNat ++ ['\x7d'] ∨
      escapeChar hidden c = [c] ∧ c ≠ '\\' ∧ c ≠ '"' := by
  unfold escapeChar shortEscapes
  split_ifs <;> simp_all

theorem shortEscapes_unique {d : Char} (short : (c, d) ∈ shortEscapes) (short' : (c', d) ∈ shortEscapes) :
    c = c' := by
  have known : ∀ e ∈ shortEscapes, ∀ e' ∈ shortEscapes, e.2 = e'.2 → e.1 = e'.1 := by decide
  exact known _ short _ short' rfl

/-- Code points have an escape of their own. -/
theorem not_mem_shortEscapes (c : Char) : (c, 'u') ∉ shortEscapes := by
  simp [shortEscapes]

/-- The first character of a written text is known from its beginning. -/
theorem escapeChar_read (same : escapeChar hidden c ++ r = escapeChar hidden c' ++ r') : c = c' ∧ r = r' := by
  rcases escapeChar_cases hidden c with ⟨d, short, written⟩ | written | ⟨written, other, -⟩ <;>
    rcases escapeChar_cases hidden c' with ⟨d', short', written'⟩ | written' | ⟨written', other', -⟩ <;>
    rw [written, written'] at same
  · cases same
    exact ⟨shortEscapes_unique short short', rfl⟩
  · cases same
    exact absurd short (not_mem_shortEscapes c)
  · cases same
    exact absurd rfl other'
  · cases same
    exact absurd short' (not_mem_shortEscapes c')
  · have digits : Nat.toDigits 16 c.toNat ++ '\x7d' :: r = Nat.toDigits 16 c'.toNat ++ '\x7d' :: r' := by
      simpa using same
    have run (n : Nat) : ∀ c ∈ Nat.toDigits 16 n, decide (c ∈ hexDigits) = true := by
      simpa using mem_hexDigits n
    obtain ⟨points, rest⟩ := run_unique (run _) (run _) (by simp [hexDigits]) (by simp [hexDigits]) digits
    exact ⟨Char.toNat_inj.mp (toDigits_injective points), List.tail_eq_of_cons_eq rest⟩
  · cases same
    exact absurd rfl other'
  · cases same
    exact absurd rfl other
  · cases same
    exact absurd rfl other
  · cases same
    exact ⟨rfl, rfl⟩

theorem escapeChar_ne_quote (hidden : Char → Bool) (c : Char) (r r' : List Char) :
    escapeChar hidden c ++ r ≠ '"' :: r' := by
  rcases escapeChar_cases hidden c with ⟨d, -, written⟩ | written | ⟨written, -, other⟩ <;> rw [written] <;> simp
  exact fun is => absurd is other

theorem quote_read {x x' : String} (same : (quote hidden x).toList ++ r = (quote hidden x').toList ++ r') :
    x = x' ∧ r = r' := by
  have inside {l l' : List Char} (same : l.flatMap (escapeChar hidden) ++ '"' :: r =
      l'.flatMap (escapeChar hidden) ++ '"' :: r') : l = l' ∧ r = r' := by
    induction l generalizing l' with
    | nil =>
      cases l' with
      | nil => exact ⟨rfl, List.tail_eq_of_cons_eq same⟩
      | cons c l' =>
        rw [List.flatMap_cons, List.append_assoc] at same
        exact absurd same.symm (escapeChar_ne_quote hidden c _ _)
    | cons c l ih =>
      cases l' with
      | nil =>
        rw [List.flatMap_cons, List.append_assoc] at same
        exact absurd same (escapeChar_ne_quote hidden c _ _)
      | cons c' l' =>
        rw [List.flatMap_cons, List.flatMap_cons, List.append_assoc, List.append_assoc] at same
        obtain ⟨rfl, rest⟩ := escapeChar_read same
        obtain ⟨rfl, rfl⟩ := ih rest
        exact ⟨rfl, rfl⟩
  simp only [quote, String.toList_ofList, List.cons_append, List.append_assoc, List.cons.injEq, true_and,
    List.nil_append] at same
  obtain ⟨letters, rfl⟩ := inside same
  exact ⟨String.toList_inj.mp letters, rfl⟩

end

end Text

/-! ### Literals -/

namespace Literal

variable {hidden : Char → Bool} {r r' : List Char}

@[simp] theorem toList_print_int (n : Int) : (print hidden (.int n)).toList = (toString n).toList := rfl

@[simp] theorem toList_print_str (x : String) : (print hidden (.str x)).toList =
    '"' :: (x.toList.flatMap (Text.escapeChar hidden) ++ ['"']) := by
  simp [print, Text.quote]

@[simp] theorem toList_print_bool (b : Bool) : (print hidden (.bool b)).toList =
    if b then ['t', 'r', 'u', 'e'] else ['f', 'a', 'l', 's', 'e'] := by
  cases b <;> simp [print]

@[simp] theorem toList_print_null : (print hidden .null).toList = ['n', 'u', 'l', 'l'] := by
  simp [print]

/-- How literals begin: with a part of a number, a quote, or the first letters of a word. -/
def begins (w : List Char) : Bool :=
  w.head?.any isNumberPart || [['"'], ['t', 'r'], ['f', 'a'], ['n', 'u']].any (·.isPrefixOf w)

variable (hidden) in
theorem begins_print (v : Literal String) (r : List Char) : begins ((v.print hidden).toList ++ r) = true := by
  cases v with
  | int n =>
    obtain ⟨c, w, letters, digit⟩ := int_start n
    rw [toList_print_int, letters]
    simp [begins, digit]
  | str x => simp [begins]
  | bool b => cases b <;> simp [begins]
  | null => simp [begins]

theorem int_ne {n : Int} {v : Literal String} (other : ∀ n', v ≠ .int n') :
    (print hidden (.int n)).toList ++ r ≠ (v.print hidden).toList ++ r' := by
  obtain ⟨c, w, letters, digit⟩ := int_start n
  rw [toList_print_int, letters, List.cons_append]
  have apart {d : Char} (outside : isNumberPart d = false) (w' : List Char) : c :: (w ++ r) ≠ d :: w' := by
    intro same
    rw [List.head_eq_of_cons_eq same, outside] at digit
    cases digit
  cases v with
  | int n' => exact absurd rfl (other n')
  | str x =>
    rw [toList_print_str]
    exact apart (by decide) _
  | bool b =>
    rw [toList_print_bool]
    cases b <;> exact apart (by decide) _
  | null =>
    rw [toList_print_null]
    exact apart (by decide) _

theorem read {v v' : Literal String} {allowed : List Char} (outside : allowed.all (!isNumberPart ·) = true)
    (stop : Follows allowed r) (stop' : Follows allowed r')
    (same : (v.print hidden).toList ++ r = (v'.print hidden).toList ++ r') : v = v' ∧ r = r' := by
  cases v with
  | int n =>
    cases v' with
    | int n' =>
      obtain ⟨rfl, rfl⟩ := int_read outside stop stop' same
      exact ⟨rfl, rfl⟩
    | _ => exact absurd same (int_ne (by simp))
  | str x =>
    cases v' with
    | int n' => exact absurd same.symm (int_ne (by simp))
    | str x' =>
      obtain ⟨rfl, rfl⟩ := Text.quote_read same
      exact ⟨rfl, rfl⟩
    | bool b' => cases b' <;> simp at same
    | null => simp at same
  | bool b =>
    cases v' with
    | int n' => exact absurd same.symm (int_ne (by simp))
    | str x' => cases b <;> simp at same
    | bool b' => cases b <;> cases b' <;> simp at same <;> simp [same]
    | null => cases b <;> simp at same
  | null =>
    cases v' with
    | int n' => exact absurd same.symm (int_ne (by simp))
    | str x' => simp at same
    | bool b' => cases b' <;> simp at same
    | null => simpa using same

end Literal

end Comprehension
