import Comprehension.Proofs.Interning
import Comprehension.Proofs.Recognition

/-! Runs of interning. However many texts a table has been asked for, and however often, its names are the
numbers up to its size, in the order in which their texts came first, and a name keeps its text for good.
So to compare two names of a table is to compare their texts. -/

set_option autoImplicit false

namespace Comprehension.NameTable

def internAll (t : NameTable) : List String → List Name × NameTable
  | [] => ([], t)
  | text :: texts =>
    ((t.intern text).1 :: ((t.intern text).2.internAll texts).1, ((t.intern text).2.internAll texts).2)

variable {t : NameTable} {text : String}

theorem Consistent.nodup (consistent : Consistent t) : t.texts.toList.Nodup := by
  rw [List.nodup_iff_injective_get]
  intro i j same
  have first : t.numbers[t.texts.toList.get i]? = some ⟨i⟩ := (consistent _ ⟨i⟩).mpr (by simp)
  have second : t.numbers[t.texts.toList.get j]? = some ⟨j⟩ := (consistent _ ⟨j⟩).mpr (by simp)
  rw [same, second] at first
  exact Fin.ext (congrArg Name.index (Option.some.inj first)).symm

theorem eraseDups_concat {α : Type} [DecidableEq α] (l : List α) (a : α) :
    (l ++ [a]).eraseDups = if a ∈ l then l.eraseDups else l.eraseDups ++ [a] := by
  rw [List.eraseDups_append]
  by_cases there : a ∈ l <;> simp [List.removeAll, there, List.eraseDups_cons]

/-! ### One call after the other -/

/-- A table in which texts have been interned in this order, and the names that were given for them. -/
structure Numbers (texts : List String) (names : List Name) (t : NameTable) : Prop where
  consistent : Consistent t
  texts_eq : t.texts.toList = ("" :: texts).eraseDups
  names_eq : (Name.empty :: names).eraseDups = (List.range t.size).map Name.mk
  lookup_eq : names.map t.lookup = texts

namespace Numbers

variable {texts : List String} {names : List Name}

theorem new : Numbers [] [] NameTable.new := ⟨consistent_new, rfl, rfl, rfl⟩

theorem mem_texts (run : Numbers texts names t) : text ∈ t.texts.toList ↔ text ∈ "" :: texts := by
  rw [run.texts_eq, List.mem_eraseDups]

theorem mem_names (run : Numbers texts names t) {n : Name} : n ∈ Name.empty :: names ↔ n.index < t.size := by
  rw [← List.mem_eraseDups, run.names_eq, List.mem_map]
  constructor
  · rintro ⟨i, low, rfl⟩
    exact List.mem_range.mp low
  · intro low
    exact ⟨n.index, List.mem_range.mpr low, rfl⟩

theorem intern (run : Numbers texts names t) (text : String) :
    Numbers (texts ++ [text]) (names ++ [(t.intern text).1]) (t.intern text).2 := by
  have consistent := run.consistent.intern text
  by_cases there : text ∈ t.texts.toList
  · -- A known text keeps its name, and the table stays as it is.
    obtain ⟨i, place⟩ := List.mem_iff_getElem?.mp there
    rw [Array.getElem?_toList] at place
    have known : t.intern text = (⟨i⟩, t) := run.consistent.intern_eq (n := ⟨i⟩) place
    have inUse : ⟨i⟩ ∈ Name.empty :: names := run.mem_names.mpr (Array.getElem?_eq_some_iff.mp place).1
    rw [known] at consistent ⊢
    refine ⟨consistent, ?_, ?_, ?_⟩
    · rw [← List.cons_append, eraseDups_concat, if_pos (run.mem_texts.mp there), run.texts_eq]
    · rw [← List.cons_append, eraseDups_concat, if_pos inUse, run.names_eq]
    · rw [List.map_append, run.lookup_eq, List.map_singleton, lookup, place, Option.getD_some]
  · -- A new text goes to the end of the table, and its name is the next number.
    obtain ⟨number, grown⟩ := run.consistent.intern_new there
    have size : (t.intern text).2.size = t.size + 1 := by
      have length := congrArg List.length grown
      simpa [NameTable.size] using length
    have later {n : Name} (old : n.index < t.size) : (t.intern text).2.lookup n = t.lookup n := by
      rw [lookup, lookup, ← Array.getElem?_toList, grown,
        List.getElem?_append_left (by simpa [NameTable.size] using old), Array.getElem?_toList]
    have last : (t.intern text).2.lookup ⟨t.size⟩ = text := by
      rw [lookup, ← Array.getElem?_toList, grown]
      simp [NameTable.size]
    have unused : (t.intern text).1 ∉ Name.empty :: names := by
      rw [run.mem_names, number]
      exact Nat.lt_irrefl t.size
    have given : names.map (t.intern text).2.lookup = names.map t.lookup :=
      List.map_congr_left fun n member => later (run.mem_names.mp (List.mem_cons_of_mem _ member))
    refine ⟨consistent, ?_, ?_, ?_⟩
    · rw [grown, ← List.cons_append, eraseDups_concat, if_neg (mt run.mem_texts.mpr there), run.texts_eq]
    · rw [← List.cons_append, eraseDups_concat, if_neg unused, run.names_eq, size, List.range_succ, number,
        List.map_append, List.map_singleton]
    · rw [List.map_append, given, run.lookup_eq, List.map_singleton, number, last]

theorem internAll (run : Numbers texts names t) (more : List String) :
    Numbers (texts ++ more) (names ++ (t.internAll more).1) (t.internAll more).2 := by
  induction more generalizing texts names t with
  | nil => simpa [NameTable.internAll] using run
  | cons text more ih =>
    have rest := ih (run.intern text)
    rwa [List.append_assoc, List.append_assoc] at rest

theorem first_text (run : Numbers texts names t) : t.texts[Name.empty.index]? = some "" := by
  rw [← Array.getElem?_toList, run.texts_eq, List.eraseDups_cons]
  rfl

theorem lookup_of_not_mem (run : Numbers texts names t) {n : Name} (unused : n ∉ names) : t.lookup n = "" := by
  by_cases first : n = Name.empty
  · rw [first, lookup, run.first_text, Option.getD_some]
  · have beyond : ¬ n.index < t.size := fun old => by
      rcases List.mem_cons.mp (run.mem_names.mpr old) with is | member
      · exact first is
      · exact unused member
    rw [lookup, Array.getElem?_eq_none (Nat.le_of_not_lt beyond), Option.getD_none]

theorem text_later (run : Numbers texts names t) {more : List String} {names' : List Name} {t' : NameTable}
    (after : Numbers (texts ++ more) names' t') {i : Nat} (place : t.texts[i]? = some text) :
    t'.texts[i]? = some text := by
  have grown : t'.texts.toList = t.texts.toList ++ (more.removeAll ("" :: texts)).eraseDups := by
    rw [after.texts_eq, run.texts_eq, ← List.cons_append, List.eraseDups_append]
  have inside : i < t.texts.toList.length := by simpa using (Array.getElem?_eq_some_iff.mp place).1
  rw [← Array.getElem?_toList, grown, List.getElem?_append_left inside, Array.getElem?_toList, place]

theorem lookup_later (run : Numbers texts names t) {more : List String} {names' : List Name} {t' : NameTable}
    (after : Numbers (texts ++ more) names' t') {n : Name} (inUse : n.index < t.size) :
    t'.lookup n = t.lookup n := by
  have place := Array.getElem?_eq_getElem inUse
  rw [lookup, lookup, run.text_later after place, place]

theorem eq_iff (run : Numbers texts names t) {x y : Name} (inUse : x.index < t.size) (inUse' : y.index < t.size) :
    x = y ↔ t.lookup x = t.lookup y :=
  ⟨congrArg t.lookup, run.consistent.lookup_injective inUse inUse'⟩

/-- Two calls give the same name exactly if they ask for the same text. -/
theorem getElem?_eq_iff (run : Numbers texts names t) (i j : Nat) :
    names[i]? = names[j]? ↔ texts[i]? = texts[j]? := by
  have inUse {i : Nat} {x : Name} (given : names[i]? = some x) : x.index < t.size :=
    run.mem_names.mp (List.mem_cons_of_mem _ (List.mem_of_getElem? given))
  rw [← run.lookup_eq, List.getElem?_map, List.getElem?_map]
  cases first : names[i]? with
  | none => cases names[j]? <;> simp
  | some x =>
    cases second : names[j]? with
    | none => simp
    | some y => simpa using run.eq_iff (inUse first) (inUse second)

theorem intern_later (run : Numbers texts names t) {more : List String} {names' : List Name} {t' : NameTable}
    (after : Numbers (texts ++ more) names' t') (known : text ∈ "" :: texts) :
    t'.intern text = ((t.intern text).1, t') := by
  obtain ⟨i, place⟩ := List.mem_iff_getElem?.mp (run.mem_texts.mpr known)
  rw [Array.getElem?_toList] at place
  rw [after.consistent.intern_eq (n := ⟨i⟩) (run.text_later after place), run.consistent.intern_eq (n := ⟨i⟩) place]

end Numbers

open Normalize in
/-- The tests for a binding under its own name compare numbers. In a table they compare texts. -/
theorem Numbers.tests_eq {texts : List String} {names : List Name} (run : Numbers texts names t) {x y : Name}
    (inUse : x.index < t.size) (inUse' : y.index < t.size) {s : Store} {initializer value : NodeId}
    {typeArgs : List NodeId} (named : s.kind? initializer = some (.named x value))
    (ident : s.kind? value = some (.ident y typeArgs)) (span : Span) :
    isReexport s initializer = .ok (decide (t.lookup x = t.lookup y)) ∧
      bindingName (some x) value ⟨.ident y typeArgs, span⟩ =
        .ok (if t.lookup x = t.lookup y then none else some x) := by
  have same : x = y ↔ t.lookup x = t.lookup y := run.eq_iff inUse inUse'
  refine ⟨?_, by simp only [bindingName, same]⟩
  rw [isReexport_eq named ident, decide_eq_decide.mpr same]

open Normalize in
/-- After any run of interning the numbers of texts and the texts of numbers determine each other. The
table has every text once, in the order in which they came first, and the empty one before all of them;
the names that were given are the numbers below its size, in the same order. Two calls gave the same name
exactly if they asked for the same text. Whatever is interned afterwards, the names keep their texts and
the texts their names, to ask again for a known text changes nothing, and a name that was not given stands
for the empty text. So the tests that compare names of a table agree with those that compare their texts.
Numbers do not run out before all of them are taken. -/
theorem internAll_bijection (texts more : List String) :
    let names := (new.internAll texts).1
    let table := (new.internAll texts).2
    let later := (table.internAll more).2
    (∀ (text : String) (n : Name), table.numbers[text]? = some n ↔ table.texts[n.index]? = some text) ∧
      table.texts.toList.Nodup ∧ table.texts[Name.empty.index]? = some "" ∧
      table.texts.toList = ("" :: texts).eraseDups ∧
      (Name.empty :: names).eraseDups = (List.range table.size).map Name.mk ∧
      (∀ i j : Nat, names[i]? = names[j]? ↔ texts[i]? = texts[j]?) ∧
      names.map later.lookup = texts ∧ (∀ n ∉ names, table.lookup n = "") ∧
      (∀ text ∈ "" :: texts, later.intern text = ((table.intern text).1, later)) ∧
      (∀ x ∈ Name.empty :: names, ∀ y ∈ Name.empty :: names,
        (x = y ↔ table.lookup x = table.lookup y) ∧
        ((NamePattern.exactly (table.lookup y)).accepts (table.lookup x) = true ↔ x = y) ∧
        ∀ (s : Store) (initializer value : NodeId) (typeArgs : List NodeId) (span : Span),
          s.kind? initializer = some (.named x value) → s.kind? value = some (.ident y typeArgs) →
            isReexport s initializer = .ok (decide (table.lookup x = table.lookup y)) ∧
              bindingName (some x) value ⟨.ident y typeArgs, span⟩ =
                .ok (if table.lookup x = table.lookup y then none else some x)) ∧
      ∀ text, table.size ≤ maxIndex → table.tryIntern text = .ok (table.intern text) := by
  intro names table later
  have run : Numbers texts names table := Numbers.new.internAll texts
  have after : Numbers (texts ++ more) (names ++ (table.internAll more).1) later := run.internAll more
  refine ⟨run.consistent, run.consistent.nodup, run.first_text, run.texts_eq, run.names_eq, run.getElem?_eq_iff,
    ?_, fun n unused => run.lookup_of_not_mem unused, fun text known => run.intern_later after known, ?_, ?_⟩
  · have kept : names.map later.lookup = names.map table.lookup :=
      List.map_congr_left fun n member =>
        run.lookup_later after (run.mem_names.mp (List.mem_cons_of_mem _ member))
    rw [kept, run.lookup_eq]
  · intro x first y second
    have same : x = y ↔ table.lookup x = table.lookup y :=
      run.eq_iff (run.mem_names.mp first) (run.mem_names.mp second)
    refine ⟨same, by simp [NamePattern.accepts, same], fun s initializer value typeArgs span named ident => ?_⟩
    exact run.tests_eq (run.mem_names.mp first) (run.mem_names.mp second) named ident span
  · intro text low
    rw [tryIntern, if_neg fun full => Nat.not_lt_of_le low full.2]

end Comprehension.NameTable
