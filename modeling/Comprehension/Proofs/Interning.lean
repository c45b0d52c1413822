import Comprehension.Name
import Mathlib.Data.List.Basic

/-! Tables in which numbers and texts determine each other. All tables that interning makes are of
this kind, so different names in use stand for different texts. -/

set_option autoImplicit false

namespace Comprehension.NameTable

inductive Reachable : NameTable → Prop where
  | new : Reachable new
  | intern {t : NameTable} (before : Reachable t) (text : String) : Reachable (t.intern text).2

variable {t : NameTable}

/-- The number of a text is the place at which the text stands. -/
def Consistent (t : NameTable) : Prop :=
  ∀ (text : String) (n : Name), t.numbers[text]? = some n ↔ t.texts[n.index]? = some text

theorem consistent_new : Consistent new := by
  intro text n
  obtain ⟨i⟩ := n
  by_cases empty : text = ""
  · cases i <;> simp [new, empty, Name.empty]
  · cases i <;> simp [new, Ne.symm empty]

theorem Consistent.intern (before : Consistent t) (text : String) : Consistent (t.intern text).2 := by
  cases known : t.numbers[text]? with
  | some n =>
    rw [intern_known known]
    exact before
  | none =>
    rw [intern_fresh known]
    intro other n
    obtain ⟨i⟩ := n
    have old := before other ⟨i⟩
    simp only [Std.HashMap.getElem?_insert, Array.getElem?_push, beq_iff_eq]
    by_cases same : text = other
    · subst same
      rw [known] at old
      by_cases last : i = t.texts.size
      · simp [last, size]
      · simp [last, ← old, size, Ne.symm last]
    · by_cases last : i = t.texts.size
      · simp [last, same] at old ⊢
        exact old
      · simpa [last, same] using old

theorem Consistent.intern_eq (consistent : Consistent t) {text : String} {n : Name}
    (place : t.texts[n.index]? = some text) : t.intern text = (n, t) :=
  intern_known ((consistent text n).mpr place)

theorem Consistent.intern_new (consistent : Consistent t) {text : String} (absent : text ∉ t.texts.toList) :
    (t.intern text).1 = ⟨t.size⟩ ∧ (t.intern text).2.texts.toList = t.texts.toList ++ [text] := by
  have unknown : t.numbers[text]? = none := by
    refine Option.eq_none_iff_forall_ne_some.mpr fun n known => absent ?_
    exact Array.mem_toList_iff.mpr (Array.mem_of_getElem? ((consistent text n).mp known))
  rw [intern_fresh unknown]
  exact ⟨rfl, Array.toList_push ..⟩

theorem Reachable.consistent (built : Reachable t) : Consistent t := by
  induction built with
  | new => exact consistent_new
  | intern before text ih => exact ih.intern text

/-- Names in use have different texts. -/
theorem Consistent.lookup_injective (consistent : Consistent t) {x y : Name} (inUse : x.index < t.size)
    (inUse' : y.index < t.size) (same : t.lookup x = t.lookup y) : x = y := by
  have first : t.texts[x.index]? = some (t.lookup x) := by
    simp [lookup, Array.getElem?_eq_getElem inUse]
  have second : t.texts[y.index]? = some (t.lookup x) := by
    rw [same]
    simp [lookup, Array.getElem?_eq_getElem inUse']
  have numbers := (consistent _ x).mpr first
  rw [(consistent _ y).mpr second] at numbers
  exact (Option.some.inj numbers).symm

def ofTexts (texts : List String) : NameTable := texts.foldl (fun t text => (t.intern text).2) new

theorem Reachable.foldl (built : Reachable t) (texts : List String) :
    Reachable (texts.foldl (fun t text => (t.intern text).2) t) := by
  induction texts generalizing t with
  | nil => exact built
  | cons text texts ih => exact ih (built.intern text)

theorem reachable_ofTexts (texts : List String) : Reachable (ofTexts texts) := Reachable.new.foldl texts

theorem Reachable.texts_foldl (built : Reachable t) {texts : List String}
    (nodup : (t.texts.toList ++ texts).Nodup) :
    (texts.foldl (fun t text => (t.intern text).2) t).texts.toList = t.texts.toList ++ texts := by
  induction texts generalizing t with
  | nil => simp
  | cons text texts ih =>
    have absent : text ∉ t.texts.toList := fun old =>
      (List.nodup_append.mp nodup).2.2 text old text (by simp) rfl
    have grown := (built.consistent.intern_new absent).2
    rw [List.foldl_cons, ih (built.intern text) (by simpa [grown] using nodup), grown]
    simp

theorem texts_ofTexts {texts : List String} (nodup : ("" :: texts).Nodup) :
    (ofTexts texts).texts = ("" :: texts).toArray :=
  Array.toList_inj.mp (Reachable.new.texts_foldl nodup)

theorem size_ofTexts {texts : List String} (nodup : ("" :: texts).Nodup) :
    (ofTexts texts).size = texts.length + 1 := by
  rw [size, texts_ofTexts nodup]
  rfl

theorem lookup_ofTexts {texts : List String} (nodup : ("" :: texts).Nodup) :
    (ofTexts texts).lookup = fun x => ("" :: texts)[x.index]?.getD "" := by
  funext x
  rw [lookup, texts_ofTexts nodup, List.getElem?_toArray]

end Comprehension.NameTable
