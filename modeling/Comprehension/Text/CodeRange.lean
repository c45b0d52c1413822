/-! Sets of characters given as ascending ranges of code points. -/

set_option autoImplicit false

namespace Comprehension.Text

/-- Whether a code point lies in one of the ranges, which are closed, apart and in ascending order:
the search ends at the first range that starts later. -/
def inRanges (code : Nat) : List (Nat × Nat) → Bool
  | [] => false
  | (low, high) :: rest => if code < low then false else code ≤ high || inRanges code rest

def Ascending : List (Nat × Nat) → Prop
  | [] => True
  | [(low, high)] => low ≤ high
  | (low, high) :: (low', high') :: rest =>
    low ≤ high ∧ high < low' ∧ Ascending ((low', high') :: rest)

instance decidableAscending : (ranges : List (Nat × Nat)) → Decidable (Ascending ranges)
  | [] => .isTrue trivial
  | [(low, high)] => inferInstanceAs (Decidable (low ≤ high))
  | (low, high) :: (low', high') :: rest =>
    have := decidableAscending ((low', high') :: rest)
    inferInstanceAs (Decidable (low ≤ high ∧ high < low' ∧ Ascending ((low', high') :: rest)))

theorem low_le_of_ascending {low high : Nat} {rest : List (Nat × Nat)}
    (h : Ascending ((low, high) :: rest)) {r : Nat × Nat} (hr : r ∈ rest) : low ≤ r.1 := by
  induction rest generalizing low high with
  | nil => cases hr
  | cons next rest ih =>
    obtain ⟨low', high'⟩ := next
    obtain ⟨ordered, apart, later⟩ := h
    rcases List.mem_cons.mp hr with rfl | hr
    · simp; omega
    · have := ih later hr
      omega

/-- Ending early loses no member. -/
theorem inRanges_iff {ranges : List (Nat × Nat)} (h : Ascending ranges) (code : Nat) :
    inRanges code ranges = true ↔ ∃ r ∈ ranges, r.1 ≤ code ∧ code ≤ r.2 := by
  induction ranges with
  | nil => simp [inRanges]
  | cons first rest ih =>
    obtain ⟨low, high⟩ := first
    have later : Ascending rest := by
      cases rest with
      | nil => trivial
      | cons next rest => exact h.2.2
    unfold inRanges
    split
    · next early =>
      simp only [Bool.false_eq_true, List.mem_cons, exists_eq_or_imp, false_iff, not_or, not_and]
      refine ⟨by omega, ?_⟩
      rintro ⟨r, hr, start, _⟩
      have := low_le_of_ascending h hr
      omega
    · next reached =>
      simp only [Bool.or_eq_true, decide_eq_true_eq, ih later, List.mem_cons, exists_eq_or_imp]
      constructor
      · rintro (inside | later)
        · exact Or.inl ⟨by omega, inside⟩
        · exact Or.inr later
      · rintro (⟨_, inside⟩ | later)
        · exact Or.inl inside
        · exact Or.inr later

end Comprehension.Text
