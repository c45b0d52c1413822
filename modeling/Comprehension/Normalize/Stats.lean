/-! How often a run did what. -/

set_option autoImplicit false

namespace Comprehension.Normalize

structure Stats where
  eliminated : Nat := 0
  letsIntroduced : Nat := 0
  referencesStripped : Nat := 0
  continuations : Nat := 0
  castsFolded : Nat := 0
  deriving DecidableEq, Repr

namespace Stats

def changed (s : Stats) : Bool := s ≠ {}

def text (s : Stats) : String :=
  "NormalizeStats \x7b eliminated: " ++ toString s.eliminated ++
    ", lets_introduced: " ++ toString s.letsIntroduced ++
    ", references_rewritten: " ++ toString s.referencesStripped ++
    ", continuations: " ++ toString s.continuations ++
    ", casts_folded: " ++ toString s.castsFolded ++ " \x7d"

def add (a b : Stats) : Stats where
  eliminated := a.eliminated + b.eliminated
  letsIntroduced := a.letsIntroduced + b.letsIntroduced
  referencesStripped := a.referencesStripped + b.referencesStripped
  continuations := a.continuations + b.continuations
  castsFolded := a.castsFolded + b.castsFolded

instance : Add Stats := ⟨add⟩

end Stats

end Comprehension.Normalize
