import Comprehension.Text.Occurrence

/-! What a normalization run looks for. -/

set_option autoImplicit false

namespace Comprehension.Normalize

structure Config where
  transparentMarker : String := "h__TransparentIdentifier"
  /-- The method whose call on a source stands for an element type. -/
  castMethod : String := "Cast"
  foldCasts : Bool := true
  /-- Whether queries bound to transparent names are flattened. When they are not, every nested
  source becomes a continuation. -/
  eliminateTransparent : Bool := true
  deriving DecidableEq, Repr

/-- Whether a name contains a marker; no name contains the empty one. -/
def hasMarker (marker name : String) : Bool :=
  !marker.isEmpty && Text.occursIn marker.toList name.toList

structure Rules where
  config : Config
  transparent : String → Bool

def Rules.ofConfig (config : Config) : Rules := ⟨config, hasMarker config.transparentMarker⟩

end Comprehension.Normalize
