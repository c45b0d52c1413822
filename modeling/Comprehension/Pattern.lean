/-! Patterns: shapes of subtrees, with the nodes to be remembered under a name. -/

set_option autoImplicit false

namespace Comprehension

inductive NamePattern where
  | any
  | exactly (text : String)
  deriving DecidableEq, Repr

def NamePattern.accepts : NamePattern → String → Bool
  | .any, _ => true
  | .exactly text, name => name = text

inductive Pattern where
  | any (capture : Option String)
  /-- What the inner pattern accepts, remembered after the captures inside it. -/
  | capture (name : String) (inner : Pattern)
  | choice (alternatives : List Pattern)
  /-- An identifier without type arguments. -/
  | ident (name : NamePattern)
  | member (target : Pattern) (name : NamePattern) (typeArgs : List Pattern)
  | call (target : Pattern) (args : List Pattern)
  | record (initializers : List Pattern)
  | named (name : NamePattern) (value : Pattern)
  | select (projection : Pattern)
  | typeRef (name : NamePattern) (args : List Pattern)
  deriving Repr

namespace Pattern

mutual
def captures : Pattern → List String
  | .any none => []
  | .any (some name) => [name]
  | .capture name inner => name :: captures inner
  | .choice alternatives => capturesOfAll alternatives
  | .ident _ => []
  | .member target _ typeArgs => captures target ++ capturesOfAll typeArgs
  | .call target args => captures target ++ capturesOfAll args
  | .record initializers => capturesOfAll initializers
  | .named _ value => captures value
  | .select projection => captures projection
  | .typeRef _ args => capturesOfAll args

def capturesOfAll : List Pattern → List String
  | [] => []
  | p :: rest => captures p ++ capturesOfAll rest
end

/-- The capture names of a pattern, each once, in order of first occurrence. -/
def captureNames (p : Pattern) : List String := p.captures.eraseDups

end Pattern

end Comprehension
