import ConceptScript.Text.Quoted

namespace ConceptScript

/-- What a reference may point at. -/
inductive Target where
  /-- Any concept. Such a reference is bound by nesting only. -/
  | any
  | concept (name : String)
  deriving Repr, DecidableEq, Inhabited

namespace Target

def display : Target → String
  | any => "any concept"
  | concept name => name

def describe : Target → String
  | any => "Any"
  | concept name => "Concept(" ++ Text.quoted name ++ ")"

end Target

inductive MemberKind where
  | identifier
  | text
  | reference (target : Target)
  /-- A property list that names sibling concepts. -/
  | list (target : Target)
  deriving Repr, DecidableEq, Inhabited

namespace MemberKind

def target? : MemberKind → Option Target
  | identifier => none
  | text => none
  | reference target => some target
  | list target => some target

def describe : MemberKind → String
  | identifier => "Identifier"
  | text => "Text"
  | reference target => "Reference(" ++ target.describe ++ ")"
  | list target => "ReferenceList(" ++ target.describe ++ ")"

end MemberKind

structure Member where
  name : String
  kind : MemberKind
  /-- Key members make up the identity of a concept. -/
  isKey : Bool
  /-- The parent member nests a concept inside another one. -/
  isParent : Bool
  deriving Repr, DecidableEq, Inhabited

/-- How deep a type nests along the chain of its parents, and whether the chain ends in a type
without a parent. -/
structure Nesting where
  concrete : Bool
  depth : Nat
  deriving Repr, DecidableEq, Inhabited

/-- A concrete chain comes before an open one, then a short one before a long one. -/
def Nesting.le (a b : Nesting) : Bool :=
  match a.concrete, b.concrete with
  | true, false => true
  | false, true => false
  | _, _ => a.depth ≤ b.depth

/-- A concept type with what it inherits. -/
structure Shape where
  name : String
  keyword? : Option String
  isInterface : Bool
  deprecation? : Option String
  members : List Member
  /-- The last of the base types; it stands in front of every key. -/
  root : String
  /-- The type itself, its bases from the nearest, then its interfaces. -/
  ancestors : List String
  deriving Repr, DecidableEq, Inhabited

structure ConceptType extends Shape where
  /-- How many names a written reference to the type has, if it can be written. -/
  arity? : Option Nat
  nesting : Nesting
  deriving Repr, DecidableEq, Inhabited

namespace Shape

def parent? (s : Shape) : Option Member := s.members.head?.filter Member.isParent

def keys (s : Shape) : List Member := s.members.filter Member.isKey

end Shape

namespace ConceptType

/-- The members that make up the key, with their positions. -/
def keyMembers (t : ConceptType) : List (Member × Nat) :=
  t.members.zipIdx.filter fun (m, _) => m.isKey

def isA (t : ConceptType) (name : String) : Bool := t.ancestors.contains name

def satisfies (t : ConceptType) : Target → Bool
  | .any => true
  | .concept name => t.isA name

end ConceptType

end ConceptScript
