import ConceptScript.ConceptType
import ConceptScript.Diagnostic

namespace ConceptScript

/-- A concept type as its author writes it. -/
structure Declaration where
  name : String
  keyword? : Option String := none
  base? : Option String := none
  interfaces : List String := []
  isInterface : Bool := false
  deprecation? : Option String := none
  members : List Member := []
  deriving Repr, DecidableEq, Inhabited

namespace Declaration

/-- A type that others implement; it has no concepts of its own. -/
def interface (name : String) : Declaration := { name, isInterface := true }

def withKeyword (d : Declaration) (keyword : String) : Declaration :=
  { d with keyword? := some keyword }

def extending (d : Declaration) (base : String) : Declaration := { d with base? := some base }

def implementing (d : Declaration) (name : String) : Declaration :=
  { d with interfaces := d.interfaces ++ [name] }

def deprecated (d : Declaration) (note : String) : Declaration :=
  { d with deprecation? := some note }

def withParent (d : Declaration) (name : String) (target : Target) : Declaration :=
  { d with members := d.members ++ [⟨name, .reference target, true, true⟩] }

def withKey (d : Declaration) (name : String) (kind : MemberKind) : Declaration :=
  { d with members := d.members ++ [⟨name, kind, true, false⟩] }

def withMember (d : Declaration) (name : String) (kind : MemberKind) : Declaration :=
  { d with members := d.members ++ [⟨name, kind, false, false⟩] }

end Declaration

/-- The concept types of a language, in the order of their declarations. -/
structure Registry where
  types : List ConceptType
  deriving Repr, DecidableEq, Inhabited

namespace Registry

def size (r : Registry) : Nat := r.types.length

def isEmpty (r : Registry) : Bool := r.types.isEmpty

def find? (r : Registry) (name : String) : Option ConceptType :=
  r.types.find? fun t => t.name == name

def require (r : Registry) (name : String) : Except Diagnostic ConceptType :=
  match r.find? name with
  | some t => .ok t
  | none => .error { code := .invalidConcept, message := s!"unknown concept type '{name}'" }

def withKeyword (r : Registry) (keyword : String) : List ConceptType :=
  r.types.filter fun t => t.keyword? == some keyword

/-- The types with the preferred reading of a shared keyword first. -/
def byNesting (r : Registry) : List ConceptType :=
  r.types.mergeSort fun a b => a.nesting.le b.nesting

end Registry

end ConceptScript
