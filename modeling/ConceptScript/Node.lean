import ConceptScript.ConceptType
import ConceptScript.Diagnostic

namespace ConceptScript

mutual

/-- A concept: its type and a slot for each member of the type. -/
inductive Node where
  | mk (type : ConceptType) (slots : List (Option Value))

/-- What a slot holds. A referenced concept often has its key members only. -/
inductive Value where
  | text (s : String)
  | reference (node : Node)
  | list (nodes : List Node)

end

instance : Inhabited Node := ⟨.mk default []⟩

namespace Node

def type : Node → ConceptType
  | mk type _ => type

def slots : Node → List (Option Value)
  | mk _ slots => slots

def typeName (n : Node) : String := n.type.name

/-- A concept with no member set. -/
def ofType (type : ConceptType) : Node := mk type (type.members.map fun _ => none)

/-- The members with what their slots hold. -/
def members (n : Node) : List (Member × Option Value) := n.type.members.zip n.slots

mutual

/-- The values of the key members in order, those of referenced concepts in place. -/
def keyParts : Node → List String
  | mk type slots => slotParts type.members slots

def slotParts : List Member → List (Option Value) → List String
  | m :: ms, v :: vs => (if m.isKey then valueParts v else []) ++ slotParts ms vs
  | _, _ => []

def valueParts : Option Value → List String
  | none => [""]
  | some (.text s) => [s]
  | some (.reference n) => keyParts n
  | some (.list ns) => [" ".intercalate (listParts ns)]

def listParts : List Node → List String
  | [] => []
  | n :: ns => ".".intercalate (keyParts n) :: listParts ns

end

/-- A name followed by the key parts, if there are any. -/
def label (name : String) : List String → String
  | [] => name
  | parts => name ++ " " ++ ".".intercalate parts

/-- What identifies a concept: its root type and its key parts. -/
def key (n : Node) : String := label n.type.root n.keyParts

/-- How a concept is named in messages: by its keyword where it has one. -/
def describe (n : Node) : String := label (n.type.keyword?.getD n.typeName) n.keyParts

/-- A copy with the key members only. -/
def placeholder (n : Node) : Node :=
  mk n.type (n.members.map fun (m, v) => if m.isKey then v else none)

end Node

/-- What a slot shows of itself; a referenced concept shows its key. -/
inductive Content where
  | text (s : String)
  | key (k : String)
  | keys (ks : List String)
  deriving Repr, DecidableEq

namespace Value

def content : Value → Content
  | text s => .text s
  | reference n => .key n.key
  | list ns => .keys (ns.map Node.key)

def describe : Value → String
  | text s => s!"'{s}'"
  | reference n => s!"reference to '{n.key}'"
  | list ns => s!"list of {ns.length} references"

/-- A reference that keeps the key members of a concept. -/
def referenceTo (n : Node) : Value := reference n.placeholder

end Value

def MemberKind.accepts : MemberKind → Value → Bool
  | .identifier, .text _ => true
  | .text, .text _ => true
  | .reference target, .reference n => n.type.satisfies target
  | .list target, .list ns => ns.all fun n => n.type.satisfies target
  | _, _ => false

namespace Node

/-- Why a member is not set. -/
inductive Misfit where
  | noMember (type member : String)
  | wrongValue (value : Value) (member : Member) (type : String)

namespace Misfit

def message : Misfit → String
  | noMember type member => s!"'{type}' has no member named '{member}'"
  | wrongValue value member type =>
    s!"value {value.describe} does not fit member '{member.name}' of '{type}' ({member.kind.describe})"

def toDiagnostic (m : Misfit) : Diagnostic := { code := .invalidConcept, message := m.message }

end Misfit

def contents (n : Node) : List (Option Content) := n.slots.map (Option.map Value.content)

/-- Two concepts are the same if they have one type and show the same contents. -/
def same (a b : Node) : Bool := a.typeName == b.typeName && a.contents == b.contents

/-- Fills the slot of the member at an index. -/
def setAt (n : Node) (index : Nat) (member : Member) (value : Value) : Except Misfit Node :=
  if member.kind.accepts value then .ok (mk n.type (n.slots.set index (some value)))
  else .error (.wrongValue value member n.typeName)

def set (n : Node) (name : String) (value : Value) : Except Misfit Node :=
  match n.type.members.zipIdx.find? fun (m, _) => m.name == name with
  | none => .error (.noMember n.typeName name)
  | some (member, index) => n.setAt index member value

def put (n : Node) (name : String) (value : Value) : Except Diagnostic Node :=
  (n.set name value).mapError Misfit.toDiagnostic

def get? (n : Node) (name : String) : Option Value :=
  (n.members.find? fun (m, _) => m.name == name).bind Prod.snd

def text? (n : Node) (name : String) : Option String :=
  match n.get? name with
  | some (.text s) => some s
  | _ => none

def reference? (n : Node) (name : String) : Option Node :=
  match n.get? name with
  | some (.reference r) => some r
  | _ => none

/-- The concept that this one is nested in. -/
def parent? (n : Node) : Option Node :=
  match n.type.parent?, n.slots.head? with
  | some _, some (some (.reference r)) => some r
  | _, _ => none

def referencesOf (m : Member) : Option Value → List (Member × Node)
  | some (.reference n) => [(m, n)]
  | some (.list ns) => ns.map fun n => (m, n)
  | _ => []

/-- All referenced concepts, those in lists included. -/
def references (n : Node) : List (Member × Node) :=
  n.members.flatMap fun (m, v) => referencesOf m v

def missing (n : Node) : List String :=
  (n.members.filter fun (_, v) => v.isNone).map fun (m, _) => m.name

end Node

end ConceptScript
