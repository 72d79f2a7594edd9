import ConceptScript.Proofs.Statement.Naming

namespace ConceptScript

/-- A concept of the registry with a key: the members of its key hold values, and so on for the
concepts that these refer to. -/
structure Node.KeyBound (r : Registry) (n : Node) : Prop where
  type_mem : n.type ∈ r.types
  members_bound : r.KeysBound n.type.members n.slots

namespace Registry

section Cons

variable {r : Registry} {m : Member} {ms : List Member} {vs : List (Option Value)}

theorem KeysBound.text (hk : m.isKey = true) (hm : m.kind.target? = none) (s : String)
    (hms : r.KeysBound ms vs) : r.KeysBound (m :: ms) (some (.text s) :: vs) := by
  have haccepts : m.kind.accepts (.text s) = true := by
    cases hkind : m.kind <;> simp_all [MemberKind.accepts, MemberKind.target?]
  refine .key hk ⟨.text s, rfl, haccepts⟩ ?_ ?_ hms
  · intro n hn
    cases hn
  · intro n hn
    cases hn

theorem KeysBound.reference {n : Node} (hk : m.isKey = true)
    (haccepts : m.kind.accepts (.reference n) = true) (hn : n.KeyBound r)
    (hms : r.KeysBound ms vs) : r.KeysBound (m :: ms) (some (.reference n) :: vs) := by
  refine .key hk ⟨.reference n, rfl, haccepts⟩ ?_ ?_ hms
  · rintro _ ⟨⟩
    exact hn.type_mem
  · rintro _ ⟨⟩
    exact hn.members_bound

end Cons

section Built

variable {declared : List Declaration} {r : Registry} (h : build declared = .ok r)
include h

end Built

end Registry

-- A language of plans. A site has no name, since there is one of it, and an attic is a room.

namespace Plan

def declared : List Declaration := [
  { name := "Site" },
  ({ name := "Room" } : Declaration).withParent "Site" (.concept "Site")
    |>.withKey "Name" .identifier,
  ({ name := "Attic" } : Declaration).extending "Room" |>.withMember "Height" .text,
  ({ name := "Door" } : Declaration).withKey "From" (.reference (.concept "Room"))
    |>.withKey "Label" .text |>.withKey "To" (.reference (.concept "Room"))]

def siteType : ConceptType where
  name := "Site"
  keyword? := none
  isInterface := false
  deprecation? := none
  members := []
  root := "Site"
  ancestors := ["Site"]
  arity? := some 0
  nesting := ⟨true, 0⟩

def roomType : ConceptType :=
  { siteType with
    name := "Room", root := "Room", ancestors := ["Room"], arity? := some 1, nesting := ⟨true, 1⟩,
    members := [⟨"Site", .reference (.concept "Site"), true, true⟩,
      ⟨"Name", .identifier, true, false⟩] }

def atticType : ConceptType :=
  { roomType with
    name := "Attic", ancestors := ["Attic", "Room"],
    members := roomType.members ++ [⟨"Height", .text, false, false⟩] }

def doorType : ConceptType :=
  { siteType with
    name := "Door", root := "Door", ancestors := ["Door"], arity? := some 3,
    members := [⟨"From", .reference (.concept "Room"), true, false⟩,
      ⟨"Label", .text, true, false⟩, ⟨"To", .reference (.concept "Room"), true, false⟩] }

def registry : Registry := ⟨[siteType, roomType, atticType, doorType]⟩

theorem build_declared : Registry.build declared = .ok registry := by decide +kernel

end Plan

namespace Tower

def level (k : Nat) : String := s!"T{k}"

def members : Nat → List Member
  | 0 => [⟨"Name", .identifier, true, false⟩]
  | k + 1 => ["A", "B", "C", "D"].map fun name =>
    ⟨name, .reference (.concept (level k)), true, false⟩

/-- The number of names in the key. -/
def width : Nat → Nat
  | 0 => 1
  | k + 1 => 4 * width k

def type (k : Nat) : ConceptType where
  name := level k
  keyword? := none
  isInterface := false
  deprecation? := none
  members := members k
  root := level k
  ancestors := [level k]
  arity? := some (width k % Registry.wordSize)
  nesting := ⟨true, 0⟩

def declared : List Declaration :=
  (List.range 33).map fun k => { name := level k, members := members k }

def registry : Registry := ⟨(List.range 33).map type⟩

theorem build_declared : Registry.build declared = .ok registry := by decide +kernel

end Tower

end ConceptScript
