import ConceptScript.Json
import ConceptScript.Model

namespace ConceptScript

def Content.toJson : Content → Json
  | text s => .string s
  | key k => .string k
  | keys ks => .array (ks.map .string)

def Node.membersJson (n : Node) : Json :=
  .object ((n.type.members.map Member.name).zip (n.contents.map (Json.ofOption Content.toJson)))

def Entry.toJson (e : Entry) : Json :=
  .object [
    ("key", .string e.key),
    ("type", .string e.node.typeName),
    ("members", e.node.membersJson)]

/-- The concepts in the order of their keys. -/
def Model.toJson (m : Model) : Json :=
  let entries := m.entries.toList.mergeSort fun a b => decide (a.key ≤ b.key)
  .object [("concepts", .array (entries.map Entry.toJson))]

end ConceptScript
