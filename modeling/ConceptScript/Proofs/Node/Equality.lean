import ConceptScript.Model

namespace ConceptScript

namespace Node

theorem same_iff {a b : Node} :
    a.same b = true ↔ a.typeName = b.typeName ∧ a.contents = b.contents := by
  simp [same]

theorem same_refl (a : Node) : a.same a = true := same_iff.mpr ⟨rfl, rfl⟩

theorem same_symm {a b : Node} (h : a.same b = true) : b.same a = true := by
  obtain ⟨ht, hc⟩ := same_iff.mp h
  exact same_iff.mpr ⟨ht.symm, hc.symm⟩

theorem same_trans {a b c : Node} (h : a.same b = true) (h' : b.same c = true) :
    a.same c = true := by
  obtain ⟨ht, hc⟩ := same_iff.mp h
  obtain ⟨ht', hc'⟩ := same_iff.mp h'
  exact same_iff.mpr ⟨ht.trans ht', hc.trans hc'⟩

/-- The same concept under the same key. -/
structure Equal (a b : Node) : Prop where
  same : a.same b = true
  key_eq : a.key = b.key

theorem Equal.refl (a : Node) : a.Equal a := ⟨a.same_refl, rfl⟩

theorem Equal.symm {a b : Node} (h : a.Equal b) : b.Equal a := ⟨same_symm h.same, h.key_eq.symm⟩

theorem Equal.trans {a b c : Node} (h : a.Equal b) (h' : b.Equal c) : a.Equal c :=
  ⟨same_trans h.same h'.same, h.key_eq.trans h'.key_eq⟩

end Node

theorem Node.zip_contents (n : Node) :
    n.type.members.zip n.contents = n.members.map fun (m, v) => (m, v.map Value.content) := by
  rw [Node.contents, Node.members, List.zip_map_right]
  rfl

def Content.key? : Content → Option String
  | key k => some k
  | _ => none

def Content.text? : Content → Option String
  | text s => some s
  | _ => none

theorem Node.parent?_map_key (n : Node) :
    n.parent?.map Node.key = n.type.parent?.bind fun _ => n.contents.head?.join.bind Content.key? := by
  rw [Node.parent?, Node.contents, List.head?_map]
  cases n.type.parent? with
  | none => rfl
  | some _ =>
    rcases n.slots.head? with _ | (_ | (_ | _ | _)) <;> rfl

theorem Node.get?_map_content (n : Node) (name : String) :
    (n.get? name).map Value.content =
      ((n.type.members.zip n.contents).find? fun p => p.1.name == name).bind Prod.snd := by
  rw [Node.get?, Node.zip_contents, List.find?_map, Option.map_bind, Option.bind_map]
  rfl

theorem Node.reference?_map_key (n : Node) (name : String) :
    (n.reference? name).map Node.key = ((n.get? name).map Value.content).bind Content.key? := by
  rw [Node.reference?]
  rcases n.get? name with _ | (_ | _ | _) <;> rfl

theorem Node.text?_eq (n : Node) (name : String) :
    n.text? name = ((n.get? name).map Value.content).bind Content.text? := by
  rw [Node.text?]
  rcases n.get? name with _ | (_ | _ | _) <;> rfl

def Content.links (m : Member) : Option Content → List Model.Link
  | some (.key k) => [⟨m.name, m.kind.target?.getD .any, k⟩]
  | some (.keys ks) => ks.map fun k => ⟨m.name, m.kind.target?.getD .any, k⟩
  | _ => []

theorem Model.links_eq (n : Node) :
    Model.links n = (n.type.members.zip n.contents).flatMap fun (m, c) => Content.links m c := by
  rw [Model.links, Node.references, List.map_flatMap, Node.zip_contents,
    List.flatMap_map]
  congr 1
  funext ⟨m, v⟩
  rcases v with _ | (_ | _ | _) <;> simp [Node.referencesOf, Content.links, Value.content]

theorem Node.missing_eq (n : Node) :
    n.missing = ((n.type.members.zip n.contents).filter fun (_, c) => c.isNone).map
      fun (m, _) => m.name := by
  rw [Node.missing, Node.zip_contents, List.filter_map, List.map_map]
  simp [Function.comp_def]

theorem Node.Equal.links_eq {a b : Node} (h : a.Equal b) (ht : a.type = b.type) :
    Model.links a = Model.links b := by
  rw [Model.links_eq, Model.links_eq, ht, (Node.same_iff.mp h.same).2]

section Shown

variable {a b : Node} (h : a.Equal b) (ht : a.type = b.type)
include h ht

theorem Node.Equal.parent?_map_key : a.parent?.map Node.key = b.parent?.map Node.key := by
  rw [a.parent?_map_key, b.parent?_map_key, ht, (Node.same_iff.mp h.same).2]

theorem Node.Equal.get?_map_content (name : String) :
    (a.get? name).map Value.content = (b.get? name).map Value.content := by
  rw [a.get?_map_content, b.get?_map_content, ht, (Node.same_iff.mp h.same).2]

theorem Node.Equal.reference?_map_key (name : String) :
    (a.reference? name).map Node.key = (b.reference? name).map Node.key := by
  rw [a.reference?_map_key, b.reference?_map_key, h.get?_map_content ht]

theorem Node.Equal.text?_eq (name : String) : a.text? name = b.text? name := by
  rw [Node.text?_eq, Node.text?_eq, h.get?_map_content ht]

end Shown

theorem Node.Equal.missing_eq {a b : Node} (h : a.Equal b) (ht : a.type = b.type) :
    a.missing = b.missing := by
  rw [Node.missing_eq, Node.missing_eq, ht, (Node.same_iff.mp h.same).2]

end ConceptScript
