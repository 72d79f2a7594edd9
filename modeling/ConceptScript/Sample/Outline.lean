import ConceptScript.Generation
import ConceptScript.Sample.Language
import ConceptScript.Text.Suffix

/-!
An outline of a model as plain text. Each concept writes at the tags of the concepts it belongs
to, and the initial concept opens the document.
-/

namespace ConceptScript.Sample

def outline : String := "outline.txt"

def modulesTag : Tag := { type := initialization, name := "Modules", discipline := .appendable }

def membersTag : Tag := { type := module, name := "Members", discipline := .appendable }

def summaryTag : Tag where
  type := dataStructure
  name := "Summary"
  discipline := .single
  template? := "\x7bkey\x7d summary"

def propertiesTag : Tag :=
  { type := dataStructure, name := "Properties", discipline := .appendable }

def flagsTag : Tag where
  type := property
  name := "Flags"
  discipline := .reverse
  wrap? := some (" [\x7btext\x7d]", " [\x7btext\x7d]")

def ownerOf (concept : Node) (m : Model) : Except GenerationError Node :=
  match concept.parent?.bind m.resolve with
  | some owner => .ok owner
  | none => .error (.generator concept.typeName concept.key "owner is not in the model")

def nameOf (concept : Node) : String := (concept.text? "Name").getD ""

/-- The name of a type without its usual endings. -/
def label (concept : Node) : String :=
  Text.trimEnding (Text.trimEnding concept.typeName "Info") "Property"

def qualified (reference : Node) : String := ".".intercalate reference.keyParts

def header (concept : Node) (_ : Model) (w : Workspace) : Except GenerationError Workspace := do
  let b := w.buffer outline
  let marker ← b.marker modulesTag concept
  return w.put outline ((b.append "# Concept outline\n").append marker)

def moduleLine (concept : Node) (m : Model) (w : Workspace) : Except GenerationError Workspace := do
  let b := w.buffer outline
  let members ← b.marker membersTag concept
  let text := s!"\nmodule {nameOf concept}\n{members}"
  match m.ofType initialization with
  | start :: _ => return w.put outline (← b.insert text modulesTag start)
  | [] => return w.put outline (b.append text)

def sourceOf (concept : Node) : String :=
  match if concept.type.isA browse then concept.reference? "Source" else none with
  | some source => s!" of {qualified source}"
  | none => ""

/-- The type names of data structures are written in ASCII, so lower case is that of ASCII. -/
def dataStructureLine (concept : Node) (m : Model) (w : Workspace) :
    Except GenerationError Workspace := do
  let owner ← ownerOf concept m
  let b := w.buffer outline
  let summary ← b.marker summaryTag concept
  let properties ← b.marker propertiesTag concept
  let text :=
    s!"  {(label concept).toLower} {nameOf concept}{sourceOf concept}{summary}\n{properties}"
  return w.put outline (← b.insert text membersTag owner)

def targetOf (concept : Node) : String :=
  match concept.reference? "Referenced" with
  | some target => s!" -> {qualified target}"
  | none => ""

def propertyLine (concept : Node) (m : Model) (w : Workspace) :
    Except GenerationError Workspace := do
  let owner ← ownerOf concept m
  let b := w.buffer outline
  let flags ← b.marker flagsTag concept
  let text := s!"    - {nameOf concept} : {label concept}{targetOf concept}{flags}\n"
  return w.put outline (← b.insert text propertiesTag owner)

def requiredFlag (concept : Node) (m : Model) (w : Workspace) :
    Except GenerationError Workspace := do
  let owner ← ownerOf concept m
  return w.put outline (← (w.buffer outline).insert "required" flagsTag owner)

def listedNames (concept : Node) : List String :=
  match concept.get? "Properties" with
  | some (.list items) => items.map nameOf
  | _ => []

def uniqueLine (concept : Node) (m : Model) (w : Workspace) :
    Except GenerationError Workspace := do
  let owner ← ownerOf concept m
  let text := "    unique (" ++ ", ".intercalate (listedNames concept) ++ ")\n"
  return w.put outline (← (w.buffer outline).insert text propertiesTag owner)

/-- The first description of a data structure stands behind its name. Other concepts are not
described in the outline. -/
def descriptionText (concept : Node) (m : Model) (w : Workspace) :
    Except GenerationError Workspace := do
  let owner ← ownerOf concept m
  if !owner.type.isA dataStructure then return w
  let b := w.buffer outline
  let marker ← b.marker summaryTag owner
  if !b.contains marker then return w.put outline b
  let text := " -- " ++ (concept.text? "Text").getD ""
  return w.put outline (← b.insert text summaryTag owner)

def generators : Generators := [
  ⟨initialization, header⟩,
  ⟨module, moduleLine⟩,
  ⟨dataStructure, dataStructureLine⟩,
  ⟨property, propertyLine⟩,
  ⟨required, requiredFlag⟩,
  ⟨unique, uniqueLine⟩,
  ⟨description, descriptionText⟩]

end ConceptScript.Sample
