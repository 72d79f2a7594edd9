import ConceptScript.Node
import ConceptScript.Sample.Language

namespace ConceptScript.Sample

-- An outline from the top down, out of the slots of concepts in their order.

def isIn (owner n : Node) : Bool := n.parent?.map Node.key == some owner.key

def moduleName : Node → String
  | .mk _ (some (.text name) :: _) => name
  | _ => ""

/-- What is in a module or a data structure has its name in the second slot. -/
def ownName : Node → String
  | .mk _ (_ :: some (.text name) :: _) => name
  | _ => ""

/-- The third slot: the source of a browse, the target of a reference. -/
def third? : Node → Option Node
  | .mk _ (_ :: _ :: some (.reference n) :: _) => some n
  | _ => none

/-- The data structure that a reference leads to, by its module and its name. -/
def pathText (order : List Node) (reference : Node) : String :=
  match order.find? fun c => c.key == reference.key with
  | none => ""
  | some found =>
    match order.find? fun c => isIn c found with
    | none => ""
    | some home => moduleName home ++ "." ++ ownName found

def linkText (order : List Node) (sign : String) (n : Node) : String :=
  (third? n).elim "" fun reference => sign ++ pathText order reference

def structureLabel : String → String
  | "EntityInfo" => "entity"
  | "BrowseInfo" => "browse"
  | _ => "datastructure"

def propertyLabel : String → String
  | "ShortStringPropertyInfo" => "ShortString"
  | "IntegerPropertyInfo" => "Integer"
  | "TextPropertyInfo" => "Text"
  | "GuidPropertyInfo" => "Guid"
  | "ReferencePropertyInfo" => "Reference"
  | _ => ""

def flagText (order : List Node) (n : Node) : String :=
  if order.any fun c => c.type.isA required && isIn n c then " [required]" else ""

def propertyText (order : List Node) (n : Node) : String :=
  let target := if n.typeName = referenceProperty then linkText order " -> " n else ""
  "    - " ++ ownName n ++ " : " ++ propertyLabel n.typeName ++ target ++ flagText order n ++ "\n"

def uniqueRow : Node → String
  | .mk _ (_ :: some (.list listed) :: _) =>
    "    unique (" ++ ", ".intercalate (listed.map ownName) ++ ")\n"
  | _ => ""

def memberText (order : List Node) (n : Node) : String :=
  if n.type.isA property then propertyText order n else uniqueRow n

def commentText : Node → String
  | .mk _ (_ :: some (.text text) :: _) => " -- " ++ text
  | _ => ""

def summaryText (order : List Node) (n : Node) : String :=
  ((order.find? fun c => c.type.isA description && isIn n c).map commentText).getD ""

def structureText (order : List Node) (n : Node) : String :=
  let source := if n.typeName = browse then linkText order " of " n else ""
  "  " ++ structureLabel n.typeName ++ " " ++ ownName n ++ source ++ summaryText order n ++ "\n" ++
    String.join ((order.filter fun c =>
      (c.type.isA property || c.type.isA unique) && isIn n c).map (memberText order))

def moduleText (order : List Node) (n : Node) : String :=
  "\nmodule " ++ moduleName n ++ "\n" ++
    String.join ((order.filter fun c => c.type.isA dataStructure && isIn n c).map
      (structureText order))

def outlineText (order : List Node) : String :=
  "# Concept outline\n" ++
    String.join ((order.filter fun n => n.type.isA module).map (moduleText order))

end ConceptScript.Sample
