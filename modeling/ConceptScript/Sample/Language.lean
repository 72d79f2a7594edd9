import ConceptScript.Registry.Build

/-!
A small language of modules with entities and browses, their properties, references, unique
lists, logging and descriptions.
-/

namespace ConceptScript.Sample

def initialization : String := "InitializationConcept"
def module : String := "ModuleInfo"
def dataStructure : String := "DataStructureInfo"
def entity : String := "EntityInfo"
def browse : String := "BrowseInfo"
def property : String := "PropertyInfo"
def guidProperty : String := "GuidPropertyInfo"
def referenceProperty : String := "ReferencePropertyInfo"
def simpleReference : String := "SimpleReferencePropertyInfo"
def required : String := "RequiredPropertyInfo"
def unique : String := "UniqueMultiplePropertiesInfo"
def logging : String := "LoggingInfo"
def logProperty : String := "LogPropertyInfo"
def description : String := "DescriptionInfo"

def type (name : String) : Declaration := { name }

def declarations : List Declaration := [
  type initialization,
  (type module).withKeyword "Module" |>.withKey "Name" .identifier,
  (type dataStructure).withParent "Module" (.concept module) |>.withKey "Name" .identifier,
  (type entity).withKeyword "Entity" |>.extending dataStructure,
  (type browse).withKeyword "Browse" |>.extending dataStructure
    |>.withMember "Source" (.reference (.concept dataStructure)),
  (type property).withParent "DataStructure" (.concept dataStructure)
    |>.withKey "Name" .identifier,
  (type "ShortStringPropertyInfo").withKeyword "ShortString" |>.extending property,
  (type "IntegerPropertyInfo").withKeyword "Integer" |>.extending property,
  (type "TextPropertyInfo").withKeyword "Text" |>.extending property
    |>.deprecated "use ShortString, or a dedicated long text property",
  (type guidProperty).extending property,
  (type referenceProperty).withKeyword "Reference" |>.extending property
    |>.withMember "Referenced" (.reference (.concept dataStructure)),
  (type simpleReference).withKeyword "Reference"
    |>.withParent "DataStructure" (.concept dataStructure) |>.withKey "Name" .identifier,
  (type required).withKeyword "Required" |>.withParent "Property" (.concept property),
  (type unique).withKeyword "Unique" |>.withParent "DataStructure" (.concept dataStructure)
    |>.withKey "Properties" (.list (.concept property)),
  (type logging).withKeyword "Logging" |>.withParent "Entity" (.concept entity),
  (type logProperty).withParent "Logging" (.concept logging)
    |>.withKey "Property" (.reference (.concept property)),
  (type description).withKeyword "Description" |>.withParent "Target" .any
    |>.withKey "Text" .text]

def registry : Except Diagnostic Registry :=
  (Registry.build declarations).mapError Registry.Fault.toDiagnostic

end ConceptScript.Sample
