import ConceptScript.Registry.Build
import ConceptScript.Statement.Mismatch

namespace ConceptScript

/-- The slots that a dotted reference gives to the members of a type. The pool holds the types
that the reference is not yet inside of. -/
def keySlots (pool : List ConceptType) (owner : String) :
    List Member → List String → Except Mismatch (List (Option Value))
  | [], _ => .ok []
  | m :: ms, parts =>
    if !m.isKey then do
      let rest ← keySlots pool owner ms parts
      return none :: rest
    else
      match m.kind with
      | .reference (.concept name) =>
        match _h : pool.find? fun t => t.name == name with
        | none => .error (.unknownType name)
        | some inner =>
          match inner.arity? with
          | none => .error (.unnameable inner.name)
          | some n =>
            if parts.length < n then .error (.tooFewParts owner)
            else do
              let slots ← keySlots (Registry.without (fun t => t.name) pool name) inner.name
                inner.members (parts.take n)
              let rest ← keySlots pool owner ms (parts.drop n)
              return some (.reference (.mk inner slots)) :: rest
      | .reference .any => .error (.unnameable owner)
      | .list _ => .error (.unnameable owner)
      | _ =>
        match parts with
        | [] => .error (.tooFewParts owner)
        | part :: parts => do
          let rest ← keySlots pool owner ms parts
          return some (.text part) :: rest
termination_by ms => Registry.load (fun t => t.members.length) pool + ms.length
decreasing_by
  · simp
  · exact Nat.lt_add_right _ (Registry.load_without_lt _ _h)
  · simp
  · simp

/-- The concept that a dotted reference to a type denotes, with its key members only. -/
def Registry.placeholder (r : Registry) (t : ConceptType) (parts : List String) :
    Except Mismatch Node := do
  let slots ← keySlots (Registry.without (fun t => t.name) r.types t.name) t.name t.members parts
  return .mk t slots

/-- The parent member and the name of a type that is identified by these two. -/
def ConceptType.nameInParent? (t : ConceptType) : Option (Member × Member × Nat) :=
  match t.keyMembers with
  | [(parent, 0), (name, index)] =>
    if parent.isParent && (name.kind == .identifier || name.kind == .text) then
      some (parent, name, index)
    else none
  | _ => none

/-- The concept that a name in a property list denotes: a sibling of the concept that has the
list, where names are told apart by their parents. -/
def Registry.listElement (r : Registry) (target : ConceptType) (name : String) (listing : Node) :
    Except Mismatch Node :=
  match target.nameInParent? with
  | some (parent, nameMember, index) =>
    match listing.parent? with
    | none => .error (.ownerless listing.typeName target.name)
    | some owner => (do
        let node ← (Node.ofType target).setAt 0 parent (.reference owner)
        node.setAt index nameMember (.text name)).mapError .misfit
  | none =>
    match target.arity? with
    | some 1 => r.placeholder target [name]
    | _ => .error (.notSingleName name target.name)

end ConceptScript
