import ConceptScript.Proofs.Node.Formed
import ConceptScript.Proofs.Registry.Inheritance
import ConceptScript.Proofs.Sample.Types
import ConceptScript.Sample.Outline
import ConceptScript.Sample.Rules

namespace ConceptScript

theorem Node.put_eq_ok {t : ConceptType} {slots : List (Option Value)} {name : String} {m : Member}
    {i : Nat} (hfind : t.members.zipIdx.find? (fun p => p.1.name == name) = some (m, i))
    {value : Value} {n : Node} :
    (Node.mk t slots).put name value = .ok n ↔
      m.kind.accepts value = true ∧ mk t (slots.set i (some value)) = n := by
  unfold put set
  rw [Reader.mapError_eq_ok]
  split
  · next hnone => exact absurd (hnone.symm.trans hfind) (by simp)
  · next m' i' hsome =>
    obtain ⟨rfl, rfl⟩ := Prod.mk.inj (Option.some.inj (hsome.symm.trans hfind))
    exact setAt_eq_ok

namespace Sample

def ownerMember : Member := ⟨"DataStructure", .reference (.concept dataStructure), true, true⟩

/-- The members of the types that the rules read and write. -/
def layout : List (String × List Member) := [
  (dataStructure, [⟨"Module", .reference (.concept module), true, true⟩, nameMember]),
  (guidProperty, [ownerMember, nameMember]),
  (referenceProperty, [ownerMember, nameMember, referencedMember]),
  (simpleReference, [ownerMember, nameMember]),
  (logging, [⟨"Entity", .reference (.concept entity), true, true⟩]),
  (logProperty, [⟨"Logging", .reference (.concept logging), true, true⟩,
    ⟨"Property", .reference (.concept property), true, false⟩])]

/-- What the rules can rely on in a type of the language. -/
structure Placed (t : ConceptType) : Prop where
  members : ∀ {ms : List Member}, layout.lookup t.name = some ms → t.members = ms
  isA_iff : ∀ x ∈ [module, entity, simpleReference, logging], t.isA x = true ↔ t.name = x
  unwritten : t.name ∈ [guidProperty, logProperty] → t.keyword? = none

def isPlaced (t : ConceptType) : Bool :=
  (layout.lookup t.name).all (· == t.members) &&
  ([module, entity, simpleReference, logging].all fun x => t.isA x == (t.name == x)) &&
  (!([guidProperty, logProperty].contains t.name) || t.keyword?.isNone)

theorem placed_of_check {t : ConceptType} (h : isPlaced t = true) : Placed t := by
  simp only [isPlaced, Bool.and_eq_true] at h
  obtain ⟨⟨hmembers, hisA⟩, hunwritten⟩ := h
  refine ⟨fun {ms} hms => ?_, fun x hx => ?_, fun hname => ?_⟩
  · rw [hms, Option.all_some] at hmembers
    exact (eq_of_beq hmembers).symm
  · rw [eq_of_beq (List.all_eq_true.mp hisA x hx), beq_iff_eq]
  · rw [List.contains_iff_mem.mpr hname] at hunwritten
    simpa using hunwritten

theorem placed_checked : (registry.toOption.all fun r =>
    r.types.all isPlaced && (r.find? logProperty).isSome) = true := by
  decide +kernel

variable {r : Registry}

theorem placed (hr : registry = .ok r) {t : ConceptType} (ht : t ∈ r.types) : Placed t := by
  have hcheck := placed_checked
  rw [hr, Except.toOption, Option.all_some, Bool.and_eq_true] at hcheck
  exact placed_of_check (List.all_eq_true.mp hcheck.1 t ht)

theorem members_of_name (hr : registry = .ok r) {t : ConceptType} (ht : t ∈ r.types) {name : String}
    (hname : t.name = name) {ms : List Member} (hms : layout.lookup name = some ms) :
    t.members = ms :=
  (placed hr ht).members (hname ▸ hms)

theorem eq_of_name_eq (hr : registry = .ok r) {t u : ConceptType} (ht : t ∈ r.types)
    (hu : u ∈ r.types) (h : t.name = u.name) : t = u :=
  Registry.eq_of_name_eq (Reader.mapError_eq_ok.mp hr) ht hu h

theorem exists_type_of_nodeOf {name : String} {n : Node} (h : nodeOf r name = .ok n) :
    ∃ t ∈ r.types, t.name = name ∧ n = .ofType t := by
  obtain ⟨t, ht, hn⟩ := bind_eq_ok.mp h
  unfold Registry.require at ht
  split at ht
  · next t' hfind =>
    obtain rfl := Except.ok.inj ht
    exact ⟨t', List.mem_of_find?_eq_some hfind, by simpa using List.find?_some hfind,
      (pure_eq_ok.mp hn).symm⟩
  · cases ht

theorem exists_mk_of_nodeOf (hr : registry = .ok r) {name : String} {ms : List Member}
    (hms : layout.lookup name = some ms) {n : Node} (h : nodeOf r name = .ok n) :
    ∃ t ∈ r.types, t.name = name ∧ t.members = ms ∧ n = .mk t (ms.map fun _ => none) := by
  obtain ⟨t, ht, hname, rfl⟩ := exists_type_of_nodeOf h
  have hmembers := members_of_name hr ht hname hms
  exact ⟨t, ht, hname, hmembers, by rw [Node.ofType, hmembers]⟩

section Rules

variable (hr : registry = .ok r) {m : Model} {nodes : List Node}
include hr

theorem identifier_eq_ok {entity : Node} (h : identifier r entity m = .ok nodes) :
    ∃ t ∈ r.types, t.name = guidProperty ∧
      nodes = [.mk t [some (.referenceTo entity), some (.text "ID")]] := by
  obtain ⟨id, hid, h⟩ := bind_eq_ok.mp h
  obtain ⟨owned, howned, h⟩ := bind_eq_ok.mp h
  obtain ⟨named, hnamed, h⟩ := bind_eq_ok.mp h
  obtain ⟨t, ht, hname, hmembers, rfl⟩ := exists_mk_of_nodeOf hr rfl hid
  obtain ⟨_, rfl⟩ := (Node.put_eq_ok (by rw [hmembers]; rfl)).mp howned
  obtain ⟨_, rfl⟩ := (Node.put_eq_ok (by rw [hmembers]; rfl)).mp hnamed
  exact ⟨t, ht, hname, (pure_eq_ok.mp h).symm⟩

omit hr in
/-- The members that a full reference and its target are given, one after the other. -/
theorem exists_puts_of_fullReference {simple : Node} (h : fullReference r simple m = .ok nodes) :
    ∃ owner module, simple.parent? = some owner ∧ owner.reference? "Module" = some module ∧
      ∃ target housed, nodeOf r dataStructure = .ok target ∧
        target.put "Module" (.reference module) = .ok housed ∧
      ∃ named, housed.put "Name" (.text (nameOf simple)) = .ok named ∧
      ∃ full owned, nodeOf r referenceProperty = .ok full ∧
        full.put "DataStructure" (.reference owner) = .ok owned ∧
      ∃ called, owned.put "Name" (.text (nameOf simple)) = .ok called ∧
      ∃ referring, called.put "Referenced" (.referenceTo named) = .ok referring ∧
        nodes = [referring] := by
  unfold fullReference at h
  split at h
  · next owner howner =>
    split at h
    · next module hmodule =>
      obtain ⟨target, htarget, h⟩ := bind_eq_ok.mp h
      obtain ⟨housed, hhoused, h⟩ := bind_eq_ok.mp h
      obtain ⟨named, hnamed, h⟩ := bind_eq_ok.mp h
      obtain ⟨full, hfull, h⟩ := bind_eq_ok.mp h
      obtain ⟨owned, howned, h⟩ := bind_eq_ok.mp h
      obtain ⟨called, hcalled, h⟩ := bind_eq_ok.mp h
      obtain ⟨referring, hreferring, h⟩ := bind_eq_ok.mp h
      exact ⟨owner, module, howner, hmodule, target, housed, htarget, hhoused, named, hnamed, full,
        owned, hfull, howned, called, hcalled, referring, hreferring, (pure_eq_ok.mp h).symm⟩
    · cases h
  · cases h

theorem fullReference_eq_ok {simple : Node} (h : fullReference r simple m = .ok nodes) :
    ∃ owner module, simple.parent? = some owner ∧ owner.reference? "Module" = some module ∧
      ∃ t ∈ r.types, t.name = dataStructure ∧ ∃ u ∈ r.types, u.name = referenceProperty ∧
        nodes = [.mk u [some (.reference owner), some (.text (nameOf simple)),
          some (.referenceTo (.mk t [some (.reference module), some (.text (nameOf simple))]))]] := by
  obtain ⟨owner, module, howner, hmodule, target, housed, htarget, hhoused, named, hnamed, full,
    owned, hfull, howned, called, hcalled, referring, hreferring, rfl⟩ :=
    exists_puts_of_fullReference h
  obtain ⟨t, ht, hname, hmembers, rfl⟩ := exists_mk_of_nodeOf hr rfl htarget
  obtain ⟨_, rfl⟩ := (Node.put_eq_ok (by rw [hmembers]; rfl)).mp hhoused
  obtain ⟨_, rfl⟩ := (Node.put_eq_ok (by rw [hmembers]; rfl)).mp hnamed
  obtain ⟨u, hu, hname', hmembers', rfl⟩ := exists_mk_of_nodeOf hr rfl hfull
  obtain ⟨_, rfl⟩ := (Node.put_eq_ok (by rw [hmembers']; rfl)).mp howned
  obtain ⟨_, rfl⟩ := (Node.put_eq_ok (by rw [hmembers']; rfl)).mp hcalled
  obtain ⟨_, rfl⟩ := (Node.put_eq_ok (by rw [hmembers']; rfl)).mp hreferring
  exact ⟨owner, module, howner, hmodule, t, ht, hname, u, hu, hname', rfl⟩

theorem loggedProperty_eq_ok {logging property n : Node}
    (h : loggedProperty r logging property = .ok n) :
    ∃ t ∈ r.types, t.name = logProperty ∧
      n = .mk t [some (.referenceTo logging), some (.referenceTo property)] := by
  obtain ⟨log, hlog, h⟩ := bind_eq_ok.mp h
  obtain ⟨owned, howned, h⟩ := bind_eq_ok.mp h
  obtain ⟨t, ht, hname, hmembers, rfl⟩ := exists_mk_of_nodeOf hr rfl hlog
  obtain ⟨_, rfl⟩ := (Node.put_eq_ok (by rw [hmembers]; rfl)).mp howned
  obtain ⟨_, rfl⟩ := (Node.put_eq_ok (by rw [hmembers]; rfl)).mp h
  exact ⟨t, ht, hname, rfl⟩

omit hr in
/-- Each line of a log is for a property of what has the log. -/
theorem exists_of_mem_loggedProperties {l n : Node} (h : loggedProperties r l m = .ok nodes)
    (hn : n ∈ nodes) :
    ∃ owner c, l.parent? = some owner ∧ c ∈ m.children owner.key ∧ c.type.isA property = true ∧
      loggedProperty r l c = .ok n := by
  unfold loggedProperties at h
  split at h
  · obtain rfl := Except.ok.inj h
    cases hn
  · next owner howner =>
    obtain ⟨c, hc, hline⟩ := exists_of_forall₂_right (mapM_eq_ok.mp h) hn
    obtain ⟨hchild, hproperty⟩ := List.mem_filter.mp hc
    exact ⟨owner, c, howner, hchild, hproperty, hline⟩

theorem exists_loggedProperty {l p : Node} (hl : l.type.isA logging = true)
    (hp : p.type.isA property = true) : ∃ n, loggedProperty r l p = .ok n := by
  have hcheck := placed_checked
  rw [hr, Except.toOption, Option.all_some, Bool.and_eq_true] at hcheck
  obtain ⟨t, hfind⟩ := Option.isSome_iff_exists.mp hcheck.2
  have hnode : nodeOf r logProperty = .ok (.ofType t) := by
    rw [nodeOf, Registry.require, hfind]
    rfl
  obtain ⟨u, _, _, hmembers, hnew⟩ := exists_mk_of_nodeOf hr rfl hnode
  have hlogging : u.members.zipIdx.find? (fun p => p.1.name == "Logging") =
      some (⟨"Logging", .reference (.concept logging), true, true⟩, 0) := by
    rw [hmembers]
    rfl
  have hproperty : u.members.zipIdx.find? (fun p => p.1.name == "Property") =
      some (⟨"Property", .reference (.concept property), true, false⟩, 1) := by
    rw [hmembers]
    rfl
  have hl : (MemberKind.reference (.concept logging)).accepts (.referenceTo l) = true := hl
  have hp : (MemberKind.reference (.concept property)).accepts (.referenceTo p) = true := hp
  rw [loggedProperty, hnode, ok_bind, hnew, (Node.put_eq_ok hlogging).mpr ⟨hl, rfl⟩, ok_bind]
  exact ⟨_, (Node.put_eq_ok hproperty).mpr ⟨hp, rfl⟩⟩

end Rules

end Sample

end ConceptScript
