import ConceptScript.Proofs.Sample.Rendering
import ConceptScript.Text.Suffix

namespace ConceptScript.Sample

/-- The kinds of concepts that an outline is written for. -/
inductive Role where
  | start
  | module
  | dataStructure
  | property
  | required
  | unique
  | description
  deriving DecidableEq

def nameMember : Member := ⟨"Name", .identifier, true, false⟩

namespace Role

def all : List Role := [start, module, dataStructure, property, required, unique, description]

theorem mem_all (ρ : Role) : ρ ∈ all := by
  cases ρ <;> decide

def type : Role → String
  | start => initialization
  | module => Sample.module
  | dataStructure => Sample.dataStructure
  | property => Sample.property
  | required => Sample.required
  | unique => Sample.unique
  | description => Sample.description

/-- The role of what a concept of the role is in, and the name of the member that says so. -/
def parent? : Role → Option Member
  | start => none
  | module => none
  | dataStructure => some ⟨"Module", .reference (.concept Sample.module), true, true⟩
  | property => some ⟨"DataStructure", .reference (.concept Sample.dataStructure), true, true⟩
  | required => some ⟨"Property", .reference (.concept Sample.property), true, true⟩
  | unique => some ⟨"DataStructure", .reference (.concept Sample.dataStructure), true, true⟩
  | description => some ⟨"Target", .reference .any, true, true⟩

/-- The member that tells the concepts of one owner apart. -/
def own? : Role → Option Member
  | start => none
  | module => some nameMember
  | dataStructure => some nameMember
  | property => some nameMember
  | required => none
  | unique => some ⟨"Properties", .list (.concept Sample.property), true, false⟩
  | description => some ⟨"Text", .text, true, false⟩

def keys (ρ : Role) : List Member := ρ.parent?.toList ++ ρ.own?.toList

end Role

def role? (t : ConceptType) : Option Role := Role.all.find? fun ρ => t.isA ρ.type

def sourceMember : Member := ⟨"Source", .reference (.concept dataStructure), false, false⟩

def referencedMember : Member := ⟨"Referenced", .reference (.concept dataStructure), false, false⟩

/-- The members behind the key. -/
def extras (t : ConceptType) : List Member :=
  if t.name = browse then [sourceMember]
  else if t.name = referenceProperty then [referencedMember]
  else []

theorem extras_of_browse {t : ConceptType} (h : t.name = browse) : extras t = [sourceMember] :=
  if_pos h

theorem extras_of_reference {t : ConceptType} (h : t.name = referenceProperty) :
    extras t = [referencedMember] := by
  rw [extras, h]
  rfl

theorem extras_of_other {t : ConceptType} (h : t.name ≠ referenceProperty) :
    extras t ⊆ [sourceMember] := by
  rw [extras, if_neg h]
  split <;> simp

/-- The labels of the types are their names without the usual endings. -/
def hasLabel (t : ConceptType) : Role → Bool
  | .dataStructure =>
    (Text.trimEnding (Text.trimEnding t.name "Info") "Property").toLower == structureLabel t.name
  | .property => Text.trimEnding (Text.trimEnding t.name "Info") "Property" == propertyLabel t.name
  | _ => true

/-- A member of the key with a part of its own. -/
def hasPart (t : ConceptType) : Bool :=
  t.members.any fun m => m.isKey && match m.kind with
    | .reference _ => false
    | _ => true

/-- A name of letters only. -/
structure Word (s : String) : Prop where
  ne_empty : s ≠ ""
  isAlpha : ∀ {c : Char}, c ∈ s.toList → c.isAlpha = true

def isWord (s : String) : Bool := s != "" && s.toList.all Char.isAlpha

theorem word_of_check {s : String} (h : isWord s = true) : Word s := by
  rw [isWord, Bool.and_eq_true, List.all_eq_true] at h
  exact ⟨by simpa using h.1, fun {c} hc => h.2 c hc⟩

theorem Word.not_mem {s : String} (h : Word s) {c : Char} (hc : c.isAlpha = false) :
    c ∉ s.toList := by
  intro hmem
  exact absurd (h.isAlpha hmem) (by simp [hc])

/-- What the name of a member tells about it. -/
structure LawfulMember (k : Member) : Prop where
  name : k.name = "Name" → k.kind = .identifier ∧ k.isKey = true
  target : k.name ∈ ["Source", "Referenced"] → k.kind = .reference (.concept dataStructure)
  properties : k.name = "Properties" → k.kind = .list (.concept property)
  list : ∀ target, k.kind = .list target → target = .concept property

def isLawfulMember (k : Member) : Bool :=
  (k.name != "Name" || k.kind == .identifier && k.isKey) &&
  (!(["Source", "Referenced"].contains k.name) || k.kind == .reference (.concept dataStructure)) &&
  (k.name != "Properties" || k.kind == .list (.concept property)) &&
  match k.kind with
  | .list target => target == .concept property
  | _ => true

theorem lawfulMember_of_check {k : Member} (h : isLawfulMember k = true) : LawfulMember k := by
  simp only [isLawfulMember, Bool.and_eq_true] at h
  obtain ⟨⟨⟨hname, htarget⟩, hproperties⟩, hlist⟩ := h
  refine ⟨fun hk => ?_, fun hk => ?_, fun hk => ?_, fun target hk => ?_⟩
  · simpa [hk] using hname
  · rw [List.contains_iff_mem.mpr hk] at htarget
    exact eq_of_beq htarget
  · simpa [hk] using hproperties
  · simpa [hk] using hlist

/-- What is used of a type of the language. -/
structure Lawful (t : ConceptType) : Prop where
  name : Word t.name
  root : Word t.root
  ancestors_nodup : t.ancestors.Nodup
  members : ∀ k ∈ t.members, LawfulMember k
  isA_iff : ∀ {ρ : Role}, t.isA ρ.type = true ↔ role? t = some ρ
  role : ∀ {ρ : Role}, role? t = some ρ →
    t.root = ρ.type ∧ t.members = ρ.keys ++ extras t ∧ hasLabel t ρ = true
  isA_browse : t.isA browse = true ↔ t.name = browse
  role_of_root : t.root = dataStructure → role? t = some .dataStructure
  initial : t.name = initialization →
    t.isA initialization = true ∧ t.members = [] ∧ t.root = initialization
  key : t.name ≠ initialization → hasPart t = true ∨ ∃ k ∈ t.members, k.isKey = true ∧
    ∃ x ∈ [entity, property], k.kind = .reference (.concept x)
  part : ∀ x ∈ [entity, property], t.isA x = true → hasPart t = true

theorem isKey_of_mem_extras {t : ConceptType} {k : Member} (hk : k ∈ extras t) :
    k.isKey = false := by
  unfold extras at hk
  split at hk
  · rw [List.mem_singleton.mp hk]
    rfl
  · split at hk
    · rw [List.mem_singleton.mp hk]
      rfl
    · cases hk

theorem Lawful.keys {t : ConceptType} (h : Lawful t) {ρ : Role} (hρ : role? t = some ρ) :
    t.root = ρ.type ∧ ∃ rest, t.members = ρ.keys ++ rest ∧ ∀ k ∈ rest, k.isKey = false :=
  ⟨(h.role hρ).1, extras t, (h.role hρ).2.1, fun _ => isKey_of_mem_extras⟩

def isLawful (t : ConceptType) : Bool :=
  isWord t.name && isWord t.root &&
  decide t.ancestors.Nodup &&
  t.members.all isLawfulMember &&
  (Role.all.all fun ρ => t.isA ρ.type == (role? t == some ρ)) &&
  (role? t).all (fun ρ =>
    t.root == ρ.type && (t.members == ρ.keys ++ extras t && hasLabel t ρ)) &&
  t.isA browse == (t.name == browse) &&
  (t.root != dataStructure || role? t == some .dataStructure) &&
  (t.name != initialization ||
    (t.isA initialization && t.members.isEmpty && t.root == initialization)) &&
  (t.name == initialization || hasPart t || t.members.any fun k => k.isKey &&
    [entity, property].any fun x => k.kind == .reference (.concept x)) &&
  [entity, property].all fun x => !t.isA x || hasPart t

theorem lawful_of_check {t : ConceptType} (h : isLawful t = true) : Lawful t := by
  simp only [isLawful, Bool.and_eq_true] at h
  obtain ⟨⟨⟨⟨⟨⟨⟨⟨⟨⟨hname, hroot⟩, hnodup⟩, hmembers⟩, hisA⟩, hroles⟩, hbrowse⟩, hrole⟩, hinitial⟩,
    hkey⟩, hpart⟩ := h
  refine ⟨word_of_check hname, word_of_check hroot, of_decide_eq_true hnodup, ?_, ?_, ?_, ?_, ?_,
    ?_, ?_, ?_⟩
  · exact fun k hk => lawfulMember_of_check (List.all_eq_true.mp hmembers k hk)
  · intro ρ
    rw [eq_of_beq (List.all_eq_true.mp hisA ρ ρ.mem_all), beq_iff_eq]
  · intro ρ hρ
    simpa only [hρ, Option.all_some, Bool.and_eq_true, beq_iff_eq] using hroles
  · rw [eq_of_beq hbrowse, beq_iff_eq]
  · intro hk
    simpa [hk] using hrole
  · intro hk
    simpa [hk, and_assoc] using hinitial
  · intro hk
    simpa [hk] using hkey
  · intro x hx hk
    simpa [hk] using List.all_eq_true.mp hpart x hx

/-- The check of the language. -/
theorem registry_checked : (registry.toOption.all fun r =>
    r.types.all isLawful && Role.all.all fun ρ => (r.find? ρ.type).isSome) = true := by
  decide +kernel

variable {r : Registry}

theorem lawful (hr : registry = .ok r) {t : ConceptType} (ht : t ∈ r.types) : Lawful t := by
  have hcheck := registry_checked
  rw [hr, Except.toOption, Option.all_some, Bool.and_eq_true] at hcheck
  exact lawful_of_check (List.all_eq_true.mp hcheck.1 t ht)

theorem isSome_find?_role (hr : registry = .ok r) (ρ : Role) : (r.find? ρ.type).isSome = true := by
  have hcheck := registry_checked
  rw [hr, Except.toOption, Option.all_some, Bool.and_eq_true] at hcheck
  exact List.all_eq_true.mp hcheck.2 ρ ρ.mem_all

end ConceptScript.Sample
