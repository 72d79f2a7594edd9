import ConceptScript.Proofs.Node.Identity
import ConceptScript.Proofs.Sample.Compilation
import ConceptScript.Sample.Outline

namespace ConceptScript

theorem Text.mem_intercalate {sep : String} {c : Char} (hc : c ∉ sep.toList)
    {parts : List String} :
    c ∈ (sep.intercalate parts).toList ↔ ∃ part ∈ parts, c ∈ part.toList := by
  induction parts with
  | nil => simp
  | cons part parts ih =>
    cases parts with
    | nil => simp
    | cons next parts =>
      rw [String.intercalate_cons_cons, String.toList_append, String.toList_append,
        List.mem_append, List.mem_append, ih]
      simp [hc]

theorem Node.Formed.exists_values {r : Registry} {n : Node} (h : n.Formed r)
    (hmissing : n.missing = []) {ms rest : List Member} (hms : n.type.members = ms ++ rest) :
    ∃ values vs, n.slots = values.map some ++ vs ∧ List.Forall₂ (Suits r) ms values := by
  have hset : ∀ p ∈ (ms ++ rest).zip n.slots, p.2 ≠ none := by
    rw [← hms]
    simpa [missing, members, List.filter_eq_nil_iff] using hmissing
  have hsuits := h.suits
  rw [hms] at hsuits
  clear hms
  generalize n.slots = slots at hset hsuits
  induction ms generalizing slots with
  | nil => exact ⟨[], slots, rfl, .nil⟩
  | cons m ms ih =>
    cases hsuits with
    | cons hfirst hrest =>
      next v slots =>
      obtain ⟨value, rfl⟩ := Option.ne_none_iff_exists'.mp (hset (m, v) (by simp))
      obtain ⟨values, vs, rfl, hvalues⟩ := ih _
        (fun p hp => hset p (List.mem_cons_of_mem _ hp)) hrest
      exact ⟨value :: values, vs, rfl, .cons (hfirst value rfl) hvalues⟩

namespace Sample

variable {r : Registry} {m : Model} {n : Node} {ρ : Role}

theorem qualified_eq_of_key_eq (hr : registry = .ok r) {a b : Node} (ha : a.type ∈ r.types)
    (hb : b.type ∈ r.types) (h : a.key = b.key) :
    a.type.root = b.type.root ∧ qualified a = qualified b := by
  have hspace {n : Node} (hn : n.type ∈ r.types) : ' ' ∉ n.type.root.toList :=
    (lawful hr hn).root.not_mem (by decide)
  exact Node.label_inj (hspace ha) (hspace hb) h

/-- The concept that another one is in, with the reference to it. -/
structure Owns (m : Model) (owner p n : Node) : Prop where
  parent : n.parent? = some p
  mem : owner ∈ m.concepts
  key_eq : owner.key = p.key
  root_eq : owner.type.root = p.type.root
  qualified_eq : qualified owner = qualified p

theorem Compiled.eq_of_key_eq (h : Compiled r m) {a b : Node} (ha : a ∈ m.concepts)
    (hb : b ∈ m.concepts) (hkey : a.key = b.key) : a = b :=
  List.inj_on_of_nodup_map h.reachable.indexed.keys_nodup ha hb hkey

/-- What a reference points at has the role that the type asks for. -/
theorem Compiled.exists_target_of_role (h : Compiled r m) (σ : Role) (hn : n ∈ m.concepts)
    {k : Member} {q : Node} (hq : (k, q) ∈ n.references)
    (hk : k.kind.target? = some (.concept σ.type)) :
    ∃ found ∈ m.concepts, role? found.type = some σ ∧ found.key = q.key ∧
      qualified found = qualified q := by
  obtain ⟨found, hfound, hkey, htarget⟩ := h.exists_target hn hq
  rw [hk, Option.getD_some] at htarget
  refine ⟨found, hfound, (h.lawful hfound).isA_iff.mp htarget, hkey, ?_⟩
  exact (qualified_eq_of_key_eq h.registry (h.formed found hfound).type_mem
    ((h.formed n hn).shaped_of_mem_references hq).type_mem hkey).2

theorem Compiled.parent?_of_module (h : Compiled r m) (hn : n ∈ m.concepts)
    (hρ : role? n.type = some .module) : n.parent? = none := by
  obtain ⟨_, rest, hmembers, _⟩ := (h.lawful hn).keys hρ
  have htype : n.type.parent? = none := by
    rw [Shape.parent?, hmembers]
    rfl
  rw [Node.parent?, htype]

theorem Compiled.exists_parent (h : Compiled r m) (hn : n ∈ m.concepts) {first : Member}
    {ms : List Member} {target : Target} (hmembers : n.type.members = first :: ms)
    (hparent : first.isParent = true) (hkind : first.kind = .reference target) :
    ∃ p owner vs, Owns m owner p n ∧ owner.type.satisfies target = true ∧
      (first, p) ∈ n.references ∧ n.slots = some (.reference p) :: vs := by
  have hcomplete := h.reachable.resolving.complete n hn
  obtain ⟨values, vs, hslots, hsuits⟩ := (h.formed n hn).exists_values hcomplete
    (hmembers.trans List.singleton_append.symm)
  obtain ⟨value, values, hvalue, hend, rfl⟩ := List.forall₂_cons_left_iff.mp hsuits
  obtain rfl := List.forall₂_nil_left_iff.mp hend
  have haccepts := hvalue.accepts
  rw [hkind] at haccepts
  obtain ⟨p, rfl, _⟩ := Node.exists_reference_of_accepts haccepts
  have hp : n.parent? = some p := by
    have htype : n.type.parent? = some first := by
      rw [Shape.parent?, hmembers]
      simp [Option.filter, hparent]
    rw [Node.parent?, htype, hslots]
    rfl
  have hmem : (first, some (.reference p)) ∈ n.members := by
    rw [Node.members, hmembers, hslots]
    exact List.mem_cons_self
  have hreference := Node.mem_references hmem (List.mem_singleton_self p)
  obtain ⟨owner, howner, hsame, htarget⟩ := h.exists_target hn hreference
  rw [hkind] at htarget
  obtain ⟨hroot, hqualified⟩ := qualified_eq_of_key_eq h.registry (h.formed owner howner).type_mem
    ((h.formed n hn).shaped_of_mem_references hreference).type_mem hsame
  exact ⟨p, owner, vs, ⟨hp, howner, hsame, hroot, hqualified⟩, htarget, hreference, hslots⟩

section Owner

variable (h : Compiled r m) (hn : n ∈ m.concepts) (hρ : role? n.type = some ρ)
include h hn hρ

theorem Compiled.exists_values : ∃ values vs, n.slots = values.map some ++ vs ∧
    List.Forall₂ (Node.Suits r) ρ.keys values ∧ n.keyParts = Node.slotParts ρ.keys n.slots := by
  have hformed := h.formed n hn
  obtain ⟨_, rest, hmembers, hrest⟩ := (h.lawful hn).keys hρ
  obtain ⟨values, vs, hslots, hsuits⟩ :=
    hformed.exists_values (h.reachable.resolving.complete n hn) hmembers
  refine ⟨values, vs, hslots, hsuits, ?_⟩
  rw [Node.keyParts_eq, hmembers, Node.slotParts_append hrest]

theorem Compiled.exists_owner {parent : Member} (hparent : ρ.parent? = some parent) :
    ∃ p owner, Owns m owner p n ∧
      owner.type.satisfies (parent.kind.target?.getD .any) = true ∧ (parent, p) ∈ n.references ∧
      n.keyParts = p.keyParts ++ Node.slotParts ρ.own?.toList n.slots.tail := by
  obtain ⟨_, rest, hmembers, _⟩ := (h.lawful hn).keys hρ
  obtain ⟨_, _, _, _, hparts⟩ := h.exists_values hn hρ
  obtain ⟨target, hkind, hkey, hisParent⟩ : ∃ target, parent.kind = .reference target ∧
      parent.isKey = true ∧ parent.isParent = true := by
    cases ρ <;> simp_all [Role.parent?] <;> simp [← hparent]
  rw [Role.keys, hparent, Option.toList_some, List.singleton_append] at hparts hmembers
  obtain ⟨p, owner, vs, howns, htarget, hreference, hslots⟩ :=
    h.exists_parent hn hmembers hisParent hkind
  refine ⟨p, owner, howns, ?_, hreference, ?_⟩
  · rw [hkind]
    exact htarget
  · rw [hparts, hslots, Node.slotParts_cons hkey]
    rfl

theorem Compiled.exists_owner_of_role (σ : Role) {parent : Member}
    (hparent : ρ.parent? = some parent) (hkind : parent.kind = .reference (.concept σ.type)) :
    ∃ p owner, Owns m owner p n ∧ role? owner.type = some σ ∧ (parent, p) ∈ n.references ∧
      n.keyParts = p.keyParts ++ Node.slotParts ρ.own?.toList n.slots.tail := by
  obtain ⟨p, owner, howns, htarget, hrest⟩ := h.exists_owner hn hρ hparent
  rw [hkind] at htarget
  exact ⟨p, owner, howns, (h.lawful howns.mem).isA_iff.mp htarget, hrest⟩

/-- A named concept: its name ends its key. -/
theorem Compiled.keyParts_of_named (hown : ρ.own? = some nameMember) :
    n.keyParts = n.parent?.toList.flatMap Node.keyParts ++ [nameOf n] := by
  obtain ⟨_, rest, hmembers, _⟩ := (h.lawful hn).keys hρ
  obtain ⟨values, vs, hslots, hsuits, hparts⟩ := h.exists_values hn hρ
  cases hparent : ρ.parent? with
  | none =>
    rw [Role.keys, hparent, hown] at hsuits hparts hmembers
    obtain ⟨value, values, hvalue, hvalues, rfl⟩ := List.forall₂_cons_left_iff.mp hsuits
    obtain rfl := List.forall₂_nil_left_iff.mp hvalues
    obtain ⟨s, rfl⟩ := Node.exists_text_of_accepts rfl hvalue.accepts
    have hname : nameOf n = s := by
      simp [nameOf, Node.text?, Node.get?, Node.members, hmembers, hslots, nameMember]
    obtain rfl : ρ = .module := by cases ρ <;> simp_all [Role.parent?, Role.own?]
    rw [hparts, hslots, hname, h.parent?_of_module hn hρ]
    simp [Node.slotParts, Node.valueParts, nameMember]
  | some parent =>
    have hother : (parent.name == "Name") = false := by
      cases ρ <;> simp_all [Role.parent?] <;> simp [← hparent]
    obtain ⟨p, owner, howns, _, _, hpowned⟩ := h.exists_owner hn hρ hparent
    rw [Role.keys, hparent, hown] at hsuits hmembers
    obtain ⟨first, values, _, hvalues, rfl⟩ := List.forall₂_cons_left_iff.mp hsuits
    obtain ⟨value, values, hvalue, hend, rfl⟩ := List.forall₂_cons_left_iff.mp hvalues
    obtain rfl := List.forall₂_nil_left_iff.mp hend
    obtain ⟨s, rfl⟩ := Node.exists_text_of_accepts rfl hvalue.accepts
    have hname : nameOf n = s := by
      simp [nameOf, Node.text?, Node.get?, Node.members, hmembers, hslots, hother, nameMember]
    rw [hpowned, hslots, hname, howns.parent, hown]
    simp [Node.slotParts, Node.valueParts, nameMember]

theorem Compiled.key_of_named (hown : ρ.own? = some nameMember) :
    n.key = ρ.type ++ " " ++ qualified n := by
  have hroot := ((h.lawful hn).keys hρ).1
  rw [Node.key_of_keyParts_ne_nil (by simp [h.keyParts_of_named hn hρ hown]), hroot]
  rfl

end Owner

/-- Two concepts of a role that are named alike are one. -/
theorem Compiled.eq_of_qualified_eq (h : Compiled r m) (hown : ρ.own? = some nameMember)
    {a b : Node} (ha : a ∈ m.concepts) (hb : b ∈ m.concepts) (hρa : role? a.type = some ρ)
    (hρb : role? b.type = some ρ) (hq : qualified a = qualified b) : a = b :=
  h.eq_of_key_eq ha hb (by rw [h.key_of_named ha hρa hown, h.key_of_named hb hρb hown, hq])

theorem Compiled.keyParts_of_module (h : Compiled r m) (hn : n ∈ m.concepts)
    (hρ : role? n.type = some .module) : n.keyParts = [nameOf n] := by
  rw [h.keyParts_of_named hn hρ rfl, h.parent?_of_module hn hρ]
  rfl

theorem Compiled.exists_module (h : Compiled r m) (hn : n ∈ m.concepts)
    (hρ : role? n.type = some .dataStructure) :
    ∃ p home, Owns m home p n ∧ role? home.type = some .module ∧
      qualified n = nameOf home ++ "." ++ nameOf n := by
  obtain ⟨p, home, howns, hhome, _⟩ := h.exists_owner_of_role hn hρ .module rfl rfl
  have hparts := h.keyParts_of_module howns.mem hhome
  have hne : p.keyParts ≠ [] := by
    have hkey := howns.key_eq
    rw [Node.key, Node.key, howns.root_eq, Node.label_eq_label_iff, hparts] at hkey
    simpa using hkey.2
  refine ⟨p, home, howns, hhome, ?_⟩
  calc qualified n
      = ".".intercalate (p.keyParts ++ [nameOf n]) := by
        rw [qualified, h.keyParts_of_named hn hρ rfl, howns.parent, Option.toList_some,
          List.flatMap_singleton]
    _ = qualified p ++ "." ++ nameOf n := by
        rw [String.intercalate_append_of_ne_nil hne (by simp), String.intercalate_singleton]
        rfl
    _ = nameOf home ++ "." ++ nameOf n := by
        rw [← howns.qualified_eq, qualified, hparts, String.intercalate_singleton]

theorem Compiled.not_mem_qualified (h : Compiled r m) {c : Char} (hc : c ≠ '.')
    (hnames : ∀ n ∈ m.concepts, c ∉ (nameOf n).toList) (hn : n ∈ m.concepts)
    (hρ : role? n.type = some ρ) (hown : ρ.own? = some nameMember) :
    c ∉ (qualified n).toList := by
  have hdot : c ∉ ".".toList := by simpa using hc
  -- The parts of the owner are those of the reference, joined in one text.
  have hstep {n owner p : Node} {ρ : Role} (hn : n ∈ m.concepts) (hρ : role? n.type = some ρ)
      (hown : ρ.own? = some nameMember) (howns : Owns m owner p n)
      (howner : c ∉ (qualified owner).toList) : c ∉ (qualified n).toList := by
    rw [howns.qualified_eq, qualified, Text.mem_intercalate hdot] at howner
    rw [qualified, Text.mem_intercalate hdot, h.keyParts_of_named hn hρ hown, howns.parent]
    simpa [or_and_right, exists_or, hnames n hn] using howner
  have hmodule {n : Node} (hn : n ∈ m.concepts) (hρ : role? n.type = some .module) :
      c ∉ (qualified n).toList := by
    rw [qualified, h.keyParts_of_module hn hρ, String.intercalate_singleton]
    exact hnames n hn
  have hstructure {n : Node} (hn : n ∈ m.concepts) (hρ : role? n.type = some .dataStructure) :
      c ∉ (qualified n).toList := by
    obtain ⟨p, owner, howns, howner, _⟩ := h.exists_owner_of_role hn hρ .module rfl rfl
    exact hstep hn hρ rfl howns (hmodule howns.mem howner)
  cases ρ with
  | module => exact hmodule hn hρ
  | dataStructure => exact hstructure hn hρ
  | property =>
    obtain ⟨p, owner, howns, howner, _⟩ :=
      h.exists_owner_of_role hn hρ .dataStructure rfl rfl
    exact hstep hn hρ rfl howns (hstructure howns.mem howner)
  | start => cases hown
  | required => cases hown
  | unique => simp [Role.own?, nameMember] at hown
  | description => simp [Role.own?, nameMember] at hown

end Sample

end ConceptScript
