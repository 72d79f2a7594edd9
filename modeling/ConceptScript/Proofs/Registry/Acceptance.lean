import ConceptScript.Proofs.Acyclic
import ConceptScript.Proofs.Registry.Width
import ConceptScript.Proofs.Registry.Order

namespace ConceptScript.Registry

open Relation (TransGen ReflTransGen)

section Declared

variable (declared : List Declaration)

/-- A declaration and the one that its base names. -/
def Extends (d e : Declaration) : Prop := e ∈ declared ∧ d.base? = some e.name

/-- The members of the bases of a declaration from the root on, and then its own. -/
inductive Flattened : Declaration → List Member → Prop
  | root {d : Declaration} : d.base? = none → Flattened d d.members
  | derived {d e : Declaration} {ms : List Member} :
    Extends declared d e → Flattened e ms → Flattened d (ms ++ d.members)

/-- A declaration that is no interface and one that a member of its key refers to, be it a member
of its own or an inherited one. -/
def KeyRefers (d e : Declaration) : Prop :=
  e ∈ declared ∧ d.isInterface = false ∧ ∃ ms, Flattened declared d ms ∧
    ∃ m ∈ ms, m.isKey = true ∧ m.kind = .reference (.concept e.name)

/-- Declarations that make a registry. -/
structure WellFormed : Prop where
  names_nodup : (declared.map Declaration.name).Nodup
  interface_bare : ∀ d ∈ declared, d.isInterface = true →
    d.members = [] ∧ d.keyword? = none ∧ d.base? = none
  base_declared : ∀ d ∈ declared, ∀ b, d.base? = some b →
    ∃ e ∈ declared, e.name = b ∧ e.isInterface = false
  bases_acyclic : ∀ d ∈ declared, ¬TransGen (Extends declared) d d
  derived_plain : ∀ d ∈ declared, d.base?.isSome = true →
    ∀ m ∈ d.members, m.isKey = false ∧ m.isParent = false
  members_distinct : ∀ d ∈ declared, ∀ ms, Flattened declared d ms →
    (ms.map Member.name).Nodup ∧ ∀ m ∈ ms.tail, m.isParent = false
  interface_declared : ∀ d ∈ declared, ∀ i ∈ d.interfaces,
    ∃ e ∈ declared, e.name = i ∧ e.isInterface = true
  target_declared : ∀ d ∈ declared, ∀ m ∈ d.members, ∀ name,
    m.kind.target? = some (.concept name) → ∃ e ∈ declared, e.name = name
  keys_acyclic : ∀ d ∈ declared, ¬TransGen (KeyRefers declared) d d

/-- A shape with the name of a declaration and the members that it inherits. -/
structure Forms (d : Declaration) (s : Shape) : Prop where
  name_eq : s.name = d.name
  isInterface_eq : s.isInterface = d.isInterface
  flattened : Flattened declared d s.members

end Declared

variable {declared : List Declaration}

theorem isInterface_iff (hnames : (declared.map Declaration.name).Nodup) {name : String} :
    IsInterface declared name ↔ ∃ e ∈ declared, e.name = name ∧ e.isInterface = true := by
  simp only [IsInterface, find?_eq_some_iff hnames, and_assoc]

section Names

variable (hnames : (declared.map Declaration.name).Nodup)
include hnames

theorem Extends.unique {d e e' : Declaration} (h : Extends declared d e)
    (h' : Extends declared d e') : e = e' :=
  List.inj_on_of_nodup_map hnames h.1 h'.1 (Option.some.inj (h.2.symm.trans h'.2))

theorem Flattened.unique {d : Declaration} {ms ms' : List Member} (h : Flattened declared d ms)
    (h' : Flattened declared d ms') : ms = ms' := by
  induction h generalizing ms' with
  | root hb =>
    cases h' with
    | root _ => rfl
    | derived he _ => simp [he.2] at hb
  | derived he _ ih =>
    cases h' with
    | root hb => simp [he.2] at hb
    | derived he' h' =>
      obtain rfl := he.unique hnames he'
      rw [ih h']

/-- All bases of a declaration come from the pool. -/
theorem Inherits.mem_of_extends {pool : List Declaration} {d : Declaration} {s : Shape}
    (h : Inherits declared pool d s) (hpool : pool ⊆ declared) {e : Declaration}
    (he : TransGen (Extends declared) d e) : e ∈ pool := by
  induction h with
  | root hb _ _ _ _ _ _ =>
    obtain ⟨e', hstep, _⟩ := Relation.TransGen.head'_iff.mp he
    simp [hstep.2] at hb
  | @derived pool d base s b hb hf _ _ _ _ _ _ _ _ _ ih =>
    have hbase := List.mem_of_find?_eq_some hf
    have hsub := (without_sublist Declaration.name pool base.name).subset
    obtain ⟨e', hstep, hrest⟩ := Relation.TransGen.head'_iff.mp he
    obtain rfl := hstep.unique hnames ⟨hpool hbase, hb⟩
    rcases Relation.reflTransGen_iff_eq_or_transGen.mp hrest with rfl | hrest
    · exact hbase
    · exact hsub (ih (List.Subset.trans hsub hpool) hrest)

end Names

theorem Inherits.forms {pool : List Declaration} {d : Declaration} {s : Shape}
    (h : Inherits declared pool d s) (hpool : pool ⊆ declared) : Forms declared d s := by
  induction h with
  | root hb hm _ _ hn hi _ => exact ⟨hn, hi, hm ▸ .root hb⟩
  | @derived pool d base s b hb hf _ _ _ hm _ _ hn hi _ ih =>
    have hsub := (without_sublist Declaration.name pool base.name).subset
    have hbase := ih (List.Subset.trans hsub hpool)
    exact ⟨hn, hi, hm ▸ .derived ⟨hpool (List.mem_of_find?_eq_some hf), hb⟩ hbase.flattened⟩

theorem Flattened.own_subset {d : Declaration} {ms : List Member} (h : Flattened declared d ms) :
    d.members ⊆ ms := by
  cases h with
  | root _ => exact List.Subset.refl _
  | derived _ _ => exact List.subset_append_right _ _

theorem Flattened.exists_declaration {d : Declaration} (hd : d ∈ declared) {ms : List Member}
    (h : Flattened declared d ms) {m : Member} (hm : m ∈ ms) :
    ∃ e ∈ declared, m ∈ e.members := by
  induction h with
  | @root d _ => exact ⟨d, hd, hm⟩
  | @derived d e ms he _ ih =>
    rcases List.mem_append.mp hm with hm | hm
    · exact ih he.1 hm
    · exact ⟨d, hd, hm⟩

theorem Inherits.implemented {pool : List Declaration} {d : Declaration} {s : Shape}
    (h : Inherits declared pool d s) : ∀ i ∈ d.interfaces, IsInterface declared i := by
  cases h with
  | root _ _ _ ha _ _ _ => exact exists_implement_iff.mp ⟨_, ha⟩
  | derived _ _ _ _ _ _ _ ha _ _ _ => exact exists_implement_iff.mp ⟨_, ha⟩

section Shapes

variable {shapes : List Shape} (hnames : (declared.map Declaration.name).Nodup)
  (hs : List.Forall₂ (Forms declared) declared shapes)
include hs

theorem names_of_forms : shapes.map Shape.name = declared.map Declaration.name :=
  (map_eq_map_of_forall₂ hs fun _ _ h => h.name_eq.symm).symm

theorem checkTargets_iff_declared :
    checkTargets shapes (shapes.flatMap fun s => s.members.map fun m => (s, m)) = .ok () ↔
      ∀ d ∈ declared, ∀ m ∈ d.members, ∀ name, m.kind.target? = some (.concept name) →
        ∃ e ∈ declared, e.name = name := by
  have hdangling (m : Member) : danglingTarget? shapes m = none ↔
      ∀ name, m.kind.target? = some (.concept name) → ∃ e ∈ declared, e.name = name := by
    have hany (name : String) :
        (shapes.any fun s => s.name == name) = true ↔ ∃ e ∈ declared, e.name = name := by
      rw [← List.mem_map, ← names_of_forms hs, List.any_eq_true, List.mem_map]
      simp
    unfold danglingTarget?
    split
    · next name hm =>
      simp only [hm, Option.some.injEq, Target.concept.injEq, forall_eq', ← hany]
      split <;> simp_all
    · next hm => simpa using fun name h => absurd h (hm name)
  rw [checkTargets_eq_ok_iff]
  constructor
  · intro h d hd m hm
    obtain ⟨s, hmem, hf⟩ := exists_of_forall₂_right hs.flip hd
    refine (hdangling m).mp (h (s, m) ?_)
    exact List.mem_flatMap.mpr ⟨s, hmem, List.mem_map_of_mem (hf.flattened.own_subset hm)⟩
  · intro h p hp
    obtain ⟨s, hmem, hp⟩ := List.mem_flatMap.mp hp
    obtain ⟨m, hm, rfl⟩ := List.mem_map.mp hp
    obtain ⟨d, hd, hf⟩ := exists_of_forall₂_right hs hmem
    obtain ⟨e, he, hown⟩ := hf.flattened.exists_declaration hd hm
    exact (hdangling m).mpr (h e he m hown)

include hnames

/-- The keys of shapes lead where those of the declarations refer to. -/
theorem acyclic_iff : (∀ s ∈ shapes, ¬TransGen (KeyLeads shapes) s s) ↔
    ∀ d ∈ declared, ¬TransGen (KeyRefers declared) d d := by
  have hnames' : (shapes.map Shape.name).Nodup := names_of_forms hs ▸ hnames
  have hleads (d e : Declaration) (s : Shape) (hf : s ∈ shapes ∧ Forms declared d s)
      (hde : KeyRefers declared d e) :
      ∃ t, (t ∈ shapes ∧ Forms declared e t) ∧ KeyLeads shapes s t := by
    obtain ⟨he, hi, ms, hms, m, hm, hk, hkind⟩ := hde
    obtain rfl := hms.unique hnames hf.2.flattened
    obtain ⟨t, ht, hft⟩ := exists_of_forall₂_right hs.flip he
    exact ⟨t, ⟨ht, hft⟩, ht, hf.2.isInterface_eq.trans hi, m, List.mem_filter.mpr ⟨hm, hk⟩,
      hft.name_eq ▸ hkind⟩
  have hrefers (s t : Shape) (d : Declaration) (hf : d ∈ declared ∧ Forms declared d s)
      (hst : KeyLeads shapes s t) :
      ∃ e, (e ∈ declared ∧ Forms declared e t) ∧ KeyRefers declared d e := by
    obtain ⟨ht, hi, m, hm, hkind⟩ := hst
    obtain ⟨hm, hk⟩ := List.mem_filter.mp hm
    obtain ⟨e, he, hfe⟩ := exists_of_forall₂_right hs ht
    exact ⟨e, ⟨he, hfe⟩, he, hf.2.isInterface_eq ▸ hi, s.members, hf.2.flattened, m, hm, hk,
      hfe.name_eq ▸ hkind⟩
  constructor
  · intro h d hd hcycle
    obtain ⟨s, hmem, hf⟩ := exists_of_forall₂_right hs.flip hd
    obtain ⟨t, ⟨ht, hft⟩, hst⟩ := exists_path hleads ⟨hmem, hf⟩ hcycle
    obtain rfl := List.inj_on_of_nodup_map hnames' ht hmem (hft.name_eq.trans hf.name_eq.symm)
    exact h t ht hst
  · intro h s hmem hcycle
    obtain ⟨d, hd, hf⟩ := exists_of_forall₂_right hs hmem
    obtain ⟨e, ⟨he, hfe⟩, hde⟩ := exists_path hrefers ⟨hd, hf⟩ hcycle
    obtain rfl := List.inj_on_of_nodup_map hnames he hd (hfe.name_eq.symm.trans hf.name_eq)
    exact h e he hde

end Shapes

theorem without_subset (name : String) : without Declaration.name declared name ⊆ declared :=
  (without_sublist Declaration.name declared name).subset

theorem forms_of_shapeOf {d : Declaration} {s : Shape} (h : shapeOf declared d = .ok s) :
    Forms declared d s :=
  (inherits_of_inherit h).forms (without_subset d.name)

theorem forms_of_shapesOf {shapes : List Shape} (h : shapesOf declared = .ok shapes) :
    List.Forall₂ (Forms declared) declared shapes :=
  (shapesOf_eq_ok.mp h).2.1.imp fun _ _ hds => forms_of_shapeOf hds

/-- Declarations with shapes are well formed, if their keys do not lead back to themselves. -/
theorem wellFormed_of_shapesOf {shapes : List Shape} (h : shapesOf declared = .ok shapes)
    (hacyclic : ∀ s ∈ shapes, ¬TransGen (KeyLeads shapes) s s) : WellFormed declared := by
  obtain ⟨hd, hs, ht⟩ := shapesOf_eq_ok.mp h
  obtain ⟨hnames, _, hbare⟩ := checkDeclarations_eq_ok_iff.mp hd
  have hforms := forms_of_shapesOf h
  have hshape (d : Declaration) (hd : d ∈ declared) :
      ∃ s, Inherits declared (without Declaration.name declared d.name) d s := by
    obtain ⟨s, _, hds⟩ := exists_of_forall₂_right hs.flip hd
    exact ⟨s, inherits_of_inherit hds⟩
  exact {
    names_nodup := hnames
    interface_bare := hbare
    base_declared := by
      intro d hd b hb
      obtain ⟨s, hi⟩ := hshape d hd
      cases hi with
      | root hb' _ _ _ _ _ _ => simp [hb] at hb'
      | @derived _ _ base _ _ hb' hf _ hbase _ _ _ _ _ _ _ =>
        have hname : base.name = b := Option.some.inj (hb'.symm.trans hb)
        exact ⟨base, without_subset d.name (List.mem_of_find?_eq_some hf), hname, hbase⟩
    bases_acyclic := by
      intro d hd hcycle
      obtain ⟨s, hi⟩ := hshape d hd
      simpa [without] using hi.mem_of_extends hnames (without_subset d.name) hcycle
    derived_plain := by
      intro d hd hb
      obtain ⟨s, hi⟩ := hshape d hd
      cases hi with
      | root hb' _ _ _ _ _ _ => simp [hb'] at hb
      | derived _ _ _ _ hplain _ _ _ _ _ _ => exact hplain
    members_distinct := by
      intro d hd ms hms
      obtain ⟨s, hi⟩ := hshape d hd
      obtain rfl := hms.unique hnames (hi.forms (without_subset d.name)).flattened
      exact checkMembers_eq_ok_iff.mp hi.members_checked
    interface_declared := by
      intro d hd i hi
      obtain ⟨s, hs⟩ := hshape d hd
      exact (isInterface_iff hnames).mp (hs.implemented i hi)
    target_declared := (checkTargets_iff_declared hforms).mp ht
    keys_acyclic := (acyclic_iff hnames hforms).mp hacyclic }

theorem wellFormed_of_build {r : Registry} (h : build declared = .ok r) : WellFormed declared := by
  obtain ⟨shapes, known, hs, hk, _⟩ := buildWith_eq_ok.mp h
  exact wellFormed_of_shapesOf hs
    ((exists_aritiesOf_wrapping (selfContained_of_shapesOf hs)).mp ⟨known, hk⟩)

namespace WellFormed

variable (h : WellFormed declared)
include h

end WellFormed

end ConceptScript.Registry
