import ConceptScript.Generation
import ConceptScript.Proofs.Expansion.Run
import ConceptScript.Proofs.Registry.Acceptance

namespace ConceptScript

open Relation (TransGen ReflTransGen)

namespace Registry

variable {declared : List Declaration}

theorem mem_implement_iff {name : String} {interfaces ancestors all : List String}
    (h : implement declared name ancestors interfaces = .ok all) {a : String} :
    a ∈ all ↔ a ∈ ancestors ∨ a ∈ interfaces := by
  induction interfaces generalizing ancestors with
  | nil =>
    obtain rfl := Except.ok.inj h
    simp
  | cons i is ih =>
    rw [implement] at h
    split at h
    · cases h
    · split at h
      · cases h
      · rw [ih h, List.mem_cons]
        split
        · next hc =>
          have hi : i ∈ ancestors := by simpa using hc
          grind
        · rw [List.mem_append, List.mem_singleton, or_assoc]

/-- The ancestors are the names along the bases, and what is implemented on the way. -/
theorem Inherits.mem_ancestors_iff (hnames : (declared.map Declaration.name).Nodup)
    {pool : List Declaration} (hpool : pool ⊆ declared) {d : Declaration} {s : Shape}
    (h : Inherits declared pool d s) {a : String} :
    a ∈ s.ancestors ↔
      ∃ e, ReflTransGen (Extends declared) d e ∧ (a = e.name ∨ a ∈ e.interfaces) := by
  induction h with
  | @root pool d s hb _ _ ha _ _ _ =>
    rw [mem_implement_iff ha, List.mem_singleton]
    constructor
    · intro hmem
      exact ⟨d, .refl, hmem⟩
    · rintro ⟨e, hpath, hmem⟩
      rcases Relation.ReflTransGen.cases_head hpath with rfl | ⟨e', hstep, _⟩
      · exact hmem
      · simp [hstep.2] at hb
  | @derived pool d base s b hb hf _ _ _ _ _ ha _ _ _ ih =>
    have hstep : Extends declared d base := ⟨hpool (List.mem_of_find?_eq_some hf), hb⟩
    have hsub := (without_sublist Declaration.name pool base.name).subset
    rw [mem_implement_iff ha, List.mem_cons, ih (List.Subset.trans hsub hpool)]
    constructor
    · rintro ((rfl | ⟨e, hpath, hmem⟩) | hmem)
      · exact ⟨d, .refl, .inl rfl⟩
      · exact ⟨e, .head hstep hpath, hmem⟩
      · exact ⟨d, .refl, .inr hmem⟩
    · rintro ⟨e, hpath, hmem⟩
      rcases Relation.ReflTransGen.cases_head hpath with rfl | ⟨e', hstep', hpath⟩
      · exact hmem.imp_left .inl
      · obtain rfl := hstep'.unique hnames hstep
        exact .inl (.inr ⟨e, hpath, hmem⟩)

theorem mem_of_path {d e : Declaration} (hd : d ∈ declared)
    (h : ReflTransGen (Extends declared) d e) : e ∈ declared := by
  cases h with
  | refl => exact hd
  | tail _ hstep => exact hstep.1

/-- The type that a registry makes of a declaration. -/
structure Declares (declared : List Declaration) (d : Declaration) (t : ConceptType) : Prop where
  mem : d ∈ declared
  inherits : Inherits declared (without Declaration.name declared d.name) d t.toShape

theorem Declares.forms {d : Declaration} {t : ConceptType} (h : Declares declared d t) :
    Forms declared d t.toShape :=
  h.inherits.forms (without_subset d.name)

section Built

variable {r : Registry} (h : build declared = .ok r)
include h

theorem exists_declares {t : ConceptType} (ht : t ∈ r.types) : ∃ d, Declares declared d t := by
  obtain ⟨d, hd, hi⟩ := inherits_of_mem_types h ht
  exact ⟨d, hd, hi⟩

theorem Declares.isA_iff {d : Declaration} {t : ConceptType} (hd : Declares declared d t)
    {name : String} : t.isA name = true ↔
      ∃ e, ReflTransGen (Extends declared) d e ∧ (name = e.name ∨ name ∈ e.interfaces) := by
  rw [ConceptType.isA, List.contains_iff_mem]
  exact hd.inherits.mem_ancestors_iff (wellFormed_of_build h).names_nodup (without_subset d.name)

theorem Declares.path_of_isA {d e : Declaration} {t u : ConceptType} (hd : Declares declared d t)
    (he : Declares declared e u) (hisA : t.isA u.name = true) (hi : u.isInterface = false) :
    ReflTransGen (Extends declared) d e := by
  have hw := wellFormed_of_build h
  have hname : u.name = e.name := he.forms.name_eq
  obtain ⟨f, hpath, heq | himplements⟩ := (hd.isA_iff h).mp hisA
  · have hf := mem_of_path hd.mem hpath
    obtain rfl := List.inj_on_of_nodup_map hw.names_nodup hf he.mem (heq.symm.trans hname)
    exact hpath
  · obtain ⟨f', hf', hname', hinterface⟩ :=
      hw.interface_declared f (mem_of_path hd.mem hpath) _ himplements
    obtain rfl := List.inj_on_of_nodup_map hw.names_nodup hf' he.mem (hname'.trans hname)
    rw [← he.forms.isInterface_eq, hi] at hinterface
    cases hinterface

/-- What a type is taken for is handed on by its bases. -/
theorem isA_of_isA {t u : ConceptType} (ht : t ∈ r.types) (hu : u ∈ r.types)
    (htu : t.isA u.name = true) (hi : u.isInterface = false) {name : String}
    (huw : u.isA name = true) : t.isA name = true := by
  obtain ⟨d, hd⟩ := exists_declares h ht
  obtain ⟨e, he⟩ := exists_declares h hu
  have hpath := hd.path_of_isA h he htu hi
  obtain ⟨f, hpath', hname⟩ := (he.isA_iff h).mp huw
  exact (hd.isA_iff h).mpr ⟨f, hpath.trans hpath', hname⟩

end Built

end Registry

/-- All that concepts of a type are used for, concepts of another one are used for too. A reference
to the named type accepts them and is answered by them, the index of the type lists them, and the
rules and generators of the type are used on them. -/
structure ConceptType.TreatedAs (t : ConceptType) (name : String) : Prop where
  accepted : ∀ n : Node, n.type = t →
    (MemberKind.reference (.concept name)).accepts (.reference n) = true
  answers : ∀ (node found : Node) (origin : Origin) (member : String), found.type = t →
    Model.checkTarget node origin member (.concept name) found = .ok ()
  indexed : ∀ (r : Registry) (m : Model), m.Reachable r → ∀ n ∈ m.concepts, n.type = t →
    n ∈ m.ofType name
  derives : ∀ rules : Derivations, ∀ rule ∈ rules, rule.onType = name → rule ∈ rules.forType t
  generates : ∀ gs : Generators, ∀ g ∈ gs, g.onType = name → g ∈ gs.forType t

theorem ConceptType.treatedAs_of_isA {t : ConceptType} {name : String} (h : t.isA name = true) :
    t.TreatedAs name where
  accepted := by
    rintro n rfl
    exact h
  answers := by
    rintro node found origin member rfl
    exact if_pos h
  indexed := by
    rintro r m hm n hn rfl
    obtain ⟨i, hi⟩ := List.getElem?_of_mem hn
    have hcount := hm.indexed.byType.count_eq hi name
    have hpos : 0 < n.type.ancestors.count name := by
      rw [List.count_pos_iff]
      simpa [isA] using h
    rw [← hcount, List.count_pos_iff] at hpos
    refine List.mem_filterMap.mpr ⟨i, hpos, ?_⟩
    rw [← m.concepts_getElem?, hi]
  derives := by
    rintro rules rule hrule rfl
    exact Derivations.mem_forType.mpr ⟨hrule, h⟩
  generates := by
    rintro gs g hg rfl
    exact List.mem_filter.mpr ⟨hg, h⟩

theorem Derivations.flatMap_filter_perm (rules : Derivations) {names : List String}
    (hn : names.Nodup) :
    (names.flatMap fun name => rules.filter fun rule => rule.onType == name).Perm
      (rules.filter fun rule => names.contains rule.onType) := by
  induction names with
  | nil => simp
  | cons name names ih =>
    obtain ⟨hnot, hn⟩ := List.nodup_cons.mp hn
    -- The rules of the first name and those of the others make up all of them.
    have hfirst : (rules.filter fun rule => (name :: names).contains rule.onType).filter
        (fun rule => rule.onType == name) = rules.filter fun rule => rule.onType == name := by
      rw [List.filter_filter]
      refine List.filter_congr fun rule _ => ?_
      by_cases h : rule.onType = name <;> simp [h]
    have hothers : (rules.filter fun rule => (name :: names).contains rule.onType).filter
        (fun rule => !(rule.onType == name)) = rules.filter fun rule => names.contains rule.onType := by
      rw [List.filter_filter]
      refine List.filter_congr fun rule _ => ?_
      by_cases h : rule.onType = name <;> simp [h, hnot]
    have hall := List.filter_append_perm (fun rule : Derivation => rule.onType == name)
      (rules.filter fun rule => (name :: names).contains rule.onType)
    rw [hfirst, hothers] at hall
    rw [List.flatMap_cons]
    exact ((ih hn).append_left _).trans hall

/-- Whatever is there for a type is there once for a concept. The rules that are used on it are those
of its ancestors, each as often as it was given, and so are the generators. The index of a type has
its entry once or not at all. -/
structure ConceptType.ServedOnce (t : ConceptType) : Prop where
  derives : ∀ rules : Derivations,
    (rules.forType t).Perm (rules.filter fun rule => t.isA rule.onType)
  generates : ∀ gs : Generators, (gs.forType t).Perm (gs.filter fun g => t.isA g.onType)
  indexed : ∀ (r : Registry) (m : Model), m.Reachable r → ∀ i n, m.concepts[i]? = some n →
    n.type = t → ∀ name, (m.byType.getD name #[]).toList.count i = if t.isA name then 1 else 0

theorem ConceptType.servedOnce_of_nodup {t : ConceptType} (h : t.ancestors.Nodup) :
    t.ServedOnce where
  derives := fun rules => rules.flatMap_filter_perm h
  generates := fun _ => .rfl
  indexed := by
    rintro r m hm i n hn rfl name
    rw [hm.indexed.byType.count_eq hn name, h.count]
    simp [isA]

-- A language of works. An interface implements another one here, and a type implements what its
-- base does.

namespace Titled

def declared : List Declaration := [
  .interface "Named",
  (Declaration.interface "Titled").implementing "Named",
  ({ name := "Shelf" } : Declaration).withKey "Name" .identifier,
  ({ name := "Work" } : Declaration).implementing "Titled"
    |>.withParent "Shelf" (.concept "Shelf") |>.withKey "Title" .text,
  ({ name := "Novel" } : Declaration).extending "Work" |>.implementing "Titled"
    |>.withMember "Pages" .text,
  ({ name := "Saga" } : Declaration).extending "Novel" |>.implementing "Named"]

def namedType : ConceptType where
  name := "Named"
  keyword? := none
  isInterface := true
  deprecation? := none
  members := []
  root := "Named"
  ancestors := ["Named"]
  arity? := none
  nesting := ⟨true, 0⟩

def titledType : ConceptType :=
  { namedType with name := "Titled", root := "Titled", ancestors := ["Titled", "Named"] }

def shelfType : ConceptType :=
  { namedType with
    name := "Shelf", isInterface := false, members := [⟨"Name", .identifier, true, false⟩],
    root := "Shelf", ancestors := ["Shelf"], arity? := some 1 }

def workType : ConceptType :=
  { shelfType with
    name := "Work", root := "Work", ancestors := ["Work", "Titled"], arity? := some 2,
    members := [⟨"Shelf", .reference (.concept "Shelf"), true, true⟩,
      ⟨"Title", .text, true, false⟩],
    nesting := ⟨true, 1⟩ }

def novelType : ConceptType :=
  { workType with
    name := "Novel", ancestors := ["Novel", "Work", "Titled"],
    members := workType.members ++ [⟨"Pages", .text, false, false⟩] }

def sagaType : ConceptType :=
  { novelType with name := "Saga", ancestors := ["Saga", "Novel", "Work", "Titled", "Named"] }

def registry : Registry :=
  ⟨[namedType, titledType, shelfType, workType, novelType, sagaType]⟩

theorem build_declared : Registry.build declared = .ok registry := by decide +kernel

end Titled

namespace Registry

/-- Whatever a type is taken for, its concepts are taken for in all that a model and a generation do
with them. It is handed on to the types that are taken for this one, unless it is an interface that
stands between the two. -/
theorem supertypes_handed_on {declared : List Declaration} {r : Registry}
    (h : build declared = .ok r) {t u : ConceptType} (ht : t ∈ r.types) (hu : u ∈ r.types)
    {name : String} (htu : t.isA u.name = true) (huw : u.isA name = true)
    (hbetween : u.isInterface = true → u = t ∨ u.name = name) :
    t.isA name = true ∧ t.TreatedAs name := by
  have hisA : t.isA name = true := by
    cases hi : u.isInterface with
    | false => exact isA_of_isA h ht hu htu hi huw
    | true =>
      rcases hbetween hi with rfl | rfl
      · exact huw
      · exact htu
  exact ⟨hisA, ConceptType.treatedAs_of_isA hisA⟩

/-- A novel is a work, and so it has a title. -/
theorem supertypes_handed_on_novel :
    Titled.novelType.isA "Work" = true ∧ Titled.workType.isA "Titled" = true ∧
      Titled.novelType.TreatedAs "Titled" := by
  have hnovel : Titled.novelType.isA "Work" = true := by decide
  have hwork : Titled.workType.isA "Titled" = true := by decide
  have h := supertypes_handed_on Titled.build_declared (t := Titled.novelType)
    (u := Titled.workType) (by decide) (by decide) hnovel hwork (by decide)
  exact ⟨hnovel, hwork, h.2⟩

/-- A work has a title and what has a title has a name, but a work is not taken for something that
has a name. -/
theorem supertype_lost_by_interface :
    build Titled.declared = .ok Titled.registry ∧ Titled.workType ∈ Titled.registry.types ∧
      Titled.titledType ∈ Titled.registry.types ∧ Titled.namedType ∈ Titled.registry.types ∧
      Titled.workType.isA Titled.titledType.name = true ∧
      Titled.titledType.isA Titled.namedType.name = true ∧
      Titled.workType.isA Titled.namedType.name = false :=
  ⟨Titled.build_declared, by decide, by decide, by decide, by decide, by decide, by decide⟩

end Registry

end ConceptScript
