import ConceptScript.Proofs.Registry.Inheritance

namespace ConceptScript

/-- A shape that starts with the members of another one and adds none to its key. -/
structure Shape.Refines (s b : Shape) : Prop where
  root : s.root = b.root
  members : ∃ own, s.members = b.members ++ own ∧ ∀ m ∈ own, m.isKey = false ∧ m.isParent = false

theorem Shape.Refines.refl (s : Shape) : s.Refines s := ⟨rfl, [], by simp, by simp⟩

theorem Shape.Refines.trans {s b c : Shape} (h : s.Refines b) (h' : b.Refines c) :
    s.Refines c := by
  obtain ⟨own, hown, hplain⟩ := h.members
  obtain ⟨own', hown', hplain'⟩ := h'.members
  refine ⟨h.root.trans h'.root, own' ++ own, by rw [hown, hown', List.append_assoc], ?_⟩
  intro m hm
  rcases List.mem_append.mp hm with hm | hm
  · exact hplain' m hm
  · exact hplain m hm

namespace Registry

variable {declared : List Declaration}

/-- A declaration has one list of members, whatever pool its bases are looked up in. -/
theorem Inherits.members_unique {pool pool' : List Declaration} {d : Declaration} {s s' : Shape}
    (hnames : (declared.map Declaration.name).Nodup) (hpool : pool ⊆ declared)
    (hpool' : pool' ⊆ declared) (h : Inherits declared pool d s)
    (h' : Inherits declared pool' d s') : s.members = s'.members ∧ s.root = s'.root := by
  induction h generalizing pool' s' with
  | root hb hm hr _ _ _ _ =>
    cases h' with
    | root _ hm' hr' _ _ _ _ => exact ⟨hm.trans hm'.symm, hr.trans hr'.symm⟩
    | derived hb' _ _ _ _ _ _ _ _ _ _ => simp [hb] at hb'
  | @derived pool d base s b hb hf _ _ _ hm hr _ _ _ _ ih =>
    cases h' with
    | root hb' _ _ _ _ _ _ => simp [hb] at hb'
    | @derived _ _ base' _ b' hb' hf' hbase' _ _ hm' hr' _ _ _ _ =>
      have hname : base.name = base'.name := Option.some.inj (hb.symm.trans hb')
      obtain rfl : base = base' := List.inj_on_of_nodup_map hnames
        (hpool (List.mem_of_find?_eq_some hf)) (hpool' (List.mem_of_find?_eq_some hf')) hname
      have hsub := List.Subset.trans (without_sublist Declaration.name pool base.name).subset hpool
      have hsub' := List.Subset.trans (without_sublist Declaration.name pool' base.name).subset hpool'
      obtain ⟨hmembers, hroot⟩ := ih hsub hsub' hbase'
      exact ⟨by rw [hm, hm', hmembers], by rw [hr, hr', hroot]⟩

theorem Inherits.exists_base {pool : List Declaration} {d : Declaration} {s : Shape}
    (hd : d ∈ declared) (hpool : pool ⊆ declared) (h : Inherits declared pool d s) {name : String}
    (hname : name = s.root ∨ name = d.name ∨
      (name ∈ s.ancestors ∧ ¬IsInterface declared name)) :
    ∃ e ∈ declared, ∃ pool' b, e.name = name ∧ pool' ⊆ declared ∧
      Inherits declared pool' e b ∧ s.Refines b := by
  induction h with
  | @root pool d s hb hm hr ha hn hi hc =>
    refine ⟨d, hd, pool, s, ?_, hpool, .root hb hm hr ha hn hi hc, .refl s⟩
    rcases hname with rfl | rfl | ⟨hmem, hnot⟩
    · exact hr.symm
    · rfl
    · rcases (implement_eq_ok ha).2.2 name hmem with hmem | hmem
      · exact (List.mem_singleton.mp hmem).symm
      · exact absurd hmem hnot
  | @derived pool d base s b hb hf hbase hni hown hm hr ha hn hi hc ih =>
    by_cases hself : name = d.name
    · exact ⟨d, hd, pool, s, hself.symm, hpool,
        .derived hb hf hbase hni hown hm hr ha hn hi hc, .refl s⟩
    · have hbases : s.Refines b := ⟨hr, d.members, hm, hown⟩
      have hsub := List.Subset.trans (without_sublist Declaration.name pool base.name).subset hpool
      have habove : name = b.root ∨ name = base.name ∨
          (name ∈ b.ancestors ∧ ¬IsInterface declared name) := by
        rcases hname with rfl | rfl | ⟨hmem, hnot⟩
        · exact .inl hr
        · exact absurd rfl hself
        · rcases (implement_eq_ok ha).2.2 name hmem with hmem | hmem
          · exact .inr (.inr ⟨(List.mem_cons.mp hmem).resolve_left hself, hnot⟩)
          · exact absurd hmem hnot
      obtain ⟨e, he, pool', b', hen, hp, hi', href⟩ :=
        ih (hpool (List.mem_of_find?_eq_some hf)) hsub habove
      exact ⟨e, he, pool', b', hen, hp, hi', hbases.trans href⟩

theorem Inherits.isInterface_eq {pool : List Declaration} {d : Declaration} {s : Shape}
    (h : Inherits declared pool d s) : s.isInterface = d.isInterface := by
  cases h with
  | root _ _ _ _ _ hi _ => exact hi
  | derived _ _ _ _ _ _ _ _ _ hi _ => exact hi

theorem exists_type_of_mem {r : Registry} (h : build declared = .ok r) {d : Declaration}
    (hd : d ∈ declared) :
    ∃ t ∈ r.types, Inherits declared (without Declaration.name declared d.name) d t.toShape := by
  obtain ⟨shapes, known, _, hs, _, _, hr⟩ := build_eq_ok h
  obtain ⟨s, hm, hds⟩ := exists_of_forall₂_right hs.flip hd
  refine ⟨complete shapes known s, ?_, inherits_of_inherit hds⟩
  rw [hr]
  exact List.mem_map_of_mem hm

section Built

variable {r : Registry} (h : build declared = .ok r) {t u : ConceptType}
include h

theorem declared_nodup : (declared.map Declaration.name).Nodup := by
  obtain ⟨_, _, hc, _⟩ := build_eq_ok h
  exact (checkDeclarations_eq_ok_iff.mp hc).1

theorem refines_of_name_eq (ht : t ∈ r.types) (hu : u ∈ r.types)
    (hname : u.name = t.root ∨ (t.isA u.name = true ∧ u.isInterface = false)) :
    t.toShape.Refines u.toShape := by
  have hnames := declared_nodup h
  obtain ⟨d, hd, hi⟩ := inherits_of_mem_types h ht
  obtain ⟨d', hd', hi'⟩ := inherits_of_mem_types h hu
  have hsub (name : String) := (without_sublist Declaration.name declared name).subset
  have habove : u.name = t.root ∨ u.name = d.name ∨
      (u.name ∈ t.ancestors ∧ ¬IsInterface declared u.name) := by
    rcases hname with hroot | ⟨ha, hinterface⟩
    · exact .inl hroot
    · refine .inr (.inr ⟨by simpa [ConceptType.isA] using ha, ?_⟩)
      rintro ⟨e, hf, he⟩
      have hen : e.name = d'.name := by
        rw [← hi'.name_eq]
        simpa using List.find?_some hf
      obtain rfl := List.inj_on_of_nodup_map hnames (List.mem_of_find?_eq_some hf) hd' hen
      rw [← hi'.isInterface_eq, hinterface] at he
      exact absurd he (by simp)
  obtain ⟨e, he, pool, b, hen, hpool, hb, href⟩ := hi.exists_base hd (hsub d.name) habove
  obtain rfl : e = d' := List.inj_on_of_nodup_map hnames he hd' (hen.trans hi'.name_eq)
  -- The base that the chain leads to and the type of that name have one declaration.
  obtain ⟨hmembers, hroot⟩ := hb.members_unique hnames hpool (hsub e.name) hi'
  obtain ⟨own, hown, hplain⟩ := href.members
  exact ⟨href.root.trans hroot, own, by rw [hown, hmembers], hplain⟩

theorem exists_root (ht : t ∈ r.types) :
    ∃ u ∈ r.types, u.name = t.root ∧ t.toShape.Refines u.toShape := by
  obtain ⟨d, hd, hi⟩ := inherits_of_mem_types h ht
  obtain ⟨e, he, _, _, hen, _⟩ :=
    hi.exists_base hd (without_sublist Declaration.name declared d.name).subset (.inl rfl)
  obtain ⟨u, hu, hiu⟩ := exists_type_of_mem h he
  have hname : u.name = t.root := hiu.name_eq.trans hen
  exact ⟨u, hu, hname, refines_of_name_eq h ht hu (.inl hname)⟩

end Built

end Registry

end ConceptScript
