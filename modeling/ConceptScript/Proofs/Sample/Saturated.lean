import ConceptScript.Proofs.Sample.Outline

namespace ConceptScript

theorem eq_singleton_of_nodup {α : Type} {l : List α} {a : α} (hl : l.Nodup) (ha : a ∈ l)
    (hall : ∀ b ∈ l, b = a) : l = [a] := by
  have hreplicate := List.eq_replicate_of_mem hall
  rw [hreplicate, List.nodup_replicate] at hl
  have hpos := List.length_pos_of_mem ha
  rw [hreplicate, show l.length = 1 by omega]
  rfl

namespace Text

theorem toList_dotted (a b : String) : (a ++ "." ++ b).toList = a.toList ++ '.' :: b.toList := by
  rw [String.toList_append, String.toList_append, List.append_assoc]
  rfl

theorem delimited_unbroken : Delimited ['.'] fun w => ∀ c ∈ w, c ≠ ' ' ∧ c ≠ '.' :=
  delimited_of_not_mem fun _ hw c hc hm => (hw c hc).2 (List.mem_singleton.mp hm)

theorem eq_of_dotted_left {a a' b b' : String} (ha : Unbroken a) (ha' : Unbroken a')
    (h : a ++ "." ++ b = a' ++ "." ++ b') : a = a' ∧ b = b' := by
  have hchars := congrArg String.toList h
  rw [toList_dotted, toList_dotted] at hchars
  have hfollows (s : String) : Follows ['.'] ('.' :: s.toList) := .cons (by simp) _
  obtain ⟨hfirst, hrest⟩ := delimited_unbroken ha ha' (hfollows b) (hfollows b') hchars
  exact ⟨String.toList_inj.mp hfirst, String.toList_inj.mp (List.cons.inj hrest).2⟩

theorem eq_of_dotted_right {a a' b b' : String} (hb : Unbroken b) (hb' : Unbroken b')
    (h : a ++ "." ++ b = a' ++ "." ++ b') : a = a' ∧ b = b' := by
  have hreverse {s : String} (hs : Unbroken s) : ∀ c ∈ s.toList.reverse, c ≠ ' ' ∧ c ≠ '.' :=
    fun c hc => hs c (List.mem_reverse.mp hc)
  have hchars := congrArg (fun s => s.toList.reverse) h
  simp only [toList_dotted, List.reverse_append, List.reverse_cons, List.append_assoc,
    List.singleton_append] at hchars
  have hfollows (s : String) : Follows ['.'] ('.' :: s.toList.reverse) := .cons (by simp) _
  obtain ⟨hlast, hrest⟩ := delimited_unbroken (hreverse hb) (hreverse hb') (hfollows a)
    (hfollows a') hchars
  refine ⟨String.toList_inj.mp (List.reverse_inj.mp (List.cons.inj hrest).2), ?_⟩
  exact String.toList_inj.mp (List.reverse_inj.mp hlast)

theorem Unbroken.ne_dotted {s a b : String} (h : Unbroken s) : s ≠ a ++ "." ++ b := by
  rintro rfl
  exact (h '.' (by rw [toList_dotted]; simp)).2 rfl

/-- Two dotted texts from parts that start alike are alike up to the first dot. -/
theorem eq_of_intercalate_append {parts rest : List String} {a a' b b' c : String}
    (ha : Unbroken a) (ha' : Unbroken a') (hb' : Unbroken b') (hc : Unbroken c)
    (h : ".".intercalate (parts ++ rest) = a ++ "." ++ b)
    (h' : ".".intercalate (parts ++ [c]) = a' ++ "." ++ b') : a = a' ∧ c = b' := by
  have hparts : parts ≠ [] := by
    rintro rfl
    rw [List.nil_append, String.intercalate_singleton] at h'
    exact hc.ne_dotted h'
  rw [String.intercalate_append_of_ne_nil hparts (by simp), String.intercalate_singleton] at h'
  obtain ⟨hfirst, hlast⟩ := eq_of_dotted_right hc hb' h'
  have hrest : rest ≠ [] := by
    rintro rfl
    rw [List.append_nil, hfirst] at h
    exact ha'.ne_dotted h
  rw [String.intercalate_append_of_ne_nil hparts hrest, hfirst] at h
  exact ⟨(eq_of_dotted_left ha' ha h).1.symm, hlast⟩

end Text

theorem Node.parent?_mk {t : ConceptType} {first : Member} {ms : List Member}
    (hmembers : t.members = first :: ms) (hparent : first.isParent = true) (p : Node)
    (vs : List (Option Value)) : (mk t (some (.reference p) :: vs)).parent? = some p := by
  have htype : t.parent? = some first := by
    rw [Shape.parent?, hmembers]
    simp [Option.filter, hparent]
  rw [parent?, type, htype]
  rfl

namespace Sample

variable {r : Registry} {m : Model}

theorem isIn_iff {owner n : Node} :
    isIn owner n = true ↔ n.parent?.map Node.key = some owner.key := by
  rw [isIn, beq_iff_eq]

theorem Owns.isIn {owner p n : Node} (h : Owns m owner p n) : isIn owner n = true := by
  rw [isIn_iff, h.parent, Option.map_some, h.key_eq]

/-- The rules have added what they should, and nothing else of that sort. -/
structure Exact (m : Model) : Prop where
  /-- An entity has one identifier. -/
  identified : ∀ e ∈ m.concepts, e.typeName = entity → ∃ id,
    (m.concepts.filter fun n => n.typeName == guidProperty && isIn e n) = [id] ∧ nameOf id = "ID"
  /-- A reference by name only has a full one beside it, to the data structure of that name in the
  module of its owner. -/
  referenced : ∀ s ∈ m.concepts, s.typeName = simpleReference →
    ∃ owner ∈ m.concepts, isIn owner s = true ∧
    ∃ home ∈ m.concepts, home.typeName = module ∧ isIn home owner = true ∧
    ∃ target ∈ m.concepts, target.type.isA dataStructure = true ∧ isIn home target = true ∧
      nameOf target = nameOf s ∧
    ∃ full ∈ m.concepts, full.typeName = referenceProperty ∧ isIn owner full = true ∧
      nameOf full = nameOf s ∧ (full.reference? "Referenced").map Node.key = some target.key
  /-- A log has one line for each property of its entity. -/
  logged : ∀ l ∈ m.concepts, l.typeName = logging →
    ∃ e ∈ m.concepts, e.typeName = entity ∧ isIn e l = true ∧
      ((m.concepts.filter fun n => n.typeName == logProperty && isIn l n).map
        fun n => (n.reference? "Property").map Node.key).Perm
      ((m.concepts.filter fun n => n.type.isA property && isIn e n).map fun n => some n.key)
  /-- Each line is one of a log. -/
  inLog : ∀ n ∈ m.concepts, n.typeName = logProperty →
    ∃ l ∈ m.concepts, l.typeName = logging ∧ isIn l n = true

section Traces

variable (h : Compiled r m) {n : Node} (hn : n ∈ m.concepts)
include h

theorem Compiled.nodup : m.concepts.Nodup := h.reachable.indexed.keys_nodup.of_map _

theorem Compiled.exists_equal {c : Node} (hc : m.Holds c) (ht : c.type ∈ r.types) :
    ∃ c' ∈ m.concepts, c'.Equal c ∧ c'.type = c.type := by
  obtain ⟨c', hmem, hequal⟩ := h.reachable.indexed.holds_iff.mp hc
  exact ⟨c', hmem, hequal,
    eq_of_name_eq h.registry (h.formed c' hmem).type_mem ht (Node.same_iff.mp hequal.same).1⟩

include hn

/-- Each rule has been used on each concept that it is for. -/
theorem Compiled.exists_derived {d : Derivation} (hd : d ∈ rules r)
    (hisA : n.type.isA d.onType = true) :
    ∃ q nodes, (d.readsModel = true → q = m) ∧ d.derive n q = .ok nodes ∧
      ∀ c ∈ nodes, m.Holds c := by
  obtain ⟨seeds, hsaturated, _⟩ := h.saturated
  obtain ⟨i, hi⟩ := List.getElem?_of_mem hn
  have hresolved : m.resolvedAt i = true :=
    (Model.resolvedAt_iff h.reachable.resolving).mpr ⟨n, hi, h.answered n hn⟩
  obtain ⟨q, nodes, _, hq, hnodes, hheld⟩ := hsaturated.exists_use
    (fun c hc => (h.formed c hc).type_mem) hd hi hisA hresolved
  exact ⟨q, nodes, hq, hnodes, hheld⟩

/-- What cannot be written was derived from another concept. -/
theorem Compiled.exists_source (hname : n.typeName ∈ [guidProperty, logProperty]) :
    ∃ source ∈ m.concepts, ∃ p : Model, p.Reachable r ∧ (∀ c ∈ p.concepts, c ∈ m.concepts) ∧
      Expansion.Derives (rules r) p source n := by
  obtain ⟨seeds, hsaturated, hseeds⟩ := h.saturated
  obtain ⟨i, hi⟩ := List.getElem?_of_mem hn
  rw [← Model.map_node_seeds, List.getElem?_map] at hi
  obtain ⟨s, hs, rfl⟩ := Option.map_eq_some_iff.mp hi
  rcases hsaturated.entries i s hs with hgiven | ⟨j, p, _, hp, k, source, hsource, _, _, hderives⟩
  · rcases hseeds s hgiven with hinitial | ⟨w, hw⟩
    · rw [hinitial] at hname
      exact absurd hname (by decide)
    · rw [(placed h.registry (h.formed _ hn).type_mem).unwritten hname] at hw
      cases hw
  · refine ⟨source, List.mem_of_getElem? (h.reachable.past_concept hp hsource).2, p,
      h.reachable.reachable_past hp, fun c hc => ?_, hderives⟩
    rw [h.reachable.concepts_past hp] at hc
    exact List.mem_of_mem_take hc

end Traces

section Rules

variable (hr : registry = .ok r) {t : ConceptType} (ht : t ∈ r.types)
include hr ht

theorem parent?_identifier (hname : t.name = guidProperty) (e : Node) :
    (Node.mk t [some (.referenceTo e), some (.text "ID")]).parent?.map Node.key = some e.key := by
  have hmembers := members_of_name hr ht hname rfl
  rw [Value.referenceTo, Node.parent?_mk hmembers rfl, Option.map_some, e.key_placeholder]

theorem nameOf_identifier (hname : t.name = guidProperty) (e : Node) :
    nameOf (.mk t [some (.referenceTo e), some (.text "ID")]) = "ID" := by
  have hmembers := members_of_name hr ht hname rfl
  simp [nameOf, Node.text?, Node.get?, Node.members, Node.type, Node.slots, hmembers, ownerMember,
    nameMember]

theorem parent?_line (hname : t.name = logProperty) (l p : Node) :
    (Node.mk t [some (.referenceTo l), some (.referenceTo p)]).parent?.map Node.key =
      some l.key := by
  have hmembers := members_of_name hr ht hname rfl
  rw [Value.referenceTo, Node.parent?_mk hmembers rfl, Option.map_some, l.key_placeholder]

theorem reference?_line (hname : t.name = logProperty) (l p : Node) :
    ((Node.mk t [some (.referenceTo l), some (.referenceTo p)]).reference? "Property").map
      Node.key = some p.key := by
  have hmembers := members_of_name hr ht hname rfl
  simp [Node.reference?, Node.get?, Node.members, Node.type, Node.slots, hmembers,
    Value.referenceTo, p.key_placeholder]

end Rules

/-- What one rule can derive from a concept. -/
theorem derives_cases (hr : registry = .ok r) {p : Model} (hp : p.Reachable r) {source n : Node}
    (hsource : source.type ∈ r.types) (h : Expansion.Derives (rules r) p source n) :
    (source.typeName = entity ∧ ∃ t ∈ r.types, t.name = guidProperty ∧
      n = .mk t [some (.referenceTo source), some (.text "ID")]) ∨
    (source.typeName = simpleReference ∧ n.typeName = referenceProperty) ∨
    (source.typeName = logging ∧ ∃ c ∈ p.concepts, c.type.isA property = true ∧
      c.parent?.map Node.key = source.parent?.map Node.key ∧
      ∃ t ∈ r.types, t.name = logProperty ∧
        n = .mk t [some (.referenceTo source), some (.referenceTo c)]) := by
  obtain ⟨d, hd, hisA, nodes, hnodes, hmem⟩ := h
  have hplaced := placed hr hsource
  simp only [rules, List.mem_cons, List.not_mem_nil, or_false] at hd
  rcases hd with rfl | rfl | rfl
  · obtain ⟨t, ht, hname, rfl⟩ := identifier_eq_ok hr (m := p) hnodes
    exact .inl ⟨(hplaced.isA_iff _ (by simp)).mp hisA, t, ht, hname, List.mem_singleton.mp hmem⟩
  · obtain ⟨_, _, _, _, _, _, _, u, _, hname, rfl⟩ := fullReference_eq_ok hr (m := p) hnodes
    refine .inr (.inl ⟨(hplaced.isA_iff _ (by simp)).mp hisA, ?_⟩)
    rw [List.mem_singleton.mp hmem]
    exact hname
  · refine .inr (.inr ⟨(hplaced.isA_iff _ (by simp)).mp hisA, ?_⟩)
    obtain ⟨owner, c, howner, hchild, hproperty, hline⟩ :=
      exists_of_mem_loggedProperties (m := p) hnodes hmem
    rw [hp.indexed.children_eq] at hchild
    obtain ⟨hconcept, hparent⟩ := List.mem_filter.mp hchild
    refine ⟨c, hconcept, hproperty, ?_, loggedProperty_eq_ok hr hline⟩
    obtain ⟨q, hq, hkey⟩ := (Option.any_eq_true _ _).mp hparent
    rw [hq, howner, Option.map_some, Option.map_some, eq_of_beq hkey]

section Exactness

variable (h : Compiled r m) {n : Node} (hn : n ∈ m.concepts)
include h hn

theorem Compiled.exists_identified (hname : n.typeName = guidProperty) :
    ∃ e ∈ m.concepts, e.typeName = entity ∧ ∃ t ∈ r.types, t.name = guidProperty ∧
      n = .mk t [some (.referenceTo e), some (.text "ID")] := by
  obtain ⟨source, hsource, p, hp, _, hderives⟩ := h.exists_source hn (by simp [hname])
  rcases derives_cases h.registry hp (h.formed source hsource).type_mem hderives with
    ⟨hentity, hmade⟩ | ⟨_, hother⟩ | ⟨_, _, _, _, _, t, _, hother, rfl⟩
  · exact ⟨source, hsource, hentity, hmade⟩
  · exact absurd (hother.symm.trans hname) (by decide)
  · exact absurd (hother.symm.trans hname) (by decide)

theorem Compiled.exists_logging (hname : n.typeName = logProperty) :
    ∃ l ∈ m.concepts, l.typeName = logging ∧ ∃ c ∈ m.concepts, c.type.isA property = true ∧
      c.parent?.map Node.key = l.parent?.map Node.key ∧ ∃ t ∈ r.types, t.name = logProperty ∧
        n = .mk t [some (.referenceTo l), some (.referenceTo c)] := by
  obtain ⟨source, hsource, p, hp, hsub, hderives⟩ := h.exists_source hn (by simp [hname])
  rcases derives_cases h.registry hp (h.formed source hsource).type_mem hderives with
    ⟨_, t, _, hother, rfl⟩ | ⟨_, hother⟩ | ⟨hlogging, c, hc, hmade⟩
  · exact absurd (hother.symm.trans hname) (by decide)
  · exact absurd (hother.symm.trans hname) (by decide)
  · exact ⟨source, hsource, hlogging, c, hsub c hc, hmade⟩

end Exactness

theorem Compiled.identified (h : Compiled r m) {e : Node} (he : e ∈ m.concepts)
    (hname : e.typeName = entity) :
    ∃ id, (m.concepts.filter fun n => n.typeName == guidProperty && isIn e n) = [id] ∧
      nameOf id = "ID" := by
  have hr := h.registry
  have hisA := ((placed hr (h.formed e he).type_mem).isA_iff entity (by simp)).mpr hname
  obtain ⟨q, nodes, _, hnodes, hheld⟩ := h.exists_derived he
    (d := ⟨entity, false, identifier r⟩) (by simp [rules]) hisA
  obtain ⟨t, ht, htname, rfl⟩ := identifier_eq_ok hr (m := q) hnodes
  obtain ⟨id, hid, hequal, htype⟩ := h.exists_equal (hheld _ List.mem_cons_self) ht
  have hidname : id.typeName = guidProperty := (congrArg (fun u => u.name) htype).trans htname
  have hin : isIn e id = true :=
    isIn_iff.mpr ((hequal.parent?_map_key htype).trans (parent?_identifier hr ht htname e))
  -- Each identifier of the entity is made from it, so there is no other.
  have hmade {n : Node} (hn : n ∈ m.concepts) (hguid : n.typeName = guidProperty)
      (hin : isIn e n = true) : n = .mk t [some (.referenceTo e), some (.text "ID")] := by
    obtain ⟨e', he', _, u, hu, huname, rfl⟩ := h.exists_identified hn hguid
    have hkey := (parent?_identifier hr hu huname e').symm.trans (isIn_iff.mp hin)
    obtain rfl := h.eq_of_key_eq he' he (Option.some.inj hkey)
    rw [eq_of_name_eq hr hu ht (huname.trans htname.symm)]
  refine ⟨id, eq_singleton_of_nodup (h.nodup.filter _) ?_ ?_, ?_⟩
  · exact List.mem_filter.mpr ⟨hid, by simp [hidname, hin]⟩
  · intro n hn
    obtain ⟨hn, hcond⟩ := List.mem_filter.mp hn
    rw [Bool.and_eq_true, beq_iff_eq] at hcond
    rw [hmade hn hcond.1 hcond.2, hmade hid hidname hin]
  · rw [hmade hid hidname hin, nameOf_identifier hr ht htname]

section Log

variable (h : Compiled r m) {l e : Node} (hl : l ∈ m.concepts) (hlogging : l.typeName = logging)
  (hin : isIn e l = true)
include h hl

theorem Compiled.exists_property_of_line {n : Node} (hn : n ∈ m.concepts)
    (hname : n.typeName = logProperty) (hnl : isIn l n = true) :
    ∃ c ∈ m.concepts, c.type.isA property = true ∧
      c.parent?.map Node.key = l.parent?.map Node.key ∧ ∃ t ∈ r.types, t.name = logProperty ∧
        n = .mk t [some (.referenceTo l), some (.referenceTo c)] := by
  obtain ⟨l', hl', _, c, hc, hproperty, hparent, t, ht, htname, rfl⟩ := h.exists_logging hn hname
  have hkey := (parent?_line h.registry ht htname l' c).symm.trans (isIn_iff.mp hnl)
  obtain rfl := h.eq_of_key_eq hl' hl (Option.some.inj hkey)
  exact ⟨c, hc, hproperty, hparent, t, ht, htname, rfl⟩

include hlogging

theorem Compiled.exists_entity : ∃ e ∈ m.concepts, e.typeName = entity ∧ isIn e l = true := by
  have hmembers := members_of_name h.registry (h.formed l hl).type_mem hlogging rfl
  obtain ⟨p, e, _, howns, htarget, _⟩ := h.exists_parent hl hmembers rfl rfl
  have hentity := (placed h.registry (h.formed e howns.mem).type_mem).isA_iff entity (by simp)
  exact ⟨e, howns.mem, hentity.mp htarget, howns.isIn⟩

include hin

theorem Compiled.exists_line_of_property {c : Node} (hc : c ∈ m.concepts)
    (hproperty : c.type.isA property = true) (hine : isIn e c = true) :
    ∃ n ∈ m.concepts, n.typeName = logProperty ∧ isIn l n = true ∧
      (n.reference? "Property").map Node.key = some c.key := by
  have hr := h.registry
  have hisA := ((placed hr (h.formed l hl).type_mem).isA_iff logging (by simp)).mpr hlogging
  obtain ⟨q, nodes, hq, hnodes, hheld⟩ := h.exists_derived hl
    (d := ⟨logging, true, loggedProperties r⟩) (by simp [rules]) hisA
  obtain rfl := hq rfl
  change loggedProperties r l q = .ok nodes at hnodes
  obtain ⟨owner, howner, hkey⟩ := Option.map_eq_some_iff.mp (isIn_iff.mp hin)
  obtain ⟨p, hp, hpkey⟩ := Option.map_eq_some_iff.mp (isIn_iff.mp hine)
  simp only [loggedProperties, howner] at hnodes
  rw [h.reachable.indexed.children_eq] at hnodes
  have hmem : c ∈ ((q.concepts.filter fun n => n.parent?.any fun p => p.key == owner.key).filter
      fun n => n.type.isA property) := by
    refine List.mem_filter.mpr ⟨List.mem_filter.mpr ⟨hc, ?_⟩, hproperty⟩
    rw [hp, Option.any_some, hpkey, hkey, beq_self_eq_true]
  obtain ⟨line, hline, hmade⟩ := exists_of_forall₂_left (mapM_eq_ok.mp hnodes) hmem
  obtain ⟨t, ht, htname, rfl⟩ := loggedProperty_eq_ok hr hmade
  obtain ⟨n, hn, hequal, htype⟩ := h.exists_equal (hheld _ hline) ht
  refine ⟨n, hn, (congrArg (fun u => u.name) htype).trans htname, ?_, ?_⟩
  · exact isIn_iff.mpr ((hequal.parent?_map_key htype).trans (parent?_line hr ht htname l c))
  · exact (hequal.reference?_map_key htype "Property").trans (reference?_line hr ht htname l c)

/-- The lines of a log are those of the properties of its entity. -/
theorem Compiled.lines_perm :
    ((m.concepts.filter fun n => n.typeName == logProperty && isIn l n).map
      fun n => (n.reference? "Property").map Node.key).Perm
    ((m.concepts.filter fun n => n.type.isA property && isIn e n).map fun n => some n.key) := by
  have hr := h.registry
  refine (List.perm_ext_iff_of_nodup ?_ ?_).mpr fun k => ⟨fun hk => ?_, fun hk => ?_⟩
  · -- Lines for one property are made alike, so there is one of them.
    refine List.Nodup.map_on (fun a ha b hb hab => ?_) (h.nodup.filter _)
    obtain ⟨ha, hcond⟩ := List.mem_filter.mp ha
    obtain ⟨hb, hcond'⟩ := List.mem_filter.mp hb
    rw [Bool.and_eq_true, beq_iff_eq] at hcond hcond'
    obtain ⟨c, hc, _, _, t, ht, htname, rfl⟩ := h.exists_property_of_line hl ha hcond.1 hcond.2
    obtain ⟨c', hc', _, _, u, hu, huname, rfl⟩ := h.exists_property_of_line hl hb hcond'.1 hcond'.2
    rw [reference?_line hr ht htname, reference?_line hr hu huname] at hab
    obtain rfl := h.eq_of_key_eq hc hc' (Option.some.inj hab)
    rw [eq_of_name_eq hr ht hu (htname.trans huname.symm)]
  · refine List.Nodup.map_on (fun a ha b hb hab => ?_) (h.nodup.filter _)
    exact h.eq_of_key_eq (List.mem_of_mem_filter ha) (List.mem_of_mem_filter hb)
      (Option.some.inj hab)
  · obtain ⟨n, hn, rfl⟩ := List.mem_map.mp hk
    obtain ⟨hn, hcond⟩ := List.mem_filter.mp hn
    rw [Bool.and_eq_true, beq_iff_eq] at hcond
    obtain ⟨c, hc, hproperty, hsame, t, ht, htname, rfl⟩ :=
      h.exists_property_of_line hl hn hcond.1 hcond.2
    have hine : isIn e c = true := isIn_iff.mpr (hsame.trans (isIn_iff.mp hin))
    refine List.mem_map.mpr ⟨c, List.mem_filter.mpr ⟨hc, ?_⟩, ?_⟩
    · rw [hproperty, hine, Bool.and_self]
    · rw [reference?_line hr ht htname]
  · obtain ⟨c, hc, rfl⟩ := List.mem_map.mp hk
    obtain ⟨hc, hcond⟩ := List.mem_filter.mp hc
    rw [Bool.and_eq_true] at hcond
    obtain ⟨n, hn, hname, hnl, hkey⟩ :=
      h.exists_line_of_property hl hlogging hin hc hcond.1 hcond.2
    refine List.mem_map.mpr ⟨n, List.mem_filter.mpr ⟨hn, ?_⟩, hkey⟩
    rw [hname, hnl, beq_self_eq_true, Bool.and_self]

end Log

section Reference

variable (hr : registry = .ok r)
include hr

theorem exists_keyParts_of_root {q home : Node} (hq : q.Shaped r)
    (hroot : q.type.root = dataStructure) (hhome : q.reference? "Module" = some home) :
    ∃ parts, q.keyParts = home.keyParts ++ parts := by
  have htype := lawful hr hq.type_mem
  obtain ⟨_, rest, hmembers, _⟩ := htype.keys (htype.role_of_root hroot)
  change _ = _ :: _ at hmembers
  have hlength := hq.slots_length
  rw [hmembers, List.length_cons] at hlength
  obtain ⟨v, vs, hslots⟩ := List.exists_cons_of_length_eq_add_one hlength
  have hget := Node.get?_of_reference? hhome
  obtain rfl : v = some (.reference home) := by
    simpa [Node.get?, Node.members, hmembers, hslots] using hget
  rw [Node.keyParts_eq, hmembers, hslots, Node.slotParts_cons rfl]
  exact ⟨_, rfl⟩

theorem keyParts_structure {t : ConceptType} (ht : t ∈ r.types) (hname : t.name = dataStructure)
    (home : Node) (name : String) :
    (Node.mk t [some (.reference home), some (.text name)]).keyParts = home.keyParts ++ [name] := by
  have hmembers := members_of_name hr ht hname rfl
  simp [Node.keyParts, hmembers, Node.slotParts, Node.valueParts, nameMember]

variable {u : ConceptType} (hu : u ∈ r.types) (hname : u.name = referenceProperty)
  (owner target : Node) (name : String)
include hu hname

theorem parent?_fullReference :
    (Node.mk u [some (.reference owner), some (.text name),
      some (.referenceTo target)]).parent? = some owner :=
  Node.parent?_mk (members_of_name hr hu hname rfl) rfl _ _

theorem nameOf_fullReference :
    nameOf (.mk u [some (.reference owner), some (.text name), some (.referenceTo target)]) =
      name := by
  have hmembers := members_of_name hr hu hname rfl
  simp [nameOf, Node.text?, Node.get?, Node.members, Node.type, Node.slots, hmembers, ownerMember,
    nameMember]

theorem reference?_fullReference :
    ((Node.mk u [some (.reference owner), some (.text name),
      some (.referenceTo target)]).reference? "Referenced").map Node.key = some target.key := by
  have hmembers := members_of_name hr hu hname rfl
  simp [Node.reference?, Node.get?, Node.members, Node.type, Node.slots, hmembers, ownerMember,
    nameMember, referencedMember, Value.referenceTo, target.key_placeholder]

end Reference

theorem Compiled.exists_fullReference (h : Compiled r m) {n owner q : Node} (hn : n ∈ m.concepts)
    (hname : n.typeName = simpleReference) (howns : Owns m owner q n) :
    ∃ home, q.reference? "Module" = some home ∧
      ∃ t ∈ r.types, t.name = dataStructure ∧
      ∃ full ∈ m.concepts, full.typeName = referenceProperty ∧ isIn owner full = true ∧
        nameOf full = nameOf n ∧ (full.reference? "Referenced").map Node.key =
          some (Node.mk t [some (.reference home), some (.text (nameOf n))]).key := by
  have hr := h.registry
  have hisA := ((placed hr (h.formed n hn).type_mem).isA_iff simpleReference (by simp)).mpr hname
  obtain ⟨p, nodes, _, hnodes, hheld⟩ := h.exists_derived hn
    (d := ⟨simpleReference, false, fullReference r⟩) (by simp [rules]) hisA
  obtain ⟨q', home, hq', hhome, t, ht, htname, u, hu, huname, rfl⟩ :=
    fullReference_eq_ok hr (m := p) hnodes
  obtain rfl := Option.some.inj (howns.parent.symm.trans hq')
  obtain ⟨full, hfull, hequal, htype⟩ := h.exists_equal (hheld _ List.mem_cons_self) hu
  refine ⟨home, hhome, t, ht, htname, full, hfull, ?_, ?_, ?_, ?_⟩
  · exact (congrArg (fun u => u.name) htype).trans huname
  · rw [isIn_iff, hequal.parent?_map_key htype, parent?_fullReference hr hu huname,
      Option.map_some, howns.key_eq]
  · rw [nameOf, hequal.text?_eq htype]
    exact nameOf_fullReference hr hu huname _ _ _
  · rw [hequal.reference?_map_key htype, reference?_fullReference hr hu huname]

theorem Compiled.exists_referenced (h : Compiled r m) {full target : Node}
    (hfull : full ∈ m.concepts)
    (hkey : (full.reference? "Referenced").map Node.key = some target.key)
    (htype : target.type ∈ r.types) :
    ∃ found ∈ m.concepts, role? found.type = some .dataStructure ∧ found.key = target.key ∧
      qualified found = qualified target := by
  obtain ⟨link, hlink, hlinked⟩ := Option.map_eq_some_iff.mp hkey
  obtain ⟨k, hk, hkname⟩ := Node.mem_members_of_get? (Node.get?_of_reference? hlink)
  have hkind := ((h.lawful hfull).members k (List.of_mem_zip hk).1).target (by simp [hkname])
  obtain ⟨found, hfound, hrole, hsame, _⟩ := h.exists_target_of_role .dataStructure hfull
    (Node.mem_references hk (List.mem_singleton_self link)) (by rw [hkind]; rfl)
  have hsame := hsame.trans hlinked
  exact ⟨found, hfound, hrole, hsame,
    (qualified_eq_of_key_eq h.registry (h.formed found hfound).type_mem htype hsame).2⟩

/-- A reference by name only stands for one to the data structure of that name in its module. -/
theorem Compiled.referenced (h : Compiled r m) {n : Node} (hn : n ∈ m.concepts)
    (hname : n.typeName = simpleReference) :
    ∃ owner ∈ m.concepts, isIn owner n = true ∧
    ∃ home ∈ m.concepts, home.typeName = module ∧ isIn home owner = true ∧
    ∃ target ∈ m.concepts, target.type.isA dataStructure = true ∧ isIn home target = true ∧
      nameOf target = nameOf n ∧
    ∃ full ∈ m.concepts, full.typeName = referenceProperty ∧ isIn owner full = true ∧
      nameOf full = nameOf n ∧ (full.reference? "Referenced").map Node.key = some target.key := by
  have hr := h.registry
  have hunbroken {n : Node} (hn : n ∈ m.concepts) : Text.Unbroken (nameOf n) :=
    unbroken_name hr (h.formed n hn)
  have hmembers := members_of_name hr (h.formed n hn).type_mem hname rfl
  obtain ⟨q, owner, _, howns, howner, hq, _⟩ := h.exists_parent hn hmembers rfl rfl
  have howner : role? owner.type = some .dataStructure := (h.lawful howns.mem).isA_iff.mp howner
  obtain ⟨link, hlink, t, ht, htname, full, hfull, hfullType, hin, hfullName, hkey⟩ :=
    h.exists_fullReference hn hname howns
  obtain ⟨target, htarget, hrole, hsame, hqualified⟩ := h.exists_referenced hfull hkey ht
  obtain ⟨_, home, hhome, hmodule, hownerNamed⟩ := h.exists_module howns.mem howner
  obtain ⟨_, home', hhome', hmodule', htargetNamed⟩ := h.exists_module htarget hrole
  -- The keys of the owner and of the target start with the same reference to a module.
  have hshaped := (h.formed n hn).shaped_of_mem_references hq
  have hroot : q.type.root = dataStructure :=
    howns.root_eq.symm.trans ((h.lawful howns.mem).keys howner).1
  obtain ⟨rest, hrest⟩ := exists_keyParts_of_root hr hshaped hroot hlink
  rw [howns.qualified_eq, qualified, hrest] at hownerNamed
  rw [hqualified, qualified, keyParts_structure hr ht htname] at htargetNamed
  obtain ⟨hhomes, hnamed⟩ := Text.eq_of_intercalate_append (hunbroken hhome.mem)
    (hunbroken hhome'.mem) (hunbroken htarget) (hunbroken hn) hownerNamed htargetNamed
  obtain rfl : home = home' := by
    refine h.eq_of_qualified_eq rfl hhome.mem hhome'.mem hmodule hmodule' ?_
    rw [qualified, qualified, h.keyParts_of_module hhome.mem hmodule,
      h.keyParts_of_module hhome'.mem hmodule', hhomes]
  have hhomeType := (placed hr (h.formed home hhome.mem).type_mem).isA_iff module (by simp)
  refine ⟨owner, howns.mem, howns.isIn, home, hhome.mem, ?_, hhome.isIn, target, htarget, ?_,
    hhome'.isIn, hnamed.symm, full, hfull, hfullType, hin, hfullName, ?_⟩
  · exact hhomeType.mp ((h.lawful hhome.mem).isA_iff (ρ := .module) |>.mpr hmodule)
  · exact (h.lawful htarget).isA_iff (ρ := .dataStructure) |>.mpr hrole
  · rw [hkey, hsame]

theorem Compiled.exact (h : Compiled r m) : Exact m where
  identified _ he hname := h.identified he hname
  referenced _ hn hname := h.referenced hn hname
  logged l hl hname := by
    obtain ⟨e, he, hentity, hin⟩ := h.exists_entity hl hname
    exact ⟨e, he, hentity, hin, h.lines_perm hl hname hin⟩
  inLog n hn hname := by
    obtain ⟨l, hl, hlogging, c, _, _, _, t, ht, htname, rfl⟩ := h.exists_logging hn hname
    exact ⟨l, hl, hlogging, isIn_iff.mpr (parent?_line h.registry ht htname l c)⟩

/-- Whatever scripts a model comes from, the rules have been carried out on all of it. -/
theorem exact_of_compileFresh {options : Options} {c : Compiler} {scripts : List Script}
    {result : Compilation} (hr : registry = .ok r) (hc : compiler r options = .ok c)
    (h : c.compileFresh scripts = .ok result) : Exact result.model :=
  (compiled_of_compileFresh hr hc h).exact

/-- An entity that is logged before it has properties, and one of them from another script. -/
def stock : List Script := [
  .ofText "stock" ("Module Shop \x7b Entity Shelf; Entity Item \x7b Logging; Integer Count; " ++
    "Reference Shelf; \x7d \x7d"),
  .ofText "weights" "Module Shop \x7b Entity Item \x7b Integer Weight; \x7d \x7d"]

theorem exact_of_compileFresh_stock :
    ∃ r c result, registry = .ok r ∧ compiler r {} = .ok c ∧ c.compileFresh stock = .ok result ∧
      (result.model.concepts.drop 8).map Node.key = ["PropertyInfo Shop.Shelf.ID",
        "PropertyInfo Shop.Item.ID", "PropertyInfo Shop.Item.Shelf",
        "LogPropertyInfo Shop.Item.Shop.Item.Count", "LogPropertyInfo Shop.Item.Shop.Item.Weight",
        "LogPropertyInfo Shop.Item.Shop.Item.ID", "LogPropertyInfo Shop.Item.Shop.Item.Shelf"] ∧
      Exact result.model := by
  obtain ⟨r, c, result, hr, hc, h, hderived, _⟩ := exists_compileFresh
    (p := fun cs => (cs.drop 8).map Node.key == ["PropertyInfo Shop.Shelf.ID",
      "PropertyInfo Shop.Item.ID", "PropertyInfo Shop.Item.Shelf",
      "LogPropertyInfo Shop.Item.Shop.Item.Count", "LogPropertyInfo Shop.Item.Shop.Item.Weight",
      "LogPropertyInfo Shop.Item.Shop.Item.ID", "LogPropertyInfo Shop.Item.Shop.Item.Shelf"])
    (show compilesTo _ stock = true by decide +kernel)
  exact ⟨r, c, result, hr, hc, h, eq_of_beq hderived, exact_of_compileFresh hr hc h⟩

end Sample

end ConceptScript
