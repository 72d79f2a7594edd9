import ConceptScript.Proofs.Model.Views
import ConceptScript.Proofs.Sample.Places

namespace ConceptScript.Sample

open Buffer (Piece Line Mark)

/-- A workspace that holds the outline only. -/
def written (b : Buffer) : Workspace := ⟨{}, [(outline, b)]⟩

theorem buffer_written (b : Buffer) : (written b).buffer outline = b := by
  simp [written, Workspace.buffer, Workspace.find?]

theorem put_written (b b' : Buffer) : (written b).put outline b' = written b' := by
  simp [written, Workspace.put, Workspace.find?]

/-- The workspace after some concepts have written their lines. -/
def Written (before : List Node) (w : Workspace) : Prop :=
  ∃ d : Buffer.Draft, w = written (d.buffer false) ∧
    Buffer.Grown Place.mark Place.discipline opening (lines before) d

def Role.write : Role → Node → Model → Workspace → Except GenerationError Workspace
  | start => header
  | module => moduleLine
  | dataStructure => dataStructureLine
  | property => propertyLine
  | required => requiredFlag
  | unique => uniqueLine
  | description => descriptionText

theorem generators_eq : generators = Role.all.map fun ρ => ⟨ρ.type, ρ.write⟩ := rfl

theorem forType_eq {t : ConceptType} (ht : Lawful t) :
    generators.forType t = (role? t).toList.map fun ρ => ⟨ρ.type, ρ.write⟩ := by
  have hroles : Role.all.filter (fun ρ => t.isA ρ.type) = (role? t).toList := by
    have hisA (ρ : Role) : t.isA ρ.type = (role? t == some ρ) := by
      rw [Bool.eq_iff_iff, ht.isA_iff, beq_iff_eq]
    simp only [hisA]
    cases role? t with
    | none => rfl
    | some ρ => cases ρ <;> rfl
  rw [generators_eq, Generators.forType, List.filter_map, ← hroles]
  rfl

theorem ownerOf_eq {r : Registry} {m : Model} (h : Compiled r m) {owner q n : Node}
    (howns : Owns m owner q n) : ownerOf n m = .ok owner := by
  have hresolve : m.resolve q = some owner :=
    h.reachable.indexed.find?_eq_some_iff.mpr ⟨howns.mem, howns.key_eq⟩
  rw [ownerOf, howns.parent, Option.bind_some, hresolve]

namespace Outlined

variable {r : Registry} {m : Model} {order before after : List Node} (h : Outlined r m order)
  {n : Node} {ρ : Role} {l : Line Place} {d : Buffer.Draft}
include h

theorem marker_eq (hn : n ∈ m.concepts) (hρ : role? n.type = some ρ) {p : Place}
    (hp : p.opener? = some (ρ, qualified n)) :
    (d.buffer false).marker p.tag n = .ok p.mark.text := by
  have hmarker := (h.valid hn hρ hp).marker_eq (h.compiled.lawful hn) hρ hp
  change (p.tag.marker {} n).mapError _ = _
  rw [hmarker]
  rfl

section Step

variable (horder : order = before ++ n :: after) (hl : line? n = some l)
include horder hl

theorem exists_insert (hd : Buffer.Grown Place.mark Place.discipline opening (lines before) d)
    (hmem : .place l.place ∈ Buffer.grow Place.discipline opening (lines before))
    {text : String} {concept : Node}
    (hmarker : l.place.tag.marker {} concept = .ok l.place.mark.text)
    (htext : ∀ first, l.place.tag.wrapped first text =
      Buffer.fill (fun p => p.mark.text) l.pieces) :
    ∃ d', (d.buffer false).insert text l.place.tag concept = .ok (d'.buffer false) ∧
      Buffer.Grown Place.mark Place.discipline opening (lines (before ++ [n])) d' := by
  obtain ⟨ρ, hρ, hplace, hpieces⟩ := line?_eq_some.mp hl
  have hn : n ∈ m.concepts := h.mem_iff.mp (by simp [horder])
  have hlines : lines (before ++ [n]) = lines before ++ [l] := by simp [lines, hl]
  rw [hlines]
  refine hd.exists_insert (h.fitting horder) (by decide) (fun p q => h.mark_inj horder) hmem false
    hmarker rfl fun first => ?_
  rw [htext, Buffer.render_items Place.mark (hpieces ▸ h.plain_pieces hn)]

theorem place_mem_grow (hlasting : l.place.discipline ≠ .single) :
    .place l.place ∈ Buffer.grow Place.discipline opening (lines before) :=
  ((h.fitting horder).place_mem_grow l.place).mpr
    ⟨(h.fits horder hl).opened, fun hsingle => hlasting hsingle.1⟩

end Step

theorem keyParts_of_start (hn : n ∈ m.concepts) (hρ : role? n.type = some .start) :
    n.keyParts = [] := by
  obtain ⟨_, _, _, _, hparts⟩ := h.compiled.exists_values hn hρ
  exact hparts.trans (by simp [Role.keys, Role.parent?, Role.own?, Node.slotParts])

theorem eq_of_start {n' : Node} (hn : n ∈ m.concepts) (hρ : role? n.type = some .start)
    (hn' : n' ∈ m.concepts) (hρ' : role? n'.type = some .start) : n = n' := by
  have hroot {n : Node} (hn : n ∈ m.concepts) (hρ : role? n.type = some .start) :
      n.key = Role.start.type := by
    rw [Node.key, h.keyParts_of_start hn hρ, Node.label, ((h.compiled.lawful hn).keys hρ).1]
  exact h.compiled.eq_of_key_eq hn hn' ((hroot hn hρ).trans (hroot hn' hρ').symm)

theorem marker_start (hn : n ∈ m.concepts) (hρ : role? n.type = some .start) :
    modulesTag.marker {} n = .ok Place.modules.mark.text := by
  have hisA := (h.compiled.lawful hn).isA_iff.mpr hρ
  have hparts := h.keyParts_of_start hn hρ
  refine Tag.marker_eq_ok_iff.mpr ⟨hisA, by simp [hparts], Place.modules.body, ?_, ?_⟩
  · rw [hparts]
    decide
  · rw [Mark.text, Place.Valid.body_mark (by rintro o ⟨⟩)]

theorem exists_start :
    ∃ start ∈ m.concepts, role? start.type = some .start ∧ start.references = [] ∧
      m.concepts.head? = some start ∧ ∃ rest, m.ofType initialization = start :: rest := by
  have hc := h.compiled
  have hofType : m.ofType initialization =
      m.concepts.filter fun n => n.type.isA initialization :=
    Model.Indexed.select_eq hc.reachable.indexed.byType
      (fun n hn => (hc.lawful hn).ancestors_nodup) _
  obtain ⟨t, ht, hname, hhead⟩ := hc.start
  have htype := lawful hc.registry ht
  have hisA := (htype.initial hname).1
  obtain ⟨rest, hconcepts⟩ := List.head?_eq_some_iff.mp hhead
  refine ⟨.ofType t, by simp [hconcepts], htype.isA_iff.mp hisA, ?_, hhead,
    rest.filter fun n => n.type.isA initialization, ?_⟩
  · refine List.flatMap_eq_nil_iff.mpr fun p hp => ?_
    obtain ⟨k, v⟩ := p
    obtain ⟨_, _, rfl⟩ := List.mem_map.mp (List.of_mem_zip hp).2
    rfl
  · rw [hofType, hconcepts]
    exact List.filter_cons_of_pos hisA

section Write

variable (horder : order = before ++ n :: after)
include horder

/-- An insertion at the marker of the owner. -/
theorem exists_insert_owned (hd : Buffer.Grown Place.mark Place.discipline opening (lines before) d)
    (hρ : role? n.type = some ρ) {owner q : Node} (howns : Owns m owner q n) {σ : Role}
    (hσ : role? owner.type = some σ) {p : Place} (hplace : place? n ρ = some p)
    (hopener : p.opener? = some (σ, qualified owner))
    (hmem : .place p ∈ Buffer.grow Place.discipline opening (lines before)) {text : String}
    (htext : ∀ first, p.tag.wrapped first text =
      Buffer.fill (fun p => p.mark.text) (pieces n ρ)) :
    ∃ d', (d.buffer false).insert text p.tag owner = .ok (d'.buffer false) ∧
      Buffer.Grown Place.mark Place.discipline opening (lines (before ++ [n])) d' := by
  have hl : line? n = some ⟨p, pieces n ρ⟩ := line?_eq_some.mpr ⟨ρ, hρ, hplace, rfl⟩
  exact h.exists_insert horder hl hd hmem
    ((h.valid howns.mem hσ hopener).marker_eq (h.compiled.lawful howns.mem) hσ hopener) htext

theorem exists_insert_lasting
    (hd : Buffer.Grown Place.mark Place.discipline opening (lines before) d)
    (hρ : role? n.type = some ρ) (σ : Role) {k : Member} (hk : ρ.parent? = some k)
    (hkind : k.kind = .reference (.concept σ.type)) (place : String → Place)
    (hplace : place? n ρ = n.parent?.map fun q => place (qualified q))
    (hopener : ∀ name, (place name).opener? = some (σ, name)) (tag : Tag)
    (htag : ∀ name, (place name).tag = tag) (hlasting : tag.discipline ≠ .single) {text : String}
    (htext : ∀ first, tag.wrapped first text = Buffer.fill (fun p => p.mark.text) (pieces n ρ)) :
    ∃ owner d', ownerOf n m = .ok owner ∧
      (d.buffer false).insert text tag owner = .ok (d'.buffer false) ∧
      Buffer.Grown Place.mark Place.discipline opening (lines (before ++ [n])) d' := by
  obtain ⟨q, owner, howns, hσ, _⟩ := h.compiled.exists_owner_of_role
    (h.mem_iff.mp (by simp [horder])) hρ σ hk hkind
  have hplace := howns.place?_eq hplace
  have hl : line? n = some ⟨place (qualified owner), pieces n ρ⟩ :=
    line?_eq_some.mpr ⟨ρ, hρ, hplace, rfl⟩
  have hmem := h.place_mem_grow horder hl (by rwa [Place.discipline, htag])
  obtain ⟨d', hinsert, hd'⟩ := h.exists_insert_owned horder hd hρ howns hσ hplace (hopener _) hmem
    (by simpa only [htag] using htext)
  exact ⟨owner, d', ownerOf_eq h.compiled howns, by rwa [htag] at hinsert, hd'⟩

variable {w : Workspace} (hw : Written before w)
include hw

theorem write_module (hρ : role? n.type = some .module) :
    ∃ w', moduleLine n m w = .ok w' ∧ Written (before ++ [n]) w' := by
  obtain ⟨d, rfl, hd⟩ := hw
  have hn : n ∈ m.concepts := h.mem_iff.mp (by simp [horder])
  have hl : line? n = some ⟨.modules, pieces n .module⟩ :=
    line?_eq_some.mpr ⟨.module, hρ, rfl, rfl⟩
  have hmembers := h.marker_eq (d := d) hn hρ (p := .members (qualified n)) rfl
  obtain ⟨start, hmem, hσ, _, _, rest, hstart⟩ := h.exists_start
  have htext (first : Bool) : modulesTag.wrapped first
      s!"\nmodule {nameOf n}\n{(Place.members (qualified n)).mark.text}" =
      Buffer.fill (fun p => p.mark.text) (pieces n .module) := by
    simp [Tag.wrapped, Buffer.fill, pieces, modulesTag, toString, String.append_assoc]
  obtain ⟨d', hinsert, hd'⟩ := h.exists_insert horder hl hd
    (h.place_mem_grow horder hl (show Discipline.appendable ≠ .single by decide))
    (h.marker_start hmem hσ) htext
  refine ⟨_, ?_, d', rfl, hd'⟩
  simp only [Place.tag] at hmembers hinsert
  simp only [moduleLine, buffer_written, put_written, hmembers, hinsert, hstart, ok_bind]
  rfl

theorem write_dataStructure (hρ : role? n.type = some .dataStructure) :
    ∃ w', dataStructureLine n m w = .ok w' ∧ Written (before ++ [n]) w' := by
  obtain ⟨d, rfl, hd⟩ := hw
  have hn : n ∈ m.concepts := h.mem_iff.mp (by simp [horder])
  let summary := (Place.summary (qualified n)).mark.text
  let properties := (Place.properties (qualified n)).mark.text
  have hsummary : (d.buffer false).marker summaryTag n = .ok summary :=
    h.marker_eq hn hρ (p := .summary (qualified n)) rfl
  have hproperties : (d.buffer false).marker propertiesTag n = .ok properties :=
    h.marker_eq hn hρ (p := .properties (qualified n)) rfl
  have htext (first : Bool) : membersTag.wrapped first
      s!"  {(label n).toLower} {nameOf n}{sourceOf n}{summary}\n{properties}" =
      Buffer.fill (fun p => p.mark.text) (pieces n .dataStructure) := by
    simp [Tag.wrapped, Buffer.fill, pieces, membersTag, toString, String.append_assoc, summary,
      properties]
  obtain ⟨owner, d', howner, hinsert, hd'⟩ := h.exists_insert_lasting horder hd hρ .module rfl rfl
    .members rfl (fun _ => rfl) membersTag (fun _ => rfl) (by decide) htext
  refine ⟨_, ?_, d', rfl, hd'⟩
  simp only [dataStructureLine, howner, buffer_written, put_written, hsummary, hproperties, hinsert,
    ok_bind]
  rfl

theorem write_property (hρ : role? n.type = some .property) :
    ∃ w', propertyLine n m w = .ok w' ∧ Written (before ++ [n]) w' := by
  obtain ⟨d, rfl, hd⟩ := hw
  have hn : n ∈ m.concepts := h.mem_iff.mp (by simp [horder])
  have hflags := h.marker_eq (d := d) hn hρ (p := .flags (qualified n)) rfl
  have htext (first : Bool) : propertiesTag.wrapped first
      s!"    - {nameOf n} : {label n}{targetOf n}{(Place.flags (qualified n)).mark.text}\n" =
      Buffer.fill (fun p => p.mark.text) (pieces n .property) := by
    simp [Tag.wrapped, Buffer.fill, pieces, propertiesTag, toString, String.append_assoc]
  obtain ⟨owner, d', howner, hinsert, hd'⟩ := h.exists_insert_lasting horder hd hρ .dataStructure
    rfl rfl .properties rfl (fun _ => rfl) propertiesTag (fun _ => rfl) (by decide) htext
  refine ⟨_, ?_, d', rfl, hd'⟩
  simp only [Place.tag] at hflags
  simp only [propertyLine, howner, buffer_written, put_written, hflags, hinsert, ok_bind]
  rfl

theorem write_required (hρ : role? n.type = some .required) :
    ∃ w', requiredFlag n m w = .ok w' ∧ Written (before ++ [n]) w' := by
  obtain ⟨d, rfl, hd⟩ := hw
  have htext (first : Bool) : flagsTag.wrapped first "required" =
      Buffer.fill (fun p => p.mark.text) (pieces n .required) := by
    have hreplace : Text.replace " [\x7btext\x7d]" "\x7btext\x7d" "required" = " [required]" := by
      decide +kernel
    simp [Tag.wrapped, Buffer.fill, pieces, flagsTag, hreplace]
  obtain ⟨owner, d', howner, hinsert, hd'⟩ := h.exists_insert_lasting horder hd hρ .property rfl rfl
    .flags rfl (fun _ => rfl) flagsTag (fun _ => rfl) (by decide) htext
  refine ⟨_, ?_, d', rfl, hd'⟩
  simp only [requiredFlag, howner, buffer_written, put_written, hinsert, ok_bind]
  rfl

theorem write_unique (hρ : role? n.type = some .unique) :
    ∃ w', uniqueLine n m w = .ok w' ∧ Written (before ++ [n]) w' := by
  obtain ⟨d, rfl, hd⟩ := hw
  have htext (first : Bool) : propertiesTag.wrapped first
      ("    unique (" ++ ", ".intercalate (listedNames n) ++ ")\n") =
      Buffer.fill (fun p => p.mark.text) (pieces n .unique) := by
    simp [Tag.wrapped, Buffer.fill, pieces, propertiesTag, uniqueText]
  obtain ⟨owner, d', howner, hinsert, hd'⟩ := h.exists_insert_lasting horder hd hρ .dataStructure
    rfl rfl .properties rfl (fun _ => rfl) propertiesTag (fun _ => rfl) (by decide) htext
  refine ⟨_, ?_, d', rfl, hd'⟩
  simp only [uniqueLine, howner, buffer_written, put_written, hinsert, ok_bind]
  rfl

theorem write_description (hρ : role? n.type = some .description) :
    ∃ w', descriptionText n m w = .ok w' ∧ Written (before ++ [n]) w' := by
  obtain ⟨d, rfl, hd⟩ := hw
  have hn : n ∈ m.concepts := h.mem_iff.mp (by simp [horder])
  have hc := h.compiled
  obtain ⟨q, owner, howns, _⟩ := hc.exists_owner hn hρ rfl
  have htype := hc.lawful howns.mem
  by_cases hσ : role? owner.type = some .dataStructure
  · have hisA : owner.type.isA dataStructure = true := htype.isA_iff.mpr hσ
    have hplace : place? n .description = some (.summary (qualified owner)) := by
      have hroot : q.type.root = dataStructure :=
        howns.root_eq.symm.trans (htype.keys hσ).1
      rw [place?, howns.parent, Option.filter_some, if_pos (beq_iff_eq.mpr hroot),
        howns.qualified_eq]
      rfl
    have hl : line? n = some ⟨.summary (qualified owner), pieces n .description⟩ :=
      line?_eq_some.mpr ⟨_, hρ, hplace, rfl⟩
    have hmarker := h.marker_eq (d := d) howns.mem hσ (p := .summary (qualified owner)) rfl
    have hcontains : (d.buffer false).contains (Place.summary (qualified owner)).mark.text =
        decide (.place (.summary (qualified owner)) ∈
          Buffer.grow Place.discipline opening (lines before)) :=
      hd.contains_eq (h.fitting horder) (fun _ _ => h.mark_inj horder) (h.fits horder hl).opened
        false
    by_cases hmem : .place (.summary (qualified owner)) ∈
        Buffer.grow Place.discipline opening (lines before)
    · have htext (first : Bool) : summaryTag.wrapped first (" -- " ++ (n.text? "Text").getD "") =
          Buffer.fill (fun p => p.mark.text) (pieces n .description) := by
        simp [Tag.wrapped, Buffer.fill, pieces, summaryTag, remark]
      obtain ⟨d', hinsert, hd'⟩ := h.exists_insert_owned horder hd hρ howns hσ hplace rfl hmem htext
      refine ⟨_, ?_, d', rfl, hd'⟩
      simp only [Place.tag] at hmarker hinsert
      simp only [descriptionText, ownerOf_eq hc howns, buffer_written, put_written, hisA, hmarker,
        hcontains, hmem, hinsert, ok_bind]
      rfl
    · refine ⟨written (d.buffer false), ?_, d, rfl, ?_⟩
      · simp only [Place.tag] at hmarker
        simp only [descriptionText, ownerOf_eq hc howns, buffer_written, put_written, hisA,
          hmarker, hcontains, hmem, ok_bind]
        rfl
      · have hlines : lines (before ++ [n]) = lines before ++ [⟨.summary (qualified owner),
            pieces n .description⟩] := by simp [lines, hl]
        rw [hlines]
        exact hd.skip hmem
  · -- Only data structures show their descriptions.
    have hisA : owner.type.isA dataStructure = false :=
      Bool.eq_false_iff.mpr fun hisA => hσ (htype.isA_iff.mp hisA)
    have hnone : line? n = none := by
      have hroot : q.type.root ≠ dataStructure := fun hroot =>
        hσ (htype.role_of_root (howns.root_eq.trans hroot))
      simp [line?, hρ, place?, howns.parent, hroot]
    refine ⟨written (d.buffer false), ?_, d, rfl, by simpa [lines, hnone] using hd⟩
    simp only [descriptionText, ownerOf_eq hc howns, hisA, ok_bind]
    rfl

theorem write (hρ : role? n.type = some ρ) (hne : ρ ≠ .start) :
    ∃ w', ρ.write n m w = .ok w' ∧ Written (before ++ [n]) w' := by
  cases ρ with
  | start => exact absurd rfl hne
  | module => exact h.write_module horder hw hρ
  | dataStructure => exact h.write_dataStructure horder hw hρ
  | property => exact h.write_property horder hw hρ
  | required => exact h.write_required horder hw hρ
  | unique => exact h.write_unique horder hw hρ
  | description => exact h.write_description horder hw hρ

end Write

/-- Once the outline is opened, every concept writes its line. -/
theorem run_written {w : Workspace} (hw : Written before w) (horder : order = before ++ after)
    (hstart : ∀ n ∈ after, role? n.type ≠ some .start) :
    ∃ w', generators.run m w after = .ok w' ∧ Written order w' := by
  induction after generalizing before w with
  | nil => exact ⟨w, rfl, by rwa [horder, List.append_nil]⟩
  | cons n after ih =>
    have hn : n ∈ m.concepts := h.mem_iff.mp (by simp [horder])
    have hstep : ∃ w', (generators.forType n.type).foldlM (fun w g => g.generate n m w) w = .ok w' ∧
        Written (before ++ [n]) w' := by
      rw [forType_eq (h.compiled.lawful hn)]
      cases hρ : role? n.type with
      | none =>
        obtain ⟨d, hd, hgrown⟩ := hw
        exact ⟨w, rfl, d, hd, by simpa [lines, line?, hρ] using hgrown⟩
      | some ρ =>
        obtain ⟨w', hwrite, hw'⟩ := h.write horder hw hρ fun he =>
          hstart n List.mem_cons_self (he ▸ hρ)
        refine ⟨w', ?_, hw'⟩
        rw [Option.toList_some, List.map_singleton, List.foldlM_cons]
        simp only [hwrite, ok_bind]
        rfl
    obtain ⟨w', hfirst, hw'⟩ := hstep
    obtain ⟨w'', hrest, hw''⟩ := ih hw' (by simp [horder]) fun n' hn' =>
      hstart n' (List.mem_cons_of_mem n hn')
    exact ⟨w'', by rw [Generators.run, hfirst, ok_bind, hrest], hw''⟩

theorem header_written (hn : n ∈ m.concepts) (hρ : role? n.type = some .start) :
    ∃ w, header n m {} = .ok w ∧ Written [n] w := by
  let d : Buffer.Draft := ⟨opening.map (Buffer.Piece.item Place.mark), []⟩
  refine ⟨written (d.buffer false), ?_, d, rfl, ?_⟩
  · have hmarker : Buffer.marker {} modulesTag n = .ok Place.modules.mark.text := by
      rw [Buffer.marker, h.marker_start hn hρ]
      rfl
    have hempty : ({} : Workspace).buffer outline = {} := rfl
    have htext : Buffer.render d.items = "# Concept outline\n" ++ Place.modules.mark.text := by
      rw [Buffer.render_items Place.mark (by simp [opening])]
      simp [opening, Buffer.fill]
    simp only [header, hempty, hmarker, ok_bind]
    refine congrArg Except.ok ?_
    simp [Workspace.put, Workspace.find?, written, Buffer.append, Buffer.Draft.buffer, htext, d]
  · have hlines : lines [n] = [] := by simp [lines, line?, hρ, place?]
    rw [hlines]
    exact ⟨rfl, by simp [d]⟩

end Outlined

end ConceptScript.Sample
