import ConceptScript.Proofs.Buffer.Nesting
import ConceptScript.Proofs.Buffer.Residue
import ConceptScript.Proofs.Sample.Roles

namespace ConceptScript

theorem Text.mem_dropCopies {ending : List Char} (h : ending ≠ []) {xs : List Char} {c : Char}
    (hc : c ∈ dropCopies ending h xs) : c ∈ xs := by
  fun_induction dropCopies ending h xs with
  | case1 xs hp ih => exact List.mem_of_mem_drop (ih hc)
  | case2 xs hp => exact hc

theorem Text.mem_trimEnding {text ending : String} {c : Char}
    (hc : c ∈ (trimEnding text ending).toList) : c ∈ text.toList := by
  unfold trimEnding at hc
  split at hc
  · next h =>
    rw [String.toList_ofList, List.mem_reverse] at hc
    exact List.mem_reverse.mp (mem_dropCopies h hc)
  · exact hc

theorem Text.eq_of_toLower {c : Char} (h : c.toLower = '<') : c = '<' := by
  unfold Char.toLower at h
  split at h
  · next hc =>
    have hval : c.val + ('a'.val - 'A'.val) = '<'.val := congrArg Char.val h
    grind [UInt32.toNat_add]
  · exact h

namespace Sample

open Buffer (Piece Line Mark)

/-- The places of an outline, by the names of the concepts that open them. -/
inductive Place where
  | modules
  | members (name : String)
  | summary (name : String)
  | properties (name : String)
  | flags (name : String)
  deriving DecidableEq

namespace Place

def tag : Place → Tag
  | modules => modulesTag
  | members _ => membersTag
  | summary _ => summaryTag
  | properties _ => propertiesTag
  | flags _ => flagsTag

def discipline (p : Place) : Discipline := p.tag.discipline

/-- The marker of the place, before and after its first blank. -/
def words : Place → String × String
  | modules => (initialization, "Modules ")
  | members name => (module, "Members " ++ name)
  | summary name => (name, "summary")
  | properties name => (dataStructure, "Properties " ++ name)
  | flags name => (property, "Flags " ++ name)

def body (p : Place) : String := p.words.1 ++ " " ++ p.words.2

def mark (p : Place) : Mark := .of p.body

/-- The role and the name of the concept that opens the place. -/
def opener? : Place → Option (Role × String)
  | modules => none
  | members name => some (.module, name)
  | summary name => some (.dataStructure, name)
  | properties name => some (.dataStructure, name)
  | flags name => some (.property, name)

end Place

def opening : List (Piece Place) := [.text "# Concept outline\n", .place .modules]

def uniqueText (n : Node) : String :=
  "    unique (" ++ ", ".intercalate (listedNames n) ++ ")\n"

def remark (n : Node) : String := " -- " ++ (n.text? "Text").getD ""

/-- What a concept writes, with places for what it owns. -/
def pieces (n : Node) : Role → List (Piece Place)
  | .start => opening
  | .module => [.text ("\nmodule " ++ nameOf n ++ "\n"), .place (.members (qualified n))]
  | .dataStructure =>
    [.text ("  " ++ (label n).toLower ++ " " ++ nameOf n ++ sourceOf n),
      .place (.summary (qualified n)), .text "\n", .place (.properties (qualified n))]
  | .property =>
    [.text ("    - " ++ nameOf n ++ " : " ++ label n ++ targetOf n),
      .place (.flags (qualified n)), .text "\n"]
  | .required => [.text " [required]"]
  | .unique => [.text (uniqueText n)]
  | .description => [.text (remark n)]

def place? (n : Node) : Role → Option Place
  | .start => none
  | .module => some .modules
  | .dataStructure => n.parent?.map fun p => .members (qualified p)
  | .property => n.parent?.map fun p => .properties (qualified p)
  | .required => n.parent?.map fun p => .flags (qualified p)
  | .unique => n.parent?.map fun p => .properties (qualified p)
  | .description =>
    (n.parent?.filter fun p => p.type.root == dataStructure).map fun p => .summary (qualified p)

def line? (n : Node) : Option (Line Place) := do
  let ρ ← role? n.type
  let place ← place? n ρ
  return ⟨place, pieces n ρ⟩

def lines (order : List Node) : List (Line Place) := order.filterMap line?

section Lines

variable {r : Registry} {m : Model} {n : Node} {ρ : Role} {l : Line Place} {p : Place}

theorem line?_eq_some : line? n = some l ↔
    ∃ ρ, role? n.type = some ρ ∧ place? n ρ = some l.place ∧ l.pieces = pieces n ρ := by
  constructor
  · intro h
    obtain ⟨ρ, hρ, h⟩ := Option.bind_eq_some_iff.mp h
    obtain ⟨place, hplace, h⟩ := Option.bind_eq_some_iff.mp h
    obtain rfl := Option.some.inj h
    exact ⟨ρ, hρ, hplace, rfl⟩
  · rintro ⟨ρ, hρ, hplace, hpieces⟩
    rw [line?, hρ, Option.bind_eq_bind, Option.bind_some, hplace, ← hpieces]
    rfl

theorem Place.named_of_opener? {name : String} (h : p.opener? = some (ρ, name)) :
    ρ.own? = some nameMember := by
  cases p <;> simp_all [opener?] <;> simp [← h.1, Role.own?]

theorem place_mem_pieces (hρ : ρ ≠ .start) :
    .place p ∈ pieces n ρ ↔ p.opener? = some (ρ, qualified n) := by
  cases ρ <;> cases p <;> simp_all [pieces, Place.opener?, eq_comm]

theorem nodup_places : (Buffer.places (pieces n ρ)).Nodup := by
  cases ρ <;> simp [pieces, opening, Buffer.places]

/-- What goes where nothing else can go opens no place. -/
theorem places_eq_nil_of_single (h : place? n ρ = some p) (hd : p.discipline = .single) :
    Buffer.places (pieces n ρ) = [] := by
  have hsummary : ∃ name, p = .summary name := by
    cases p <;> first | exact ⟨_, rfl⟩ | cases hd
  obtain ⟨name, rfl⟩ := hsummary
  cases ρ <;> simp [place?] at h
  rfl

/-- A place that has the name of the parent has the name of the owner. -/
theorem Owns.place?_eq {owner q : Node} (h : Owns m owner q n) {place : String → Place}
    (hplace : place? n ρ = n.parent?.map fun q => place (qualified q)) :
    place? n ρ = some (place (qualified owner)) := by
  rw [hplace, h.parent, Option.map_some, h.qualified_eq]

/-- A line goes to a place that the owner of its concept opens. -/
theorem Compiled.exists_opener (h : Compiled r m) (hn : n ∈ m.concepts)
    (hρ : role? n.type = some ρ) (hp : place? n ρ = some p) :
    ρ = .module ∧ p = .modules ∨ ∃ owner q σ k, Owns m owner q n ∧ (k, q) ∈ n.references ∧
      role? owner.type = some σ ∧ ρ ≠ σ ∧ p.opener? = some (σ, qualified owner) := by
  have howned {σ : Role} {k : Member} {place : String → Place} (hk : ρ.parent? = some k)
      (hkind : k.kind = .reference (.concept σ.type)) (hne : ρ ≠ σ)
      (hplace : n.parent?.map (fun q => place (qualified q)) = some p)
      (hopener : ∀ name, (place name).opener? = some (σ, name)) :
      ∃ owner q σ k, Owns m owner q n ∧ (k, q) ∈ n.references ∧
        role? owner.type = some σ ∧ ρ ≠ σ ∧ p.opener? = some (σ, qualified owner) := by
    obtain ⟨q, owner, howns, howner, hmem, _⟩ := h.exists_owner_of_role hn hρ σ hk hkind
    rw [howns.parent, Option.map_some] at hplace
    obtain rfl := Option.some.inj hplace
    exact ⟨owner, q, σ, k, howns, hmem, howner, hne, by rw [hopener, howns.qualified_eq]⟩
  cases ρ with
  | start => cases hp
  | module => exact .inl ⟨rfl, (Option.some.inj hp).symm⟩
  | dataStructure => exact .inr (howned rfl rfl (by decide) hp fun _ => rfl)
  | property => exact .inr (howned rfl rfl (by decide) hp fun _ => rfl)
  | required => exact .inr (howned rfl rfl (by decide) hp fun _ => rfl)
  | unique => exact .inr (howned rfl rfl (by decide) hp fun _ => rfl)
  | description =>
    obtain ⟨q, owner, howns, _, hmem, _⟩ := h.exists_owner hn hρ rfl
    obtain ⟨q', hq', rfl⟩ := Option.map_eq_some_iff.mp hp
    obtain ⟨hparent, hroot⟩ := Option.filter_eq_some_iff.mp hq'
    obtain rfl := Option.some.inj (howns.parent.symm.trans hparent)
    have howner := (h.lawful howns.mem).role_of_root (howns.root_eq.trans (eq_of_beq hroot))
    exact .inr ⟨owner, q, .dataStructure, _, howns, hmem, howner, by decide,
      by rw [Place.opener?, howns.qualified_eq]⟩

theorem Compiled.exists_line (h : Compiled r m) (hn : n ∈ m.concepts)
    (hρ : role? n.type = some ρ) (hown : ρ.own? = some nameMember) :
    ∃ l, line? n = some l ∧ l.pieces = pieces n ρ := by
  have hplace : ∃ p, place? n ρ = some p := by
    cases ρ with
    | module => exact ⟨_, rfl⟩
    | dataStructure | property =>
      obtain ⟨q, owner, howns, _⟩ := h.exists_owner hn hρ rfl
      exact ⟨_, howns.place?_eq rfl⟩
    | start | required => cases hown
    | unique | description => simp [Role.own?, nameMember] at hown
  obtain ⟨p, hp⟩ := hplace
  exact ⟨⟨p, pieces n ρ⟩, line?_eq_some.mpr ⟨ρ, hρ, hp, rfl⟩, rfl⟩

end Lines

namespace Place

/-- The name is free of what markers are made of. -/
def Valid (p : Place) : Prop :=
  ∀ o ∈ p.opener?, '<' ∉ o.2.toList ∧ '>' ∉ o.2.toList ∧ ' ' ∉ o.2.toList

theorem Valid.body_mark {p : Place} (h : p.Valid) : p.mark.body = p.body := by
  have hnot : '<' ∉ p.body.toList ∧ '>' ∉ p.body.toList := by
    cases p <;> simp_all [Valid, opener?, body, words, initialization, module, dataStructure,
      property]
  exact Mark.body_of hnot.1 hnot.2

theorem Valid.mark_inj {p q : Place} (hp : p.Valid) (hq : q.Valid) (h : p.mark = q.mark) :
    p = q := by
  have hspace {p : Place} (hp : p.Valid) : ' ' ∉ p.words.1.toList := by
    cases p <;> simp_all [Valid, opener?, words, initialization, module, dataStructure, property]
  have hlabel (p : Place) : p.body = Node.label p.words.1 [p.words.2] := by
    simp [body, Node.label]
  have hbody : p.body = q.body := by rw [← hp.body_mark, ← hq.body_mark, h]
  rw [hlabel, hlabel] at hbody
  obtain ⟨hfirst, hrest⟩ := Node.label_inj (hspace hp) (hspace hq) hbody
  rw [String.intercalate_singleton, String.intercalate_singleton] at hrest
  have hchars := congrArg String.toList hrest
  clear hspace hlabel hbody hrest h hp hq
  cases p <;> cases q <;> simp_all [words, String.toList_inj]

theorem body_summaryTag (parts : List String) :
    summaryTag.body parts = .ok (".".intercalate parts ++ " " ++ "summary") := by
  have hlayout : summaryTag.layout =
      .slot "key".toList :: (" summary".toList.map Tag.Piece.char ++ []) := by decide +kernel
  rw [Tag.body_eq_layout, hlayout, Tag.assemble_cons, Tag.assemble_char]
  refine congrArg Except.ok (String.toList_inj.mp ?_)
  simp

/-- The marker of a place is that of the concept that opens it. -/
theorem Valid.marker_eq {p : Place} (hp : p.Valid) {owner : Node} (howner : Lawful owner.type)
    {σ : Role} (hσ : role? owner.type = some σ)
    (hopener : p.opener? = some (σ, qualified owner)) :
    p.tag.marker {} owner = .ok p.mark.text := by
  have hname := hp _ hopener
  have htype : p.tag.type = σ.type := by
    cases p <;> cases hopener <;> rfl
  refine Tag.marker_eq_ok_iff.mpr ⟨?_, ?_, p.body, ?_, ?_⟩
  · rw [htype]
    exact howner.isA_iff.mpr hσ
  · intro part hpart
    have hin {c : Char} (hc : c ∈ part.toList) (hdot : c ∉ ".".toList) :
        c ∈ (qualified owner).toList := (Text.mem_intercalate hdot).mpr ⟨part, hpart, hc⟩
    exact Buffer.not_contains_delimiter (fun hc => hname.1 (hin hc (by decide)))
      fun hc => hname.2.1 (hin hc (by decide))
  · cases p with
    | modules => cases hopener
    | summary name =>
      cases hopener
      exact body_summaryTag owner.keyParts
    | _ =>
      cases hopener
      refine congrArg Except.ok (String.toList_inj.mp ?_)
      simp [tag, membersTag, propertiesTag, flagsTag, body, words, qualified]
  · rw [Mark.text, hp.body_mark]

end Place

/-- No text of a concept has an angle bracket in it. -/
def Unbracketed (m : Model) : Prop :=
  ∀ n ∈ m.concepts, ∀ s, some (.text s) ∈ n.slots → '<' ∉ s.toList ∧ '>' ∉ s.toList

/-- A model with an outline, and its concepts in the order of their lines. -/
structure Outlined (r : Registry) (m : Model) (order : List Node) : Prop where
  compiled : Compiled r m
  unbracketed : Unbracketed m
  ordered : m.Ordered order

namespace Outlined

variable {r : Registry} {m : Model} {order : List Node} (h : Outlined r m order) {n : Node}
  {ρ : Role} {p : Place}
include h

theorem not_mem_text (hn : n ∈ m.concepts) (name : String) :
    '<' ∉ ((n.text? name).getD "").toList ∧ '>' ∉ ((n.text? name).getD "").toList := by
  cases hs : n.text? name with
  | none => simp
  | some s =>
    obtain ⟨k, hk, _⟩ := Node.mem_members_of_get? (Node.get?_of_text? hs)
    exact h.unbracketed n hn s (List.of_mem_zip hk).2

theorem not_mem_qualified (hn : n ∈ m.concepts) (hρ : role? n.type = some ρ)
    (hown : ρ.own? = some nameMember) :
    '<' ∉ (qualified n).toList ∧ '>' ∉ (qualified n).toList ∧ ' ' ∉ (qualified n).toList := by
  have hspace : ∀ n ∈ m.concepts, ' ' ∉ (nameOf n).toList := fun n hn hblank =>
    (unbroken_name h.compiled.registry (h.compiled.formed n hn) ' ' hblank).1 rfl
  exact ⟨h.compiled.not_mem_qualified (by decide) (fun n hn => (h.not_mem_text hn _).1) hn hρ hown,
    h.compiled.not_mem_qualified (by decide) (fun n hn => (h.not_mem_text hn _).2) hn hρ hown,
    h.compiled.not_mem_qualified (by decide) hspace hn hρ hown⟩

theorem valid (hn : n ∈ m.concepts) (hρ : role? n.type = some ρ)
    (hp : p.opener? = some (ρ, qualified n)) : p.Valid := by
  intro o ho
  obtain rfl := Option.some.inj (hp.symm.trans ho)
  exact h.not_mem_qualified hn hρ (Place.named_of_opener? hp)

theorem not_mem_reference (σ : Role) (hn : n ∈ m.concepts) {k : Member} {q : Node}
    (hq : (k, q) ∈ n.references) (hown : σ.own? = some nameMember)
    (hk : k.kind.target? = some (.concept σ.type)) : '<' ∉ (qualified q).toList := by
  obtain ⟨found, hfound, hrole, _, hqualified⟩ := h.compiled.exists_target_of_role σ hn hq hk
  rw [← hqualified]
  exact (h.not_mem_qualified hfound hrole hown).1

theorem not_mem_label (hn : n ∈ m.concepts) :
    '<' ∉ (label n).toList ∧ '<' ∉ (label n).toLower.toList := by
  have hlabel : '<' ∉ (label n).toList := fun hc =>
    (h.compiled.lawful hn).name.not_mem (by decide) (Text.mem_trimEnding (Text.mem_trimEnding hc))
  refine ⟨hlabel, fun hc => ?_⟩
  have hmap : (label n).toLower = (label n).map Char.toLower := rfl
  rw [hmap, String.toList_map] at hc
  obtain ⟨d, hd, hlower⟩ := List.mem_map.mp hc
  exact hlabel (Text.eq_of_toLower hlower ▸ hd)

theorem not_mem_target (hn : n ∈ m.concepts) {name : String}
    (hname : name ∈ ["Source", "Referenced"]) {q : Node} (hq : n.reference? name = some q) :
    '<' ∉ (qualified q).toList := by
  obtain ⟨k, hk, rfl⟩ := Node.mem_members_of_get? (Node.get?_of_reference? hq)
  have hkind := ((h.compiled.lawful hn).members k (List.of_mem_zip hk).1).target hname
  exact h.not_mem_reference .dataStructure hn
    (Node.mem_references hk (List.mem_singleton_self q)) rfl (by rw [hkind]; rfl)

theorem not_mem_listedNames (hn : n ∈ m.concepts) : ∀ s ∈ listedNames n, '<' ∉ s.toList := by
  intro s hs
  unfold listedNames at hs
  split at hs
  · next items hitems =>
    obtain ⟨item, hitem, rfl⟩ := List.mem_map.mp hs
    obtain ⟨k, hk, hname⟩ := Node.mem_members_of_get? hitems
    have hkind := ((h.compiled.lawful hn).members k (List.of_mem_zip hk).1).properties hname
    have hreference := Node.mem_references hk hitem
    have hplain : '<' ∉ (qualified item).toList :=
      h.not_mem_reference .property hn hreference rfl (by rw [hkind]; rfl)
    -- The name of the element is a part of its key.
    rw [qualified, Text.mem_intercalate (by decide)] at hplain
    unfold nameOf
    cases hs : item.text? "Name" with
    | none => simp
    | some s =>
      obtain ⟨k', hk', hname'⟩ := Node.mem_members_of_get? (Node.get?_of_text? hs)
      have hitem := lawful h.compiled.registry
        ((h.compiled.formed n hn).shaped_of_mem_references hreference).type_mem
      have hkey := ((hitem.members k' (List.of_mem_zip hk').1).name hname').2
      exact fun hc => hplain ⟨s, Node.mem_keyParts_of_text hk' hkey, hc⟩
  · simp at hs

theorem plain_pieces (hn : n ∈ m.concepts) : Buffer.Plain (pieces n ρ) := by
  have hname := (h.not_mem_text hn "Name").1
  have htext := (h.not_mem_text hn "Text").1
  obtain ⟨hlabel, hlower⟩ := h.not_mem_label hn
  have hsource : '<' ∉ (sourceOf n).toList := by
    unfold sourceOf
    split
    · next q hq =>
      have hplain : '<' ∉ (qualified q).toList := by
        split at hq
        · exact h.not_mem_target hn (by decide) hq
        · cases hq
      change '<' ∉ (" of " ++ qualified q).toList
      simpa using hplain
    · simp
  have htarget : '<' ∉ (targetOf n).toList := by
    unfold targetOf
    split
    · next q hq =>
      change '<' ∉ (" -> " ++ qualified q).toList
      simpa using h.not_mem_target hn (by decide) hq
    · simp
  have hunique : '<' ∉ (uniqueText n).toList := by
    have hlist : '<' ∉ (", ".intercalate (listedNames n)).toList := by
      rw [Text.mem_intercalate (by decide)]
      rintro ⟨s, hs, hc⟩
      exact h.not_mem_listedNames hn s hs hc
    simpa [uniqueText] using hlist
  cases ρ <;> simp [pieces, opening, nameOf, remark, hname, htext, hlabel, hlower, hsource,
    htarget, hunique]

theorem mem_iff : n ∈ order ↔ n ∈ m.concepts := h.ordered.perm.mem_iff

theorem nodup : order.Nodup :=
  h.ordered.perm.nodup_iff.mpr (.of_map Node.key h.compiled.reachable.indexed.keys_nodup)

/-- The owner of a concept comes before it. -/
theorem owner_mem {before after : List Node} (horder : order = before ++ n :: after)
    {owner q : Node} (howns : Owns m owner q n) {k : Member} (hk : (k, q) ∈ n.references)
    (hne : n.type ≠ owner.type) : owner ∈ before := by
  have hn : n ∈ m.concepts := h.mem_iff.mp (by simp [horder])
  have hcontains : m.contains q.key = true :=
    h.compiled.reachable.indexed.contains_iff.mpr ⟨owner, howns.mem, howns.key_eq⟩
  rcases h.ordered.after before n after horder _ hk hcontains with he | ⟨n', hn', he⟩
  · have hsame := h.compiled.eq_of_key_eq howns.mem hn (howns.key_eq.trans he)
    exact absurd (hsame ▸ rfl) hne
  · have hmem : n' ∈ m.concepts := h.mem_iff.mp (by simp [horder, hn'])
    rwa [h.compiled.eq_of_key_eq howns.mem hmem (howns.key_eq.trans he.symm)]

/-- Each line goes to a place that is open, and opens new ones. -/
theorem fits {before after : List Node} (horder : order = before ++ n :: after) {l : Line Place}
    (hl : line? n = some l) : Buffer.Fits Place.discipline opening (lines before) l := by
  obtain ⟨ρ, hρ, hplace, hpieces⟩ := line?_eq_some.mp hl
  have hn : n ∈ m.concepts := h.mem_iff.mp (by simp [horder])
  have hstart {n : Node} {ρ : Role} {p : Place} (hp : place? n ρ = some p) : ρ ≠ .start := by
    rintro rfl
    cases hp
  refine ⟨?_, ?_, hpieces ▸ nodup_places, fun hd => hpieces ▸ places_eq_nil_of_single hplace hd⟩
  · rcases h.compiled.exists_opener hn hρ hplace with
      ⟨_, hp⟩ | ⟨owner, q, σ, k, howns, hk, hσ, hne, hopener⟩
    · rw [hp]
      exact .inl (by simp [opening])
    · have howner := h.owner_mem horder howns hk fun he => hne (by
        rw [he, hσ] at hρ
        exact (Option.some.inj hρ).symm)
      have hnamed := Place.named_of_opener? hopener
      obtain ⟨l', hl', hpieces'⟩ := h.compiled.exists_line howns.mem hσ hnamed
      refine .inr ⟨l', List.mem_filterMap.mpr ⟨owner, howner, hl'⟩, ?_⟩
      rw [hpieces', place_mem_pieces (by rintro rfl; cases hnamed)]
      exact hopener
  · intro p hp hopened
    rw [hpieces, place_mem_pieces (hstart hplace)] at hp
    rcases hopened with hopened | ⟨l', hl', hp'⟩
    · obtain rfl : p = .modules := by simpa [opening] using hopened
      cases hp
    · obtain ⟨n', hn', hl'⟩ := List.mem_filterMap.mp hl'
      obtain ⟨ρ', hρ', hplace', hpieces'⟩ := line?_eq_some.mp hl'
      rw [hpieces', place_mem_pieces (hstart hplace')] at hp'
      obtain ⟨rfl, hq⟩ := Prod.mk.inj (Option.some.inj (hp.symm.trans hp'))
      have hsame := h.compiled.eq_of_qualified_eq (Place.named_of_opener? hp) hn
        (h.mem_iff.mp (by simp [horder, hn'])) hρ hρ' hq
      have hnodup := h.nodup
      rw [horder, hsame] at hnodup
      exact (List.nodup_append.mp hnodup).2.2 n' hn' n' List.mem_cons_self rfl

theorem fitting {before after : List Node} (horder : order = before ++ after) :
    Buffer.Fitting Place.discipline opening (lines before) := by
  intro ls l ls' hsplit
  obtain ⟨xs, ys, rfl, rfl, hys⟩ := List.filterMap_eq_append_iff.mp hsplit
  obtain ⟨zs, n, ws, rfl, hzs, hl, _⟩ := List.filterMap_eq_cons_iff.mp hys
  have hsplit : order = (xs ++ zs) ++ n :: (ws ++ after) := by simp [horder]
  have hfits := h.fits hsplit hl
  rwa [lines, List.filterMap_append, List.filterMap_eq_nil_iff.mpr hzs, List.append_nil] at hfits

theorem mark_inj {before after : List Node} (horder : order = before ++ after) {p q : Place}
    (hp : Buffer.Opened opening (lines before) p) (hq : Buffer.Opened opening (lines before) q)
    (he : p.mark = q.mark) : p = q := by
  have hvalid {p : Place} (hp : Buffer.Opened opening (lines before) p) : p.Valid := by
    rcases hp with hp | ⟨l, hl, hp⟩
    · obtain rfl : p = .modules := by simpa [opening] using hp
      rintro o ⟨⟩
    · obtain ⟨n, hn, hl⟩ := List.mem_filterMap.mp hl
      obtain ⟨ρ, hρ, hplace, hpieces⟩ := line?_eq_some.mp hl
      rw [hpieces, place_mem_pieces (by rintro rfl; cases hplace)] at hp
      exact h.valid (h.mem_iff.mp (by simp [horder, hn])) hρ hp
  exact (hvalid hp).mark_inj (hvalid hq) he

end Outlined

end Sample

end ConceptScript
