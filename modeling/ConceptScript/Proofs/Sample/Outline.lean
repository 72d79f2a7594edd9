import ConceptScript.Proofs.Sample.Writing

namespace ConceptScript.Sample

open Buffer (Line)

theorem find?_of_unique {α : Type} {p : α → Bool} {as : List α} {a : α} (ha : a ∈ as)
    (hp : p a = true) (hunique : ∀ b ∈ as, p b = true → b = a) : as.find? p = some a := by
  obtain ⟨b, hb⟩ := Option.isSome_iff_exists.mp (List.find?_isSome.mpr ⟨a, ha, hp⟩)
  rw [hb, hunique b (List.mem_of_find?_eq_some hb) (List.find?_some hb)]

theorem nameOf_eq_moduleName {n : Node} {ms : List Member}
    (hms : n.type.members = nameMember :: ms) : nameOf n = moduleName n := by
  obtain ⟨t, slots⟩ := n
  match slots with
  | [] => simp [nameOf, moduleName, Node.text?, Node.get?, Node.members, Node.slots]
  | v :: vs =>
    have hv : (Node.mk t (v :: vs)).get? nameMember.name = v :=
      Node.get?_of_members [] (by rw [Node.members, hms]; rfl) (by simp)
    rw [nameOf, Node.text?, show "Name" = nameMember.name from rfl, hv]
    rcases v with _ | _ | _ | _ <;> rfl

theorem nameOf_eq_ownName {n : Node} {first : Member} {ms : List Member}
    (hms : n.type.members = first :: nameMember :: ms) (hfirst : first.name ≠ nameMember.name) :
    nameOf n = ownName n := by
  obtain ⟨t, slots⟩ := n
  match slots with
  | [] => simp [nameOf, ownName, Node.text?, Node.get?, Node.members, Node.slots]
  | [u] =>
    have hother : ¬first.name = "Name" := hfirst
    rw [nameOf, Node.text?, Node.get?, Node.members, hms]
    simp [Node.slots, ownName, hother]
  | u :: v :: vs =>
    have hv : (Node.mk t (u :: v :: vs)).get? nameMember.name = v :=
      Node.get?_of_members [(first, u)] (by rw [Node.members, hms]; rfl) (by simpa using hfirst)
    rw [nameOf, Node.text?, show "Name" = nameMember.name from rfl, hv]
    rcases v with _ | _ | _ | _ <;> rfl

theorem ownName_of_role {t : ConceptType} (h : Lawful t) {ρ : Role} (hρ : role? t = some ρ)
    (hown : ρ.own? = some nameMember) (hparent : ρ ≠ .module) {n : Node} (hn : n.type = t) :
    nameOf n = ownName n := by
  subst hn
  obtain ⟨_, hmembers, _⟩ := h.role hρ
  cases ρ with
  | dataStructure => exact nameOf_eq_ownName hmembers (by decide)
  | property => exact nameOf_eq_ownName hmembers (by decide)
  | module => exact absurd rfl hparent
  | start | required => cases hown
  | unique | description => simp [Role.own?, nameMember] at hown

namespace Compiled

variable {r : Registry} {m : Model} (h : Compiled r m) {n : Node} (hn : n ∈ m.concepts)
include h hn

theorem nameOf_module (hρ : role? n.type = some .module) : nameOf n = moduleName n :=
  nameOf_eq_moduleName ((h.lawful hn).role hρ).2.1

theorem ownName_eq {ρ : Role} (hρ : role? n.type = some ρ)
    (hown : ρ.own? = some nameMember) (hparent : ρ ≠ .module) : nameOf n = ownName n :=
  ownName_of_role (h.lawful hn) hρ hown hparent rfl

theorem structureLabel_eq (hρ : role? n.type = some .dataStructure) :
    (label n).toLower = structureLabel n.typeName :=
  eq_of_beq ((h.lawful hn).role hρ).2.2

theorem propertyLabel_eq (hρ : role? n.type = some .property) :
    label n = propertyLabel n.typeName :=
  eq_of_beq ((h.lawful hn).role hρ).2.2

theorem remark_eq (hρ : role? n.type = some .description) : remark n = commentText n := by
  obtain ⟨_, hmembers, _⟩ := (h.lawful hn).role hρ
  obtain ⟨values, vs, hslots, hsuits, _⟩ := h.exists_values hn hρ
  obtain ⟨target, values, _, hvalues, rfl⟩ := List.forall₂_cons_left_iff.mp hsuits
  obtain ⟨value, values, hvalue, _, rfl⟩ := List.forall₂_cons_left_iff.mp hvalues
  obtain ⟨s, rfl⟩ := Node.exists_text_of_accepts rfl hvalue.accepts
  have htext : n.get? "Text" = some (.text s) :=
    Node.get?_of_members [(⟨"Target", .reference .any, true, true⟩, some target)]
      (by rw [Node.members, hmembers, hslots]; rfl) (by simp)
  obtain ⟨t, slots⟩ := n
  obtain rfl : slots = _ := hslots
  rw [remark, Node.text?, htext]
  rfl

theorem uniqueText_eq (hρ : role? n.type = some .unique) : uniqueText n = uniqueRow n := by
  obtain ⟨_, hmembers, _⟩ := (h.lawful hn).role hρ
  obtain ⟨values, vs, hslots, hsuits, _⟩ := h.exists_values hn hρ
  obtain ⟨owner, values, _, hvalues, rfl⟩ := List.forall₂_cons_left_iff.mp hsuits
  obtain ⟨value, values, hvalue, _, rfl⟩ := List.forall₂_cons_left_iff.mp hvalues
  obtain ⟨items, rfl, hitems⟩ := Node.exists_list_of_accepts hvalue.accepts
  have hlist : n.get? "Properties" = some (.list items) :=
    Node.get?_of_members
      [(⟨"DataStructure", .reference (.concept dataStructure), true, true⟩, some owner)]
      (by rw [Node.members, hmembers, hslots]; rfl) (by simp)
  have hnames : items.map nameOf = items.map ownName := by
    refine List.map_congr_left fun item hitem => ?_
    have hlawful := Sample.lawful h.registry (hvalue.shaped item hitem).type_mem
    have hrole : role? item.type = some .property := hlawful.isA_iff.mp (hitems item hitem)
    exact ownName_of_role hlawful hrole rfl (by decide) rfl
  obtain ⟨t, slots⟩ := n
  obtain rfl : slots = _ := hslots
  rw [uniqueText, listedNames, hlist]
  dsimp only
  rw [hnames]
  rfl

theorem exists_third {a b k : Member} (hmembers : n.type.members = [a, b, k])
    (hk : k.kind = .reference (.concept dataStructure)) (ha : a.name ≠ k.name)
    (hb : b.name ≠ k.name) :
    ∃ q, n.reference? k.name = some q ∧ third? n = some q ∧ (k, q) ∈ n.references := by
  obtain ⟨values, vs, hslots, hsuits⟩ := (h.formed n hn).exists_values
    (h.reachable.resolving.complete n hn) (hmembers.trans (List.append_nil _).symm)
  obtain ⟨u, values, _, hrest, rfl⟩ := List.forall₂_cons_left_iff.mp hsuits
  obtain ⟨v, values, _, hlast, rfl⟩ := List.forall₂_cons_left_iff.mp hrest
  obtain ⟨value, values, hvalue, _, rfl⟩ := List.forall₂_cons_left_iff.mp hlast
  have haccepts := hvalue.accepts
  rw [hk] at haccepts
  obtain ⟨q, rfl, _⟩ := Node.exists_reference_of_accepts haccepts
  have hparts : n.members = [(a, some u), (b, some v)] ++ (k, some (.reference q)) :: [] := by
    rw [Node.members, hmembers, hslots]
    rfl
  have hget : n.get? k.name = some (.reference q) :=
    Node.get?_of_members _ hparts (by simp [ha, hb])
  refine ⟨q, by rw [Node.reference?, hget], ?_, ?_⟩
  · obtain ⟨t, slots⟩ := n
    obtain rfl : slots = _ := hslots
    rfl
  · have hmem : (k, some (.reference q)) ∈ n.members := by simp [hparts]
    exact Node.mem_references hmem (List.mem_singleton_self q)

end Compiled

/-- The lines at a place are those of the concepts that write there. -/
theorem map_filter_lines {order : List Node} {p : Place} {writes : Node → Bool}
    {f : Line Place → String} {g : Node → String}
    (hto : ∀ n ∈ order, writes n = true → ∃ l, line? n = some l ∧ l.place = p ∧ f l = g n)
    (hof : ∀ n ∈ order, ∀ l, line? n = some l → l.place = p → writes n = true) :
    ((lines order).filter fun l => l.place = p).map f = (order.filter writes).map g := by
  induction order with
  | nil => rfl
  | cons n order ih =>
    have hrest := ih (fun n' hn' => hto n' (List.mem_cons_of_mem n hn'))
      fun n' hn' => hof n' (List.mem_cons_of_mem n hn')
    have hto := hto n List.mem_cons_self
    have hof := hof n List.mem_cons_self
    rw [lines] at hrest ⊢
    by_cases hn : writes n = true
    · obtain ⟨l, hl, hp, hf⟩ := hto hn
      rw [List.filterMap_cons_some hl, List.filter_cons_of_pos (by simpa using hp),
        List.filter_cons_of_pos hn, List.map_cons, List.map_cons, hf, hrest]
    · rw [List.filter_cons_of_neg hn, ← hrest]
      cases hl : line? n with
      | none => rw [List.filterMap_cons_none hl]
      | some l =>
        rw [List.filterMap_cons_some hl, List.filter_cons_of_neg]
        simpa using fun hp => hn (hof l hl hp)

/-- What is at a place after all lines. -/
def textAt (order : List Node) : Place → String := Buffer.content Place.discipline (lines order)

namespace Outlined

variable {r : Registry} {m : Model} {order : List Node} (h : Outlined r m order)
  {n owner : Node} {ρ : Role}
include h

theorem owns_of_isIn (hn : n ∈ order) (howner : owner ∈ order) (hin : isIn owner n = true) :
    ∃ q, Owns m owner q n := by
  obtain ⟨q, hq, hkey⟩ := Option.map_eq_some_iff.mp (eq_of_beq hin)
  have hc := h.compiled
  have hmem := h.mem_iff.mp howner
  obtain ⟨k, _, hk⟩ := Node.mem_members_of_parent? hq
  have htype := (hc.formed n (h.mem_iff.mp hn)).shaped_of_mem_references
    (Node.mem_references hk (List.mem_singleton_self q)) |>.type_mem
  obtain ⟨hroot, hqualified⟩ := qualified_eq_of_key_eq hc.registry (hc.formed owner hmem).type_mem
    htype hkey.symm
  exact ⟨q, hq, hmem, hkey.symm, hroot, hqualified⟩

theorem isIn_of_place {l : Line Place} (hn : n ∈ order) (hl : line? n = some l) {σ : Role}
    (howner : owner ∈ order) (hσ : role? owner.type = some σ)
    (hopener : l.place.opener? = some (σ, qualified owner)) :
    ∃ ρ, role? n.type = some ρ ∧ place? n ρ = some l.place ∧ isIn owner n = true := by
  obtain ⟨ρ, hρ, hplace, _⟩ := line?_eq_some.mp hl
  refine ⟨ρ, hρ, hplace, ?_⟩
  rcases h.compiled.exists_opener (h.mem_iff.mp hn) hρ hplace with
    ⟨_, hp⟩ | ⟨owner', q, σ', k, howns, _, hσ', _, hopener'⟩
  · rw [hp] at hopener
    cases hopener
  · obtain ⟨rfl, hq⟩ := Prod.mk.inj (Option.some.inj (hopener.symm.trans hopener'))
    have hsame := h.compiled.eq_of_qualified_eq (Place.named_of_opener? hopener)
      (h.mem_iff.mp howner) howns.mem hσ hσ' hq
    simp [isIn, howns.parent, ← howns.key_eq, hsame]

/-- A reference to a data structure is written by the names of what it leads to. -/
theorem pathText_eq (hn : n ∈ order) {k : Member} {q : Node} (hq : (k, q) ∈ n.references)
    (hk : k.kind = .reference (.concept dataStructure)) : pathText order q = qualified q := by
  have hc := h.compiled
  obtain ⟨found, hfound, hrole, hkey, hqualified⟩ :=
    hc.exists_target_of_role .dataStructure (h.mem_iff.mp hn) hq (by rw [hk]; rfl)
  obtain ⟨p, home, howns, hhome, hname⟩ := hc.exists_module hfound hrole
  have hfind : order.find? (fun c => c.key == q.key) = some found := by
    refine find?_of_unique (h.mem_iff.mpr hfound) (beq_iff_eq.mpr hkey) fun c hcmem hckey => ?_
    exact hc.eq_of_key_eq (h.mem_iff.mp hcmem) hfound ((eq_of_beq hckey).trans hkey.symm)
  have hin : isIn home found = true := by
    rw [isIn, howns.parent, Option.map_some, howns.key_eq, beq_self_eq_true]
  have hhomefind : order.find? (fun c => isIn c found) = some home := by
    refine find?_of_unique (h.mem_iff.mpr howns.mem) hin fun c hcmem hcin => ?_
    rw [isIn, howns.parent, Option.map_some, beq_iff_eq] at hcin
    exact hc.eq_of_key_eq (h.mem_iff.mp hcmem) howns.mem
      ((Option.some.inj hcin).symm.trans howns.key_eq.symm)
  rw [pathText, hfind]
  dsimp only
  rw [hhomefind, ← hqualified, hname, hc.nameOf_module howns.mem hhome,
    hc.ownName_eq hfound hrole rfl (by decide)]

theorem sourceOf_eq (hn : n ∈ order) (hρ : role? n.type = some .dataStructure) :
    sourceOf n = if n.typeName = browse then linkText order " of " n else "" := by
  have hmem := h.mem_iff.mp hn
  have hlawful := h.compiled.lawful hmem
  by_cases hb : n.typeName = browse
  · have hmembers := (hlawful.role hρ).2.1
    rw [extras_of_browse hb] at hmembers
    obtain ⟨q, hq, hthird, hreference⟩ :=
      h.compiled.exists_third hmem hmembers rfl (by decide) (by decide)
    have hsource : n.reference? "Source" = some q := hq
    rw [sourceOf, if_pos (hlawful.isA_browse.mpr hb), hsource, if_pos hb, linkText, hthird,
      Option.elim_some, h.pathText_eq hn hreference rfl]
    rfl
  · rw [sourceOf, if_neg (mt hlawful.isA_browse.mp hb), if_neg hb]

theorem targetOf_eq (hn : n ∈ order) (hρ : role? n.type = some .property) :
    targetOf n = if n.typeName = referenceProperty then linkText order " -> " n else "" := by
  have hmem := h.mem_iff.mp hn
  have hmembers := ((h.compiled.lawful hmem).role hρ).2.1
  by_cases hb : n.typeName = referenceProperty
  · rw [extras_of_reference hb] at hmembers
    obtain ⟨q, hq, hthird, hreference⟩ :=
      h.compiled.exists_third hmem hmembers rfl (by decide) (by decide)
    have htarget : n.reference? "Referenced" = some q := hq
    rw [targetOf, htarget, if_pos hb, linkText, hthird, Option.elim_some,
      h.pathText_eq hn hreference rfl]
    rfl
  · have hnone : n.reference? "Referenced" = none := by
      cases hq : n.reference? "Referenced" with
      | none => rfl
      | some q =>
        obtain ⟨k, hk, hname⟩ := Node.mem_members_of_get? (Node.get?_of_reference? hq)
        have hmem := (List.of_mem_zip hk).1
        rw [hmembers, List.mem_append] at hmem
        have hkeys := hmem.imp_right fun hextra => extras_of_other hb hextra
        simp only [Role.keys, Role.parent?, Role.own?] at hkeys
        rcases hkeys with hkeys | hkeys <;> simp at hkeys <;> grind [nameMember, sourceMember]
    rw [targetOf, hnone, if_neg hb]

theorem isA_iff (ρ : Role) (hn : n ∈ order) :
    n.type.isA ρ.type = true ↔ role? n.type = some ρ :=
  (h.compiled.lawful (h.mem_iff.mp hn)).isA_iff

theorem textAt_eq (p : Place) : textAt order p = String.join (p.discipline.arrange
    (((lines order).filter fun l => l.place = p).map fun l =>
      Buffer.fill (textAt order) l.pieces)) :=
  (h.fitting (List.append_nil order).symm).content_eq p

/-- A place has what is written by the concepts of some roles that are in the one that opens it. -/
theorem textAt_of_roles {p : Place} {σ : Role} (hn : n ∈ order) (hσ : role? n.type = some σ)
    (hopener : p.opener? = some (σ, qualified n)) (roles : List Role)
    (hroles : ∀ ρ c, place? c ρ = some p → ρ ∈ roles)
    (hplace : ∀ ρ ∈ roles, ∀ c q, Owns m n q c → place? c ρ = some p)
    {g : Node → String} (hg : ∀ ρ ∈ roles, ∀ c ∈ order, role? c.type = some ρ →
      Buffer.fill (textAt order) (pieces c ρ) = g c) :
    textAt order p = String.join (p.discipline.arrange ((order.filter fun c =>
      (roles.any fun ρ => c.type.isA ρ.type) && isIn n c).map g)) := by
  rw [h.textAt_eq]
  refine congrArg (fun texts => String.join (p.discipline.arrange texts)) (map_filter_lines ?_ ?_)
  · intro c hc hw
    obtain ⟨⟨ρ, hρ, htype⟩, hin⟩ : (∃ ρ ∈ roles, c.type.isA ρ.type = true) ∧ isIn n c = true := by
      simpa using hw
    have hrole := (h.isA_iff ρ hc).mp htype
    obtain ⟨q, howns⟩ := h.owns_of_isIn hc hn hin
    exact ⟨⟨p, pieces c ρ⟩, line?_eq_some.mpr ⟨ρ, hrole, hplace ρ hρ c q howns, rfl⟩, rfl,
      hg ρ hρ c hc hrole⟩
  · intro c hc l hl hp
    obtain ⟨ρ, hrole, hat, hin⟩ := h.isIn_of_place hc hl hn hσ (by rw [hp, hopener])
    rw [Bool.and_eq_true, List.any_eq_true]
    exact ⟨⟨ρ, hroles ρ c (by rw [hat, hp]), (h.isA_iff ρ hc).mpr hrole⟩, hin⟩

theorem textAt_of_role {p : Place} {σ : Role} (hn : n ∈ order) (hσ : role? n.type = some σ)
    (hopener : p.opener? = some (σ, qualified n)) (ρ : Role)
    (hrole : ∀ ρ' c, place? c ρ' = some p → ρ' = ρ)
    (hplace : ∀ c q, Owns m n q c → place? c ρ = some p) {g : Node → String}
    (hg : ∀ c ∈ order, role? c.type = some ρ → Buffer.fill (textAt order) (pieces c ρ) = g c) :
    textAt order p = String.join (p.discipline.arrange ((order.filter fun c =>
      c.type.isA ρ.type && isIn n c).map g)) := by
  have htext := h.textAt_of_roles hn hσ hopener [ρ]
    (fun ρ' c hc => List.mem_singleton.mpr (hrole ρ' c hc))
    (List.forall_mem_singleton.mpr hplace) (List.forall_mem_singleton.mpr hg)
  simpa only [List.any_cons, List.any_nil, Bool.or_false] using htext

theorem required_unique {c c' : Node} (hn : n ∈ order) (hc : c ∈ order)
    (hρ : role? c.type = some .required) (hin : isIn n c = true) (hc' : c' ∈ order)
    (hρ' : role? c'.type = some .required) (hin' : isIn n c' = true) : c = c' := by
  have hkey {c : Node} (hc : c ∈ order) (hρ : role? c.type = some .required)
      (hin : isIn n c = true) :
      Node.label n.type.root c.keyParts = n.key ∧ c.key = Node.label required c.keyParts := by
    obtain ⟨q, hq⟩ := h.owns_of_isIn hc hn hin
    obtain ⟨q', owner, howns, _, _, hparts⟩ := h.compiled.exists_owner (h.mem_iff.mp hc) hρ rfl
    obtain rfl := Option.some.inj (hq.parent.symm.trans howns.parent)
    have hroot := ((h.compiled.lawful (h.mem_iff.mp hc)).keys hρ).1
    have hsame : c.keyParts = q.keyParts := by simp [hparts, Role.own?, Node.slotParts]
    rw [hsame, hq.root_eq, hq.key_eq, Node.key, Node.key, hroot, hsame]
    exact ⟨rfl, rfl⟩
  obtain ⟨hlabel, hc₁⟩ := hkey hc hρ hin
  obtain ⟨hlabel', hc₂⟩ := hkey hc' hρ' hin'
  have hrest : Node.labelRest c.keyParts = Node.labelRest c'.keyParts := by
    have hchars := congrArg String.toList (hlabel.trans hlabel'.symm)
    rwa [Node.toList_label, Node.toList_label, List.append_cancel_left_eq] at hchars
  refine h.compiled.eq_of_key_eq (h.mem_iff.mp hc) (h.mem_iff.mp hc') ?_
  rw [hc₁, hc₂, ← String.toList_inj, Node.toList_label, Node.toList_label, hrest]

theorem textAt_flags (hn : n ∈ order) (hρ : role? n.type = some .property) :
    textAt order (.flags (qualified n)) = flagText order n := by
  have hrole (ρ : Role) (c : Node) (hc : place? c ρ = some (.flags (qualified n))) :
      ρ = .required := by
    cases ρ <;> simp [place?] at hc ⊢
  have htext := h.textAt_of_role hn hρ rfl .required hrole (fun _ _ howns => howns.place?_eq rfl)
    (g := fun _ => " [required]") (by simp [pieces, Buffer.fill])
  rw [Role.type] at htext
  have hnodup := h.nodup.filter fun c => c.type.isA required && isIn n c
  have hone : ∀ c ∈ order.filter (fun c => c.type.isA required && isIn n c), ∀ c' ∈
      order.filter (fun c => c.type.isA required && isIn n c), c = c' := by
    simp only [List.mem_filter, Bool.and_eq_true]
    rintro c ⟨hc, htype, hin⟩ c' ⟨hc', htype', hin'⟩
    exact h.required_unique hn hc ((h.isA_iff .required hc).mp htype) hin hc'
      ((h.isA_iff .required hc').mp htype') hin'
  rw [htext, flagText, ← List.isSome_find?, ← List.head?_filter]
  cases hcs : order.filter fun c => c.type.isA required && isIn n c with
  | nil => rfl
  | cons c cs =>
    rw [hcs] at hnodup hone
    cases cs with
    | nil => simp [Discipline.arrange, Place.discipline, Place.tag, flagsTag]
    | cons c' cs => simp [hone c (by simp) c' (by simp)] at hnodup

theorem textAt_summary (hn : n ∈ order) (hρ : role? n.type = some .dataStructure) :
    textAt order (.summary (qualified n)) = summaryText order n := by
  have hroot := ((h.compiled.lawful (h.mem_iff.mp hn)).keys hρ).1
  have hrole (ρ : Role) (c : Node) (hc : place? c ρ = some (.summary (qualified n))) :
      ρ = .description := by
    cases ρ <;> simp [place?] at hc ⊢
  have hplace (c q : Node) (howns : Owns m n q c) :
      place? c .description = some (.summary (qualified n)) := by
    have hq : q.type.root = dataStructure := howns.root_eq.symm.trans hroot
    simp [place?, howns.parent, hq, howns.qualified_eq]
  have hg : ∀ c ∈ order, role? c.type = some .description →
      Buffer.fill (textAt order) (pieces c .description) = commentText c := by
    intro c hc hrole
    simp [pieces, Buffer.fill, h.compiled.remark_eq (h.mem_iff.mp hc) hrole]
  have htext := h.textAt_of_role hn hρ rfl .description hrole hplace hg
  rw [Role.type] at htext
  rw [htext, summaryText, ← List.head?_filter]
  cases order.filter fun c => c.type.isA description && isIn n c with
  | nil => rfl
  | cons c cs => simp [Discipline.arrange, Place.discipline, Place.tag, summaryTag]

theorem textAt_properties (hn : n ∈ order) (hρ : role? n.type = some .dataStructure) :
    textAt order (.properties (qualified n)) = String.join ((order.filter fun c =>
      (c.type.isA property || c.type.isA unique) && isIn n c).map (memberText order)) := by
  have hroles (ρ : Role) (c : Node) (hc : place? c ρ = some (.properties (qualified n))) :
      ρ ∈ [Role.property, .unique] := by
    cases ρ <;> simp [place?] at hc ⊢
  have hplace : ∀ ρ ∈ [Role.property, .unique], ∀ c q, Owns m n q c →
      place? c ρ = some (.properties (qualified n)) := by
    intro ρ hρ c q howns
    rcases List.mem_pair.mp hρ with rfl | rfl
    · exact howns.place?_eq rfl
    · exact howns.place?_eq rfl
  have hg : ∀ ρ ∈ [Role.property, .unique], ∀ c ∈ order, role? c.type = some ρ →
      Buffer.fill (textAt order) (pieces c ρ) = memberText order c := by
    intro ρ hρ c hc hrole
    rcases List.mem_pair.mp hρ with rfl | rfl
    · have hisA : c.type.isA property = true := (h.isA_iff .property hc).mpr hrole
      rw [memberText, if_pos hisA]
      simp [pieces, Buffer.fill, propertyText, h.textAt_flags hc hrole, 
        h.compiled.ownName_eq (h.mem_iff.mp hc) hrole rfl (by decide),
        h.compiled.propertyLabel_eq (h.mem_iff.mp hc) hrole, h.targetOf_eq hc hrole, String.append_assoc]
    · have hother : ¬c.type.isA property = true := by
        intro hisA
        have hproperty := (h.isA_iff .property hc).mp hisA
        cases hrole.symm.trans hproperty
      rw [memberText, if_neg hother]
      simp [pieces, Buffer.fill, h.compiled.uniqueText_eq (h.mem_iff.mp hc) hrole]
  have htext := h.textAt_of_roles hn hρ rfl [.property, .unique] hroles hplace hg
  simp only [List.any_cons, List.any_nil, Bool.or_false, Role.type] at htext
  exact htext

theorem textAt_members (hn : n ∈ order) (hρ : role? n.type = some .module) :
    textAt order (.members (qualified n)) = String.join ((order.filter fun c =>
      c.type.isA dataStructure && isIn n c).map (structureText order)) := by
  have hrole (ρ : Role) (c : Node) (hc : place? c ρ = some (.members (qualified n))) :
      ρ = .dataStructure := by
    cases ρ <;> simp [place?] at hc ⊢
  refine h.textAt_of_role hn hρ rfl .dataStructure hrole (fun _ _ howns => howns.place?_eq rfl) ?_
  intro c hc hrole
  simp [pieces, Buffer.fill, structureText, h.textAt_summary hc hrole,
    h.textAt_properties hc hrole, h.compiled.ownName_eq (h.mem_iff.mp hc) hrole rfl (by decide),
    h.compiled.structureLabel_eq (h.mem_iff.mp hc) hrole, h.sourceOf_eq hc hrole,
    String.append_assoc]

theorem textAt_modules : textAt order .modules =
    String.join ((order.filter fun n => n.type.isA module).map (moduleText order)) := by
  rw [h.textAt_eq]
  refine congrArg String.join (map_filter_lines ?_ ?_)
  · intro n hn htype
    have hrole := (h.isA_iff .module hn).mp htype
    refine ⟨⟨.modules, pieces n .module⟩, line?_eq_some.mpr ⟨_, hrole, rfl, rfl⟩, rfl, ?_⟩
    simp [pieces, Buffer.fill, moduleText, h.textAt_members hn hrole,
      h.compiled.nameOf_module (h.mem_iff.mp hn) hrole, String.append_assoc]
  · intro n hn l hl hp
    obtain ⟨ρ, hρ, hplace, _⟩ := line?_eq_some.mp hl
    refine (h.isA_iff .module hn).mpr ?_
    rw [hp] at hplace
    cases ρ <;> simp [place?] at hplace
    exact hρ

theorem fill_opening : Buffer.fill (textAt order) opening = outlineText order := by
  change "# Concept outline\n" ++ (textAt order .modules ++ "") = outlineText order
  rw [String.append_empty, h.textAt_modules]
  rfl

end Outlined

/-- The outline of a compiled model is its concepts, written from the top down in the order of
dependencies. -/
theorem generate_outline {r : Registry} {options : Options} {c : Compiler} {scripts : List Script}
    {result : Compilation} (hr : registry = .ok r) (hc : compiler r options = .ok c)
    (h : c.compileFresh scripts = .ok result) (hplain : Unbracketed result.model) :
    ∃ order, result.model.dependencyOrder = .ok order ∧
      generate result.model generators {} =
        .ok [("outline.txt", outlineText (order.map Entry.node))] := by
  have hm := compiled_of_compileFresh hr hc h
  obtain ⟨entries, horder⟩ := hm.ordered
  have hout : Outlined r result.model (entries.map Entry.node) :=
    ⟨hm, hplain, Model.dependencyOrder_eq_ok hm.reachable.indexed horder⟩
  have hcheck : generators.check result.model.registry = .ok () := by
    have hnone : (generators.find? fun g => (r.find? g.onType).isNone) = none := by
      refine List.find?_eq_none.mpr fun g hg => ?_
      rw [generators_eq] at hg
      obtain ⟨ρ, _, rfl⟩ := List.mem_map.mp hg
      simpa [Option.isSome_iff_ne_none] using isSome_find?_role hr ρ
    rw [Generators.check, hm.reachable.registry_eq, hnone]
  -- The initial concept is the first one, and the others find the outline opened.
  obtain ⟨start, hstart, hρ, hreferences, hhead, _⟩ := hout.exists_start
  obtain ⟨rest, hrest⟩ := Model.dependencyOrder_head horder
    (by rw [← List.head?_eq_getElem?, hhead]) hreferences
  obtain ⟨w, hheader, hw⟩ := hout.header_written hstart hρ
  have hothers : ∀ n ∈ rest, role? n.type ≠ some .start := by
    intro n hn hrole
    have hnodup := hout.nodup
    rw [hrest, List.nodup_cons] at hnodup
    have hmem : n ∈ result.model.concepts := hout.mem_iff.mp (by simp [hrest, hn])
    exact hnodup.1 (hout.eq_of_start hstart hρ hmem hrole ▸ hn)
  obtain ⟨w', hrun, d, rfl, hd⟩ := hout.run_written hw hrest hothers
  have hfirst : (generators.forType start.type).foldlM (fun w g => g.generate start result.model w)
      {} = .ok w := by
    rw [forType_eq (hm.lawful hstart), hρ, Option.toList_some, List.map_singleton,
      List.foldlM_cons]
    simp only [Role.write, hheader, ok_bind]
    rfl
  have hall : generators.run result.model {} (entries.map Entry.node) =
      .ok (written (d.buffer false)) := by
    rw [hrest, Generators.run, hfirst, ok_bind, hrun]
  have hfinish : (d.buffer false).finish = outlineText (entries.map Entry.node) := by
    rw [hd.finish_eq (by simp [opening]) ?_, ← hout.fill_opening]
    · rfl
    · intro l hl
      obtain ⟨n, hn, hl⟩ := List.mem_filterMap.mp hl
      obtain ⟨ρ, _, _, hpieces⟩ := line?_eq_some.mp hl
      rw [hpieces]
      exact hout.plain_pieces (hout.mem_iff.mp hn)
  refine ⟨entries, horder, ?_⟩
  rw [generate, hcheck, ok_bind, horder]
  change (generators.run result.model {} (entries.map Entry.node) >>= fun w => pure w.finish) = _
  rw [hall, ok_bind, written, Workspace.finish]
  simp [hfinish, outline]

def isUnbracketed (cs : List Node) : Bool :=
  cs.all fun n => n.slots.all fun
    | some (.text s) => !s.toList.contains '<' && !s.toList.contains '>'
    | _ => true

theorem unbracketed_of_check {m : Model} (h : isUnbracketed m.concepts = true) : Unbracketed m := by
  intro n hn s hs
  have hs := List.all_eq_true.mp (List.all_eq_true.mp h n hn) _ hs
  simpa using hs

/-- Two entities, of which one refers to the other and has a list, and a browse. -/
def market : Script :=
  .ofText "market" ("Module Shop \x7b Entity Firm; " ++
    "Entity Item \x7b Integer Count \x7b Required; \x7d Reference Maker Shop.Firm; " ++
    "Unique [Count Maker]; Description \"stock\"; \x7d Browse Items Shop.Item; \x7d")

def marketOutline : String :=
  "# Concept outline\n\nmodule Shop\n  entity Firm\n    - ID : Guid\n  entity Item -- stock\n" ++
    "    - Count : Integer [required]\n    - Maker : Reference -> Shop.Firm\n" ++
    "    unique (Count, Maker)\n    - ID : Guid\n  browse Items of Shop.Item\n"

theorem generate_outline_market :
    ∃ r c result, registry = .ok r ∧ compiler r {} = .ok c ∧ c.compileFresh [market] = .ok result ∧
      Unbracketed result.model ∧
      generate result.model generators {} = .ok [("outline.txt", marketOutline)] := by
  obtain ⟨r, c, result, hr, hc, h, hcheck, hbackward⟩ := exists_compileFresh
    (p := fun cs => isUnbracketed cs && outlineText cs == marketOutline)
    (show compilesTo _ [market] = true by decide +kernel)
  rw [Bool.and_eq_true, beq_iff_eq] at hcheck
  have hplain := unbracketed_of_check hcheck.1
  obtain ⟨order, horder, hgenerate⟩ := generate_outline hr hc h hplain
  obtain rfl := Except.ok.inj (hbackward.symm.trans horder)
  exact ⟨r, c, result, hr, hc, h, hplain, hgenerate.trans (by rw [← hcheck.2]; rfl)⟩

end ConceptScript.Sample
