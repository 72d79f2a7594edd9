import ConceptScript.Proofs.Node.Keyed
import ConceptScript.Proofs.Registry.Order
import ConceptScript.Proofs.Registry.Subtyping

namespace ConceptScript

namespace Declaration

/-- A declaration that an author can write, one step after the other. -/
inductive Drafted : Declaration → Prop
  | type (name : String) : Drafted { name }
  | interface (name : String) : Drafted (interface name)
  | withKeyword {d : Declaration} (keyword : String) : Drafted d → Drafted (d.withKeyword keyword)
  | extending {d : Declaration} (base : String) : Drafted d → Drafted (d.extending base)
  | implementing {d : Declaration} (name : String) : Drafted d → Drafted (d.implementing name)
  | deprecated {d : Declaration} (note : String) : Drafted d → Drafted (d.deprecated note)
  | withParent {d : Declaration} (name : String) (target : Target) :
    Drafted d → Drafted (d.withParent name target)
  | withKey {d : Declaration} (name : String) (kind : MemberKind) :
    Drafted d → Drafted (d.withKey name kind)
  | withMember {d : Declaration} (name : String) (kind : MemberKind) :
    Drafted d → Drafted (d.withMember name kind)

theorem Drafted.parent_refers {d : Declaration} (h : d.Drafted) {m : Member}
    (hm : m ∈ d.members) (hp : m.isParent = true) :
    m.isKey = true ∧ ∃ target, m.kind = .reference target := by
  induction h with
  | type name => cases hm
  | interface name => cases hm
  | withKeyword _ _ ih => exact ih hm
  | extending _ _ ih => exact ih hm
  | implementing _ _ ih => exact ih hm
  | deprecated _ _ ih => exact ih hm
  | withParent name target _ ih =>
    rcases List.mem_append.mp hm with hm | hm
    · exact ih hm
    · obtain rfl := List.mem_singleton.mp hm
      exact ⟨rfl, target, rfl⟩
  | withKey name kind _ ih =>
    rcases List.mem_append.mp hm with hm | hm
    · exact ih hm
    · obtain rfl := List.mem_singleton.mp hm
      cases hp
  | withMember name kind _ ih =>
    rcases List.mem_append.mp hm with hm | hm
    · exact ih hm
    · obtain rfl := List.mem_singleton.mp hm
      cases hp

end Declaration

namespace Shape.Refines

variable {s b : Shape} (h : s.Refines b)
include h

theorem keys_eq : s.keys = b.keys := by
  obtain ⟨own, hown, hplain⟩ := h.members
  have hnone : own.filter Member.isKey = [] :=
    List.filter_eq_nil_iff.mpr fun m hm => by simp [(hplain m hm).1]
  rw [keys, keys, hown, List.filter_append, hnone, List.append_nil]

theorem parent?_eq : s.parent? = b.parent? := by
  obtain ⟨own, hown, hplain⟩ := h.members
  rw [parent?, parent?, hown]
  cases b.members with
  | nil =>
    cases own with
    | nil => rfl
    | cons m own => simp [(hplain m List.mem_cons_self).2]
  | cons m ms => rfl

end Shape.Refines

theorem ConceptType.keyMembers_eq_of_refines {t u : ConceptType}
    (h : t.toShape.Refines u.toShape) : t.keyMembers = u.keyMembers := by
  obtain ⟨own, hown, hplain⟩ := h.members
  have hnone : (own.zipIdx u.members.length).filter (fun p => p.1.isKey) = [] := by
    refine List.filter_eq_nil_iff.mpr fun p hp => ?_
    simp [(hplain p.1 (List.fst_mem_of_mem_zipIdx hp)).1]
  calc t.keyMembers
      = (u.members ++ own).zipIdx.filter (fun p => p.1.isKey) := by rw [← hown]; rfl
    _ = u.keyMembers ++ (own.zipIdx u.members.length).filter (fun p => p.1.isKey) := by
        rw [List.zipIdx_append, List.filter_append, Nat.zero_add]
        rfl
    _ = u.keyMembers := by rw [hnone, List.append_nil]

/-- The parent of a shape is a reference, and part of its key. -/
def Shape.ParentInKey (s : Shape) : Prop :=
  ∀ p, s.parent? = some p → p.isKey = true ∧ ∃ target, p.kind = .reference target

namespace Registry

/-- The settled names lead to the same shapes in a pool as among all shapes. -/
def FindsSettled (shapes : List Shape) (known : Arities) (pool : List Shape) : Prop :=
  ∀ name, (known.lookup name).isSome = true →
    pool.find? (fun s => s.name == name) = shapes.find? fun s => s.name == name

/-- A pool loses nothing that was settled before the name that is taken out. -/
theorem FindsSettled.without {shapes pool : List Shape} {known before : Arities}
    (h : FindsSettled shapes known pool) (hkeeps : Keeps before known) {name : String}
    (hnone : before.lookup name = none) :
    FindsSettled shapes before (without Shape.name pool name) := by
  intro other hother
  obtain ⟨b, hb⟩ := Option.isSome_iff_exists.mp hother
  have hne : other ≠ name := by
    rintro rfl
    simp [hnone] at hb
  rw [find?_without pool hne]
  apply h
  rw [hkeeps other b hb]
  rfl

/-- What a shape nests in was settled before it, so each pool that has what was settled gives the
same nesting. -/
theorem Settled.nestingIn_agree {shapes pool : List Shape} {known : Arities}
    (h : Settled .wrapping shapes known) (hnames : (shapes.map Shape.name).Nodup)
    (hparents : ∀ s ∈ shapes, s.ParentInKey) (hpool : FindsSettled shapes known pool)
    {s : Shape} (hs : s ∈ shapes) (hi : s.isInterface = false) {a : Option Nat}
    (hfrom : Follows .wrapping known s a) : nestingIn pool s = nestingIn shapes s := by
  induction hlen : known.length using Nat.strongRecOn generalizing known pool s a with
  | ind n ih =>
    rw [nestingIn_eq pool, nestingIn_eq shapes]
    cases hp : s.parent? with
    | none => rfl
    | some p =>
      obtain ⟨hk, target, hkind⟩ := hparents s hs p hp
      cases target with
      | any => simp only [hkind, MemberKind.target?]
      | concept name =>
        have hmem : p ∈ s.keys :=
          List.mem_filter.mpr ⟨List.mem_of_head? (Option.filter_eq_some_iff.mp hp).1, hk⟩
        have hknown := (hfrom.adds hi).lookup_isSome hmem hkind
        obtain ⟨a, ha⟩ := Option.isSome_iff_exists.mp hknown
        obtain ⟨t, ht, rfl, before, hbefore, hlt, hkeeps, hnone, hfrom'⟩ := h.of_lookup ha
        have hf : shapes.find? (fun u => u.name == t.name) = some t :=
          (find?_eq_some_iff hnames).mpr ⟨ht, rfl⟩
        have hf' := (hpool t.name hknown).trans hf
        simp only [hkind, MemberKind.target?, hf, hf']
        cases hti : t.isInterface with
        | true => rfl
        | false =>
          -- Both walks go on in a pool that lacks this shape, and it is not among what was settled
          -- before it.
          have hinner (pool : List Shape) (hpool : FindsSettled shapes known pool) :
              nestingIn (Registry.without Shape.name pool t.name) t = nestingIn shapes t :=
            ih before.length (hlen ▸ hlt) hbefore (hpool.without hkeeps hnone) ht hti hfrom' rfl
          simp only [hinner pool hpool, hinner shapes fun _ _ => rfl]

section Built

variable {declared : List Declaration} {r : Registry} (h : build declared = .ok r)
include h

theorem parentInKey_of_drafted (hdrafted : ∀ d ∈ declared, d.Drafted) {t : ConceptType}
    (ht : t ∈ r.types) : t.ParentInKey := by
  intro p hp
  obtain ⟨hhead, hparent⟩ := Option.filter_eq_some_iff.mp hp
  obtain ⟨d, hd⟩ := exists_declares h ht
  obtain ⟨e, he, hm⟩ := hd.forms.flattened.exists_declaration hd.mem (List.mem_of_head? hhead)
  exact (hdrafted e he).parent_refers hm hparent

theorem shapes_nodup : ((r.types.map ConceptType.toShape).map Shape.name).Nodup := by
  rw [List.map_map]
  exact names_nodup_of_build h

/-- Each type was settled from what was there before it. -/
theorem exists_settled : ∃ known, ∀ t ∈ r.types, ∃ before,
    Settled .wrapping (r.types.map ConceptType.toShape) before ∧ Keeps before known ∧
      before.lookup t.name = none ∧ Follows .wrapping before t.toShape t.arity? := by
  obtain ⟨known, hknown, hlookup⟩ := settled_of_buildWith h
  refine ⟨known, fun t ht => ?_⟩
  obtain ⟨s, hs, hname, before, hbefore, _, hkeeps, hnone, hfrom⟩ :=
    hknown.of_lookup (hlookup t ht)
  obtain rfl := List.inj_on_of_nodup_map (shapes_nodup h) hs (List.mem_map_of_mem ht) hname
  exact ⟨before, hbefore, hkeeps, hnone, hfrom⟩

theorem nesting_of_mem {t : ConceptType} (ht : t ∈ r.types) :
    t.nesting = nestingOf (r.types.map ConceptType.toShape) t.toShape := by
  obtain ⟨shapes, known, _, _, _, _, hr⟩ := build_eq_ok h
  rw [hr] at ht ⊢
  rw [map_toShape_complete]
  obtain ⟨s, _, rfl⟩ := List.mem_map.mp ht
  rfl

theorem nesting_eq (hdrafted : ∀ d ∈ declared, d.Drafted) {t : ConceptType} (ht : t ∈ r.types)
    (hi : t.isInterface = false) :
    t.nesting = nestingIn (r.types.map ConceptType.toShape) t.toShape := by
  obtain ⟨_, hsettled⟩ := exists_settled h
  obtain ⟨before, hbefore, _, hnone, hfrom⟩ := hsettled t ht
  rw [nesting_of_mem h ht, nestingOf]
  refine hbefore.nestingIn_agree (shapes_nodup h) ?_ ?_ (List.mem_map_of_mem ht) hi hfrom
  · intro s hs
    obtain ⟨u, hu, rfl⟩ := List.mem_map.mp hs
    exact parentInKey_of_drafted h hdrafted hu
  · have hall : FindsSettled (r.types.map ConceptType.toShape) before
        (r.types.map ConceptType.toShape) := fun _ _ => rfl
    exact hall.without (fun _ _ hb => hb) hnone

theorem isInterface_of_isA {t u : ConceptType} (ht : t ∈ r.types) (hu : u ∈ r.types)
    (hisA : t.isA u.name = true) (hi : u.isInterface = false) : t.isInterface = false := by
  obtain ⟨d, hd⟩ := exists_declares h ht
  obtain ⟨e, he⟩ := exists_declares h hu
  rw [hd.forms.isInterface_eq]
  rcases (hd.path_of_isA h he hisA hi).cases_head with rfl | ⟨_, hstep, _⟩
  · rw [← he.forms.isInterface_eq, hi]
  · rw [← Bool.not_eq_true]
    intro hinterface
    have hbare := ((wellFormed_of_build h).interface_bare d hd.mem hinterface).2.2
    rw [hstep.2] at hbare
    cases hbare

theorem arity_eq_of_refines {t u : ConceptType} (ht : t ∈ r.types) (hu : u ∈ r.types)
    (hrefines : t.toShape.Refines u.toShape) (hinterface : t.isInterface = u.isInterface) :
    t.arity? = u.arity? := by
  obtain ⟨known, hsettled⟩ := exists_settled h
  obtain ⟨_, _, hkeepst, _, hfromt⟩ := hsettled t ht
  obtain ⟨_, _, hkeepsu, _, hfromu⟩ := hsettled u hu
  have hsame (a : Option Nat) :
      Follows .wrapping known t.toShape a ↔ Follows .wrapping known u.toShape a := by
    rw [Follows, Follows, hrefines.keys_eq, hinterface]
  exact ((hsame _).mp (hfromt.mono hkeepst)).unique (hfromu.mono hkeepsu)

theorem nesting_eq_of_refines (hdrafted : ∀ d ∈ declared, d.Drafted) {t u : ConceptType}
    (ht : t ∈ r.types) (hu : u ∈ r.types) (hrefines : t.toShape.Refines u.toShape)
    (hti : t.isInterface = false) (hui : u.isInterface = false) : t.nesting = u.nesting := by
  rw [nesting_eq h hdrafted ht hti, nesting_eq h hdrafted hu hui, nestingIn_eq, nestingIn_eq,
    hrefines.parent?_eq]

end Built

end Registry

namespace Node

theorem slotParts_eq_of_agree {ms : List Member} {vs ws : List (Option Value)}
    (h : ∀ (i : Nat) (m : Member), ms[i]? = some m → m.isKey = true → vs[i]? = ws[i]?) :
    slotParts ms vs = slotParts ms ws := by
  induction ms generalizing vs ws with
  | nil => cases vs <;> cases ws <;> rfl
  | cons m ms ih =>
    have hfirst : m.isKey = true → vs[0]? = ws[0]? := h 0 m rfl
    have htail : slotParts ms vs.tail = slotParts ms ws.tail :=
      ih fun i k hi hk => by simpa using h (i + 1) k hi hk
    -- Where one of the lists has ended, the other one holds nothing of the key any more.
    cases hk : m.isKey with
    | true =>
      cases vs with
      | nil =>
        cases ws with
        | nil => rfl
        | cons w ws => cases hfirst hk
      | cons v vs =>
        cases ws with
        | nil => cases hfirst hk
        | cons w ws =>
          obtain rfl : v = w := Option.some.inj (hfirst hk)
          rw [slotParts_cons_cons, slotParts_cons_cons]
          exact congrArg _ htail
    | false =>
      have hskip (vs : List (Option Value)) : slotParts (m :: ms) vs = slotParts ms vs.tail := by
        cases vs with
        | nil => exact (slotParts_nil_right _).trans (slotParts_nil_right _).symm
        | cons v vs => exact slotParts_cons_of_not_key hk
      rw [hskip, hskip, htail]

/-- Two concepts hold the same at the positions of some members. -/
def AgreeAt (members : List (Member × Nat)) (a b : Node) : Prop :=
  ∀ p ∈ members, a.slots[p.2]? = b.slots[p.2]?

theorem key_eq_of_refines {n copy : Node} (h : n.type.toShape.Refines copy.type.toShape)
    (hagree : AgreeAt copy.type.keyMembers copy n) : copy.key = n.key := by
  obtain ⟨own, hown, hplain⟩ := h.members
  have hslots (i : Nat) (m : Member) (hm : copy.type.members[i]? = some m)
      (hk : m.isKey = true) : copy.slots[i]? = n.slots[i]? :=
    hagree (m, i) (List.mem_filter.mpr ⟨List.mem_zipIdx_iff_getElem?.mpr hm, hk⟩)
  have hparts : copy.keyParts = n.keyParts := by
    calc copy.keyParts
        = slotParts copy.type.members copy.slots := keyParts_eq copy
      _ = slotParts copy.type.members n.slots := slotParts_eq_of_agree hslots
      _ = slotParts (copy.type.members ++ own) n.slots :=
          (slotParts_append (fun m hm => (hplain m hm).1) _ _).symm
      _ = n.keyParts := by rw [keyParts_eq, hown]
  rw [key, key, hparts, h.root]

/-- A concept with a slot for each member can stand for one of a base: the slots of the base come
first. -/
theorem exists_agreeAt {n : Node} {u : ConceptType} (h : n.type.toShape.Refines u.toShape)
    (hlen : n.slots.length = n.type.members.length) :
    ∃ copy : Node, copy.type = u ∧ copy.slots.length = u.members.length ∧
      AgreeAt u.keyMembers copy n := by
  obtain ⟨own, hown, _⟩ := h.members
  refine ⟨mk u (n.slots.take u.members.length), rfl, ?_, ?_⟩
  · have hle : u.members.length ≤ n.slots.length := by
      rw [hlen, hown, List.length_append]
      omega
    exact List.length_take_of_le hle
  · intro p hp
    obtain ⟨_, hlt, _⟩ := List.mem_zipIdx (List.mem_filter.mp hp).1
    exact List.getElem?_take_of_lt (by omega)

end Node

/-- The concepts of a type are identified as those of another one. It has the members of the other
one first and the same key, and a concept of the one that holds in its key what a concept of the
other one holds has the same key. -/
structure ConceptType.SharesIdentity (t u : ConceptType) : Prop where
  members : u.members <+: t.members
  keyMembers : t.keyMembers = u.keyMembers
  root : t.root = u.root
  arity : t.arity? = u.arity?
  parent : t.parent? = u.parent?
  nesting : t.nesting = u.nesting
  recast : ∀ n : Node, n.type = t → n.slots.length = t.members.length →
    ∃ copy : Node, copy.type = u ∧ copy.slots.length = u.members.length ∧
      Node.AgreeAt u.keyMembers copy n
  key : ∀ n copy : Node, n.type = t → copy.type = u → Node.AgreeAt u.keyMembers copy n →
    copy.key = n.key

namespace Registry

theorem sharesIdentity_of_isA {declared : List Declaration} {r : Registry}
    (h : build declared = .ok r) (hdrafted : ∀ d ∈ declared, d.Drafted) {t u : ConceptType}
    (ht : t ∈ r.types) (hu : u ∈ r.types) (hisA : t.isA u.name = true)
    (hi : u.isInterface = false) : t.SharesIdentity u := by
  have hrefines := refines_of_name_eq h ht hu (.inr ⟨hisA, hi⟩)
  have hti := isInterface_of_isA h ht hu hisA hi
  obtain ⟨own, hown, _⟩ := hrefines.members
  refine ⟨⟨own, hown.symm⟩, ConceptType.keyMembers_eq_of_refines hrefines, hrefines.root,
    arity_eq_of_refines h ht hu hrefines (hti.trans hi.symm), hrefines.parent?_eq,
    nesting_eq_of_refines h hdrafted ht hu hrefines hti hi, ?_, ?_⟩
  · rintro n rfl hlen
    exact Node.exists_agreeAt hrefines hlen
  · rintro n copy rfl rfl hagree
    exact Node.key_eq_of_refines hrefines hagree

end Registry

namespace Titled

theorem drafted : ∀ d ∈ declared, d.Drafted := by
  simp only [declared, List.forall_mem_cons]
  exact ⟨.interface _, .implementing _ (.interface _), .withKey _ _ (.type _),
    .withKey _ _ (.withParent _ _ (.implementing _ (.type _))),
    .withMember _ _ (.implementing _ (.extending _ (.type _))),
    .implementing _ (.extending _ (.type _)), List.forall_mem_nil _⟩

def shelf (name : String) : Node := .mk shelfType [some (.text name)]

def work (shelfName title : String) : Node :=
  .mk workType [some (.reference (shelf shelfName)), some (.text title)]

def saga (shelfName title pages : String) : Node :=
  .mk sagaType [some (.reference (shelf shelfName)), some (.text title), some (.text pages)]

end Titled

namespace Registry

/-- A type shares its identity with each type that it is taken for and that is no interface. Of what
is there for its ancestors, everything is there for its concepts once. -/
theorem derived_keeps_identity {declared : List Declaration} {r : Registry}
    (h : build declared = .ok r) (hdrafted : ∀ d ∈ declared, d.Drafted) {t u : ConceptType}
    (ht : t ∈ r.types) (hu : u ∈ r.types) (hisA : t.isA u.name = true)
    (hi : u.isInterface = false) :
    t.SharesIdentity u ∧ t.ancestors.Nodup ∧ t.ServedOnce := by
  have hnodup := ancestors_nodup_of_build h ht
  exact ⟨sharesIdentity_of_isA h hdrafted ht hu hisA hi, hnodup,
    ConceptType.servedOnce_of_nodup hnodup⟩

/-- A saga is a novel, and a novel is a work. -/
theorem derived_keeps_identity_saga :
    Titled.sagaType.isA "Work" = true ∧ Titled.workType.isInterface = false ∧
      Titled.sagaType.SharesIdentity Titled.workType ∧ Titled.sagaType.ancestors.Nodup ∧
      Titled.sagaType.ServedOnce ∧
      (Titled.work "Top" "Dune").key = (Titled.saga "Top" "Dune" "896").key := by
  have hisA : Titled.sagaType.isA Titled.workType.name = true := by decide
  have hi : Titled.workType.isInterface = false := rfl
  obtain ⟨hshares, hnodup, hserved⟩ := derived_keeps_identity Titled.build_declared Titled.drafted
    (t := Titled.sagaType) (u := Titled.workType) (by decide) (by decide) hisA hi
  refine ⟨hisA, hi, hshares, hnodup, hserved, hshares.key _ _ rfl rfl ?_⟩
  have hkeys : Titled.workType.keyMembers =
      [(⟨"Shelf", .reference (.concept "Shelf"), true, true⟩, 0),
        (⟨"Title", .text, true, false⟩, 1)] := by decide
  rw [Node.AgreeAt, hkeys, List.forall_mem_cons, List.forall_mem_singleton]
  exact ⟨rfl, rfl⟩

end Registry

end ConceptScript
