import ConceptScript.Proofs.Node.Keyed

namespace ConceptScript

namespace Node

/-- The slots of the key members show the same contents. -/
def AgreeOn (ms : List Member) (vs ws : List (Option Value)) : Prop :=
  ∀ (i : Nat) (m : Member), ms[i]? = some m → m.isKey = true →
    vs[i]?.map (Option.map Value.content) = ws[i]?.map (Option.map Value.content)

theorem AgreeOn.cons {m : Member} {ms : List Member} {v w : Option Value}
    {vs ws : List (Option Value)}
    (hhead : m.isKey = true → v.map Value.content = w.map Value.content)
    (htail : AgreeOn ms vs ws) : AgreeOn (m :: ms) (v :: vs) (w :: ws) := by
  intro i m' hm hk
  cases i with
  | zero =>
    obtain rfl : m = m' := Option.some.inj hm
    exact congrArg some (hhead hk)
  | succ i => exact htail i m' hm hk

theorem keyed_refines {r : Registry} {n : Node} {u : ConceptType}
    (hk : slotsKeyed r n.type.members n.slots = true)
    (href : n.type.toShape.Refines u.toShape) :
    n.type.root = u.root ∧ n.keyParts = slotParts u.members n.slots ∧
      slotsKeyed r u.members n.slots = true := by
  obtain ⟨hroot, own, hown, hplain⟩ := href
  rw [hown] at hk
  refine ⟨hroot, ?_, slotsKeyed_of_append hk⟩
  rw [keyParts_eq, hown]
  exact slotParts_append (fun m hm => (hplain m hm).1) _ _

section Built

variable {declared : List Declaration} {r : Registry} (h : Registry.build declared = .ok r)
include h

/-- A concept where a type is asked for has the key members of the type, and its root. -/
theorem keyed_as {n : Node} {u : ConceptType} (hn : n.keyed r = true) (hu : u ∈ r.types)
    (hi : u.isInterface = false) (hs : n.type.satisfies (.concept u.name) = true) :
    n.type.root = u.root ∧ n.keyParts = slotParts u.members n.slots ∧
      slotsKeyed r u.members n.slots = true := by
  obtain ⟨ht, hk⟩ := keyed_iff.mp hn
  exact keyed_refines hk (Registry.refines_of_name_eq h ht hu (.inr ⟨hs, hi⟩))

theorem names_of_slotsKeyed {ms : List Member} {k : Nat} (hn : r.Names ms k)
    {vs : List (Option Value)} (hv : slotsKeyed r ms vs = true) :
    (slotParts ms vs).length = k ∧ ∀ p ∈ slotParts ms vs, Text.NameText p.toList := by
  induction hn generalizing vs with
  | nil => simp [slotParts]
  | other hk _ ih =>
    obtain ⟨v, vs, rfl, _, hvs⟩ := slotsKeyed_cons.mp hv
    rw [slotParts_cons_of_not_key hk]
    exact ih hvs
  | name ht hk _ ih =>
    obtain ⟨v, vs, rfl, hv, hvs⟩ := slotsKeyed_cons.mp hv
    obtain ⟨s, rfl, hs⟩ := exists_text_of_valueKeyed ht (hv hk)
    obtain ⟨hlen, hnames⟩ := ih hvs
    rw [slotParts_cons hk, valueParts]
    exact ⟨by simp [hlen], by simpa using ⟨Text.nameText_of_isPlain hs, hnames⟩⟩
  | reference ht hk hu hi _ _ ihu ih =>
    obtain ⟨v, vs, rfl, hv, hvs⟩ := slotsKeyed_cons.mp hv
    rw [ht] at hv
    obtain ⟨n, rfl, hs, hn⟩ := exists_reference_of_valueKeyed (hv hk)
    obtain ⟨_, hparts, hslots⟩ := keyed_as h hn hu hi hs
    obtain ⟨hlen, hnames⟩ := ih hvs
    obtain ⟨hlenu, hnamesu⟩ := ihu hslots
    rw [slotParts_cons hk, valueParts, hparts]
    refine ⟨by rw [List.length_append, hlenu, hlen], ?_⟩
    intro p hp
    rcases List.mem_append.mp hp with hp | hp
    · exact hnamesu p hp
    · exact hnames p hp

theorem pathText_of_keyed {n : Node} {u : ConceptType} {k : Nat} (hn : n.keyed r = true)
    (hu : u ∈ r.types) (hi : u.isInterface = false)
    (hs : n.type.satisfies (.concept u.name) = true) (hk : r.Names u.members (k + 1)) :
    Text.PathText k (".".intercalate n.keyParts).toList ∧
      n.key = u.root ++ " " ++ ".".intercalate n.keyParts := by
  obtain ⟨hroot, hparts, hslots⟩ := keyed_as h hn hu hi hs
  obtain ⟨hlen, hnames⟩ := names_of_slotsKeyed h hk hslots
  rw [← hparts] at hlen hnames
  constructor
  · refine ⟨n.keyParts.map String.toList, by simpa using hlen, by simpa using hnames, ?_⟩
    rw [String.toList_intercalate]
    rfl
  · rw [key, hroot]
    cases hp : n.keyParts with
    | nil => simp [hp] at hlen
    | cons p ps => rfl

theorem pathsText_of_keyed {ns : List Node} {u : ConceptType} {k : Nat} (hu : u ∈ r.types)
    (hi : u.isInterface = false) (hk : r.Names u.members (k + 1))
    (hns : ∀ n ∈ ns, n.type.satisfies (.concept u.name) = true ∧ n.keyed r = true) :
    ∀ p ∈ (listParts ns).map String.toList, Text.PathText k p := by
  rw [listParts_eq, List.map_map]
  intro p hp
  obtain ⟨n, hn, rfl⟩ := List.mem_map.mp hp
  obtain ⟨hs, hkeyed⟩ := hns n hn
  exact (pathText_of_keyed h hkeyed hu hi hs hk).1

theorem keyed_root {n n' : Node} {u : ConceptType} (hn : n.keyed r = true)
    (hn' : n'.keyed r = true) (hroot : n.type.root = n'.type.root) (hu : u ∈ r.types)
    (hname : u.name = n.type.root) :
    (n.keyParts = slotParts u.members n.slots ∧ slotsKeyed r u.members n.slots = true) ∧
      n'.keyParts = slotParts u.members n'.slots ∧ slotsKeyed r u.members n'.slots = true := by
  have hkeyed {n : Node} (hn : n.keyed r = true) (hname : u.name = n.type.root) :
      n.keyParts = slotParts u.members n.slots ∧ slotsKeyed r u.members n.slots = true := by
    obtain ⟨ht, hk⟩ := keyed_iff.mp hn
    obtain ⟨_, hparts, hslots⟩ := keyed_refines hk (Registry.refines_of_name_eq h ht hu (.inl hname))
    exact ⟨hparts, hslots⟩
  exact ⟨hkeyed hn hname, hkeyed hn' (hname.trans hroot)⟩

theorem root_eq {kind : MemberKind} {n n' : Node}
    (hv : valueKeyed r kind (some (.reference n)) = true)
    (hw : valueKeyed r kind (some (.reference n')) = true)
    (hf : r.Fixes kind ∨ n.type.root = n'.type.root) : n.type.root = n'.type.root := by
  rcases hf with ⟨u, hu, hi, rfl⟩ | hroot
  · obtain ⟨_, he, hs, hn⟩ := exists_reference_of_valueKeyed hv
    obtain ⟨_, he', hs', hn'⟩ := exists_reference_of_valueKeyed hw
    cases he
    cases he'
    rw [(keyed_as h hn hu hi hs).1, (keyed_as h hn' hu hi hs').1]
  · exact hroot

/-- The parts of two keys of one form are of the same kinds of text. -/
theorem exists_kinds {ms : List Member} {vs ws : List (Option Value)} (ha : r.Alike ms vs ws)
    (hv : slotsKeyed r ms vs = true) (hw : slotsKeyed r ms ws = true) :
    ∃ kinds : List (List Char → Prop), (∀ kind ∈ kinds, Text.Delimited ['.'] kind) ∧
      List.Forall₂ (fun kind p => kind p) kinds ((slotParts ms vs).map String.toList) ∧
      List.Forall₂ (fun kind p => kind p) kinds ((slotParts ms ws).map String.toList) := by
  induction ha with
  | nil vs ws => exact ⟨[], by simp, by simp [slotParts], by simp [slotParts]⟩
  | other hk _ ih =>
    rw [slotParts_cons_of_not_key hk, slotParts_cons_of_not_key hk]
    exact ih (slotsKeyed_tail hv) (slotsKeyed_tail hw)
  | name ht hk _ ih =>
    obtain ⟨kinds, hkinds, hfits, hfits'⟩ := ih (slotsKeyed_tail hv) (slotsKeyed_tail hw)
    obtain ⟨s, rfl, hs⟩ := exists_text_of_valueKeyed ht (slotsKeyed_head hk hv)
    obtain ⟨s', rfl, hs'⟩ := exists_text_of_valueKeyed ht (slotsKeyed_head hk hw)
    rw [slotParts_cons hk, slotParts_cons hk, valueParts, valueParts]
    exact ⟨Text.NameText :: kinds,
      List.forall_mem_cons.mpr ⟨Text.delimited_nameText (by simp), hkinds⟩,
      .cons (Text.nameText_of_isPlain hs) hfits, .cons (Text.nameText_of_isPlain hs') hfits'⟩
  | reference hk hf hu hname _ _ ihu ih =>
    obtain ⟨kinds, hkinds, hfits, hfits'⟩ := ih (slotsKeyed_tail hv) (slotsKeyed_tail hw)
    have hroot := root_eq h (slotsKeyed_head hk hv) (slotsKeyed_head hk hw) hf
    obtain ⟨⟨hparts, hslots⟩, hparts', hslots'⟩ := keyed_root h
      (keyed_of_valueKeyed (slotsKeyed_head hk hv)) (keyed_of_valueKeyed (slotsKeyed_head hk hw))
      hroot hu hname
    obtain ⟨kindsu, hkindsu, hfitsu, hfitsu'⟩ := ihu hslots hslots'
    rw [slotParts_cons hk, slotParts_cons hk, valueParts, valueParts, hparts, hparts',
      List.map_append, List.map_append]
    refine ⟨kindsu ++ kinds, ?_, List.rel_append hfitsu hfits, List.rel_append hfitsu' hfits'⟩
    intro kind hkind
    rcases List.mem_append.mp hkind with hkind | hkind
    · exact hkindsu kind hkind
    · exact hkinds kind hkind
  | @list m ms v w vs ws k u ht hk hu hi hnames _ ih =>
    obtain ⟨kinds, hkinds, hfits, hfits'⟩ := ih (slotsKeyed_tail hv) (slotsKeyed_tail hw)
    have hlist {v : Option Value} (hv : valueKeyed r m.kind v = true) :
        ∃ part, valueParts v = [part] ∧ Text.PathsText k part.toList := by
      rw [ht] at hv
      obtain ⟨ns, rfl, hns⟩ := exists_list_of_valueKeyed hv
      refine ⟨" ".intercalate (listParts ns), by rw [valueParts],
        _, pathsText_of_keyed h hu hi hnames hns, ?_⟩
      rw [String.toList_intercalate]
      rfl
    obtain ⟨part, hpart, hpaths⟩ := hlist (slotsKeyed_head hk hv)
    obtain ⟨part', hpart', hpaths'⟩ := hlist (slotsKeyed_head hk hw)
    rw [slotParts_cons hk, slotParts_cons hk, hpart, hpart']
    exact ⟨Text.PathsText k :: kinds,
      List.forall_mem_cons.mpr ⟨Text.delimited_pathsText k, hkinds⟩,
      .cons hpaths hfits, .cons hpaths' hfits'⟩

theorem keys_eq_of_listParts {ns ns' : List Node} {u : ConceptType} {k : Nat} (hu : u ∈ r.types)
    (hi : u.isInterface = false) (hk : r.Names u.members (k + 1))
    (hns : ∀ n ∈ ns, n.type.satisfies (.concept u.name) = true ∧ n.keyed r = true)
    (hns' : ∀ n ∈ ns', n.type.satisfies (.concept u.name) = true ∧ n.keyed r = true)
    (he : " ".intercalate (listParts ns) = " ".intercalate (listParts ns')) :
    ns.map key = ns'.map key := by
  have hchars := congrArg String.toList he
  rw [String.toList_intercalate, String.toList_intercalate] at hchars
  obtain ⟨hparts, _⟩ := Text.join_all_inj (Text.delimited_pathText k) (by decide)
    (fun w hw t => hw.not_follows t) (pathsText_of_keyed h hu hi hk hns)
    (pathsText_of_keyed h hu hi hk hns') (.nil _) (.nil _) (congrArg (· ++ []) hchars)
  have hlist : listParts ns = listParts ns' :=
    List.map_injective_iff.mpr (fun _ _ hs => String.toList_inj.mp hs) hparts
  -- The key of an element is its joined parts after the root of the listed type.
  have hkeys (ns : List Node)
      (hns : ∀ n ∈ ns, n.type.satisfies (.concept u.name) = true ∧ n.keyed r = true) :
      ns.map key = (listParts ns).map fun part => u.root ++ " " ++ part := by
    rw [listParts_eq, List.map_map]
    apply List.map_congr_left
    intro n hn
    exact (pathText_of_keyed h (hns n hn).2 hu hi (hns n hn).1 hk).2
  rw [hkeys ns hns, hkeys ns' hns', hlist]

theorem agreeOn_of_parts {ms : List Member} {vs ws : List (Option Value)} (ha : r.Alike ms vs ws)
    (hv : slotsKeyed r ms vs = true) (hw : slotsKeyed r ms ws = true)
    (he : slotParts ms vs = slotParts ms ws) : AgreeOn ms vs ws := by
  induction ha with
  | nil vs ws =>
    intro i m hm
    simp at hm
  | other hk _ ih =>
    rw [slotParts_cons_of_not_key hk, slotParts_cons_of_not_key hk] at he
    exact .cons (fun hkey => by simp [hk] at hkey) (ih (slotsKeyed_tail hv) (slotsKeyed_tail hw) he)
  | name ht hk _ ih =>
    obtain ⟨s, rfl, _⟩ := exists_text_of_valueKeyed ht (slotsKeyed_head hk hv)
    obtain ⟨s', rfl, _⟩ := exists_text_of_valueKeyed ht (slotsKeyed_head hk hw)
    rw [slotParts_cons hk, slotParts_cons hk, valueParts, valueParts] at he
    obtain ⟨rfl, hrest⟩ := List.cons.inj he
    exact .cons (fun _ => rfl) (ih (slotsKeyed_tail hv) (slotsKeyed_tail hw) hrest)
  | reference hk hf hu hname hau _ _ ih =>
    have hroot := root_eq h (slotsKeyed_head hk hv) (slotsKeyed_head hk hw) hf
    obtain ⟨⟨hparts, hslots⟩, hparts', hslots'⟩ := keyed_root h
      (keyed_of_valueKeyed (slotsKeyed_head hk hv)) (keyed_of_valueKeyed (slotsKeyed_head hk hw))
      hroot hu hname
    -- Both have as many parts as a concept of their root.
    obtain ⟨kinds, _, hfits, hfits'⟩ := exists_kinds h hau hslots hslots'
    have hlen := hfits.length_eq.symm.trans hfits'.length_eq
    rw [List.length_map, List.length_map, ← hparts, ← hparts'] at hlen
    rw [slotParts_cons hk, slotParts_cons hk, valueParts, valueParts] at he
    obtain ⟨hsame, hrest⟩ := List.append_inj he hlen
    refine .cons (fun _ => ?_) (ih (slotsKeyed_tail hv) (slotsKeyed_tail hw) hrest)
    simp only [Option.map_some, Value.content, key, hroot, hsame]
  | list ht hk hu hi hnames _ ih =>
    have hhead := slotsKeyed_head hk hv
    have hhead' := slotsKeyed_head hk hw
    rw [ht] at hhead hhead'
    obtain ⟨ns, rfl, hns⟩ := exists_list_of_valueKeyed hhead
    obtain ⟨ns', rfl, hns'⟩ := exists_list_of_valueKeyed hhead'
    rw [slotParts_cons hk, slotParts_cons hk, valueParts, valueParts] at he
    obtain ⟨hlist, hrest⟩ := List.cons.inj he
    refine .cons (fun _ => ?_) (ih (slotsKeyed_tail hv) (slotsKeyed_tail hw) hrest)
    simp only [Option.map_some, Value.content, keys_eq_of_listParts h hu hi hnames hns hns' hlist]

/-- Joined parts of two keys of one form can be told apart. -/
theorem parts_eq_of_join {ms : List Member} {vs ws : List (Option Value)} (ha : r.Alike ms vs ws)
    (hv : slotsKeyed r ms vs = true) (hw : slotsKeyed r ms ws = true)
    (he : ".".intercalate (slotParts ms vs) = ".".intercalate (slotParts ms ws)) :
    slotParts ms vs = slotParts ms ws := by
  obtain ⟨kinds, hkinds, hfits, hfits'⟩ := exists_kinds h ha hv hw
  have hchars := congrArg String.toList he
  rw [String.toList_intercalate, String.toList_intercalate] at hchars
  obtain ⟨hparts, _⟩ := Text.join_inj hkinds hfits hfits' (.nil _) (.nil _)
    (congrArg (· ++ []) hchars)
  exact List.map_injective_iff.mpr (fun _ _ hs => String.toList_inj.mp hs) hparts

theorem alike_of_closed {ms : List Member} (hc : r.Closed ms) {vs ws : List (Option Value)}
    (hv : slotsKeyed r ms vs = true) (hw : slotsKeyed r ms ws = true) : r.Alike ms vs ws := by
  induction hc generalizing vs ws with
  | nil => exact .nil vs ws
  | other hk _ ih =>
    obtain ⟨v, vs, rfl, _, hvs⟩ := slotsKeyed_cons.mp hv
    obtain ⟨w, ws, rfl, _, hws⟩ := slotsKeyed_cons.mp hw
    exact .other hk (ih hvs hws)
  | name ht hk _ ih =>
    obtain ⟨v, vs, rfl, _, hvs⟩ := slotsKeyed_cons.mp hv
    obtain ⟨w, ws, rfl, _, hws⟩ := slotsKeyed_cons.mp hw
    exact .name ht hk (ih hvs hws)
  | @reference m ms u ht hk hu hi _ _ ihu ih =>
    obtain ⟨v, vs, rfl, hv, hvs⟩ := slotsKeyed_cons.mp hv
    obtain ⟨w, ws, rfl, hw, hws⟩ := slotsKeyed_cons.mp hw
    rw [ht] at hv hw
    obtain ⟨n, rfl, hs, hn⟩ := exists_reference_of_valueKeyed (hv hk)
    obtain ⟨n', rfl, hs', hn'⟩ := exists_reference_of_valueKeyed (hw hk)
    obtain ⟨hroot, _, hslots⟩ := keyed_as h hn hu hi hs
    obtain ⟨_, _, hslots'⟩ := keyed_as h hn' hu hi hs'
    obtain ⟨u', hu', hname, href⟩ := Registry.exists_root h hu
    obtain ⟨own, hown, _⟩ := href.members
    have ha := ihu hslots hslots'
    rw [hown] at ha
    exact .reference hk (.inl ⟨u, hu, hi, ht⟩) hu' (hname.trans hroot.symm) ha.of_append
      (ih hvs hws)
  | list ht hk hu hi hnames _ ih =>
    obtain ⟨v, vs, rfl, _, hvs⟩ := slotsKeyed_cons.mp hv
    obtain ⟨w, ws, rfl, _, hws⟩ := slotsKeyed_cons.mp hw
    exact .list ht hk hu hi hnames (ih hvs hws)

end Built

def labelRest : List String → List Char
  | [] => []
  | parts => ' ' :: (".".intercalate parts).toList

theorem toList_label (name : String) (ps : List String) :
    (label name ps).toList = name.toList ++ labelRest ps := by
  cases ps with
  | nil => simp [label, labelRest]
  | cons p ps =>
    simp only [label, labelRest, String.toList_append, List.append_assoc]
    rfl

theorem labelRest_eq_iff {ps qs : List String} :
    labelRest ps = labelRest qs ↔
      ".".intercalate ps = ".".intercalate qs ∧ (ps = [] ↔ qs = []) := by
  cases ps with
  | nil => cases qs <;> simp [labelRest]
  | cons p ps =>
    cases qs with
    | nil => simp [labelRest]
    | cons q qs =>
      simp only [labelRest, List.cons.injEq, true_and, String.toList_inj]
      simp

/-- Behind one name, labels tell the joined parts apart, and whether there are any. -/
theorem label_eq_label_iff (name : String) {ps qs : List String} :
    label name ps = label name qs ↔
      ".".intercalate ps = ".".intercalate qs ∧ (ps = [] ↔ qs = []) := by
  rw [← labelRest_eq_iff, ← String.toList_inj, toList_label, toList_label, List.append_right_inj]

theorem follows_labelRest (ps : List String) : Text.Follows [' '] (labelRest ps) := by
  cases ps with
  | nil => exact .nil _
  | cons p ps => exact .cons (by simp) _

theorem label_inj {name name' : String} {ps qs : List String} (hn : ' ' ∉ name.toList)
    (hn' : ' ' ∉ name'.toList) (he : label name ps = label name' qs) :
    name = name' ∧ ".".intercalate ps = ".".intercalate qs := by
  have hchars := congrArg String.toList he
  rw [toList_label, toList_label] at hchars
  have hdelimited : Text.Delimited [' '] fun w => ' ' ∉ w :=
    Text.delimited_of_not_mem fun w hw c hc hm => hw (List.mem_singleton.mp hm ▸ hc)
  obtain ⟨hname, hrest⟩ := hdelimited hn hn' (follows_labelRest ps) (follows_labelRest qs) hchars
  refine ⟨String.toList_inj.mp hname, ?_⟩
  cases ps with
  | nil =>
    cases qs with
    | nil => rfl
    | cons q qs => simp [labelRest] at hrest
  | cons p ps =>
    cases qs with
    | nil => simp [labelRest] at hrest
    | cons q qs => exact String.toList_inj.mp (List.cons.inj hrest).2

end Node

-- A language with a derived type and a note on any concept.
namespace Noted

def declared : List Declaration := [
  ({ name := "Module" } : Declaration).withKey "Name" .identifier,
  ({ name := "Logging" } : Declaration).withParent "Module" (.concept "Module"),
  ({ name := "Entity" } : Declaration).withParent "Module" (.concept "Module")
    |>.withKey "Name" .identifier,
  ({ name := "Archive" } : Declaration).extending "Entity"
    |>.withMember "Source" (.reference (.concept "Entity")),
  ({ name := "Note" } : Declaration).withParent "Target" .any |>.withKey "Text" .text]

def moduleMember : Member := ⟨"Module", .reference (.concept "Module"), true, true⟩

def nameMember : Member := ⟨"Name", .identifier, true, false⟩

def moduleType : ConceptType where
  name := "Module"
  keyword? := none
  isInterface := false
  deprecation? := none
  members := [nameMember]
  root := "Module"
  ancestors := ["Module"]
  arity? := some 1
  nesting := ⟨true, 0⟩

def loggingType : ConceptType :=
  { moduleType with
    name := "Logging", members := [moduleMember], root := "Logging", ancestors := ["Logging"],
    nesting := ⟨true, 1⟩ }

def entityType : ConceptType :=
  { moduleType with
    name := "Entity", members := [moduleMember, nameMember], root := "Entity",
    ancestors := ["Entity"], arity? := some 2, nesting := ⟨true, 1⟩ }

def archiveType : ConceptType :=
  { entityType with
    name := "Archive", ancestors := ["Archive", "Entity"],
    members := entityType.members ++
      [⟨"Source", .reference (.concept "Entity"), false, false⟩] }

def noteType : ConceptType :=
  { moduleType with
    name := "Note", root := "Note", ancestors := ["Note"], arity? := none,
    members := [⟨"Target", .reference .any, true, true⟩, ⟨"Text", .text, true, false⟩],
    nesting := ⟨false, 0⟩ }

def registry : Registry := ⟨[moduleType, loggingType, entityType, archiveType, noteType]⟩

theorem build_declared : Registry.build declared = .ok registry := by decide +kernel

theorem no_space_in_names : ∀ t ∈ registry.types, ' ' ∉ t.name.toList := by decide

def module (name : String) : Node := .mk moduleType [some (.text name)]

def logging (name : String) : Node := .mk loggingType [some (.reference (Noted.module name))]

def entity (module name : String) : Node :=
  .mk entityType [some (.reference (Noted.module module)), some (.text name)]

def archive (module name : String) (source : Node) : Node :=
  .mk archiveType
    [some (.reference (Noted.module module)), some (.text name), some (.reference source)]

def note (target : Node) (text : String) : Node :=
  .mk noteType [some (.reference target), some (.text text)]

theorem closed_entity : registry.Closed entityType.members :=
  .reference (u := moduleType) rfl rfl (by simp [registry]) rfl (.name rfl rfl .nil)
    (.name rfl rfl .nil)

end Noted

namespace Node

/-- Under one key stand concepts of one root. They agree on the members of the key if the keys have
one form, that is if the open references in them lead to concepts of one root. -/
theorem key_identifies {declared : List Declaration} {r : Registry}
    (h : Registry.build declared = .ok r) (hspace : ∀ t ∈ r.types, ' ' ∉ t.name.toList)
    {a b : Node} (ha : a.keyed r = true) (hb : b.keyed r = true) (hkey : a.key = b.key) :
    a.type.root = b.type.root ∧
      ∀ u ∈ r.types, u.name = a.type.root → r.Alike u.members a.slots b.slots →
        ∀ (i : Nat) (m : Member), a.type.members[i]? = some m → m.isKey = true →
          b.type.members[i]? = some m ∧ a.contents[i]? = b.contents[i]? := by
  obtain ⟨hta, hka⟩ := keyed_iff.mp ha
  obtain ⟨htb, hkb⟩ := keyed_iff.mp hb
  obtain ⟨ua, hua, hnamea, hrefa⟩ := Registry.exists_root h hta
  obtain ⟨ub, hub, hnameb, hrefb⟩ := Registry.exists_root h htb
  obtain ⟨hroot, hjoin⟩ := label_inj (hnamea ▸ hspace ua hua) (hnameb ▸ hspace ub hub) hkey
  refine ⟨hroot, ?_⟩
  intro u hu hname halike i m hm hk
  obtain rfl : u = ua := Registry.eq_of_name_eq h hu hua (hname.trans hnamea.symm)
  obtain rfl : u = ub := Registry.eq_of_name_eq h hu hub (by rw [hname, hnameb, hroot])
  obtain ⟨owna, hma, hplaina⟩ := hrefa.members
  obtain ⟨ownb, hmb, hplainb⟩ := hrefb.members
  rw [hma] at hka hm
  rw [hmb] at hkb
  have hka := slotsKeyed_of_append hka
  have hkb := slotsKeyed_of_append hkb
  rw [keyParts_eq, keyParts_eq, hma, hmb, slotParts_append fun m hm => (hplaina m hm).1,
    slotParts_append fun m hm => (hplainb m hm).1] at hjoin
  have hagree := agreeOn_of_parts h halike hka hkb (parts_eq_of_join h halike hka hkb hjoin)
  -- A member of the key is one of the root's.
  have hi : i < u.members.length := by
    by_contra hge
    rw [List.getElem?_append_right (Nat.le_of_not_lt hge)] at hm
    have := (hplaina m (List.mem_of_getElem? hm)).1
    simp [hk] at this
  rw [List.getElem?_append_left hi] at hm
  refine ⟨by rw [hmb, List.getElem?_append_left hi, hm], ?_⟩
  rw [contents, contents, List.getElem?_map, List.getElem?_map]
  exact hagree i m hm hk

/-- An archive has the key of an entity, so it has its module and its name. -/
theorem key_identifies_archive :
    let a := Noted.archive "Common" "Person" (Noted.entity "Common" "Company")
    let b := Noted.entity "Common" "Person"
    a.key = b.key ∧ a.type.root = b.type.root ∧ a.contents[0]? = b.contents[0]? ∧
      a.contents[1]? = b.contents[1]? := by
  intro a b
  have hkey : a.key = b.key := by decide
  have ha : a.keyed Noted.registry = true := by decide
  have hb : b.keyed Noted.registry = true := by decide
  obtain ⟨hroot, hagree⟩ := key_identifies Noted.build_declared Noted.no_space_in_names ha hb hkey
  have halike : Noted.registry.Alike Noted.entityType.members a.slots b.slots :=
    alike_of_closed Noted.build_declared Noted.closed_entity (by decide) (by decide)
  have hmembers := hagree Noted.entityType (by simp [Noted.registry]) rfl halike
  exact ⟨hkey, hroot, (hmembers 0 Noted.moduleMember rfl rfl).2,
    (hmembers 1 Noted.nameMember rfl rfl).2⟩

/-- A note on a module and a note on its logging have one key, and are notes on different
concepts. -/
theorem key_collides_note :
    let a := Noted.note (Noted.module "Common") "checked"
    let b := Noted.note (Noted.logging "Common") "checked"
    Registry.build Noted.declared = .ok Noted.registry ∧
      (∀ t ∈ Noted.registry.types, ' ' ∉ t.name.toList) ∧
      a.keyed Noted.registry = true ∧ b.keyed Noted.registry = true ∧ a.key = b.key ∧
      a.contents[0]? ≠ b.contents[0]? := by
  intro a b
  exact ⟨Noted.build_declared, Noted.no_space_in_names, by decide, by decide, by decide,
    by decide⟩

end Node

end ConceptScript
