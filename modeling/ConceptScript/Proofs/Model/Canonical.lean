import ConceptScript.Proofs.Model.Listing
import ConceptScript.Proofs.Model.Serialization
import ConceptScript.Proofs.Node.Formed
import ConceptScript.Proofs.Registry.Inheritance

namespace ConceptScript

namespace Json

mutual

/-- A document with the fields of its objects in the order of their names. -/
def sorted : Json → Json
  | array items => array (sortedItems items)
  | object fields => object (sortFields (sortedFields fields))
  | null => null
  | bool b => bool b
  | number n => number n
  | string s => string s

def sortedItems : List Json → List Json
  | [] => []
  | item :: items => sorted item :: sortedItems items

def sortedFields : List (String × Json) → List (String × Json)
  | [] => []
  | (name, value) :: fields => (name, sorted value) :: sortedFields fields

end

def field? (name : String) : Json → Option Json
  | object fields => fields.lookup name
  | _ => none

theorem sortedItems_eq (items : List Json) : sortedItems items = items.map sorted := by
  induction items with
  | nil => rfl
  | cons item items ih => rw [sortedItems, ih, List.map_cons]

theorem sortedFields_zip (names : List String) (values : List Json) :
    sortedFields (names.zip values) = names.zip (values.map sorted) := by
  induction names generalizing values with
  | nil => rfl
  | cons name names ih =>
    cases values with
    | nil => rfl
    | cons value values => simp only [List.zip_cons_cons, List.map_cons, sortedFields, ih]

theorem perm_of_sortFields_eq {xs ys : List (String × Json)} (h : sortFields xs = sortFields ys) :
    xs.Perm ys := by
  have hsorted (fields : List (String × Json)) : (sortFields fields).Perm fields :=
    List.mergeSort_perm fields _
  exact (hsorted xs).symm.trans (h ▸ hsorted ys)

theorem eq_of_zip_perm {names : List String} (hnames : names.Nodup) {vs ws : List Json}
    (hv : vs.length = names.length) (hw : ws.length = names.length)
    (h : (names.zip vs).Perm (names.zip ws)) : vs = ws := by
  induction names generalizing vs ws with
  | nil => rw [List.length_eq_zero_iff.mp hv, List.length_eq_zero_iff.mp hw]
  | cons name names ih =>
    obtain ⟨hname, hnames⟩ := List.nodup_cons.mp hnames
    obtain ⟨v, vs, rfl⟩ := List.exists_cons_of_length_eq_add_one hv
    obtain ⟨w, ws, rfl⟩ := List.exists_cons_of_length_eq_add_one hw
    rw [List.zip_cons_cons, List.zip_cons_cons] at h
    -- The name stands in front only, so its value does.
    obtain rfl : v = w := by
      rcases List.mem_cons.mp (h.subset List.mem_cons_self) with heq | hmem
      · exact (Prod.mk.inj heq).2
      · exact absurd (List.of_mem_zip hmem).1 hname
    rw [ih hnames (Nat.succ.inj hv) (Nat.succ.inj hw) h.cons_inv]

end Json

theorem Content.sorted_toJson (c : Option Content) :
    (Json.ofOption Content.toJson c).sorted = Json.ofOption Content.toJson c := by
  rcases c with _ | (_ | _ | ks)
  · rfl
  · rfl
  · rfl
  · change Json.array (Json.sortedItems (ks.map .string)) = .array (ks.map .string)
    rw [Json.sortedItems_eq, List.map_map]
    rfl

/-- What two values of one kind show is told apart in a document. -/
theorem MemberKind.content_eq_of_toJson_eq {kind : MemberKind} {v w : Option Value}
    (hv : ∀ value, v = some value → kind.accepts value = true)
    (hw : ∀ value, w = some value → kind.accepts value = true)
    (h : Json.ofOption Content.toJson (v.map Value.content) =
      Json.ofOption Content.toJson (w.map Value.content)) :
    v.map Value.content = w.map Value.content := by
  have hstrings {ks ls : List String} : ks.map Json.string = ls.map Json.string ↔ ks = ls :=
    List.map_inj_right fun _ _ => Json.string.inj
  cases kind <;> rcases v with _ | (_ | _ | _) <;> rcases w with _ | (_ | _ | _) <;>
    simp_all [MemberKind.accepts, Json.ofOption, Content.toJson, Value.content, -List.map_map]

namespace Node

/-- The concepts that can be made: a new one has no member set, and members are set by values of
their kind. -/
inductive Made (r : Registry) : Node → Prop
  | ofType {t : ConceptType} : t ∈ r.types → Made r (ofType t)
  | setAt {n n' : Node} {i : Nat} {m : Member} {value : Value} :
    Made r n → n.type.members[i]? = some m → n.setAt i m value = .ok n' → Made r n'
  | placeholder {n : Node} : Made r n → Made r n.placeholder

def Typed (ms : List Member) (vs : List (Option Value)) : Prop :=
  List.Forall₂ (fun m v => ∀ value, v = some value → m.kind.accepts value = true) ms vs

theorem Typed.keysOnly {ms : List Member} {vs : List (Option Value)} (h : Typed ms vs) :
    Typed ms ((ms.zip vs).map fun p => if p.1.isKey then p.2 else none) := by
  induction h with
  | nil => exact .nil
  | cons hmv _ ih =>
    refine .cons ?_ ih
    intro value hvalue
    dsimp only at hvalue
    split at hvalue
    · exact hmv value hvalue
    · cases hvalue

/-- Along the members, each kind tells what is shown from what is written. -/
theorem Typed.contents_eq {ms : List Member} {vs ws : List (Option Value)} (hv : Typed ms vs)
    (hw : Typed ms ws)
    (h : (vs.map (Option.map Value.content)).map (Json.ofOption Content.toJson) =
      (ws.map (Option.map Value.content)).map (Json.ofOption Content.toJson)) :
    vs.map (Option.map Value.content) = ws.map (Option.map Value.content) := by
  induction hv generalizing ws with
  | nil =>
    cases hw
    rfl
  | cons hv _ ih =>
    cases hw with
    | cons hw hws =>
      simp only [List.map_cons, List.cons.injEq] at h ⊢
      exact ⟨MemberKind.content_eq_of_toJson_eq hv hw h.1, ih hws h.2⟩

variable {r : Registry} {n : Node}

theorem Made.type_mem (h : n.Made r) : n.type ∈ r.types := by
  induction h with
  | ofType ht => exact ht
  | setAt _ _ hset ih =>
    rw [type_of_setAt hset]
    exact ih
  | placeholder _ ih => exact ih

theorem Made.typed (h : n.Made r) : Typed n.type.members n.slots := by
  induction h with
  | @ofType t _ =>
    change List.Forall₂ _ t.members (t.members.map fun _ => none)
    rw [List.forall₂_map_right_iff, List.forall₂_same]
    simp
  | setAt _ hm hset ih =>
    obtain ⟨haccepts, rfl⟩ := setAt_eq_ok.mp hset
    refine forall₂_set ih hm ?_
    rintro _ ⟨⟩
    exact haccepts
  | placeholder _ ih => exact ih.keysOnly

theorem sorted_membersJson (n : Node) : n.membersJson.sorted =
    .object (Json.sortFields ((n.type.members.map Member.name).zip
      (n.contents.map (Json.ofOption Content.toJson)))) := by
  rw [membersJson, Json.sorted, Json.sortedFields_zip, List.map_map]
  congr 4
  funext c
  exact Content.sorted_toJson c

theorem Made.contents_eq {declared : List Declaration} (h : Registry.build declared = .ok r)
    {a b : Node} (ha : a.Made r) (hb : b.Made r) (ht : a.type = b.type)
    (hmembers : a.membersJson.sorted = b.membersJson.sorted) : a.contents = b.contents := by
  have hnames : (a.type.members.map Member.name).Nodup := by
    obtain ⟨d, _, hi⟩ := Registry.inherits_of_mem_types h ha.type_mem
    exact (Registry.checkMembers_eq_ok_iff.mp hi.members_checked).1
  have htb : Typed a.type.members b.slots := ht ▸ hb.typed
  have hlength {c : Node} (hc : Typed a.type.members c.slots) :
      (c.contents.map (Json.ofOption Content.toJson)).length =
        (a.type.members.map Member.name).length := by
    rw [List.length_map, contents, List.length_map, List.length_map, hc.length_eq]
  rw [sorted_membersJson, sorted_membersJson, ← ht] at hmembers
  exact ha.typed.contents_eq htb (Json.eq_of_zip_perm hnames (hlength ha.typed) (hlength htb)
    (Json.perm_of_sortFields_eq (Json.object.inj hmembers)))

end Node

/-- A written concept shows its key, its type and its members. -/
theorem Entry.eq_of_sorted_toJson_eq {e e' : Entry} (h : e.toJson.sorted = e'.toJson.sorted) :
    e.key = e'.key ∧ e.node.typeName = e'.node.typeName ∧
      e.node.membersJson.sorted = e'.node.membersJson.sorted := by
  simp only [toJson, Json.sorted, Json.sortedFields, Json.object.injEq] at h
  have hfields := (Json.perm_of_sortFields_eq h).subset
  simpa using hfields

namespace Model

theorem map_sorted_of_sorted_toJson_eq {m m' : Model} (h : m.toJson.sorted = m'.toJson.sorted) :
    (m.entries.toList.mergeSort fun a b => decide (a.key ≤ b.key)).map (Json.sorted ∘ Entry.toJson) =
      (m'.entries.toList.mergeSort fun a b => decide (a.key ≤ b.key)).map
        (Json.sorted ∘ Entry.toJson) := by
  simp only [toJson, Json.sorted, Json.sortedFields, Json.object.injEq] at h
  simpa [Json.sortedItems_eq] using (Json.perm_of_sortFields_eq h).subset

theorem exists_entry_of_sorted_toJson_eq {m m' : Model} (h : m.toJson.sorted = m'.toJson.sorted)
    {e : Entry} (he : e ∈ m.entries.toList) :
    ∃ e' ∈ m'.entries.toList, e.toJson.sorted = e'.toJson.sorted := by
  have hmem := List.mem_map_of_mem (f := Json.sorted ∘ Entry.toJson)
    ((List.mergeSort_perm _ fun a b => decide (a.key ≤ b.key)).mem_iff.mpr he)
  rw [map_sorted_of_sorted_toJson_eq h] at hmem
  obtain ⟨e', he', hjson⟩ := List.mem_map.mp hmem
  exact ⟨e', (List.mergeSort_perm _ _).mem_iff.mp he', hjson.symm⟩

theorem same_of_sorted_toJson_eq {declared : List Declaration} {r : Registry}
    (h : Registry.build declared = .ok r) {e e' : Entry} (he : e.node.Made r) (he' : e'.node.Made r)
    (hjson : e.toJson.sorted = e'.toJson.sorted) : e.node.same e'.node = true := by
  obtain ⟨_, hname, hmembers⟩ := Entry.eq_of_sorted_toJson_eq hjson
  have ht := Registry.eq_of_name_eq h he.type_mem he'.type_mem hname
  exact Node.same_iff.mpr ⟨hname, he.contents_eq h he' ht hmembers⟩

theorem Entry.toJson_eq_of_same {declared : List Declaration} {r : Registry}
    (h : Registry.build declared = .ok r) {e e' : Entry} (he : e.node.Made r) (he' : e'.node.Made r)
    (hkey : e.key = e'.key) (hsame : e.node.same e'.node = true) : e.toJson = e'.toJson := by
  obtain ⟨hname, hcontents⟩ := Node.same_iff.mp hsame
  have ht := Registry.eq_of_name_eq h he.type_mem he'.type_mem hname
  rw [Entry.toJson, Entry.toJson, hkey, hname, Node.membersJson, Node.membersJson, ht, hcontents]

theorem Indexed.pairwise_sortedKeys_lt {m : Model} (h : m.Indexed) :
    m.sortedKeys.Pairwise (· < ·) := by
  have hnodup : m.sortedKeys.Nodup := (List.mergeSort_perm _ _).nodup_iff.mpr h.nodup_keys
  refine (m.pairwise_sortedKeys.and hnodup).imp ?_
  rintro a b ⟨hle, hne⟩
  exact String.not_le.mp fun hge => hne (String.le_antisymm hle hge)

section Documents

variable {declared : List Declaration} {r : Registry} (h : Registry.build declared = .ok r)
  {m m' : Model} (hm : m.Indexed) (hm' : m'.Indexed) (hmade : ∀ c ∈ m.concepts, c.Made r)
  (hmade' : ∀ c ∈ m'.concepts, c.Made r)
include h hm hm' hmade hmade'

theorem exists_find?_of_sorted_toJson_eq (hjson : m.toJson.sorted = m'.toJson.sorted) {k : String}
    {n : Node} (hn : m.find? k = some n) : ∃ n', m'.find? k = some n' ∧ n.same n' = true := by
  obtain ⟨e, he, rfl⟩ := Option.map_eq_some_iff.mp hn
  obtain ⟨hmem, rfl⟩ := hm.entry?_eq_some_iff.mp he
  obtain ⟨e', hmem', hentry⟩ := exists_entry_of_sorted_toJson_eq hjson hmem
  refine ⟨e'.node, Option.map_eq_some_iff.mpr ⟨e', ?_, rfl⟩, ?_⟩
  · exact hm'.entry?_eq_some_iff.mpr ⟨hmem', (Entry.eq_of_sorted_toJson_eq hentry).1.symm⟩
  · exact same_of_sorted_toJson_eq h (hmade _ (List.mem_map_of_mem hmem))
      (hmade' _ (List.mem_map_of_mem hmem')) hentry

theorem toJson_eq_of_find?_rel
    (hrel : ∀ k, Option.Rel (fun a b => a.same b = true) (m.find? k) (m'.find? k)) :
    m.toJson = m'.toJson := by
  refine toJson_eq_of_entries hm hm' fun k => ?_
  have hk := hrel k
  rw [find?, find?] at hk
  cases he : m.entry? k with
  | none =>
    cases he' : m'.entry? k with
    | none => rfl
    | some e' =>
      rw [he, he'] at hk
      cases hk
  | some e =>
    cases he' : m'.entry? k with
    | none =>
      rw [he, he'] at hk
      cases hk
    | some e' =>
      rw [he, he'] at hk
      obtain ⟨hmem, hkey⟩ := hm.entry?_eq_some_iff.mp he
      obtain ⟨hmem', hkey'⟩ := hm'.entry?_eq_some_iff.mp he'
      cases hk with
      | some hsame =>
        exact congrArg some (Entry.toJson_eq_of_same h (hmade _ (List.mem_map_of_mem hmem))
          (hmade' _ (List.mem_map_of_mem hmem')) (hkey.trans hkey'.symm) hsame)

end Documents

/-- Two models are written as one document exactly if they have the same concepts under the same
keys; then not even the order of fields differs. The concepts of a document are in the order of
their keys, each key of the model once. -/
theorem document_canonical {declared : List Declaration} {r : Registry}
    (h : Registry.build declared = .ok r) {m m' : Model} (hm : m.Reachable r) (hm' : m'.Reachable r)
    (hmade : ∀ c ∈ m.concepts, c.Made r) (hmade' : ∀ c ∈ m'.concepts, c.Made r) :
    (m.toJson.sorted = m'.toJson.sorted ↔
      ∀ k, Option.Rel (fun a b => a.same b = true) (m.find? k) (m'.find? k)) ∧
    (m.toJson.sorted = m'.toJson.sorted ↔ m.toJson = m'.toJson) ∧
    ∃ (items : List Json) (keys : List String), m.toJson = .object [("concepts", .array items)] ∧
      items.map (Json.field? "key") = keys.map (fun k => some (.string k)) ∧
      keys.Pairwise (· < ·) ∧ ∀ k, k ∈ keys ↔ m.contains k = true := by
  have hx := hm.indexed
  have hy := hm'.indexed
  have hfaithful (hjson : m.toJson.sorted = m'.toJson.sorted) (k : String) :
      Option.Rel (fun a b => a.same b = true) (m.find? k) (m'.find? k) := by
    cases hn : m.find? k with
    | some n =>
      obtain ⟨n', hn', hsame⟩ :=
        exists_find?_of_sorted_toJson_eq h hx hy hmade hmade' hjson hn
      rw [hn']
      exact .some hsame
    | none =>
      cases hn' : m'.find? k with
      | none => exact .none
      | some n' =>
        obtain ⟨n, hfound, _⟩ :=
          exists_find?_of_sorted_toJson_eq h hy hx hmade' hmade hjson.symm hn'
        rw [hn] at hfound
        cases hfound
  have halike := toJson_eq_of_find?_rel h hx hy hmade hmade'
  refine ⟨⟨hfaithful, fun hrel => congrArg Json.sorted (halike hrel)⟩,
    ⟨fun hjson => halike (hfaithful hjson), congrArg Json.sorted⟩, _, m.sortedKeys, rfl, ?_,
    hx.pairwise_sortedKeys_lt, fun k => ?_⟩
  · rw [sortedKeys_eq, List.map_map, List.map_map]
    rfl
  · rw [sortedKeys, (List.mergeSort_perm _ _).mem_iff, keys, hx.keys_eq, List.mem_map,
      hx.contains_iff]

/-- A module and an entity in it, in both orders. -/
theorem document_canonical_orders : ∃ m m' : Model,
    m.Reachable Small.registry ∧ m'.Reachable Small.registry ∧
      m.concepts = [Small.module "Common", Small.entity "Common" "Person"] ∧
      m'.concepts = [Small.entity "Common" "Person", Small.module "Common"] ∧
      m.toJson.sorted = m'.toJson.sorted := by
  have hmodule : (Small.module "Common").Made Small.registry := by
    have hset : (Node.ofType Small.moduleType).setAt 0 ⟨"Name", .identifier, true, false⟩
        (.text "Common") = .ok (Small.module "Common") := rfl
    exact .setAt (.ofType (by decide)) rfl hset
  have hentity : (Small.entity "Common" "Person").Made Small.registry := by
    have hset : (Node.ofType Small.entityType).setAt 0
        ⟨"Module", .reference (.concept "Module"), true, true⟩ (.reference (Small.module "Common")) =
        .ok (.mk Small.entityType [some (.reference (Small.module "Common")), none]) := rfl
    have hset' : (Node.mk Small.entityType [some (.reference (Small.module "Common")), none]).setAt 1
        ⟨"Name", .identifier, true, false⟩ (.text "Person") =
        .ok (Small.entity "Common" "Person") := rfl
    exact .setAt (.setAt (.ofType (by decide)) rfl hset) rfl hset'
  obtain ⟨m₁, hm₁, hc₁⟩ := (Reachable.empty (r := Small.registry)).exists_grown
    (n := Small.module "Common") (by decide)
  obtain ⟨m, hm, hc⟩ := hm₁.exists_grown (n := Small.entity "Common" "Person") (by rw [hc₁]; decide)
  obtain ⟨m₁', hm₁', hc₁'⟩ := (Reachable.empty (r := Small.registry)).exists_grown
    (n := Small.entity "Common" "Person") (by decide)
  obtain ⟨m', hm', hc'⟩ := hm₁'.exists_grown (n := Small.module "Common") (by rw [hc₁']; decide)
  rw [hc₁] at hc
  rw [hc₁'] at hc'
  change m.concepts = [Small.module "Common", Small.entity "Common" "Person"] at hc
  change m'.concepts = [Small.entity "Common" "Person", Small.module "Common"] at hc'
  have hmade : ∀ c ∈ m.concepts, c.Made Small.registry := by
    simp [hc, hmodule, hentity]
  have hmade' : ∀ c ∈ m'.concepts, c.Made Small.registry := by
    simp [hc', hmodule, hentity]
  refine ⟨m, m', hm, hm', hc, hc', ?_⟩
  refine (document_canonical Small.build_declared hm hm' hmade hmade').1.mpr fun k => ?_
  have hfind : m.find? k = m'.find? k := by
    ext n
    rw [hm.indexed.find?_eq_some_iff, hm'.indexed.find?_eq_some_iff, hc, hc']
    simp [or_comm]
  rw [hfind]
  cases m'.find? k with
  | none => exact .none
  | some n => exact .some n.same_refl

end Model

end ConceptScript
