import ConceptScript.Proofs.Model.Serialization
import ConceptScript.Proofs.Sample.Compilation

namespace ConceptScript

namespace Schema

/-- Fits `[A-Za-z_][A-Za-z0-9_]*`. -/
def isName : List Char → Bool
  | [] => false
  | c :: cs => (c.isAlpha || c == '_') && cs.all fun d => d.isAlphanum || d == '_'

/-- A name, a blank and a text of characters that a dot stands for. -/
def KeyWith (dot : Char → Prop) (s : String) : Prop :=
  ∃ name text, s.toList = name ++ ' ' :: text ∧ isName name = true ∧ ∀ c ∈ text, dot c

/-- Fits `^[A-Za-z_][A-Za-z0-9_]* .*$`, where the dot stands for all but line feeds. -/
def MatchesKey : String → Prop := KeyWith (· ≠ '\n')

variable (isKey : String → Prop)

/-- A text, nothing, or a list of keys. -/
def MemberValue : Json → Prop
  | .string _ => True
  | .null => True
  | .array items => ∀ item ∈ items, ∃ k, item = .string k ∧ isKey k
  | _ => False

/-- Exactly a key, a type and members. -/
def Concept (j : Json) : Prop :=
  ∃ fields, j = .object fields ∧ (fields.map Prod.fst).Perm ["key", "type", "members"] ∧
    ∀ p ∈ fields,
      (p.1 = "key" → ∃ k, p.2 = .string k ∧ isKey k) ∧
      (p.1 = "type" → ∃ t, p.2 = .string t ∧ isName t.toList = true) ∧
      (p.1 = "members" → ∃ ms, p.2 = .object ms ∧ ∀ q ∈ ms, MemberValue isKey q.2)

/-- Exactly an array of concepts. -/
def Document (j : Json) : Prop :=
  ∃ items, j = .object [("concepts", .array items)] ∧ ∀ item ∈ items, Concept isKey item

end Schema

def Content.listed : Option Content → List String
  | some (.keys ks) => ks
  | _ => []

/-- The keys that have to fit the pattern: that of the concept and those in its lists. -/
def Entry.shownKeys (e : Entry) : List String := e.key :: e.node.contents.flatMap Content.listed

namespace Schema

variable {isKey : String → Prop}

theorem memberValue_iff (c : Option Content) :
    MemberValue isKey (Json.ofOption Content.toJson c) ↔ ∀ k ∈ Content.listed c, isKey k := by
  cases c with
  | none => simp [Json.ofOption, MemberValue, Content.listed]
  | some c =>
    cases c <;> simp [Json.ofOption, MemberValue, Content.listed, Content.toJson]

theorem concept_iff {e : Entry} (h : e.node.slots.length = e.node.type.members.length) :
    Concept isKey e.toJson ↔
      isName e.node.typeName.toList = true ∧ ∀ k ∈ e.shownKeys, isKey k := by
  have hmembers : (∀ q ∈ (e.node.type.members.map Member.name).zip
      (e.node.contents.map (Json.ofOption Content.toJson)), MemberValue isKey q.2) ↔
      ∀ k ∈ e.node.contents.flatMap Content.listed, isKey k := by
    have hsnd : ((e.node.type.members.map Member.name).zip
        (e.node.contents.map (Json.ofOption Content.toJson))).map Prod.snd =
        e.node.contents.map (Json.ofOption Content.toJson) :=
      List.map_snd_zip (by simp [Node.contents, h])
    rw [← List.forall_mem_map (f := Prod.snd), hsnd]
    simp only [List.forall_mem_map, memberValue_iff, List.mem_flatMap, forall_exists_index, and_imp]
    exact ⟨fun h k c hc hk => h c hc k hk, fun h c hc k hk => h k c hc hk⟩
  rw [Entry.shownKeys, List.forall_mem_cons, ← hmembers]
  constructor
  · rintro ⟨fields, hfields, _, hall⟩
    obtain rfl := Json.object.inj hfields
    obtain ⟨hkey, htype, hmembers⟩ :
      (∃ k, Json.string e.key = .string k ∧ isKey k) ∧
      (∃ t, Json.string e.node.typeName = .string t ∧ isName t.toList = true) ∧
      ∃ ms, e.node.membersJson = .object ms ∧ ∀ q ∈ ms, MemberValue isKey q.2 := by
      simpa using hall
    obtain ⟨_, ⟨⟩, hkey⟩ := hkey
    obtain ⟨_, ⟨⟩, htype⟩ := htype
    obtain ⟨_, ⟨⟩, hmembers⟩ := hmembers
    exact ⟨htype, hkey, hmembers⟩
  · rintro ⟨htype, hkey, hmembers⟩
    have hobject : ∃ ms, e.node.membersJson = .object ms ∧ ∀ q ∈ ms, MemberValue isKey q.2 :=
      ⟨_, rfl, hmembers⟩
    refine ⟨_, rfl, .refl _, ?_⟩
    simpa [hkey, htype] using hobject

theorem document_iff {m : Model} :
    Document isKey m.toJson ↔ ∀ e ∈ m.entries.toList, Concept isKey e.toJson := by
  have hmem (e : Entry) : e ∈ (m.entries.toList.mergeSort fun a b => decide (a.key ≤ b.key)) ↔
      e ∈ m.entries.toList := (List.mergeSort_perm _ _).mem_iff
  constructor
  · rintro ⟨items, hitems, hall⟩ e he
    obtain ⟨rfl⟩ : _ = items := by simpa [Model.toJson] using hitems
    exact hall _ (List.mem_map_of_mem ((hmem e).mpr he))
  · intro hall
    refine ⟨_, rfl, ?_⟩
    rw [List.forall_mem_map]
    intro e he
    exact hall e ((hmem e).mp he)

theorem not_mem_of_isName {name : List Char} (h : isName name = true) {c : Char}
    (hc : (c.isAlphanum || c == '_') = false) : c ∉ name := by
  have hpart {d : Char} (hd : (d.isAlpha || d == '_') = true) :
      (d.isAlphanum || d == '_') = true := by
    simp only [Char.isAlphanum, Bool.or_eq_true] at hd ⊢
    tauto
  cases name with
  | nil => simp
  | cons d ds =>
    simp only [isName, Bool.and_eq_true, List.all_eq_true] at h
    rintro hmem
    rcases List.mem_cons.mp hmem with rfl | hmem
    · exact absurd (hpart h.1) (by simp [hc])
    · exact absurd (h.2 c hmem) (by simp [hc])

theorem matchesKey_iff {s : String} (h : KeyWith (fun _ => True) s) :
    MatchesKey s ↔ '\n' ∉ s.toList := by
  constructor
  · rintro ⟨name, text, hs, hname, htext⟩ hmem
    rw [hs, List.mem_append, List.mem_cons] at hmem
    rcases hmem with hmem | hmem | hmem
    · exact not_mem_of_isName hname (by decide) hmem
    · exact absurd hmem (by decide)
    · exact htext _ hmem rfl
  · intro hmem
    obtain ⟨name, text, hs, hname, _⟩ := h
    refine ⟨name, text, hs, hname, ?_⟩
    rintro c hc rfl
    exact hmem (by simp [hs, hc])

end Schema

theorem Node.slotParts_ne_nil {ms : List Member} {vs : List (Option Value)} {m : Member}
    {v : Option Value} (h : (m, v) ∈ ms.zip vs) (hkey : m.isKey = true)
    (hv : valueParts v ≠ []) : slotParts ms vs ≠ [] := by
  induction ms generalizing vs with
  | nil => simp at h
  | cons m' ms ih =>
    cases vs with
    | nil => simp at h
    | cons v' vs =>
      rw [List.zip_cons_cons, List.mem_cons, Prod.mk.injEq] at h
      rw [slotParts]
      rcases h with ⟨rfl, rfl⟩ | h
      · simp [hkey, hv]
      · simp [ih h]

namespace Sample

variable {r : Registry} {m : Model}

theorem keyParts_ne_nil_of_hasPart {n : Node} (hn : n.Formed r) (h : hasPart n.type = true) :
    n.keyParts ≠ [] := by
  obtain ⟨m, hm, hpart⟩ := List.any_eq_true.mp h
  rw [Bool.and_eq_true] at hpart
  obtain ⟨hkey, hkind⟩ := hpart
  obtain ⟨v, hv⟩ := hn.shaped.exists_slot hm
  rw [Node.keyParts_eq]
  refine Node.slotParts_ne_nil hv hkey ?_
  cases v with
  | none => simp [Node.valueParts]
  | some value =>
    cases value with
    | text s => simp [Node.valueParts]
    | list ns => simp [Node.valueParts]
    | reference n' =>
      have haccepts := (hn.suits_of_mem hv).accepts
      cases hk : m.kind <;> simp_all [MemberKind.accepts]

theorem Word.isName {s : String} (h : Word s) : Schema.isName s.toList = true := by
  obtain ⟨c, cs, hs⟩ := List.exists_cons_of_ne_nil (l := s.toList) (by simpa using h.ne_empty)
  have hall : ∀ d ∈ c :: cs, d.isAlpha = true := fun d hd => h.isAlpha (hs ▸ hd)
  rw [hs, Schema.isName, hall c List.mem_cons_self, Bool.true_or, Bool.true_and, List.all_eq_true]
  intro d hd
  rw [Char.isAlphanum, hall d (List.mem_cons_of_mem c hd), Bool.true_or, Bool.true_or]

theorem keyWith_of_keyParts {n : Node} (ht : Lawful n.type) (h : n.keyParts ≠ []) :
    Schema.KeyWith (fun _ => True) n.key := by
  refine ⟨n.type.root.toList, (".".intercalate n.keyParts).toList, ?_, ht.root.isName, by simp⟩
  rw [Node.key_of_keyParts_ne_nil h]
  simp

theorem keyParts_ne_nil_of_key {n : Node} (ht : Lawful n.type)
    (h : Schema.KeyWith (fun _ => True) n.key) : n.keyParts ≠ [] := by
  intro hparts
  obtain ⟨name, text, hkey, _⟩ := h
  rw [Node.key, hparts, Node.label] at hkey
  exact ht.root.not_mem (c := ' ') (by decide) (by simp [hkey])

/-- Every concept but the initial one has a key with a text in it. -/
theorem Compiled.keyWith (h : Compiled r m) {n : Node} (hn : n ∈ m.concepts)
    (hname : n.typeName ≠ initialization) : Schema.KeyWith (fun _ => True) n.key := by
  have hformed := h.formed n hn
  refine keyWith_of_keyParts (h.lawful hn) ?_
  rcases (h.lawful hn).key hname with hpart | ⟨member, hmember, hkey, x, hx, hkind⟩
  · exact keyParts_ne_nil_of_hasPart hformed hpart
  · -- The key is that of what the concept refers to, and this has a part of its own.
    obtain ⟨value, hvalue⟩ := hformed.shaped.exists_value
      (h.reachable.resolving.complete n hn) hmember
    have haccepts := (hformed.suits_of_mem hvalue).accepts
    rw [hkind] at haccepts
    obtain ⟨n', rfl, _⟩ := Node.exists_reference_of_accepts haccepts
    have hmem := Node.mem_references hvalue (List.mem_singleton_self n')
    obtain ⟨found, hfound, hsame, htarget⟩ := h.exists_target hn hmem
    rw [hkind] at htarget
    have hpart := (h.lawful hfound).part x hx htarget
    have hkeyed := keyWith_of_keyParts (h.lawful hfound)
      (keyParts_ne_nil_of_hasPart (h.formed found hfound) hpart)
    rw [hsame] at hkeyed
    rw [Node.keyParts_eq]
    refine Node.slotParts_ne_nil hvalue hkey ?_
    exact keyParts_ne_nil_of_key
      (Sample.lawful h.registry (hformed.shaped_of_mem_references hmem).type_mem) hkeyed

theorem Compiled.key_of_initialization (h : Compiled r m) {n : Node} (hn : n ∈ m.concepts)
    (hname : n.typeName = initialization) : n.key = initialization ∧ n.contents = [] := by
  have hshaped := (h.formed n hn).shaped
  obtain ⟨_, hmembers, hroot⟩ := (h.lawful hn).initial hname
  have hslots : n.slots = [] :=
    List.eq_nil_of_length_eq_zero (by rw [hshaped.slots_length, hmembers]; rfl)
  rw [Node.key, Node.keyParts_eq, Node.contents, hslots, hmembers, hroot]
  exact ⟨by simp [Node.slotParts, Node.label], rfl⟩

/-- The keys that an entry shows: each is that of a concept, and only the initial concept shows its
own. -/
theorem Compiled.keyWith_of_mem_shownKeys (h : Compiled r m) {e : Entry} (he : e ∈ m.entries.toList)
    (hname : e.node.typeName ≠ initialization) {k : String} (hk : k ∈ e.shownKeys) :
    Schema.KeyWith (fun _ => True) k := by
  have hn : e.node ∈ m.concepts := List.mem_map_of_mem he
  rcases List.mem_cons.mp hk with rfl | hk
  · rw [h.reachable.indexed.key_eq e he]
    exact h.keyWith hn hname
  · obtain ⟨content, hcontent, hk⟩ := List.mem_flatMap.mp hk
    obtain ⟨v, hv, rfl⟩ := List.mem_map.mp hcontent
    obtain ⟨ns, n', rfl, hn', rfl⟩ : ∃ ns n', v = some (.list ns) ∧ n' ∈ ns ∧ n'.key = k := by
      cases v with
      | none => simp [Content.listed] at hk
      | some value => cases value <;> simp_all [Value.content, Content.listed]
    have hformed := h.formed e.node hn
    obtain ⟨member, hmember⟩ := hformed.shaped.exists_member hv
    obtain ⟨target, hkind⟩ :=
      Node.exists_target_of_accepts_list (hformed.suits_of_mem hmember).accepts
    obtain ⟨found, hfound, hkey, hsatisfies⟩ := h.exists_target hn (Node.mem_references hmember hn')
    have htarget := ((h.lawful hn).members member (List.of_mem_zip hmember).1).list target hkind
    rw [hkind, htarget] at hsatisfies
    rw [← hkey]
    refine h.keyWith hfound fun hinitial => ?_
    -- A property is not of the initial type, since a type has one role.
    have hlawful := h.lawful hfound
    have hstart : role? found.type = some .start :=
      hlawful.isA_iff.mp (hlawful.initial hinitial).1
    have hproperty : role? found.type = some .property := hlawful.isA_iff.mp hsatisfies
    cases hstart.symm.trans hproperty

theorem Compiled.shownKeys_of_initialization (h : Compiled r m) {e : Entry}
    (he : e ∈ m.entries.toList) (hname : e.node.typeName = initialization) :
    e.shownKeys = [initialization] := by
  obtain ⟨hkey, hcontents⟩ := h.key_of_initialization (List.mem_map_of_mem he) hname
  rw [Entry.shownKeys, hcontents, h.reachable.indexed.key_eq e he, hkey]
  rfl

/-- What an entry is written as, for any pattern of keys. -/
theorem Compiled.concept_iff (h : Compiled r m) {e : Entry} (he : e ∈ m.entries.toList)
    {isKey : String → Prop} :
    Schema.Concept isKey e.toJson ↔ ∀ k ∈ e.shownKeys, isKey k := by
  have hshaped := (h.formed e.node (List.mem_map_of_mem he)).shaped
  rw [Schema.concept_iff hshaped.slots_length]
  exact and_iff_right (h.lawful (List.mem_map_of_mem he)).name.isName

theorem not_matchesKey_initialization : ¬Schema.MatchesKey initialization := by
  rintro ⟨name, text, hkey, _⟩
  have hspace : ' ' ∉ initialization.toList := by decide
  exact hspace (by simp [hkey])

/-- A model of the language is written as a list of concepts, as the schema asks. Its keys fit the
pattern with two exceptions: the key of the initial concept, which every model has, is a name and
nothing else, and a text in a key may have line feeds. -/
theorem schema_of_compiled {options : Options} {c : Compiler} {scripts : List Script}
    {result : Compilation} (hr : registry = .ok r) (hc : compiler r options = .ok c)
    (h : c.compileFresh scripts = .ok result) :
    Schema.Document (fun k => k = initialization ∨ Schema.KeyWith (fun _ => True) k)
      result.model.toJson ∧
    (∀ e ∈ result.model.entries.toList, Schema.Concept Schema.MatchesKey e.toJson ↔
      e.node.typeName ≠ initialization ∧ ∀ k ∈ e.shownKeys, '\n' ∉ k.toList) ∧
    ¬Schema.Document Schema.MatchesKey result.model.toJson := by
  have hm := compiled_of_compileFresh hr hc h
  have hpattern : ∀ e ∈ result.model.entries.toList, Schema.Concept Schema.MatchesKey e.toJson ↔
      e.node.typeName ≠ initialization ∧ ∀ k ∈ e.shownKeys, '\n' ∉ k.toList := by
    intro e he
    rw [hm.concept_iff he]
    by_cases hname : e.node.typeName = initialization
    · rw [hm.shownKeys_of_initialization he hname]
      simp [hname, not_matchesKey_initialization]
    · rw [and_iff_right hname]
      exact forall₂_congr fun k hk =>
        Schema.matchesKey_iff (hm.keyWith_of_mem_shownKeys he hname hk)
  refine ⟨Schema.document_iff.mpr fun e he => (hm.concept_iff he).mpr fun k hk => ?_, hpattern, ?_⟩
  · by_cases hname : e.node.typeName = initialization
    · rw [hm.shownKeys_of_initialization he hname] at hk
      exact .inl (List.mem_singleton.mp hk)
    · exact .inr (hm.keyWith_of_mem_shownKeys he hname hk)
  · intro hdocument
    obtain ⟨t, _, hname, hhead⟩ := hm.start
    obtain ⟨e, he, hnode⟩ := List.mem_map.mp (List.mem_of_head? hhead)
    have hconcept := (hpattern e he).mp (Schema.document_iff.mp hdocument e he)
    exact hconcept.1 (by rw [hnode]; exact hname)

theorem schema_of_compiled_shop :
    ∃ r c result, registry = .ok r ∧ compiler r {} = .ok c ∧ c.compileFresh [shop] = .ok result ∧
      result.model.concepts.length = 7 ∧
      Schema.Document (fun k => k = initialization ∨ Schema.KeyWith (fun _ => True) k)
        result.model.toJson ∧
      ¬Schema.Document Schema.MatchesKey result.model.toJson := by
  obtain ⟨r, c, result, hr, hc, h, hlength, _⟩ := exists_compileFresh
    (p := fun cs => cs.length == 7) (show compilesTo _ [shop] = true by decide +kernel)
  obtain ⟨hdocument, _, hunmatched⟩ := schema_of_compiled hr hc h
  exact ⟨r, c, result, hr, hc, h, eq_of_beq hlength, hdocument, hunmatched⟩

/-- The model of no script at all has one concept, and its key does not fit. -/
theorem empty_model_unmatched :
    ∃ r c result, registry = .ok r ∧ compiler r {} = .ok c ∧ c.compileFresh [] = .ok result ∧
      result.model.concepts.map Node.key = ["InitializationConcept"] ∧
      ¬Schema.Document Schema.MatchesKey result.model.toJson := by
  obtain ⟨r, c, result, hr, hc, h, hkeys, _⟩ := exists_compileFresh
    (p := fun cs => cs.map Node.key == ["InitializationConcept"])
    (show compilesTo _ [] = true by decide +kernel)
  have hkeys := eq_of_beq hkeys
  refine ⟨r, c, result, hr, hc, h, hkeys, fun hdocument => ?_⟩
  have hm := compiled_of_compileFresh hr hc h
  have hkey : initialization ∈ result.model.concepts.map Node.key := by
    rw [hkeys]
    exact List.mem_singleton_self _
  obtain ⟨n, hn, hkey⟩ := List.mem_map.mp hkey
  obtain ⟨e, he, rfl⟩ := List.mem_map.mp hn
  have hshown := (hm.concept_iff he).mp (Schema.document_iff.mp hdocument e he)
  refine not_matchesKey_initialization ?_
  rw [← hkey, ← hm.reachable.indexed.key_eq e he]
  exact hshown e.key List.mem_cons_self

end Sample

end ConceptScript
