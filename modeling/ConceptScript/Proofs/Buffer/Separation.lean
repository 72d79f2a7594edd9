import ConceptScript.Proofs.Buffer.Residue
import ConceptScript.Proofs.Node.Identity

namespace ConceptScript

theorem Text.intercalate_eq_empty_iff {sep : String} (hsep : sep ≠ "") {parts : List String} :
    sep.intercalate parts = "" ↔ parts = [] ∨ parts = [""] := by
  cases parts with
  | nil => simp
  | cons part parts =>
    cases parts with
    | nil => simp
    | cons next parts =>
      rw [String.intercalate_cons_cons]
      simp [hsep]

namespace Tag

/-- Without a template, a marker tells the joined parts of the key and nothing else. -/
theorem marker_eq_marker_iff {tag : Tag} (htemplate : tag.template? = none)
    {options : GenerationOptions} {a b : Node} {ma mb : String}
    (ha : tag.marker options a = .ok ma) (hb : tag.marker options b = .ok mb) :
    ma = mb ↔ ".".intercalate a.keyParts = ".".intercalate b.keyParts := by
  have hbody (parts : List String) :
      tag.body parts = .ok (tag.type ++ " " ++ tag.name ++ " " ++ ".".intercalate parts) := by
    rw [body, htemplate]
  obtain ⟨_, _, body, hbodya, rfl⟩ := marker_eq_ok_iff.mp ha
  obtain ⟨_, _, body', hbodyb, rfl⟩ := marker_eq_ok_iff.mp hb
  rw [hbody] at hbodya hbodyb
  obtain rfl := Except.ok.inj hbodya
  obtain rfl := Except.ok.inj hbodyb
  simp only [← String.toList_inj, String.toList_append, List.append_left_inj,
    List.append_right_inj]

theorem marker_ne_empty {tag : Tag} (htemplate : tag.template? = none)
    {options : GenerationOptions} {n : Node} {marker : String}
    (h : tag.marker options n = .ok marker) : marker ≠ "" := by
  obtain ⟨_, _, body, hbody, rfl⟩ := marker_eq_ok_iff.mp h
  rw [Tag.body, htemplate] at hbody
  obtain rfl := Except.ok.inj hbody
  simp [String.append_eq_empty_iff]

theorem root_eq_of_marker {declared : List Declaration} {r : Registry}
    (h : Registry.build declared = .ok r) {tag : Tag} {options : GenerationOptions} {n : Node}
    {marker : String} (hn : n.type ∈ r.types) (hmarker : tag.marker options n = .ok marker)
    {t : ConceptType} (ht : t ∈ r.types) (hname : t.name = tag.type)
    (hinterface : t.isInterface = false) : n.type.root = t.root := by
  obtain ⟨hisA, _⟩ := marker_eq_ok_iff.mp hmarker
  rw [← hname] at hisA
  exact (Registry.refines_of_name_eq h hn ht (.inr ⟨hisA, hinterface⟩)).root

end Tag

namespace Buffer

theorem insert_congr {b : Buffer} {tag : Tag} {x y : Node}
    (h : b.marker tag x = b.marker tag y) (text : String) :
    b.insert text tag x = b.insert text tag y := by
  rw [insert, insert, h]

theorem marker_eq_ok {b : Buffer} {tag : Tag} {n : Node} {marker : String}
    (h : tag.marker b.options n = .ok marker) : b.marker tag n = .ok marker := by
  rw [Buffer.marker, h]
  rfl

theorem insert_empty {options : GenerationOptions} {tag : Tag} {n : Node} {marker : String}
    (h : tag.marker options n = .ok marker) (hne : marker ≠ "") (text : String) :
    insert { options } text tag n = .error (.tagNotFound marker) := by
  have hlocate : locate { options } marker = .error (.tagNotFound marker) := by
    have hcut : Text.cutAt? marker.toList [] = none := by
      simp [Text.cutAt?, hne]
    simp only [locate, String.toList_empty, hcut, List.contains_nil, Bool.false_eq_true, if_false]
  have hmarker : Buffer.marker { options } tag n = .ok marker := marker_eq_ok h
  have hreplace (new : String) : replace { options } marker new = .error (.tagNotFound marker) := by
    rw [replace, hlocate]
    rfl
  have hbefore (new : String) :
      insertBefore { options } marker new = .error (.tagNotFound marker) := by
    rw [insertBefore, hlocate]
    rfl
  have hafter (new : String) :
      insertAfter { options } marker new = .error (.tagNotFound marker) := by
    rw [insertAfter, hlocate]
    rfl
  rw [insert, hmarker, ok_bind]
  cases tag.discipline
  · exact hreplace _
  · exact hbefore _
  · exact hafter _

end Buffer

-- Books and films have titles, and may have the same one.

namespace Catalog

def declared : List Declaration := [
  .interface "Titled",
  ({ name := "Book" } : Declaration).implementing "Titled" |>.withKey "Title" .text,
  ({ name := "Film" } : Declaration).implementing "Titled" |>.withKey "Title" .text]

def titledType : ConceptType where
  name := "Titled"
  keyword? := none
  isInterface := true
  deprecation? := none
  members := []
  root := "Titled"
  ancestors := ["Titled"]
  arity? := none
  nesting := ⟨true, 0⟩

def bookType : ConceptType :=
  { titledType with
    name := "Book", isInterface := false, members := [⟨"Title", .text, true, false⟩],
    root := "Book", ancestors := ["Book", "Titled"], arity? := some 1 }

def filmType : ConceptType :=
  { bookType with name := "Film", root := "Film", ancestors := ["Film", "Titled"] }

def registry : Registry := ⟨[titledType, bookType, filmType]⟩

theorem build_declared : Registry.build declared = .ok registry := by decide +kernel

def book (title : String) : Node := .mk bookType [some (.text title)]

def film (title : String) : Node := .mk filmType [some (.text title)]

def body (type : String) : Tag := { type, name := "Body", discipline := .appendable }

end Catalog

namespace Tag

/-- Two concepts have one marker exactly if whatever is inserted for the one could as well have been
inserted for the other, and exactly if the joined parts of their keys are the same. Of concepts
of one root these are the concepts with the same key, and a concept without a part in its key beside
one with an empty part. A tag of a type that is no interface applies to concepts of one root. -/
theorem markers_meet_iff {declared : List Declaration} {r : Registry}
    (h : Registry.build declared = .ok r) {tag : Tag} (htemplate : tag.template? = none)
    (options : GenerationOptions) {a b : Node} (ha : a.type ∈ r.types) (hb : b.type ∈ r.types)
    {ma mb : String} (hma : tag.marker options a = .ok ma) (hmb : tag.marker options b = .ok mb) :
    (ma = mb ↔ ∀ (out : Buffer) (text : String), out.options = options →
      out.insert text tag a = out.insert text tag b) ∧
    (ma = mb ↔ ".".intercalate a.keyParts = ".".intercalate b.keyParts) ∧
    (a.type.root = b.type.root →
      (ma = mb ↔ a.key = b.key ∨ a.keyParts = [] ∧ b.keyParts = [""] ∨
        a.keyParts = [""] ∧ b.keyParts = [])) ∧
    ∀ t ∈ r.types, t.name = tag.type → t.isInterface = false → a.type.root = b.type.root := by
  have hmarkers := marker_eq_marker_iff htemplate hma hmb
  refine ⟨⟨?_, fun hsame => ?_⟩, hmarkers, fun hroot => ?_, fun t ht hname hinterface => ?_⟩
  · rintro rfl out text rfl
    exact Buffer.insert_congr ((Buffer.marker_eq_ok hma).trans (Buffer.marker_eq_ok hmb).symm) text
  · -- Where no marker is found, the one that was looked for is told.
    have hempty := hsame { options } "" rfl
    rw [Buffer.insert_empty hma (marker_ne_empty htemplate hma),
      Buffer.insert_empty hmb (marker_ne_empty htemplate hmb)] at hempty
    exact GenerationError.tagNotFound.inj (Except.error.inj hempty)
  · have hempty {parts : List String} : ".".intercalate parts = "" ↔ parts = [] ∨ parts = [""] :=
      Text.intercalate_eq_empty_iff (by decide)
    rw [hmarkers, Node.key, Node.key, hroot, Node.label_eq_label_iff]
    constructor
    · intro hjoin
      -- Parts that join to nothing are none, or one that is empty.
      by_cases hpa : a.keyParts = []
      · rw [hpa, String.intercalate_nil, eq_comm, hempty] at hjoin
        rcases hjoin with hpb | hpb
        · exact .inl (by simp [hpa, hpb])
        · exact .inr (.inl ⟨hpa, hpb⟩)
      · by_cases hpb : b.keyParts = []
        · rw [hpb, String.intercalate_nil, hempty] at hjoin
          exact .inr (.inr ⟨hjoin.resolve_left hpa, hpb⟩)
        · exact .inl ⟨hjoin, by simp [hpa, hpb]⟩
    · rintro (⟨hjoin, _⟩ | ⟨hpa, hpb⟩ | ⟨hpa, hpb⟩)
      · exact hjoin
      · simp [hpa, hpb]
      · simp [hpa, hpb]
  · rw [root_eq_of_marker h ha hma ht hname hinterface,
      root_eq_of_marker h hb hmb ht hname hinterface]

/-- The markers of two books. -/
theorem markers_meet_iff_books :
    (Catalog.body "Book").marker {} (Catalog.book "Emma") = .ok "/*<Book Body Emma>*/" ∧
      (Catalog.body "Book").marker {} (Catalog.book "") = .ok "/*<Book Body >*/" ∧
      (Catalog.book "Emma").key ≠ (Catalog.book "").key ∧
      "/*<Book Body Emma>*/" ≠ "/*<Book Body >*/" := by
  have hma : (Catalog.body "Book").marker {} (Catalog.book "Emma") =
      .ok "/*<Book Body Emma>*/" := by rfl
  have hmb : (Catalog.body "Book").marker {} (Catalog.book "") = .ok "/*<Book Body >*/" := by rfl
  have hkey : (Catalog.book "Emma").key ≠ (Catalog.book "").key := by decide
  obtain ⟨_, _, hone, hroot⟩ := markers_meet_iff Catalog.build_declared rfl {} (by decide) (by decide)
    hma hmb
  refine ⟨hma, hmb, hkey, fun hmeet => ?_⟩
  rcases (hone (hroot Catalog.bookType (by decide) rfl rfl)).mp hmeet with
    hsame | ⟨hparts, _⟩ | ⟨_, hparts⟩
  · exact hkey hsame
  · exact absurd hparts (by decide)
  · exact absurd hparts (by decide)

/-- A book and a film of one title have different keys and one marker under a tag for all that has a
title. What is inserted for the film goes in at the place of the book. -/
theorem marker_shared_through_interface :
    let tag := Catalog.body "Titled"
    let place := "/*<Titled Body Emma>*/"
    Registry.build Catalog.declared = .ok Catalog.registry ∧ tag.template? = none ∧
      (Catalog.book "Emma").keyed Catalog.registry = true ∧
      (Catalog.film "Emma").keyed Catalog.registry = true ∧
      (Catalog.book "Emma").key ≠ (Catalog.film "Emma").key ∧
      tag.marker {} (Catalog.book "Emma") = .ok place ∧
      tag.marker {} (Catalog.film "Emma") = .ok place ∧
      (Buffer.insert { text := "Book(" ++ place ++ ") Film(" ++ place ++ ")" } "1996" tag
        (Catalog.film "Emma")).map Buffer.finish = .ok "Book(1996) Film()" := by
  intro tag place
  exact ⟨Catalog.build_declared, rfl, by decide, by decide, by decide, by rfl, by rfl,
    by decide +kernel⟩

end Tag

end ConceptScript
