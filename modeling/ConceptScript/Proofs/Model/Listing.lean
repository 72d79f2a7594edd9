import ConceptScript.Proofs.Model.Resolution
import ConceptScript.Registry.Build

namespace ConceptScript

namespace Listing

/-- Each reference of the concept finds one of the others. -/
def answers (cs : List Node) (n : Node) : Bool :=
  (Model.links n).all fun l => cs.any fun c => c.key == l.key

def resolvedAt (cs : List Node) (i : Nat) : Bool := (cs[i]?.map (answers cs)).getD false

/-- Each reference that finds a concept finds one of its target type. -/
def coherent (cs : List Node) : Bool :=
  cs.all fun n => (Model.links n).all fun l =>
    cs.all fun c => c.key != l.key || c.type.satisfies l.target

def holds (cs : List Node) (n : Node) : Bool := cs.any fun c => c.same n && c.key == n.key

def admits (cs : List Node) (n : Node) : Bool :=
  (cs.all fun c => c.key != n.key) && n.missing.isEmpty && coherent (cs ++ [n])

def completes (cs : List Node) (n : Node) : List Nat :=
  (if resolvedAt (cs ++ [n]) cs.length then [cs.length] else []) ++
    (List.range cs.length).filter fun i => resolvedAt (cs ++ [n]) i && !resolvedAt cs i

end Listing

namespace Model

section Listing

variable {r : Registry} {m : Model} (h : m.Reachable r)
include h

theorem Reachable.contains_eq_any (k : String) :
    m.contains k = m.concepts.any fun c => c.key == k := by
  rw [Bool.eq_iff_iff, h.indexed.contains_iff]
  simp

theorem Reachable.resolvedAt_eq (i : Nat) : m.resolvedAt i = Listing.resolvedAt m.concepts i := by
  rw [Bool.eq_iff_iff, resolvedAt_iff h.resolving, Listing.resolvedAt]
  cases m.concepts[i]? with
  | none => simp
  | some n => simp [Listing.answers, h.contains_eq_any]

theorem Reachable.holds_iff_listing {n : Node} :
    m.Holds n ↔ Listing.holds m.concepts n = true := by
  rw [h.indexed.holds_iff, Listing.holds, List.any_eq_true]
  simp only [Bool.and_eq_true, beq_iff_eq]
  constructor
  · rintro ⟨c, hc, he⟩
    exact ⟨c, hc, he.same, he.key_eq⟩
  · rintro ⟨c, hc, hs, hk⟩
    exact ⟨c, hc, hs, hk⟩

theorem Reachable.coherent : Listing.coherent m.concepts = true := by
  simp only [Listing.coherent, List.all_eq_true, Bool.or_eq_true, bne_iff_ne]
  intro n hn l hl c hc
  by_cases hk : c.key = l.key
  · exact .inr (h.resolving.fits n hn l hl c (h.indexed.find?_eq_some_iff.mpr ⟨hc, hk⟩))
  · exact .inl hk

/-- A model can grow by a concept exactly if the list of its concepts can. -/
theorem Reachable.grows_iff {n : Node} (origin : Origin) :
    (∃ resolved m', m.Grows n origin resolved m') ↔ Listing.admits m.concepts n = true := by
  simp only [Listing.admits, Bool.and_eq_true, List.isEmpty_iff]
  constructor
  · rintro ⟨resolved, m', g⟩
    have hm' := h.grow g
    refine ⟨⟨?_, g.complete⟩, ?_⟩
    · simpa using g.not_mem_keys h.indexed
    · rw [← g.concepts]
      exact hm'.coherent
  · rintro ⟨⟨hfree, hcomplete⟩, hcoherent⟩
    simp only [Listing.coherent, List.all_eq_true, Bool.or_eq_true, bne_iff_ne] at hcoherent
    have hsat {a b : Node} (ha : a ∈ m.concepts ++ [n]) (hb : b ∈ m.concepts ++ [n]) {l : Link}
        (hl : l ∈ links a) (hk : b.key = l.key) : b.type.satisfies l.target = true :=
      (hcoherent a ha l hl b hb).resolve_left fun hne => hne hk
    have hlast : n ∈ m.concepts ++ [n] := List.mem_append_right _ List.mem_cons_self
    apply exists_grows h.indexed h.resolving origin _ hcomplete
    · intro l hl found hfound
      rw [answer?] at hfound
      split at hfound
      · next hk =>
        obtain rfl := Option.some.inj hfound
        exact hsat hlast hlast hl hk.symm
      · obtain ⟨hmem, hk⟩ := h.indexed.find?_eq_some_iff.mp hfound
        exact hsat hlast (List.mem_append_left _ hmem) hl hk
    · intro c hc l hl hk
      exact hsat (List.mem_append_left _ hc) hlast hl hk.symm
    · rw [h.contains_eq_any]
      simpa using hfree

theorem Reachable.exists_grown {n : Node} (ha : Listing.admits m.concepts n = true) :
    ∃ m' : Model, m'.Reachable r ∧ m'.concepts = m.concepts ++ [n] := by
  obtain ⟨resolved, m', g⟩ := (h.grows_iff .initial).mpr ha
  exact ⟨m', h.grow g, g.concepts⟩

theorem Reachable.completes_eq {m' : Model} {n : Node} {origin : Origin} {resolved : List Nat}
    (g : m.Grows n origin resolved m') : resolved = Listing.completes m.concepts n := by
  have hm' := h.grow g
  rw [g.resolved_eq h.indexed h.resolving, Listing.completes, length_concepts]
  simp only [h.resolvedAt_eq, hm'.resolvedAt_eq, g.concepts]

end Listing

end Model

-- A small language to run on lists: modules, entities in a module, and groups that list
-- entities.

namespace Small

def declared : List Declaration := [
  ({ name := "Module" } : Declaration).withKey "Name" .identifier,
  ({ name := "Entity" } : Declaration).withParent "Module" (.concept "Module")
    |>.withKey "Name" .identifier,
  ({ name := "Group" } : Declaration).withKey "Name" .identifier
    |>.withMember "Entities" (.list (.concept "Entity"))]

/-- A type without bases and interfaces. -/
def plain (name : String) (members : List Member) (arity depth : Nat) : ConceptType where
  name := name
  keyword? := none
  isInterface := false
  deprecation? := none
  members := members
  root := name
  ancestors := [name]
  arity? := some arity
  nesting := ⟨true, depth⟩

def moduleType : ConceptType := plain "Module" [⟨"Name", .identifier, true, false⟩] 1 0

def entityType : ConceptType :=
  plain "Entity" [⟨"Module", .reference (.concept "Module"), true, true⟩,
    ⟨"Name", .identifier, true, false⟩] 2 1

def groupType : ConceptType :=
  plain "Group" [⟨"Name", .identifier, true, false⟩,
    ⟨"Entities", .list (.concept "Entity"), false, false⟩] 1 0

def registry : Registry := ⟨[moduleType, entityType, groupType]⟩

theorem build_declared : Registry.build declared = .ok registry := by decide +kernel

def module (name : String) : Node := .mk moduleType [some (.text name)]

def entity (module name : String) : Node :=
  .mk entityType [some (.reference (Small.module module)), some (.text name)]

def group (name : String) (entities : List Node) : Node :=
  .mk groupType [some (.text name), some (.list entities)]

example : Listing.completes [entity "Common" "Person"] (module "Common") = [1, 0] := by decide

end Small

end ConceptScript
