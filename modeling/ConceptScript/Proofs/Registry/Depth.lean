import ConceptScript.Proofs.Registry.Derived

namespace ConceptScript.Registry

open Relation (TransGen)

/-- Where the search for the nesting of a type ends. -/
inductive Exit where
  /-- At a type without a parent. -/
  | top
  /-- At a type whose parent is any concept or an interface. -/
  | free
  /-- At a type that the search has been at before. -/
  | returned
  deriving Repr, DecidableEq

/-- How a search ends, and how many hops to the type around it makes. -/
structure Search where
  exit : Exit
  hops : Nat
  deriving Repr, DecidableEq

namespace Search

def nesting (s : Search) : Nesting := ⟨s.exit != .free, s.hops⟩

def hop (s : Search) : Search := { s with hops := s.hops + 1 }

end Search

/-- The search that `nestingIn` makes: it goes on in a pool without the types that it has been
at. -/
def searchIn (pool : List Shape) (s : Shape) : Search :=
  match s.parent? with
  | none => ⟨.top, 0⟩
  | some p =>
    match p.kind.target? with
    | some (.concept name) =>
      match _h : pool.find? fun t => t.name == name with
      | none => ⟨.returned, 1⟩
      | some t =>
        if t.isInterface then ⟨.free, 0⟩
        else (searchIn (without Shape.name pool name) t).hop
    | _ => ⟨.free, 0⟩
termination_by pool.length
decreasing_by exact length_without_lt _h

def searchOf (shapes : List Shape) (s : Shape) : Search :=
  searchIn (without Shape.name shapes s.name) s

section Search

variable {pool : List Shape} {s : Shape} {p : Member} {name : String}

theorem searchIn_top (hp : s.parent? = none) : searchIn pool s = ⟨.top, 0⟩ := by
  rw [searchIn.eq_def, hp]

theorem searchIn_free (hp : s.parent? = some p)
    (ht : ∀ name, p.kind.target? ≠ some (.concept name)) : searchIn pool s = ⟨.free, 0⟩ := by
  rw [searchIn.eq_def, hp]
  dsimp only
  split
  · next name h => exact absurd h (ht name)
  · rfl

theorem searchIn_concept (hp : s.parent? = some p) (ht : p.kind.target? = some (.concept name)) :
    searchIn pool s = (pool.find? fun t => t.name == name).elim ⟨.returned, 1⟩ fun t =>
      if t.isInterface then ⟨.free, 0⟩ else (searchIn (without Shape.name pool name) t).hop := by
  rw [searchIn.eq_def, hp]
  dsimp only
  rw [ht]
  dsimp only
  split
  · next hf =>
    rw [hf]
    rfl
  · next t hf =>
    rw [hf]
    rfl

/-- The nesting is read off the search. -/
theorem nestingIn_eq_searchIn (pool : List Shape) (s : Shape) :
    nestingIn pool s = (searchIn pool s).nesting := by
  induction pool, s using nestingIn.induct with
  | case1 pool s hp =>
    rw [nestingIn_eq, searchIn_top hp, hp]
    rfl
  | case2 pool s p hp name ht hf =>
    rw [nestingIn_eq, searchIn_concept hp ht]
    simp only [hp, ht, hf]
    rfl
  | case3 pool s p hp name ht t hf hi =>
    rw [nestingIn_eq, searchIn_concept hp ht]
    simp only [hp, ht, hf, Option.elim_some, hi, if_true]
    rfl
  | case4 pool s p hp name ht t hf hi ih =>
    rw [nestingIn_eq, searchIn_concept hp ht]
    simp only [hp, ht, hf, Option.elim_some, if_neg hi, ih]
    rfl
  | case5 pool s p hp ht =>
    rw [nestingIn_eq, searchIn_free hp ht]
    simp only [hp]
    rfl

/-- Two types that are each other's parents are found out after two hops. -/
example :
    let within (name around : String) : Shape :=
      { name, keyword? := none, isInterface := false, deprecation? := none,
        members := [⟨around, .reference (.concept around), true, true⟩], root := name,
        ancestors := [name] }
    searchOf [within "A" "B", within "B" "A"] (within "A" "B") = ⟨.returned, 2⟩ := by
  decide +kernel

end Search

/-- A type, and the one that its parent refers to. -/
def NestsIn (r : Registry) (t u : ConceptType) : Prop :=
  t ∈ r.types ∧ u ∈ r.types ∧
    ∃ p, t.parent? = some p ∧ p.kind = .reference (.concept u.name)

/-- What the depth of a type is, from its parent and the depth of the type that this refers to. -/
inductive NestsAt (r : Registry) (t : ConceptType) : Nesting → Prop
  | top : t.parent? = none → NestsAt r t ⟨true, 0⟩
  | anywhere {p : Member} :
    t.parent? = some p → p.kind = .reference .any → NestsAt r t ⟨false, 0⟩
  | interface {u : ConceptType} :
    r.NestsIn t u → u.isInterface = true → NestsAt r t ⟨false, 0⟩
  | inside {u : ConceptType} :
    r.NestsIn t u → u.isInterface = false → NestsAt r t ⟨u.nesting.concrete, u.nesting.depth + 1⟩

/-- A search from a type that makes its hops along the chain and does not come back. -/
structure Search.Ends (r : Registry) (t : ConceptType) (s : Search) : Prop where
  exit_ne : s.exit ≠ .returned
  chain : ∃ ts, (t :: ts).IsChain r.NestsIn ∧ ts ⊆ r.types ∧ ts.length = s.hops

namespace Search.Ends

variable {r : Registry} {t u : ConceptType}

theorem stop {exit : Exit} (hexit : exit ≠ .returned) : Search.Ends r t ⟨exit, 0⟩ :=
  ⟨hexit, [], .singleton t, List.nil_subset _, rfl⟩

theorem hop {s : Search} (h : s.Ends r u) (htu : r.NestsIn t u) : s.hop.Ends r t := by
  obtain ⟨ts, hchain, hsub, hlength⟩ := h.chain
  refine ⟨h.exit_ne, u :: ts, .cons_cons htu hchain, List.cons_subset.mpr ⟨htu.2.1, hsub⟩, ?_⟩
  rw [List.length_cons, hlength]
  rfl

end Search.Ends

section Built

variable {declared : List Declaration} {r : Registry} (h : build declared = .ok r)
include h

theorem exists_target {t : ConceptType} (ht : t ∈ r.types) {m : Member} (hm : m ∈ t.members)
    {name : String} (htarget : m.kind.target? = some (.concept name)) :
    ∃ u ∈ r.types, u.name = name := by
  obtain ⟨d, hd⟩ := exists_declares h ht
  obtain ⟨e, he, hown⟩ := hd.forms.flattened.exists_declaration hd.mem hm
  have hdeclared := (wellFormed_of_build h).target_declared e he m hown name htarget
  rwa [← List.mem_map, ← names_of_build h, List.mem_map] at hdeclared

theorem parent_cases (hdrafted : ∀ d ∈ declared, d.Drafted) {t : ConceptType} (ht : t ∈ r.types)
    {p : Member} (hp : t.parent? = some p) :
    p.kind = .reference .any ∨
      ∃ u, r.NestsIn t u ∧ p.kind = .reference (.concept u.name) := by
  obtain ⟨_, target, hkind⟩ := parentInKey_of_drafted h hdrafted ht p hp
  cases target with
  | any => exact .inl hkind
  | concept name =>
    have hmem : p ∈ t.members := List.mem_of_head? (Option.filter_eq_some_iff.mp hp).1
    obtain ⟨u, hu, rfl⟩ := exists_target h ht hmem (by rw [hkind]; rfl)
    exact .inr ⟨u, ⟨ht, hu, p, hp, hkind⟩, hkind⟩

theorem members_of_interface {t : ConceptType} (ht : t ∈ r.types) (hi : t.isInterface = true) :
    t.members = [] := by
  obtain ⟨d, hd⟩ := exists_declares h ht
  rw [hd.forms.isInterface_eq] at hi
  obtain ⟨hnone, _, hbase⟩ := (wellFormed_of_build h).interface_bare d hd.mem hi
  rw [← hnone]
  exact hd.forms.flattened.unique (wellFormed_of_build h).names_nodup (.root hbase)

theorem keyRefers_of_nestsIn (hdrafted : ∀ d ∈ declared, d.Drafted) {t u : ConceptType}
    (htu : r.NestsIn t u) {d e : Declaration} (hd : Declares declared d t)
    (he : Declares declared e u) : KeyRefers declared d e := by
  obtain ⟨ht, _, p, hp, hkind⟩ := htu
  obtain ⟨hk, _⟩ := parentInKey_of_drafted h hdrafted ht p hp
  have hmem : p ∈ t.members := List.mem_of_head? (Option.filter_eq_some_iff.mp hp).1
  refine ⟨he.mem, ?_, t.members, hd.forms.flattened, p, hmem, hk, ?_⟩
  · rw [← hd.forms.isInterface_eq, ← Bool.not_eq_true]
    intro hi
    rw [members_of_interface h ht hi] at hmem
    cases hmem
  · rw [← he.forms.name_eq]
    exact hkind

theorem nestsIn_acyclic (hdrafted : ∀ d ∈ declared, d.Drafted) (t : ConceptType) :
    ¬TransGen r.NestsIn t t := by
  have hlift {t u : ConceptType} (htu : TransGen r.NestsIn t u) {d e : Declaration}
      (hd : Declares declared d t) (he : Declares declared e u) :
      TransGen (KeyRefers declared) d e := by
    induction htu generalizing e with
    | single hstep => exact .single (keyRefers_of_nestsIn h hdrafted hstep hd he)
    | tail _ hstep ih =>
      obtain ⟨f, hf⟩ := exists_declares h hstep.1
      exact .tail (ih hf) (keyRefers_of_nestsIn h hdrafted hstep hf he)
  intro hcycle
  obtain ⟨u, hstep, _⟩ := Relation.TransGen.head'_iff.mp hcycle
  obtain ⟨d, hd⟩ := exists_declares h hstep.1
  exact (wellFormed_of_build h).keys_acyclic d hd.mem (hlift hcycle hd hd)

theorem nodup_of_isChain (hdrafted : ∀ d ∈ declared, d.Drafted) {ts : List ConceptType}
    (hts : ts.IsChain r.NestsIn) : ts.Nodup := by
  have htrans : IsTrans ConceptType (TransGen r.NestsIn) := ⟨fun _ _ _ => .trans⟩
  have hpairwise : ts.Pairwise (TransGen r.NestsIn) :=
    List.isChain_iff_pairwise.mp (hts.imp fun _ _ hstep => .single hstep)
  refine hpairwise.imp ?_
  rintro t _ hcycle rfl
  exact nestsIn_acyclic h hdrafted t hcycle

theorem find?_toShape {pool : List Shape}
    (hpool : pool.Sublist (r.types.map ConceptType.toShape)) {u : ConceptType}
    (hu : u.toShape ∈ pool) : pool.find? (fun s => s.name == u.name) = some u.toShape :=
  (find?_eq_some_iff ((shapes_nodup h).sublist (hpool.map _))).mpr ⟨hu, rfl⟩

theorem mem_without_of_nestsIn (hdrafted : ∀ d ∈ declared, d.Drafted) {pool : List Shape}
    {t u : ConceptType} (ht : t ∈ r.types) (htu : TransGen r.NestsIn t u)
    (hu : u.toShape ∈ pool) : u.toShape ∈ without Shape.name pool t.name := by
  refine List.mem_filter.mpr ⟨hu, bne_iff_ne.mpr fun hname => ?_⟩
  obtain ⟨_, _, hlast⟩ := Relation.TransGen.tail'_iff.mp htu
  obtain rfl := eq_of_name_eq h hlast.2.1 ht hname
  exact nestsIn_acyclic h hdrafted u htu

/-- A pool that has all the types around a type is searched to the end of the chain. -/
theorem ends_searchIn (hdrafted : ∀ d ∈ declared, d.Drafted) {pool : List Shape}
    (hpool : pool.Sublist (r.types.map ConceptType.toShape)) {t : ConceptType} (ht : t ∈ r.types)
    (haround : ∀ u, TransGen r.NestsIn t u → u.toShape ∈ pool) :
    (searchIn pool t.toShape).Ends r t := by
  induction hn : pool.length using Nat.strongRecOn generalizing pool t with
  | ind n ih =>
    cases hp : t.parent? with
    | none =>
      rw [searchIn_top hp]
      exact .stop (by simp)
    | some p =>
      rcases parent_cases h hdrafted ht hp with hkind | ⟨u, htu, hkind⟩
      · rw [searchIn_free hp (by simp [hkind, MemberKind.target?])]
        exact .stop (by simp)
      · have hf := find?_toShape h hpool (haround u (.single htu))
        rw [searchIn_concept hp (by rw [hkind]; rfl), hf, Option.elim_some]
        split
        · exact .stop (by simp)
        · -- The search goes on from the type around, in a pool that still has all those around it.
          have hsub := (without_sublist Shape.name pool u.name).trans hpool
          have haround' (v : ConceptType) (huv : TransGen r.NestsIn u v) :
              v.toShape ∈ without Shape.name pool u.name :=
            mem_without_of_nestsIn h hdrafted htu.2.1 huv (haround v (.head htu huv))
          exact (ih _ (hn ▸ length_without_lt hf) hsub htu.2.1 haround' rfl).hop htu

theorem ends_searchOf (hdrafted : ∀ d ∈ declared, d.Drafted) {t : ConceptType}
    (ht : t ∈ r.types) :
    (searchOf (r.types.map ConceptType.toShape) t.toShape).Ends r t := by
  refine ends_searchIn h hdrafted (without_sublist _ _ _) ht fun u htu => ?_
  obtain ⟨_, _, hlast⟩ := Relation.TransGen.tail'_iff.mp htu
  exact mem_without_of_nestsIn h hdrafted ht htu (List.mem_map_of_mem hlast.2.1)

theorem Search.Ends.hops_lt (hdrafted : ∀ d ∈ declared, d.Drafted) {t : ConceptType}
    (ht : t ∈ r.types) {s : Search} (hs : s.Ends r t) : s.hops < r.types.length := by
  obtain ⟨ts, hchain, hsub, hlength⟩ := hs.chain
  have hnodup := nodup_of_isChain h hdrafted hchain
  have hle := (hnodup.subperm (List.cons_subset.mpr ⟨ht, hsub⟩)).length_le
  rwa [List.length_cons, hlength] at hle

theorem nestsAt_nesting (hdrafted : ∀ d ∈ declared, d.Drafted) {t : ConceptType}
    (ht : t ∈ r.types) : r.NestsAt t t.nesting := by
  cases hp : t.parent? with
  | none =>
    rw [nesting_of_mem h ht, nestingOf, nestingIn_eq_searchIn, searchIn_top hp]
    exact .top hp
  | some p =>
    have hi : t.isInterface = false := by
      rw [← Bool.not_eq_true]
      intro hi
      simp [Shape.parent?, members_of_interface h ht hi] at hp
    rw [nesting_eq h hdrafted ht hi, nestingIn_eq_searchIn]
    rcases parent_cases h hdrafted ht hp with hkind | ⟨u, htu, hkind⟩
    · rw [searchIn_free hp (by simp [hkind, MemberKind.target?])]
      exact .anywhere hp hkind
    · have hf := find?_toShape h (.refl _) (List.mem_map_of_mem htu.2.1)
      rw [searchIn_concept hp (by rw [hkind]; rfl), hf, Option.elim_some]
      cases hu : u.isInterface with
      | true => exact .interface htu hu
      | false =>
        have hnesting := nesting_of_mem h htu.2.1
        rw [nestingOf, nestingIn_eq_searchIn] at hnesting
        have hinside := NestsAt.inside htu hu
        rw [hnesting] at hinside
        exact hinside

end Built

-- Premises with rooms. What hosts a badge is an interface, and a note is put anywhere.

namespace Premises

def declared : List Declaration := [
  .interface "Host",
  ({ name := "Site" } : Declaration).implementing "Host" |>.withKey "Name" .identifier,
  ({ name := "Room" } : Declaration).withParent "Site" (.concept "Site")
    |>.withKey "Number" .identifier,
  ({ name := "Desk" } : Declaration).withParent "Room" (.concept "Room")
    |>.withKey "Place" .identifier,
  ({ name := "Badge" } : Declaration).withParent "Host" (.concept "Host"),
  ({ name := "Label" } : Declaration).withParent "Badge" (.concept "Badge"),
  ({ name := "Note" } : Declaration).withParent "Target" .any |>.withMember "Text" .text]

theorem drafted : ∀ d ∈ declared, d.Drafted := by
  simp only [declared, List.forall_mem_cons]
  exact ⟨.interface _, .withKey _ _ (.implementing _ (.type _)),
    .withKey _ _ (.withParent _ _ (.type _)), .withKey _ _ (.withParent _ _ (.type _)),
    .withParent _ _ (.type _), .withParent _ _ (.type _),
    .withMember _ _ (.withParent _ _ (.type _)), List.forall_mem_nil _⟩

def registry : Registry := (build declared).toOption.getD ⟨[]⟩

theorem build_declared : build declared = .ok registry := by decide +kernel

end Premises

/-- No type is inside of itself. A chain from a type to the one that its parent refers to, and so
on, is without repetition; the search along it ends after fewer hops than there are types, and not
for having come back; and the nesting of a type is told by its parent and by the nesting of the
type around it. -/
theorem nesting_wellFounded {declared : List Declaration} {r : Registry}
    (h : build declared = .ok r) (hdrafted : ∀ d ∈ declared, d.Drafted) :
    (∀ ts : List ConceptType, ts.IsChain r.NestsIn → ts.Nodup) ∧
      ∀ t ∈ r.types, r.NestsAt t t.nesting ∧
        ∃ search, searchOf (r.types.map ConceptType.toShape) t.toShape = search ∧
          t.nesting = search.nesting ∧ search.exit ≠ .returned ∧
          search.hops < r.types.length := by
  refine ⟨fun ts hts => nodup_of_isChain h hdrafted hts, fun t ht => ?_⟩
  have hends := ends_searchOf h hdrafted ht
  refine ⟨nestsAt_nesting h hdrafted ht, _, rfl, ?_, hends.exit_ne, hends.hops_lt h hdrafted ht⟩
  rw [nesting_of_mem h ht, nestingOf, nestingIn_eq_searchIn]
  rfl

theorem nesting_wellFounded_premises :
    Premises.registry.types.map (fun t => (t.name, t.nesting)) =
      [("Host", ⟨true, 0⟩), ("Site", ⟨true, 0⟩), ("Room", ⟨true, 1⟩), ("Desk", ⟨true, 2⟩),
        ("Badge", ⟨false, 0⟩), ("Label", ⟨false, 1⟩), ("Note", ⟨false, 0⟩)] ∧
      build Premises.declared = .ok Premises.registry ∧
      (∀ ts : List ConceptType, ts.IsChain Premises.registry.NestsIn → ts.Nodup) ∧
      ∀ t ∈ Premises.registry.types, Premises.registry.NestsAt t t.nesting ∧
        ∃ search, searchOf (Premises.registry.types.map ConceptType.toShape) t.toShape = search ∧
          t.nesting = search.nesting ∧ search.exit ≠ .returned ∧
          search.hops < Premises.registry.types.length :=
  ⟨by decide +kernel, Premises.build_declared,
    nesting_wellFounded Premises.build_declared Premises.drafted⟩

end ConceptScript.Registry
