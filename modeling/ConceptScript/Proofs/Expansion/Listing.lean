import ConceptScript.Proofs.Expansion.Run
import ConceptScript.Proofs.Model.Listing

namespace ConceptScript

/-- A rule that reads the concepts of a model and nothing else, and does not fail. -/
structure ListRule where
  onType : String
  readsModel : Bool
  derive : Node → List Node → List Node

def ListRule.derivation (f : ListRule) : Derivation where
  onType := f.onType
  readsModel := f.readsModel
  derive n m := .ok (f.derive n m.concepts)

theorem ListRule.derive_derivation (f : ListRule) (n : Node) (m : Model) :
    f.derivation.derive n m = .ok (f.derive n m.concepts) := rfl

/-- An expansion with a list of concepts in place of a model. -/
structure Listing where
  concepts : List Node
  queue : List Node
  roundSize : Option Nat

namespace Listing

def rulesFor (rules : List ListRule) (onlyReaders : Bool) (t : ConceptType) : List ListRule :=
  (t.ancestors.flatMap fun name => rules.filter fun f => f.onType == name).filter fun f =>
    !onlyReaders || f.readsModel

def deriveAt (rules : List ListRule) (onlyReaders : Bool) (cs : List Node) (i : Nat) : List Node :=
  match cs[i]? with
  | none => []
  | some n => (rulesFor rules onlyReaders n.type).flatMap fun f => f.derive n cs

def deriveAll (rules : List ListRule) (onlyReaders : Bool) (cs : List Node) (is : List Nat) :
    List Node :=
  is.flatMap (deriveAt rules onlyReaders cs)

def refill (rules : List ListRule) (l : Listing) : Listing :=
  if !l.queue.isEmpty || l.roundSize == some l.concepts.length then l
  else {
    concepts := l.concepts
    queue := deriveAll rules true l.concepts
      ((List.range l.concepts.length).filter (resolvedAt l.concepts))
    roundSize := some l.concepts.length }

def step (rules : List ListRule) (l : Listing) (n : Node) : Option Listing :=
  if holds l.concepts n then some l
  else if admits l.concepts n then some {
    concepts := l.concepts ++ [n]
    queue := l.queue ++
      deriveAll rules false (l.concepts ++ [n]) (completes l.concepts n)
    roundSize := l.roundSize }
  else none

def run (rules : List ListRule) : Nat → Listing → Option (List Node)
  | budget, l =>
    match (l.refill rules).queue with
    | [] => some (l.refill rules).concepts
    | n :: queue =>
      match budget with
      | 0 => none
      | budget + 1 => (step rules { l.refill rules with queue } n).bind (run rules budget)

end Listing

namespace Expansion

variable {r : Registry} {fs : List ListRule} {x : Expansion} {l : Listing}

theorem derive_listRules (m : Model) (e : Entry) (gs : List ListRule) :
    ∃ seeds, derive m e (gs.map ListRule.derivation) = .ok seeds ∧
      seeds.map Seed.node = gs.flatMap fun f => f.derive e.node m.concepts := by
  induction gs with
  | nil => exact ⟨[], rfl, rfl⟩
  | cons f gs ih =>
    obtain ⟨rest, hrest, hnodes⟩ := ih
    refine ⟨_, derive_cons_eq_ok_iff.mpr ⟨_, rest, rfl, hrest, rfl⟩, ?_⟩
    simp [hnodes, Function.comp_def]

theorem rulesFor_map (onlyReaders : Bool) (t : ConceptType) :
    (Derivations.forType (fs.map ListRule.derivation) t).filter
        (fun d => !onlyReaders || d.readsModel) =
      (Listing.rulesFor fs onlyReaders t).map ListRule.derivation := by
  simp only [Derivations.forType, Listing.rulesFor, List.filter_map, List.map_flatMap,
    List.filter_flatMap]
  rfl

theorem deriveAll_listRules (fs : List ListRule) (onlyReaders : Bool) (m : Model) (is : List Nat) :
    ∃ seeds, deriveAll (fs.map ListRule.derivation) onlyReaders m is = .ok seeds ∧
      seeds.map Seed.node = Listing.deriveAll fs onlyReaders m.concepts is := by
  induction is with
  | nil => exact ⟨[], rfl, rfl⟩
  | cons i is ih =>
    have hfirst : ∃ seeds, deriveAt (fs.map ListRule.derivation) onlyReaders m i = .ok seeds ∧
        seeds.map Seed.node = Listing.deriveAt fs onlyReaders m.concepts i := by
      rw [deriveAt, Listing.deriveAt, m.concepts_getElem?]
      cases m.entries[i]? with
      | none => exact ⟨[], rfl, rfl⟩
      | some e =>
        simp only [rulesFor_map, Option.map_some]
        exact derive_listRules m e _
    obtain ⟨first, hf, hfn⟩ := hfirst
    obtain ⟨rest, hr, hrn⟩ := ih
    refine ⟨first ++ rest, deriveAll_cons_eq_ok_iff.mpr ⟨first, rest, hf, hr, rfl⟩, ?_⟩
    rw [List.map_append, hfn, hrn]
    rfl

/-- The list of an expansion. -/
structure Follows (r : Registry) (x : Expansion) (l : Listing) : Prop where
  reachable : x.model.Reachable r
  concepts : x.model.concepts = l.concepts
  queue : x.queue.toList.map Seed.node = l.queue
  roundSize : x.roundSize = l.roundSize

theorem Follows.size_eq (h : Follows r x l) : x.model.size = l.concepts.length := by
  rw [← h.concepts, Model.length_concepts]

theorem Follows.refill (fs : List ListRule) (h : Follows r x l) :
    ∃ y, refill (fs.map ListRule.derivation) x = .ok y ∧ Follows r y (l.refill fs) := by
  have hcond : (!l.queue.isEmpty || l.roundSize == some l.concepts.length) = true ↔
      x.queue.toList ≠ [] ∨ x.roundSize = some x.model.size := by
    rw [h.roundSize, h.size_eq, ← h.queue]
    simp
  by_cases hc : x.queue.toList ≠ [] ∨ x.roundSize = some x.model.size
  · rw [Listing.refill, if_pos (hcond.mpr hc)]
    exact ⟨x, refill_eq_self hc, h⟩
  · rw [Listing.refill, if_neg fun hl => hc (hcond.mp hl)]
    obtain ⟨hempty, hsize⟩ := not_or.mp hc
    obtain ⟨seeds, hseeds, hnodes⟩ := deriveAll_listRules fs true x.model
      (resolvedIndexes x.model)
    refine ⟨_, refill_of_deriveAll (not_not.mp hempty) hsize hseeds, h.reachable, h.concepts,
      ?_, ?_⟩
    · have hindexes : resolvedIndexes x.model =
          (List.range l.concepts.length).filter (Listing.resolvedAt l.concepts) := by
        rw [← h.size_eq, ← h.concepts]
        exact List.filter_congr fun i _ => h.reachable.resolvedAt_eq i
      rw [Queue.toList_pushAll, not_not.mp hempty, List.nil_append, hnodes, h.concepts, hindexes]
    · rw [← h.size_eq]

theorem Follows.step (fs : List ListRule) (h : Follows r x l) (seed : Seed) :
    match l.step fs seed.node with
    | some l' => ∃ y, step (fs.map ListRule.derivation) x seed = .ok y ∧ Follows r y l'
    | none => ∃ d, step (fs.map ListRule.derivation) x seed = .error d := by
  have hholds := h.reachable.holds_iff_listing (n := seed.node)
  have hgrows := h.reachable.grows_iff (n := seed.node) seed.origin
  rw [h.concepts] at hholds hgrows
  rw [Listing.step]
  by_cases hheld : x.model.Holds seed.node
  · rw [if_pos (hholds.mp hheld)]
    exact ⟨x, step_of_holds hheld, h⟩
  · rw [if_neg fun hc => hheld (hholds.mpr hc)]
    by_cases hadmits : Listing.admits l.concepts seed.node = true
    · rw [if_pos hadmits]
      obtain ⟨resolved, model, g⟩ := hgrows.mpr hadmits
      have hmodel := h.reachable.grow g
      have hconcepts : model.concepts = l.concepts ++ [seed.node] := by
        rw [g.concepts, h.concepts]
      obtain ⟨seeds, hseeds, hnodes⟩ := deriveAll_listRules fs false model resolved
      obtain ⟨y, hy, hym, hyq, hys⟩ := step_of_grows g hseeds
      refine ⟨y, hy, hym ▸ hmodel, hym ▸ hconcepts, ?_, hys.trans h.roundSize⟩
      rw [hyq, List.map_append, h.queue, hnodes, hconcepts, h.reachable.completes_eq g, h.concepts]
    · rw [if_neg hadmits]
      -- A step that succeeds drops the seed or adds it.
      cases hstep : Expansion.step (fs.map ListRule.derivation) x seed with
      | error d => exact ⟨d, rfl⟩
      | ok y =>
        obtain ⟨_, hh⟩ | ⟨resolved, _, g, _⟩ := step_eq_ok hstep
        · exact absurd hh hheld
        · exact absurd (hgrows.mp ⟨resolved, _, g⟩) hadmits

/-- A run on a list and a run on a model come to the same concepts, or both fail. -/
theorem run_follows (fs : List ListRule) (limit budget : Nat) (h : Follows r x l) :
    match l.run fs budget with
    | some cs => ∃ m, run (fs.map ListRule.derivation) limit budget x = .ok m ∧ m.Reachable r ∧
        m.concepts = cs
    | none => ∃ d, run (fs.map ListRule.derivation) limit budget x = .error d := by
  induction budget using Nat.strongRecOn generalizing x l with
  | ind budget ih =>
    obtain ⟨y, hy, hfollows⟩ := h.refill fs
    have hqueue := hfollows.queue
    rw [run_of_refill hy, Listing.run]
    cases hl : (l.refill fs).queue with
    | nil =>
      rw [hl, List.map_eq_nil_iff] at hqueue
      rw [Queue.pop?_eq_none hqueue]
      exact ⟨y.model, rfl, hfollows.reachable, hfollows.concepts⟩
    | cons n queue =>
      rw [hl] at hqueue
      obtain ⟨seed, seeds, hseeds, rfl, rfl⟩ := List.map_eq_cons_iff.mp hqueue
      obtain ⟨rest, hpop, hrest⟩ := Queue.exists_pop? hseeds
      rw [hpop]
      cases budget with
      | zero => exact ⟨_, rfl⟩
      | succ budget =>
        have hnext : Follows r { y with queue := rest }
            { l.refill fs with queue := seeds.map Seed.node } :=
          ⟨hfollows.reachable, hfollows.concepts, by rw [hrest], hfollows.roundSize⟩
        have hstep := hnext.step fs seed
        cases hs : Listing.step fs { l.refill fs with queue := seeds.map Seed.node } seed.node with
        | none =>
          rw [hs] at hstep
          obtain ⟨d, hd⟩ := hstep
          simp only [hs, hd, Option.bind_none]
          exact ⟨d, rfl⟩
        | some l' =>
          rw [hs] at hstep
          obtain ⟨z, hz, hz'⟩ := hstep
          simp only [hs, hz, ok_bind, Option.bind_some]
          exact ih budget (Nat.lt_succ_self budget) hz'

end Expansion

theorem expand_listing_iff {r : Registry} {fs : List ListRule} {options : Options}
    {seeds : List Seed} {cs : List Node} :
    (∃ m, expand r (fs.map ListRule.derivation) options seeds = .ok m ∧ m.concepts = cs) ↔
      (∀ f ∈ fs, (r.find? f.onType).isSome = true) ∧
      Listing.run fs options.maxExpansionSteps ⟨[], seeds.map Seed.node, none⟩ = some cs ∧
      cs.all (Listing.answers cs) = true := by
  have hcheck : Derivations.check (fs.map ListRule.derivation) r = .ok () ↔
      ∀ f ∈ fs, (r.find? f.onType).isSome = true := by
    simp [Derivations.check_eq_ok_iff, ListRule.derivation]
  have hstart : Expansion.Follows r { model := { registry := r }, queue := .ofList seeds }
      ⟨[], seeds.map Seed.node, none⟩ := ⟨.empty, rfl, by simp, rfl⟩
  have hrun := Expansion.run_follows fs options.maxExpansionSteps options.maxExpansionSteps hstart
  have hresolved {m : Model} (hm : m.Reachable r) :
      m.checkResolved = .ok () ↔ m.concepts.all (Listing.answers m.concepts) = true := by
    simp [Model.checkResolved_eq_ok_iff hm.resolving, Listing.answers, hm.contains_eq_any]
  simp only [expand_eq_ok_iff, hcheck]
  constructor
  · rintro ⟨m, ⟨hc, hm, hres⟩, rfl⟩
    refine ⟨hc, ?_⟩
    cases hl : Listing.run fs options.maxExpansionSteps ⟨[], seeds.map Seed.node, none⟩ with
    | none =>
      rw [hl] at hrun
      obtain ⟨d, hd⟩ := hrun
      rw [hm] at hd
      simp at hd
    | some cs =>
      rw [hl] at hrun
      obtain ⟨m', hm', hr, rfl⟩ := hrun
      obtain rfl : m = m' := Except.ok.inj (hm.symm.trans hm')
      exact ⟨rfl, (hresolved hr).mp hres⟩
  · rintro ⟨hc, hcs, hres⟩
    rw [hcs] at hrun
    obtain ⟨m, hm, hr, rfl⟩ := hrun
    exact ⟨m, ⟨hc, hm, (hresolved hr).mpr hres⟩, rfl⟩

namespace Small

/-- An entity brings the module that audits it. -/
def audited : ListRule := ⟨"Entity", false, fun _ _ => [module "Audit"]⟩

def housed : ListRule := ⟨"Entity", false, fun _ _ => [module "Common"]⟩

/-- Where there is an entity, a module brings the log. -/
def logged : ListRule where
  onType := "Module"
  readsModel := true
  derive _ cs := if cs.any fun c => c.typeName == "Entity" then [entity "Audit" "Log"] else []

def rules : List ListRule := [audited, housed, logged]

def seeds : List Seed := [⟨entity "Common" "Person", .initial⟩, ⟨module "Common", .initial⟩]

theorem exists_expanded :
    ∃ m, expand registry (rules.map ListRule.derivation) {} seeds = .ok m ∧
      m.concepts = [entity "Common" "Person", module "Common", entity "Audit" "Log",
        module "Audit"] :=
  expand_listing_iff.mpr ⟨by decide, by rfl, by decide⟩

end Small

end ConceptScript
