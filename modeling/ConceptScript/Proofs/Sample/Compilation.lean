import ConceptScript.Proofs.Expansion.Agreement
import ConceptScript.Proofs.Expansion.Confluence
import ConceptScript.Proofs.Model.Dependencies
import ConceptScript.Proofs.Model.Views
import ConceptScript.Proofs.Sample.Derivations
import ConceptScript.Proofs.Statement.Forming

namespace ConceptScript

namespace Expansion

variable {r : Registry} {rules : Derivations}

/-- The first seed is on its way into the model, or is the first concept there. -/
def Leads (n : Node) (x : Expansion) : Prop :=
  (x.model.concepts = [] ∧ ∃ origin queue, x.queue.toList = ⟨n, origin⟩ :: queue) ∨
    x.model.concepts.head? = some n

theorem Leads.refill {n : Node} {x y : Expansion} (h : Leads n x)
    (hrefill : refill rules x = .ok y) : Leads n y := by
  rcases refill_eq_ok hrefill with ⟨rfl, _⟩ | ⟨hq, _, _, hm, _, _⟩
  · exact h
  · rcases h with ⟨_, origin, queue, hne⟩ | h
    · simp [hq] at hne
    · exact .inr (hm ▸ h)

theorem Leads.step {n : Node} {x y : Expansion} {seed : Seed} {queue : Queue Seed}
    (h : Leads n x) (hq : x.queue.toList = seed :: queue.toList)
    (hstep : step rules { x with queue } seed = .ok y) : Leads n y := by
  rcases step_eq_ok hstep with ⟨rfl, hheld⟩ | ⟨_, _, g, _, _, _⟩
  · rcases h with ⟨hempty, _⟩ | h
    · -- Nothing is held by a model without concepts.
      obtain ⟨prior, hprior, _⟩ := hheld
      obtain ⟨i, _, hi⟩ := Option.bind_eq_some_iff.mp hprior
      simpa [hempty] using Model.concept_of_entry hi
    · exact .inr h
  · refine .inr ?_
    rw [g.concepts]
    rcases h with ⟨hempty, origin, rest, hfirst⟩ | h
    · obtain ⟨rfl, _⟩ := List.cons.inj (hq.symm.trans hfirst)
      simp [hempty]
    · simp [h]

theorem head_concepts_of_run {limit budget : Nat} {n : Node} {origin : Origin} {seeds : List Seed}
    {m : Model} (h : run rules limit budget
      { model := { registry := r }, queue := .ofList (⟨n, origin⟩ :: seeds) } = .ok m) :
    m.concepts.head? = some n := by
  have hstart : Leads n
      { model := { registry := r }, queue := .ofList (⟨n, origin⟩ :: seeds) } :=
    .inl ⟨rfl, origin, seeds, by simp⟩
  obtain ⟨y, hy, hq, _, rfl⟩ := run_invariant (P := Leads n) Leads.refill Leads.step hstart h
  rcases hy with ⟨_, _, _, hne⟩ | hy
  · simp [hq] at hne
  · exact hy

end Expansion

theorem Compiler.finish_eq_ok {c : Compiler} {parsed : Parsed} {result : Compilation}
    (h : c.finish parsed = .ok result) :
    ∃ order, expand c.registry c.rules c.options (c.seeds parsed.concepts) = .ok result.model ∧
      result.model.dependencyOrder = .ok order := by
  have hexpanded (h : (do
      let model ← expand c.registry c.rules c.options (c.seeds parsed.concepts)
      let _ ← model.dependencyOrder
      return (⟨model, parsed.warnings⟩ : Compilation)) = .ok result) :
      ∃ order, expand c.registry c.rules c.options (c.seeds parsed.concepts) = .ok result.model ∧
        result.model.dependencyOrder = .ok order := by
    obtain ⟨model, hmodel, h⟩ := bind_eq_ok.mp h
    obtain ⟨order, horder, h⟩ := bind_eq_ok.mp h
    obtain rfl := pure_eq_ok.mp h
    exact ⟨order, hmodel, horder⟩
  unfold finish at h
  split at h
  · split at h
    · cases h
    · exact hexpanded h
  · exact hexpanded h

/-- The concepts that scripts come to by rules on lists. -/
def Compiler.rehearse (c : Compiler) (f : Derivation → ListRule) (scripts : List Script) :
    Option (List Node) := do
  let parsed ← (outcome (parseScripts c.registry c.options scripts)).toOption
  Listing.run (c.rules.map f) c.options.maxExpansionSteps
    ⟨[], (c.seeds parsed.concepts).map Seed.node, none⟩

theorem Compiler.compileFresh_of_rehearse {c : Compiler} {f : Derivation → ListRule}
    {scripts : List Script} {cs : List Node} (hf : Derivation.Replaces fun d => (f d).derivation)
    (hstrict : c.options.strictWarnings = false)
    (hcheck : ∀ d ∈ c.rules, (c.registry.find? d.onType).isSome = true)
    (hcs : c.rehearse f scripts = some cs) (hanswers : cs.all (Listing.answers cs) = true)
    (hbackward : cs.Pairwise fun n later => ∀ p ∈ n.references, later.key ≠ p.2.key)
    (hagree : ∀ n ∈ cs, ∀ d ∈ c.rules.forType n.type, d.Agree c.registry (f d).derivation n) :
    ∃ result, c.compileFresh scripts = .ok result ∧ result.model.concepts = cs ∧
      result.model.dependencyOrder = .ok result.model.entries.toList := by
  obtain ⟨parsed, hparsed, hrun⟩ := Option.bind_eq_some_iff.mp hcs
  obtain ⟨m, hexpand, rfl⟩ := exists_expand_of_agree hf hcheck hrun hanswers hagree
  have hindexed := (Expansion.saturated_of_run (expand_eq_ok_iff.mp hexpand).2.1).reachable.indexed
  have horder := Model.dependencyOrder_of_backward hindexed hbackward
  have hfinish : c.finish parsed = .ok ⟨m, parsed.warnings⟩ := by
    simp only [finish, hstrict, hexpand, horder, ok_bind]
    rfl
  obtain ⟨cache, hruns⟩ := outcome_eq_ok.mp (toOption_eq_some.mp hparsed)
  exact ⟨_, outcome_eq_ok.mpr ⟨cache, runs_bind.mpr ⟨parsed, cache, hruns,
    runs_ofExcept.mpr ⟨hfinish, rfl⟩⟩⟩, rfl, horder⟩

theorem Model.mem_of_mem_select {m : Model} {index : Index} {name : String} {n : Node}
    (h : n ∈ m.select index name) : n ∈ m.concepts := by
  obtain ⟨i, _, hi⟩ := List.mem_filterMap.mp h
  rw [← m.concepts_getElem?] at hi
  exact List.mem_of_getElem? hi

namespace Sample

variable {r : Registry}

theorem unbroken_name (hr : registry = .ok r) {n : Node} (hn : n.Formed r) :
    Text.Unbroken (nameOf n) := by
  unfold nameOf
  cases hs : n.text? "Name" with
  | none => simp [Text.Unbroken]
  | some s =>
    obtain ⟨m, hm, hname⟩ := Node.mem_members_of_get? (Node.get?_of_text? hs)
    have hkind := ((lawful hr hn.type_mem).members m (List.of_mem_zip hm).1).name hname
    exact (hn.suits_of_mem hm).unbroken hkind.1 s rfl

section Rules

variable {n : Node} {m : Model} {nodes : List Node}

theorem formed_identifier (hn : n.Formed r) (h : identifier r n m = .ok nodes) :
    ∀ c ∈ nodes, c.Formed r := by
  obtain ⟨id, hid, h⟩ := bind_eq_ok.mp h
  obtain ⟨owned, howned, h⟩ := bind_eq_ok.mp h
  obtain ⟨named, hnamed, h⟩ := bind_eq_ok.mp h
  obtain rfl := pure_eq_ok.mp h
  obtain ⟨t, ht, _, rfl⟩ := exists_type_of_nodeOf hid
  have hformed := ((Node.Formed.ofType ht).put howned hn.shaped.referenceTo (by rintro _ ⟨⟩)).put
    hnamed (by simp [Value.nodes]) (by rintro _ ⟨⟩; simp [Text.Unbroken])
  simpa using hformed

theorem formed_fullReference (hr : registry = .ok r) (hn : n.Formed r)
    (h : fullReference r n m = .ok nodes) : ∀ c ∈ nodes, c.Formed r := by
  obtain ⟨owner, module, howner, _, target, housed, htarget, hhoused, named, hnamed, full, owned,
    hfull, howned, called, hcalled, referring, hreferring, rfl⟩ := exists_puts_of_fullReference h
  obtain ⟨t, ht, _, rfl⟩ := exists_type_of_nodeOf htarget
  obtain ⟨u, hu, _, rfl⟩ := exists_type_of_nodeOf hfull
  obtain ⟨parent, _, hparent⟩ := Node.mem_members_of_parent? howner
  have hname : ∀ s, Value.text (nameOf n) = .text s → Text.Unbroken s := by
    rintro _ ⟨⟩
    exact unbroken_name hr hn
  have howned := (Node.Formed.ofType hu).put howned (hn.suits_of_mem hparent).shaped
    (by rintro _ ⟨⟩)
  have hcalled := howned.put hcalled (by simp [Value.nodes]) hname
  have htarget := ((Node.Shaped.ofType ht).put hhoused).put hnamed
  simpa using hcalled.put hreferring htarget.referenceTo (by rintro _ ⟨⟩)

theorem formed_loggedProperties (hall : ∀ c ∈ m.concepts, c.Formed r) (hn : n.Formed r)
    (h : loggedProperties r n m = .ok nodes) : ∀ c ∈ nodes, c.Formed r := by
  intro c hc
  obtain ⟨owner, property, _, hproperty, _, hlog⟩ := exists_of_mem_loggedProperties h hc
  obtain ⟨log, hnode, hlog⟩ := bind_eq_ok.mp hlog
  obtain ⟨owned, howned, hlogged⟩ := bind_eq_ok.mp hlog
  obtain ⟨t, ht, _, rfl⟩ := exists_type_of_nodeOf hnode
  exact ((Node.Formed.ofType ht).put howned hn.shaped.referenceTo (by rintro _ ⟨⟩)).put hlogged
    (hall property (Model.mem_of_mem_select hproperty)).shaped.referenceTo (by rintro _ ⟨⟩)

theorem formed_rules (hr : registry = .ok r) (hall : ∀ c ∈ m.concepts, c.Formed r)
    (hn : n.Formed r) {d : Derivation} (hd : d ∈ rules r) (h : d.derive n m = .ok nodes) :
    ∀ c ∈ nodes, c.Formed r := by
  simp only [rules, List.mem_cons, List.not_mem_nil, or_false] at hd
  rcases hd with rfl | rfl | rfl
  · exact formed_identifier (m := m) hn h
  · exact formed_fullReference (m := m) hr hn h
  · exact formed_loggedProperties hall hn h

end Rules

/-- What models of the language have in common. -/
structure Compiled (r : Registry) (m : Model) : Prop where
  registry : registry = .ok r
  reachable : m.Reachable r
  formed : ∀ n ∈ m.concepts, n.Formed r
  answered : ∀ n ∈ m.concepts, ∀ l ∈ Model.links n, m.contains l.key = true
  start : ∃ t ∈ r.types, t.name = initialization ∧ m.concepts.head? = some (.ofType t)
  ordered : ∃ order, m.dependencyOrder = .ok order
  /-- Seeds are the initial concept and concepts that can be written. -/
  saturated : ∃ seeds, Expansion.Saturated r (rules r) seeds m ∧ ∀ s ∈ seeds,
    s.node.typeName = initialization ∨ ∃ w, s.node.type.keyword? = some w

theorem Compiled.lawful {m : Model} (h : Compiled r m) {n : Node} (hn : n ∈ m.concepts) :
    Lawful n.type :=
  Sample.lawful h.registry (h.formed n hn).type_mem

theorem Compiled.exists_target {m : Model} (h : Compiled r m) {n : Node} (hn : n ∈ m.concepts)
    {p : Member × Node} (hp : p ∈ n.references) :
    ∃ found ∈ m.concepts, found.key = p.2.key ∧
      found.type.satisfies (p.1.kind.target?.getD .any) = true := by
  have hlink : ⟨p.1.name, p.1.kind.target?.getD .any, p.2.key⟩ ∈ Model.links n :=
    List.mem_map_of_mem hp
  obtain ⟨found, hfound, hkey⟩ := h.reachable.indexed.contains_iff.mp (h.answered n hn _ hlink)
  exact ⟨found, hfound, hkey, h.reachable.resolving.fits n hn _ hlink found
    (h.reachable.indexed.find?_eq_some_iff.mpr ⟨hfound, hkey⟩)⟩

theorem compiled_of_finish (hr : Sample.registry = .ok r) {options : Options} {c : Compiler}
    (hc : compiler r options = .ok c) {parsed : Parsed}
    (hparsed : ∀ p ∈ parsed.concepts, p.node.Written r) {result : Compilation}
    (h : c.finish parsed = .ok result) : Compiled r result.model := by
  obtain ⟨start, hstart, hc⟩ := bind_eq_ok.mp hc
  obtain rfl := pure_eq_ok.mp hc
  obtain ⟨t, ht, hname, rfl⟩ := exists_type_of_nodeOf hstart
  obtain ⟨order, hexpand, horder⟩ := Compiler.finish_eq_ok h
  obtain ⟨_, hrun, hresolved⟩ := expand_eq_ok_iff.mp hexpand
  have hsaturated := Expansion.saturated_of_run hrun
  refine ⟨hr, hsaturated.reachable, ?_, ?_, ?_, ⟨order, horder⟩, _, hsaturated, ?_⟩
  · refine hsaturated.concepts_induct (P := fun n => n.Formed r) ?_ ?_
    · intro s hs
      rcases List.mem_cons.mp hs with rfl | hs
      · exact .ofType ht
      · obtain ⟨p, hp, rfl⟩ := List.mem_map.mp hs
        exact (hparsed p hp).formed
    · intro p n d nodes _ hall hn _ hd _ hderive
      exact formed_rules hr hall (hall n hn) hd hderive
  · exact (Model.checkResolved_eq_ok_iff hsaturated.reachable.resolving).mp hresolved
  · exact ⟨t, ht, hname, Expansion.head_concepts_of_run hrun⟩
  · intro s hs
    rcases List.mem_cons.mp hs with rfl | hs
    · exact .inl hname
    · obtain ⟨p, hp, rfl⟩ := List.mem_map.mp hs
      exact .inr (hparsed p hp).keyword

theorem compiled_of_compileFresh (hr : Sample.registry = .ok r) {options : Options} {c : Compiler}
    (hc : compiler r options = .ok c) {scripts : List Script} {result : Compilation}
    (h : c.compileFresh scripts = .ok result) : Compiled r result.model := by
  have hregistry : c.registry = r := by
    obtain ⟨start, _, hc⟩ := bind_eq_ok.mp hc
    rw [← pure_eq_ok.mp hc]
  obtain ⟨cache, hruns⟩ := outcome_eq_ok.mp h
  obtain ⟨parsed, between, hparse, hfinish⟩ := runs_bind.mp hruns
  have hparsed := written_parseScripts PropertyList.Cache.sound_empty hparse
  rw [hregistry] at hparsed
  exact compiled_of_finish hr hc hparsed (runs_ofExcept.mp hfinish).1

def logged (r : Registry) (l : Node) (cs : List Node) : List Node :=
  match l.parent? with
  | none => []
  | some owner =>
    (cs.filter fun n => n.type.isA property && n.parent?.any fun p => p.key == owner.key).filterMap
      fun p => (loggedProperty r l p).toOption

/-- The rules as they are on lists. -/
def listed (r : Registry) (d : Derivation) : ListRule :=
  if d.readsModel then ⟨d.onType, true, logged r⟩ else d.blind r

theorem replaces_listed : Derivation.Replaces fun d => (listed r d).derivation := by
  intro d
  change (listed r d).onType = d.onType ∧ (listed r d).readsModel = d.readsModel
  unfold listed
  split
  · next hreads => exact ⟨rfl, hreads.symm⟩
  · exact ⟨rfl, rfl⟩

theorem agree_logged (hr : registry = .ok r) {n : Node} (hn : n.type.isA logging = true) {p : Model}
    (hp : p.Reachable r) : loggedProperties r n p = .ok (logged r n p.concepts) := by
  unfold loggedProperties logged
  cases n.parent? with
  | none => rfl
  | some owner =>
    dsimp only
    rw [hp.indexed.children_eq, List.filter_filter, mapM_eq_ok]
    refine forall₂_filterMap fun property hproperty => ?_
    have hisA := (Bool.and_eq_true_iff.mp (List.mem_filter.mp hproperty).2).1
    obtain ⟨log, hlog⟩ := exists_loggedProperty hr hn hisA
    exact ⟨log, hlog, toOption_eq_some.mpr hlog⟩

theorem agree_listed (hr : registry = .ok r) {d : Derivation} (hd : d ∈ rules r) {n : Node}
    (hn : n.type.isA d.onType = true)
    (h : (d.readsModel || (d.derive n { registry := r }).toOption.isSome) = true) :
    d.Agree r (listed r d).derivation n := by
  simp only [rules, List.mem_cons, List.not_mem_nil, or_false] at hd
  have hblind {d : Derivation} (hreads : d.readsModel = false)
      (hsame : ∀ p, d.derive n p = d.derive n { registry := r })
      (h : (d.readsModel || (d.derive n { registry := r }).toOption.isSome) = true) :
      d.Agree r (listed r d).derivation n := by
    rw [hreads, Bool.false_or] at h
    obtain ⟨nodes, hnodes⟩ := Option.isSome_iff_exists.mp h
    have hlist (p : Model) : (listed r d).derive n p.concepts = nodes := by
      simp [listed, hreads, Derivation.blind, hnodes]
    intro p _
    rw [hsame p, ListRule.derive_derivation, hlist p]
    exact toOption_eq_some.mp hnodes
  rcases hd with rfl | rfl | rfl
  · exact hblind rfl (fun _ => rfl) h
  · exact hblind rfl (fun _ => rfl) h
  · exact fun p hp => agree_logged hr hn hp

/-- Concepts that are answered by others before them, and that the rules do not fail on. -/
def settled (r : Registry) (cs : List Node) : Bool :=
  cs.all (Listing.answers cs) &&
  decide (cs.Pairwise fun n later => ∀ p ∈ n.references, later.key ≠ p.2.key) &&
  ((rules r).all fun d => (r.find? d.onType).isSome) &&
  cs.all fun n => ((rules r).forType n.type).all fun d =>
    d.readsModel || (d.derive n { registry := r }).toOption.isSome

/-- Scripts whose compilation can be followed on lists, to concepts with a property. -/
def compilesTo (p : List Node → Bool) (scripts : List Script) : Bool :=
  registry.toOption.any fun r => (compiler r {}).toOption.any fun c =>
    (c.rehearse (listed r) scripts).any fun cs => settled r cs && p cs

theorem exists_compileFresh {scripts : List Script} {p : List Node → Bool}
    (h : compilesTo p scripts = true) :
    ∃ r c result, Sample.registry = .ok r ∧ compiler r {} = .ok c ∧
      c.compileFresh scripts = .ok result ∧ p result.model.concepts = true ∧
      result.model.dependencyOrder = .ok result.model.entries.toList := by
  obtain ⟨r, hr, h⟩ := (Option.any_eq_true _ _).mp h
  obtain ⟨c, hc, h⟩ := (Option.any_eq_true _ _).mp h
  obtain ⟨cs, hcs, hsettled⟩ := (Option.any_eq_true _ _).mp h
  have hr := toOption_eq_some.mp hr
  have hc := toOption_eq_some.mp hc
  obtain ⟨_, _, hcompiler⟩ := bind_eq_ok.mp hc
  obtain rfl := pure_eq_ok.mp hcompiler
  simp only [settled, Bool.and_eq_true, decide_eq_true_eq] at hsettled
  obtain ⟨⟨⟨⟨hanswers, hbackward⟩, hcheck⟩, hsucceed⟩, hp⟩ := hsettled
  have hagree : ∀ n ∈ cs, ∀ d ∈ (rules r).forType n.type,
      d.Agree r (listed r d).derivation n := by
    intro n hn d hd
    obtain ⟨hmem, hisA⟩ := Derivations.mem_forType.mp hd
    exact agree_listed hr hmem hisA (List.all_eq_true.mp (List.all_eq_true.mp hsucceed n hn) d hd)
  obtain ⟨result, hresult, hconcepts, horder⟩ := Compiler.compileFresh_of_rehearse replaces_listed
    rfl (List.all_eq_true.mp hcheck) hcs hanswers hbackward hagree
  exact ⟨r, _, result, hr, hc, hresult, by rwa [hconcepts], horder⟩

/-- A described entity with a property that has to be there. -/
def shop : Script :=
  .ofText "shop" ("Module Shop \x7b Entity Item \x7b Integer Count \x7b Required; \x7d " ++
    "Description \"stock\"; \x7d \x7d")

end Sample

end ConceptScript
