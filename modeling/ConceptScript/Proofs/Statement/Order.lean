import ConceptScript.Proofs.Model.Listing
import ConceptScript.Proofs.Registry.Order
import ConceptScript.Proofs.Statement.Naming

namespace ConceptScript

open PropertyList (Cache)
open Registry (Shuffled)

theorem keySlots_shuffled {pool pool' : List ConceptType}
    (h : Shuffled (fun t => t.name) pool pool') (owner : String) (ms : List Member)
    (parts : List String) : keySlots pool owner ms parts = keySlots pool' owner ms parts := by
  -- The pool gets smaller inside of a reference, and the members get fewer beside it.
  induction hn : pool.length using Nat.strongRecOn generalizing pool pool' owner ms parts with
  | ind _ inner =>
    induction ms generalizing parts with
    | nil => rw [keySlots, keySlots]
    | cons m ms ih =>
      cases hk : m.isKey with
      | false => rw [keySlots_other _ _ _ _ hk, keySlots_other _ _ _ _ hk, ih]
      | true =>
        have hname (hm : m.kind.target? = none) :
            keySlots pool owner (m :: ms) parts = keySlots pool' owner (m :: ms) parts := by
          rw [keySlots_name _ _ _ _ hk hm, keySlots_name _ _ _ _ hk hm]
          cases parts with
          | nil => rfl
          | cons part parts =>
            dsimp only
            rw [ih]
        cases hm : m.kind with
        | identifier => exact hname (by simp [hm, MemberKind.target?])
        | text => exact hname (by simp [hm, MemberKind.target?])
        | list target => rw [keySlots.eq_def, keySlots.eq_def]; simp [hk, hm]
        | reference target =>
          cases target with
          | any => rw [keySlots.eq_def, keySlots.eq_def]; simp [hk, hm]
          | concept name =>
            rw [keySlots_reference _ _ _ _ hk hm, keySlots_reference _ _ _ _ hk hm, ← h.find?_eq]
            cases hf : pool.find? fun t => t.name == name with
            | none => rfl
            | some u =>
              dsimp only
              cases u.arity? with
              | none => rfl
              | some n =>
                dsimp only
                rw [inner _ (hn ▸ Registry.length_without_lt hf) (h.without name) _ _ _ rfl, ih]

namespace Registry

variable {r r' : Registry} (h : Shuffled (fun t => t.name) r.types r'.types)
include h

theorem find?_shuffled (name : String) : r.find? name = r'.find? name := h.find?_eq name

theorem placeholder_shuffled (t : ConceptType) (parts : List String) :
    r.placeholder t parts = r'.placeholder t parts := by
  rw [placeholder, placeholder, keySlots_shuffled (h.without t.name)]

theorem listElement_shuffled (target : ConceptType) (name : String) (listing : Node) :
    r.listElement target name listing = r'.listElement target name listing := by
  unfold listElement
  simp only [placeholder_shuffled h]

end Registry

namespace Reader

variable {r : Reader} {registry : Registry} {m : Member} {c : Cursor}

theorem bracketed_registry (tokens : List Lexeme) :
    { r with registry }.bracketed tokens = r.bracketed tokens := by
  induction tokens with
  | nil => rfl
  | cons l tokens ih =>
    obtain ⟨token, span⟩ := l
    cases token with
    | word w => rw [bracketed, bracketed, ih]
    | _ => rfl

theorem listNames_registry : { r with registry }.listNames m c = r.listNames m c := by
  unfold listNames
  split
  · rfl
  · rw [bracketed_registry]
    rfl
  · rfl

variable (h : Shuffled (fun t => t.name) r.registry.types registry.types)
include h

theorem referenced_shuffled (target : Target) :
    { r with registry }.referenced m target = r.referenced m target := by
  unfold referenced
  cases target with
  | any => rfl
  | concept name =>
    dsimp only
    rw [← Registry.find?_shuffled h]

theorem reference_shuffled (target : Target) :
    { r with registry }.reference m target c = r.reference m target c := by
  unfold reference
  rw [referenced_shuffled h]
  simp only [← Registry.placeholder_shuffled h]
  rfl

theorem elements_shuffled (target : ConceptType) (listing : Node) (span : Span)
    (names : List String) :
    { r with registry }.elements target listing span names = r.elements target listing span names := by
  induction names with
  | nil => rfl
  | cons name names ih =>
    rw [elements, elements, ← Registry.listElement_shuffled h, ih]
    rfl

theorem list_shuffled (target : Target) (node : Node) :
    { r with registry }.list m target node c = r.list m target node c := by
  unfold list
  rw [listNames_registry]
  cases target with
  | any => rfl
  | concept name =>
    dsimp only
    simp only [← Registry.find?_shuffled h, elements_shuffled h]

theorem written_shuffled (node : Node) :
    { r with registry }.written m node c = r.written m node c := by
  unfold written
  cases m.kind with
  | identifier => rfl
  | text => rfl
  | reference target => exact reference_shuffled h target
  | list target => exact list_shuffled h target node

theorem fromPath_shuffled : { r with registry }.fromPath m c = r.fromPath m c := by
  unfold fromPath
  cases m.kind with
  | reference target =>
    dsimp only
    rw [referenced_shuffled h]
    simp only [← Registry.placeholder_shuffled h]
  | _ => rfl

theorem bind_shuffled (node : Node) (members : List (Member × Nat)) :
    { r with registry }.bind node c members = r.bind node c members := by
  induction members generalizing node c with
  | nil => rfl
  | cons member rest ih =>
    simp only [bind, written_shuffled h, fromPath_shuffled h, ih]

theorem read_shuffled (context : Option Node) (tokens : List Lexeme) :
    { r with registry }.read context tokens = r.read context tokens := by
  cases tokens with
  | nil => rfl
  | cons l rest =>
    obtain ⟨token, span⟩ := l
    cases token with
    | word w =>
      rw [read_cons, read_cons]
      simp only [bind_shuffled h]
      rfl
    | _ => rfl

end Reader

section Agrees

variable {α β γ δ : Type} {R : α → β → Prop} {S : γ → δ → Prop}

/-- Two results that correspond, or two failures of the same kind. -/
inductive Agrees (R : α → β → Prop) : Except Diagnostic α → Except Diagnostic β → Prop
  | ok {a : α} {b : β} : R a b → Agrees R (.ok a) (.ok b)
  | error {d e : Diagnostic} : d.code = e.code → Agrees R (.error d) (.error e)

/-- From right answers, the two computations come to results that agree and remember right
answers. -/
def InStep (R : α → β → Prop) (x : Parsing α) (y : Parsing β) : Prop :=
  ∀ cache cache' : Cache, cache.Sound → cache'.Sound →
    Agrees R (x.run.run cache).1 (y.run.run cache').1 ∧ (x.run.run cache).2.Sound ∧
      (y.run.run cache').2.Sound

namespace InStep

theorem ofSteady {x : Parsing α} {y : Parsing β} (hx : Steady x) (hy : Steady y)
    (h : Agrees R (outcome x) (outcome y)) : InStep R x y := by
  intro cache cache' hc hc'
  rw [hx.same cache hc, hy.same cache' hc']
  exact ⟨h, hx.sound cache hc, hy.sound cache' hc'⟩

theorem pure {a : α} {b : β} (h : R a b) :
    InStep R (pure a : Parsing α) (Pure.pure b : Parsing β) :=
  ofSteady (steady_pure a) (steady_pure b) (.ok h)

theorem throw {d e : Diagnostic} (h : d.code = e.code) :
    InStep R (throw d : Parsing α) (MonadExcept.throw e : Parsing β) :=
  ofSteady (steady_throw d) (steady_throw e) (.error h)

theorem ofExcept {x : Except Diagnostic α} {y : Except Diagnostic β} (h : Agrees R x y) :
    InStep R (liftM x : Parsing α) (liftM y : Parsing β) :=
  ofSteady (steady_ofExcept x) (steady_ofExcept y) h

theorem bind {x : Parsing α} {y : Parsing β} {f : α → Parsing γ} {g : β → Parsing δ}
    (h : InStep R x y) (hf : ∀ a b, R a b → InStep S (f a) (g b)) :
    InStep S (x >>= f) (y >>= g) := by
  intro cache cache' hc hc'
  have hstep := h cache cache' hc hc'
  rw [run_bind, run_bind]
  generalize x.run.run cache = p at hstep ⊢
  generalize y.run.run cache' = q at hstep ⊢
  obtain ⟨a, first⟩ := p
  obtain ⟨b, first'⟩ := q
  obtain ⟨hagrees, hfirst, hfirst'⟩ := hstep
  dsimp only at hagrees
  cases hagrees with
  | ok hR => exact hf _ _ hR first first' hfirst hfirst'
  | error he => exact ⟨.error he, hfirst, hfirst'⟩

end InStep

end Agrees

theorem longest_perm {xs ys : List Reading} (h : xs.Perm ys) :
    (xs.map Reading.consumed).max? = (ys.map Reading.consumed).max? ∧
      (longest xs).Perm (longest ys) := by
  have hmax : (xs.map Reading.consumed).max? = (ys.map Reading.consumed).max? := by
    ext most
    rw [List.max?_eq_some_iff, List.max?_eq_some_iff]
    simp only [(h.map Reading.consumed).mem_iff]
  refine ⟨hmax, ?_⟩
  unfold longest
  rw [hmax]
  exact h.filter _

theorem filter_nestsLeast_perm {xs ys : List Reading} (h : xs.Perm ys) :
    (xs.filter (Reading.nestsLeast xs)).Perm (ys.filter (Reading.nestsLeast ys)) := by
  have hleast : Reading.nestsLeast xs = Reading.nestsLeast ys := by
    funext r
    exact h.all_eq
  rw [hleast]
  exact h.filter _

theorem choose_perm {xs ys : List Reading} (h : xs.Perm ys) (keyword : String)
    (location : Location) :
    Agrees (fun a b => a.1 = b.1 ∧ a.2.isSome = b.2.isSome) (choose xs keyword location)
      (choose ys keyword location) := by
  have hlongest := (longest_perm h).2
  unfold choose
  generalize longest xs = rivals at hlongest
  generalize longest ys = rivals' at hlongest
  have hwinners := filter_nestsLeast_perm hlongest
  match rivals, rivals', hlongest, hwinners with
  | [], rivals', hlongest, _ =>
    rw [← hlongest.nil_eq]
    exact .error rfl
  | [only], rivals', hlongest, _ =>
    rw [← hlongest.singleton_eq]
    exact .ok ⟨rfl, rfl⟩
  | _ :: _ :: _, [], hlongest, _ => simpa using hlongest.length_eq
  | _ :: _ :: _, [_], hlongest, _ => simpa using hlongest.length_eq
  | a :: b :: rest, a' :: b' :: rest', _, hwinners =>
    dsimp only
    split
    · next winner hw =>
      rw [hw] at hwinners
      rw [← hwinners.singleton_eq]
      exact .ok ⟨rfl, rfl⟩
    · next hnone =>
      split
      · next winner hw =>
        rw [hw] at hwinners
        exact absurd hwinners.eq_singleton (hnone winner)
      · exact .error rfl

namespace Statements

variable {s : Statements} {registry : Registry} {context : Option Node} {tokens : List Lexeme}

def attempt (s : Statements) (context : Option Node) (tokens : List Lexeme) (t : ConceptType) :
    Except Failure Reading :=
  outcome (Reader.read ⟨s.registry, s.script, t⟩ context tokens)

theorem outcome_readings_cons (t : ConceptType) (ts : List ConceptType) :
    outcome (s.readings context tokens (t :: ts)) =
      outcome (gather (s.readings context tokens ts) (s.attempt context tokens t)) := by
  have hgather (result : Except Failure Reading) :
      Steady (gather (s.readings context tokens ts) result) :=
    (assembled_gather (by simp) result).steady
  rw [readings_cons, outcome_bind (Steady.lift (by simp)) hgather, outcome_lift]
  rfl

/-- With no malformed list, the readings are those of the types that have one. -/
theorem outcome_readings {ts : List ConceptType}
    (h : ∀ t ∈ ts, ∀ d, s.attempt context tokens t ≠ .error (.fatal d)) :
    ∃ reasons, outcome (s.readings context tokens ts) =
      .ok (ts.filterMap fun t => (s.attempt context tokens t).toOption, reasons) := by
  induction ts with
  | nil => exact ⟨[], rfl⟩
  | cons t ts ih =>
    obtain ⟨reasons, hts⟩ := ih fun t' ht' => h t' (List.mem_cons_of_mem t ht')
    rw [outcome_readings_cons]
    match ht : s.attempt context tokens t with
    | .ok reading =>
      refine ⟨reasons, ?_⟩
      rw [gather, outcome_bind (by simp) (by simp), hts, List.filterMap_cons, ht]
      rfl
    | .error .silent =>
      refine ⟨reasons, ?_⟩
      rw [gather, hts, List.filterMap_cons, ht]
      rfl
    | .error (.mismatch reason) =>
      refine ⟨reason :: reasons, ?_⟩
      rw [gather, outcome_bind (by simp) (by simp), hts, List.filterMap_cons, ht]
      rfl
    | .error (.fatal d) => exact absurd ht (h t List.mem_cons_self d)

theorem outcome_gather_of_error {rest : Parsing (List Reading × List Mismatch)}
    (hsteady : Steady rest) {e : Diagnostic} (h : outcome rest = .error e)
    {result : Except Failure Reading} (hresult : ∀ d, result ≠ .error (.fatal d)) :
    outcome (gather rest result) = .error e := by
  match result with
  | .ok reading =>
    rw [gather, outcome_bind hsteady (by simp), h]
    rfl
  | .error .silent => exact h
  | .error (.mismatch reason) =>
    rw [gather, outcome_bind hsteady (by simp), h]
    rfl
  | .error (.fatal d) => exact absurd rfl (hresult d)

/-- One malformed list is enough to fail, whatever the other types make of the statement. -/
theorem outcome_readings_of_fatal {ts : List ConceptType} {t : ConceptType} (ht : t ∈ ts)
    {d : Diagnostic} (hd : s.attempt context tokens t = .error (.fatal d)) :
    ∃ e, outcome (s.readings context tokens ts) = .error e ∧ e.code = .invalidPropertyList := by
  induction ts with
  | nil => simp at ht
  | cons first ts ih =>
    rw [outcome_readings_cons]
    by_cases hfirst : ∃ e, s.attempt context tokens first = .error (.fatal e)
    · obtain ⟨e, he⟩ := hfirst
      rw [he]
      exact ⟨e, rfl, (Reader.composed_read _ _ _).code_of_fatal he⟩
    · rcases List.mem_cons.mp ht with rfl | ht
      · exact absurd ⟨d, hd⟩ hfirst
      · obtain ⟨e, he, hcode⟩ := ih ht
        exact ⟨e, outcome_gather_of_error (by simp) he (not_exists.mp hfirst), hcode⟩

theorem readings_perm {ts ts' : List ConceptType} (h : ts.Perm ts') :
    InStep (fun a b => a.1.Perm b.1) (s.readings context tokens ts)
      (s.readings context tokens ts') := by
  apply InStep.ofSteady (by simp) (by simp)
  by_cases hfatal : ∃ t ∈ ts, ∃ d, s.attempt context tokens t = .error (.fatal d)
  · -- Which of the lists is met first depends on the order, and the kind of failure does not.
    obtain ⟨t, ht, d, hd⟩ := hfatal
    obtain ⟨e, he, hcode⟩ := outcome_readings_of_fatal ht hd
    obtain ⟨e', he', hcode'⟩ := outcome_readings_of_fatal (h.subset ht) hd
    rw [he, he']
    exact .error (hcode.trans hcode'.symm)
  · have hnone (t : ConceptType) (ht : t ∈ ts) (d : Diagnostic) :
        s.attempt context tokens t ≠ .error (.fatal d) := fun hd => hfatal ⟨t, ht, d, hd⟩
    obtain ⟨_, hts⟩ := outcome_readings hnone
    obtain ⟨_, hts'⟩ := outcome_readings fun t ht => hnone t (h.symm.subset ht)
    rw [hts, hts']
    exact .ok (h.filterMap _)

variable (h : Shuffled (fun t => t.name) s.registry.types registry.types)
include h

theorem readings_shuffled (ts : List ConceptType) :
    { s with registry }.readings context tokens ts = s.readings context tokens ts := by
  induction ts with
  | nil => rfl
  | cons t ts ih =>
    rw [readings_cons, readings_cons, ih, Reader.read_shuffled (r := ⟨s.registry, s.script, t⟩) h]

theorem statement_shuffled (keyword : String) (head : Lexeme) :
    InStep (fun a b => a.1 = b.1 ∧ a.2.1 = b.2.1 ∧ a.2.2.length = b.2.2.length)
      (s.statement context keyword head tokens)
      ({ s with registry }.statement context keyword head tokens) := by
  have hc : (s.registry.withKeyword keyword).Perm (registry.withKeyword keyword) := h.perm.filter _
  unfold statement
  simp only [throw_bind, ← hc.isEmpty_eq]
  split
  · exact .throw rfl
  · rw [readings_shuffled h]
    apply (readings_perm hc).bind
    rintro ⟨readings, reasons⟩ ⟨readings', reasons'⟩ hreadings
    dsimp only at hreadings ⊢
    rw [← hreadings.isEmpty_eq, ← (longest_perm hreadings).1]
    split
    · exact .throw rfl
    · apply (InStep.ofExcept (choose_perm hreadings keyword _)).bind
      rintro ⟨chosen, warning⟩ ⟨chosen', warning'⟩ ⟨hchosen, hwarning⟩
      obtain rfl : chosen = chosen' := hchosen
      have hlength : warning.toList.length = warning'.toList.length := by
        cases warning <;> cases warning' <;> simp at hwarning ⊢
      exact .pure ⟨rfl, rfl, by simp [hlength]⟩

end Statements

/-- The same concepts from the same places, and as many warnings. -/
structure Parsed.Alike (p q : Parsed) : Prop where
  concepts : p.concepts = q.concepts
  warnings : p.warnings.length = q.warnings.length

theorem Parsed.Alike.append {p p' q q' : Parsed} (hp : p.Alike p') (hq : q.Alike q') :
    (p ++ q).Alike (p' ++ q') := by
  constructor
  · exact congrArg₂ (· ++ ·) hp.concepts hq.concepts
  · change (p.warnings ++ q.warnings).length = (p'.warnings ++ q'.warnings).length
    rw [List.length_append, List.length_append, hp.warnings, hq.warnings]

theorem Statements.sequence_shuffled {s : Statements} {registry : Registry}
    (h : Shuffled (fun t => t.name) s.registry.types registry.types)
    (enclosing : List ParsedConcept) (tokens : List Lexeme) :
    InStep Parsed.Alike (s.sequence enclosing tokens)
      ({ s with registry }.sequence enclosing tokens) := by
  have hfinish (enclosing : List ParsedConcept) :
      InStep Parsed.Alike (s.finish enclosing) ({ s with registry }.finish enclosing) := by
    cases enclosing with
    | nil => exact .pure ⟨rfl, rfl⟩
    | cons innermost outer => exact .throw rfl
  induction hn : tokens.length using Nat.strongRecOn generalizing enclosing tokens with
  | ind n ih =>
    rw [sequence.eq_def s, sequence.eq_def { s with registry }]
    cases tokens with
    | nil => exact hfinish enclosing
    | cons head rest =>
      subst hn
      dsimp only
      cases head.token with
      | endOfScript => exact hfinish enclosing
      | closeBrace =>
        cases enclosing with
        | nil => exact .throw rfl
        | cons innermost outer => exact ih rest.length (by simp) outer rest rfl
      | word keyword =>
        apply (statement_shuffled h keyword head).bind
        rintro ⟨reading, parsed, warnings⟩ ⟨reading', parsed', warnings'⟩ ⟨hr, hp, hw⟩
        obtain rfl : reading = reading' := hr
        obtain rfl : parsed = parsed' := hp
        dsimp only
        have hone : (Parsed.mk [parsed] warnings).Alike ⟨[parsed], warnings'⟩ := ⟨rfl, hw⟩
        split
        · next inside hd =>
          apply (ih _ (length_lt_of_drop hd) (parsed :: enclosing) inside rfl).bind
          intro more more' hmore
          exact .pure (hone.append hmore)
        · next after hd =>
          apply (ih _ (length_lt_of_drop hd) enclosing after rfl).bind
          intro more more' hmore
          exact .pure (hone.append hmore)
        · exact .throw rfl
      | _ => exact .throw rfl

section Registries

variable {registry registry' : Registry}
  (h : Shuffled (fun t => t.name) registry.types registry'.types)
include h

theorem Script.parse_shuffled (script : Script) (options : Options) :
    InStep Parsed.Alike (script.parse registry options) (script.parse registry' options) := by
  have hlex : Agrees Eq script.lex script.lex := by
    cases script.lex with
    | ok tokens => exact .ok rfl
    | error d => exact .error rfl
  apply (InStep.ofExcept hlex).bind
  rintro tokens _ rfl
  exact Statements.sequence_shuffled (s := ⟨registry, options, script⟩) h [] tokens

theorem parseScripts_shuffled (options : Options) (scripts : List Script) :
    InStep Parsed.Alike (parseScripts registry options scripts)
      (parseScripts registry' options scripts) := by
  induction scripts with
  | nil => exact .pure ⟨rfl, rfl⟩
  | cons script scripts ih =>
    apply (script.parse_shuffled h options).bind
    intro first first' hfirst
    apply ih.bind
    intro more more' hmore
    exact .pure (hfirst.append hmore)

end Registries

-- Entities and notes share a keyword, and an entity nests less: it has a type to stand in.

namespace Rivals

def declared : List Declaration := [
  ({ name := "Module" } : Declaration).withKeyword "Module" |>.withKey "Name" .identifier,
  ({ name := "Entity" } : Declaration).withKeyword "Item"
    |>.withParent "Module" (.concept "Module") |>.withKey "Name" .identifier,
  ({ name := "Note" } : Declaration).withKeyword "Item"
    |>.withParent "Owner" .any |>.withKey "Name" .identifier]

def noteType : ConceptType where
  name := "Note"
  keyword? := some "Item"
  isInterface := false
  deprecation? := none
  members := [⟨"Owner", .reference .any, true, true⟩, ⟨"Name", .identifier, true, false⟩]
  root := "Note"
  ancestors := ["Note"]
  arity? := none
  nesting := ⟨false, 0⟩

def registry : Registry := ⟨[{ Small.moduleType with keyword? := some "Module" },
  { Small.entityType with keyword? := some "Item" }, noteType]⟩

theorem build_declared : Registry.build declared = .ok registry := by decide +kernel

def script : Script := .ofText "rivals" "Module A \x7b Item B; \x7d"

theorem parse_script :
    (outcome (parseScripts registry {} [script])).toOption.map
      (fun p => (p.concepts.length, p.warnings.length)) = some (2, 1) := by
  decide +kernel

end Rivals

/-- The order of the declarations makes no difference. They make a registry in one order if they do
in the other; the types of the two registries are the same, under the same names; and scripts say
the same in both, or are refused in both with the same code. -/
theorem order_of_declarations {ds ds' : List Declaration} (h : ds.Perm ds') :
    ((∃ r, Registry.build ds = .ok r) ↔ ∃ r', Registry.build ds' = .ok r') ∧
      ∀ r r', Registry.build ds = .ok r → Registry.build ds' = .ok r' →
        r.types.Perm r'.types ∧ (∀ name, r.find? name = r'.find? name) ∧
          ∀ (options : Options) (scripts : List Script) (cache cache' : Cache),
            cache.Sound → cache'.Sound →
              Agrees Parsed.Alike ((parseScripts r options scripts).run.run cache).1
                ((parseScripts r' options scripts).run.run cache').1 := by
  refine ⟨⟨?_, ?_⟩, ?_⟩
  · rintro ⟨r, hr⟩
    obtain ⟨r', hr', _⟩ := Registry.build_shuffled h hr
    exact ⟨r', hr'⟩
  · rintro ⟨r', hr'⟩
    obtain ⟨r, hr, _⟩ := Registry.build_shuffled h.symm hr'
    exact ⟨r, hr⟩
  · intro r r' hr hr'
    obtain ⟨built, hbuilt, hshuffled⟩ := Registry.build_shuffled h hr
    obtain rfl : built = r' := Except.ok.inj (hbuilt.symm.trans hr')
    refine ⟨hshuffled.perm, Registry.find?_shuffled hshuffled, ?_⟩
    intro options scripts cache cache' hc hc'
    exact (parseScripts_shuffled hshuffled options scripts cache cache' hc hc').1

theorem order_of_declarations_rivals :
    Rivals.declared.Perm Rivals.declared.reverse ∧
      Registry.build Rivals.declared = .ok Rivals.registry ∧
      ∃ r p, Registry.build Rivals.declared.reverse = .ok r ∧
        outcome (parseScripts r {} [Rivals.script]) = .ok p ∧ p.concepts.length = 2 ∧
        p.warnings.length = 1 := by
  have hperm : Rivals.declared.Perm Rivals.declared.reverse := (List.reverse_perm _).symm
  refine ⟨hperm, Rivals.build_declared, ?_⟩
  obtain ⟨hbuilds, hsame⟩ := order_of_declarations hperm
  obtain ⟨r, hr⟩ := hbuilds.mp ⟨_, Rivals.build_declared⟩
  obtain ⟨_, _, hparses⟩ := hsame _ r Rivals.build_declared hr
  have hagrees : Agrees Parsed.Alike (outcome (parseScripts Rivals.registry {} [Rivals.script]))
      (outcome (parseScripts r {} [Rivals.script])) :=
    hparses {} [Rivals.script] {} {} Cache.sound_empty Cache.sound_empty
  have hparse := Rivals.parse_script
  generalize outcome (parseScripts Rivals.registry {} [Rivals.script]) = x at hagrees hparse
  generalize hy : outcome (parseScripts r {} [Rivals.script]) = y at hagrees
  cases hagrees with
  | error _ => simp [Except.toOption] at hparse
  | @ok p q halike =>
    simp only [Except.toOption, Option.map_some, Option.some.injEq, Prod.mk.injEq] at hparse
    exact ⟨r, q, hr, hy, halike.concepts ▸ hparse.1, halike.warnings ▸ hparse.2⟩

end ConceptScript
