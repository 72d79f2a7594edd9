import Mathlib.Data.List.Induction
import ConceptScript.Proofs.Statement.Binding
import ConceptScript.Proofs.Token.Lexemes

namespace ConceptScript

open PropertyList (Cache)

theorem mem_of_choose {readings : List Reading} {keyword : String} {location : Location}
    {chosen : Reading} {warning : Option Warning}
    (h : choose readings keyword location = .ok (chosen, warning)) : chosen ∈ readings := by
  have hlongest : ∀ r ∈ longest readings, r ∈ readings := fun r hr => List.mem_of_mem_filter hr
  unfold choose at h
  split at h
  · simp at h
  · next only hl =>
    obtain ⟨rfl, _⟩ := Prod.mk.inj (Except.ok.inj h)
    exact hlongest only (by simp [hl])
  · next hl =>
    dsimp only at h
    split at h
    · next winner hw =>
      obtain ⟨rfl, _⟩ := Prod.mk.inj (Except.ok.inj h)
      apply hlongest winner
      apply List.mem_of_mem_filter
      rw [hw]
      exact List.mem_singleton_self winner
    · simp at h

namespace Statements

/-- The tokens are a statement of the concept, inside of another one or at top level: a type of the
registry reads it from just these tokens, whatever comes after them. -/
structure Says (s : Statements) (context : Option Node) (segment : List Lexeme)
    (c : ParsedConcept) : Prop where
  type_mem : c.node.type ∈ s.registry.types
  keyword : ∃ w span more, segment = ⟨.word w, span⟩ :: more ∧ c.node.type.keyword? = some w
  inside : ∀ l ∈ segment, l.token.inStatement = true
  read : ∃ notes, ∀ rest, outcome (Reader.read ⟨s.registry, s.script, c.node.type⟩ context
    (segment ++ rest)) = .ok ⟨c.node, segment.length, notes⟩
  location : ∀ first last, segment.head? = some first → segment.getLast? = some last →
    c.location = s.script.locate ⟨first.span.start, last.span.stop⟩

variable {s : Statements} {context : Option Node} {tokens : List Lexeme} {cache cache' : Cache}

theorem runs_of_readings {types : List ConceptType} {readings : List Reading}
    {reasons : List Mismatch}
    (h : Runs (s.readings context tokens types) cache (readings, reasons) cache') {r : Reading}
    (hr : r ∈ readings) :
    ∃ t ∈ types, ∃ first last, (cache.Sound → first.Sound) ∧
      Runs (Reader.read ⟨s.registry, s.script, t⟩ context tokens) first r last := by
  induction types generalizing cache cache' readings reasons with
  | nil =>
    simp only [Statements.readings, runs_pure, Prod.mk.injEq] at h
    rw [← h.1.1] at hr
    simp at hr
  | cons t types ih =>
    unfold Statements.readings at h
    simp only [runs_bind] at h
    obtain ⟨result, between, hresult, h⟩ := h
    have hmore {readings' : List Reading} {reasons' : List Mismatch} {last : Cache}
        (h' : Runs (s.readings context tokens types) between (readings', reasons') last)
        (hr' : r ∈ readings') : ∃ t' ∈ t :: types, ∃ first last, (cache.Sound → first.Sound) ∧
          Runs (Reader.read ⟨s.registry, s.script, t'⟩ context tokens) first r last := by
      obtain ⟨t', ht', first, last, hsound, hread⟩ := ih h' hr'
      refine ⟨t', List.mem_cons_of_mem t ht', first, last, fun hcache => hsound ?_, hread⟩
      exact ((Steady.lift (Reader.steady_read _ _ _)).outcome_eq hcache hresult).2
    match result with
    | .ok reading =>
      simp only [runs_bind, Prod.exists, runs_pure, Prod.mk.injEq] at h
      obtain ⟨readings', reasons', _, h', ⟨rfl, rfl⟩, rfl⟩ := h
      rcases List.mem_cons.mp hr with rfl | hr
      · obtain ⟨hok, hbetween⟩ := Prod.mk.inj hresult
        exact ⟨t, List.mem_cons_self, cache, between, id, Prod.ext (Except.ok.inj hok) hbetween⟩
      · exact hmore h' hr
    | .error .silent => exact hmore h hr
    | .error (.mismatch reason) =>
      simp only [runs_bind, Prod.exists, runs_pure, Prod.mk.injEq] at h
      obtain ⟨readings', reasons', _, h', ⟨rfl, rfl⟩, rfl⟩ := h
      exact hmore h' hr
    | .error (.fatal d) => simp at h

theorem exists_of_readings {types : List ConceptType} {readings : List Reading}
    {reasons : List Mismatch} (hcache : cache.Sound)
    (h : Runs (s.readings context tokens types) cache (readings, reasons) cache') {r : Reading}
    (hr : r ∈ readings) :
    ∃ t ∈ types, outcome (Reader.read ⟨s.registry, s.script, t⟩ context tokens) = .ok r := by
  obtain ⟨t, ht, first, _, hsound, hread⟩ := runs_of_readings h hr
  exact ⟨t, ht, ((Reader.steady_read _ _ _).outcome_eq (hsound hcache) hread).1⟩

theorem runs_statement {keyword : String} {head : Lexeme} {reading : Reading}
    {c : ParsedConcept} {warnings : List Warning} (hcache : cache.Sound)
    (h : Runs (s.statement context keyword head tokens) cache (reading, c, warnings) cache') :
    (∃ t ∈ s.registry.types,
      outcome (Reader.read ⟨s.registry, s.script, t⟩ context tokens) = .ok reading) ∧
      c = ⟨reading.node, s.locate head tokens reading.consumed⟩ := by
  unfold statement at h
  simp only [throw_bind] at h
  split at h
  · simp at h
  · simp only [runs_bind, Prod.exists] at h
    obtain ⟨readings, reasons, between, hreadings, h⟩ := h
    split at h
    · simp at h
    · simp only [runs_bind, Prod.exists, runs_ofExcept, runs_pure, Prod.mk.injEq] at h
      obtain ⟨chosen, warning, _, ⟨hchoose, rfl⟩, ⟨rfl, rfl, rfl⟩, rfl⟩ := h
      obtain ⟨t, ht, hread⟩ := exists_of_readings hcache hreadings (mem_of_choose hchoose)
      exact ⟨⟨t, List.mem_of_mem_filter ht, hread⟩, rfl⟩

theorem exists_says {keyword : String} {head : Lexeme} {rest : List Lexeme} {reading : Reading}
    {c : ParsedConcept} {warnings : List Warning} (hcache : cache.Sound)
    (h : Runs (s.statement context keyword head (head :: rest)) cache (reading, c, warnings)
      cache') :
    ∃ segment after, head :: rest = segment ++ after ∧ segment.length = reading.consumed ∧
      s.Says context segment c := by
  obtain ⟨⟨t, ht, hread⟩, rfl⟩ := runs_statement hcache h
  obtain ⟨last, hruns⟩ := outcome_eq_ok.mp hread
  obtain ⟨segment, after, htokens, hlen, hkeyword, hinside, hothers⟩ := Reader.read_extent hruns
  obtain ⟨htype, _, _⟩ := Reader.read_complete hruns
  refine ⟨segment, after, htokens, hlen, ?_⟩
  constructor
  · rw [htype]
    exact ht
  · rw [htype]
    exact hkeyword
  · exact hinside
  · refine ⟨reading.notes, fun others => ?_⟩
    rw [htype, hlen]
    exact outcome_eq_ok.mpr ⟨last, hothers others⟩
  · -- The tokens go on after the segment, and the location does not.
    intro first last hfirst hlast
    cases segment with
    | nil => simp at hfirst
    | cons l segment =>
      obtain rfl : l = first := Option.some.inj hfirst
      obtain rfl : head = l := (List.cons.inj htokens).1
      have hend : (head :: rest).getD (reading.consumed - 1) head = last := by
        rw [htokens, ← hlen, List.getD_eq_getElem?_getD, List.getElem?_append_left (by simp),
          ← List.getLast?_eq_getElem?, hlast, Option.getD_some]
      rw [locate, hend]

def contextOf (enclosing : List ParsedConcept) : Option Node :=
  enclosing.head?.map ParsedConcept.node

/-- What is open after the token that ends a statement. -/
def Leaves (last : Lexeme) (c : ParsedConcept) (enclosing next : List ParsedConcept) : Prop :=
  last.token = .semicolon ∧ next = enclosing ∨ last.token = .openBrace ∧ next = c :: enclosing

/-- The tokens of a script from some point on, with the concepts that are open there and those that
the rest of the script says. -/
inductive Accepts (s : Statements) :
    List ParsedConcept → List Lexeme → List ParsedConcept → Prop
  | finish : Accepts s [] [] []
  | close {c : ParsedConcept} {outer cs : List ParsedConcept} {brace : Lexeme}
    {rest : List Lexeme} :
    brace.token = .closeBrace → Accepts s outer rest cs →
    Accepts s (c :: outer) (brace :: rest) cs
  | statement {enclosing next cs : List ParsedConcept} {segment rest : List Lexeme}
    {last : Lexeme} {c : ParsedConcept} :
    s.Says (contextOf enclosing) segment c → Leaves last c enclosing next →
    Accepts s next rest cs → Accepts s enclosing (segment ++ last :: rest) (c :: cs)

theorem runs_sequence_end {enclosing : List ParsedConcept} {eof : Lexeme} {rest : List Lexeme}
    {parsed : Parsed} (heof : eof.token = .endOfScript) :
    Runs (s.sequence enclosing (eof :: rest)) cache parsed cache' ↔
      enclosing = [] ∧ parsed = {} ∧ cache = cache' := by
  rw [sequence.eq_def]
  simp only [heof]
  cases enclosing with
  | nil =>
    simp only [finish, runs_pure, true_and]
    rw [eq_comm]
  | cons c outer => simp [finish]

/-- What one step of a sequence does: a brace is closed, or a statement is read up to the token that
ends it. The step goes from what is open, the tokens and what is remembered, by way of what it says,
to the same after it. -/
inductive Step (s : Statements) : List ParsedConcept → List Lexeme → Cache → Parsed →
    List ParsedConcept → List Lexeme → Cache → Prop
  | close {c : ParsedConcept} {outer : List ParsedConcept} {brace : Lexeme} {rest : List Lexeme}
    {cache : Cache} :
    brace.token = .closeBrace → Step s (c :: outer) (brace :: rest) cache {} outer rest cache
  | statement {enclosing next : List ParsedConcept} {head last : Lexeme} {rest after : List Lexeme}
    {keyword : String} {reading : Reading} {c : ParsedConcept} {warnings : List Warning}
    {cache cache' : Cache} :
    head.token = .word keyword →
    Runs (s.statement (contextOf enclosing) keyword head (head :: rest)) cache
      (reading, c, warnings) cache' →
    (head :: rest).drop reading.consumed = last :: after → Leaves last c enclosing next →
    Step s enclosing (head :: rest) cache ⟨[c], warnings⟩ next after cache'

theorem runs_sequence_cons {enclosing : List ParsedConcept} {head : Lexeme} {rest : List Lexeme}
    {parsed : Parsed} (hhead : head.token ≠ .endOfScript) :
    Runs (s.sequence enclosing (head :: rest)) cache parsed cache' ↔
      ∃ said next after between more, s.Step enclosing (head :: rest) cache said next after between ∧
        Runs (s.sequence next after) between more cache' ∧ parsed = said ++ more := by
  rw [sequence.eq_def]
  dsimp only
  constructor
  · intro h
    split at h
    · next heof => exact absurd heof hhead
    · next hclose =>
      cases enclosing with
      | nil => exact absurd h not_runs_throw
      | cons c outer => exact ⟨{}, outer, rest, cache, parsed, .close hclose, h, rfl⟩
    · next keyword hword =>
      simp only [runs_bind, Prod.exists] at h
      obtain ⟨reading, c, warnings, between, hstatement, h⟩ := h
      split at h
      · next span inside hdrop =>
        simp only [runs_bind, runs_pure] at h
        obtain ⟨more, _, hmore, rfl, rfl⟩ := h
        exact ⟨⟨[c], warnings⟩, c :: enclosing, inside, between, more,
          .statement hword hstatement hdrop (.inr ⟨rfl, rfl⟩), hmore, rfl⟩
      · next span after hdrop =>
        simp only [runs_bind, runs_pure] at h
        obtain ⟨more, _, hmore, rfl, rfl⟩ := h
        exact ⟨⟨[c], warnings⟩, enclosing, after, between, more,
          .statement hword hstatement hdrop (.inl ⟨rfl, rfl⟩), hmore, rfl⟩
      · exact absurd h not_runs_throw
    · exact absurd h not_runs_throw
  · rintro ⟨said, next, after, between, more, hstep, hmore, rfl⟩
    cases hstep with
    | close hclose =>
      simp only [hclose]
      exact hmore
    | @statement _ _ _ last _ _ keyword reading c warnings _ _ hword hstatement hdrop hleaves =>
      simp only [hword, runs_bind, Prod.exists]
      refine ⟨reading, c, warnings, between, hstatement, ?_⟩
      split
      · next hinside =>
        obtain ⟨rfl, rfl⟩ := List.cons.inj (hdrop.symm.trans hinside)
        rcases hleaves with ⟨hl, _⟩ | ⟨_, rfl⟩
        · cases hl
        · simp only [runs_bind, runs_pure]
          exact ⟨more, cache', hmore, rfl, rfl⟩
      · next hafter =>
        obtain ⟨rfl, rfl⟩ := List.cons.inj (hdrop.symm.trans hafter)
        rcases hleaves with ⟨_, rfl⟩ | ⟨hl, _⟩
        · simp only [runs_bind, runs_pure]
          exact ⟨more, cache', hmore, rfl, rfl⟩
        · cases hl
      · next hopen hsemicolon =>
        obtain ⟨token, span⟩ := last
        rcases hleaves with ⟨rfl, _⟩ | ⟨rfl, _⟩
        · exact absurd hdrop (hsemicolon span after)
        · exact absurd hdrop (hopen span after)

theorem sequence_step {enclosing : List ParsedConcept} {head : Lexeme} {rest : List Lexeme}
    {parsed : Parsed} (hcache : cache.Sound) (hhead : head.token ≠ .endOfScript)
    (h : Runs (s.sequence enclosing (head :: rest)) cache parsed cache') :
    (∃ c outer, head.token = .closeBrace ∧ enclosing = c :: outer ∧
      Runs (s.sequence outer rest) cache parsed cache') ∨
    ∃ segment last after c next more between, head :: rest = segment ++ last :: after ∧
      s.Says (contextOf enclosing) segment c ∧ Leaves last c enclosing next ∧
      parsed.concepts = c :: more.concepts ∧ between.Sound ∧
      Runs (s.sequence next after) between more cache' := by
  obtain ⟨said, next, after, between, more, hstep, hmore, rfl⟩ := (runs_sequence_cons hhead).mp h
  cases hstep with
  | @close c _ _ _ _ hclose => exact .inl ⟨c, next, hclose, rfl, hmore⟩
  | @statement _ _ _ last _ _ _ _ c _ _ _ _ hstatement hdrop hleaves =>
    obtain ⟨_, hbetween⟩ := (steady_statement _ _ _ _ _).outcome_eq hcache hstatement
    obtain ⟨segment, behind, htokens, hlen, hsays⟩ := exists_says hcache hstatement
    rw [htokens, ← hlen, List.drop_left] at hdrop
    exact .inr ⟨segment, last, after, c, next, more, between, hdrop ▸ htokens, hsays, hleaves, rfl,
      hbetween, hmore⟩

theorem exists_rest {ts segment after : List Lexeme} {eof last : Lexeme}
    (h : ts ++ [eof] = segment ++ last :: after) (hlast : last ≠ eof) :
    ∃ rest, after = rest ++ [eof] ∧ ts = segment ++ last :: rest := by
  cases after using List.reverseRecOn with
  | nil =>
    have := (List.append_inj' h rfl).2
    exact absurd (List.cons.inj this).1.symm hlast
  | append_singleton rest l =>
    rw [← List.cons_append, ← List.append_assoc] at h
    obtain ⟨rfl, hl⟩ := List.append_inj' h rfl
    rw [(List.cons.inj hl).1]
    exact ⟨rest, rfl, rfl⟩

theorem accepts_of_sequence {enclosing : List ParsedConcept} {ts : List Lexeme} {eof : Lexeme}
    {parsed : Parsed} (hcache : cache.Sound) (hts : ∀ l ∈ ts, l.token ≠ .endOfScript)
    (heof : eof.token = .endOfScript)
    (h : Runs (s.sequence enclosing (ts ++ [eof])) cache parsed cache') :
    s.Accepts enclosing ts parsed.concepts := by
  -- Each step leaves fewer tokens before the end of the script.
  induction hn : ts.length using Nat.strongRecOn generalizing enclosing ts parsed cache with
  | ind n ih =>
    cases ts with
    | nil =>
      obtain ⟨rfl, rfl, _⟩ := (runs_sequence_end heof).mp h
      exact .finish
    | cons head ts =>
      obtain ⟨hhead, htail⟩ := List.forall_mem_cons.mp hts
      rcases sequence_step hcache hhead h with ⟨c, outer, hclose, rfl, hrest⟩ |
        ⟨segment, last, after, c, next, more, between, htokens, hsays, hleaves, hconcepts,
          hbetween, hmore⟩
      · exact .close hclose (ih ts.length (by simp [← hn]) hcache htail hrest rfl)
      · have hne : last ≠ eof := by
          rintro rfl
          rcases hleaves with ⟨hl, _⟩ | ⟨hl, _⟩ <;> simp [hl] at heof
        have htokens : head :: ts ++ [eof] = segment ++ last :: after := htokens
        obtain ⟨us, rfl, hall⟩ := exists_rest htokens hne
        rw [hall] at hts hn ⊢
        have hus : ∀ l ∈ us, l.token ≠ .endOfScript := fun l hl =>
          hts l (List.mem_append_right _ (List.mem_cons_of_mem _ hl))
        have hlt : us.length < n := by
          rw [← hn, List.length_append, List.length_cons]
          omega
        rw [hconcepts]
        exact .statement hsays hleaves (ih us.length hlt hbetween hus hmore rfl)

end Statements

end ConceptScript
