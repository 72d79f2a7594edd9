import ConceptScript.Proofs.Model.Listing
import ConceptScript.Proofs.Statement.Braces
import ConceptScript.Proofs.Statement.Grammar

namespace ConceptScript

open PropertyList (Cache)

/-- The first member of the concept refers to another one, by its key, and may do so. -/
def Node.NestedIn (n outer : Node) : Prop :=
  ∃ parent target, n.type.parent? = some parent ∧ parent.kind = .reference target ∧
    outer.type.satisfies target = true ∧ ∃ ref, n.parent? = some ref ∧ ref.key = outer.key

namespace Statements

variable {s : Statements} {context : Option Node}

/-- How a concept stands in the tokens of a script. As many statements end before its own as its
number says, and nothing else stands between the last token before it that belongs to no statement
and the one that ends it. The concept around it is that of the innermost open brace. -/
def Stands (s : Statements) (ts : List Lexeme) (concepts : List ParsedConcept) (number : Nat)
    (c : ParsedConcept) : Prop :=
  ∃ before segment last after context, ts = before ++ segment ++ last :: after ∧
    terminators before = number ∧ (last.token = .semicolon ∨ last.token = .openBrace) ∧
    (∀ l, before.getLast? = some l → l.token.inStatement = false) ∧
    s.Says context segment c ∧ (Balanced before → context = none) ∧
    ∀ outer brace inner, before = outer ++ brace :: inner → brace.token = .openBrace →
      Balanced inner →
        ∃ p, concepts[terminators outer]? = some p ∧ context = some p.node ∧
          c.node.NestedIn p.node

theorem Says.complete {c : ParsedConcept} {segment : List Lexeme}
    (h : s.Says context segment c) : c.node.Complete := by
  obtain ⟨notes, hread⟩ := h.read
  obtain ⟨_, hruns⟩ := outcome_eq_ok.mp (hread [])
  obtain ⟨_, _, hcomplete⟩ := Reader.read_complete hruns
  exact hcomplete

theorem Says.nestedIn {outer : Node} {c : ParsedConcept} {segment : List Lexeme}
    (h : s.Says (some outer) segment c) : c.node.NestedIn outer := by
  obtain ⟨notes, hread⟩ := h.read
  obtain ⟨_, hruns⟩ := outcome_eq_ok.mp (hread [])
  obtain ⟨parent, target, hparent, hkind, hsat, hplaceholder⟩ := Reader.read_nested hruns
  exact ⟨parent, target, hparent, hkind, hsat, outer.placeholder, hplaceholder,
    outer.key_placeholder⟩

theorem Says.counts {c : ParsedConcept} {segment : List Lexeme} (h : s.Says context segment c) :
    terminators segment = 0 ∧ Balanced segment := by
  have hne {token : Token} (ht : token.inStatement = false) :
      ∀ l ∈ segment, l.token ≠ token := by
    rintro l hl rfl
    simp [h.inside l hl] at ht
  constructor
  · rw [terminators, opens, occurrences_eq_zero (hne rfl), occurrences_eq_zero (hne rfl)]
  · exact balanced_of_no_braces fun l hl => ⟨hne rfl l hl, hne rfl l hl⟩

theorem Leaves.opened {concepts enclosing next : List ParsedConcept} {before : List Lexeme}
    {last : Lexeme} {c : ParsedConcept} (h : Leaves last c enclosing next)
    (hopened : Opened concepts before enclosing) (hc : concepts[terminators before]? = some c) :
    Opened concepts (before ++ [last]) next ∧ terminators [last] = 1 ∧
      last.token.inStatement = false := by
  rcases h with ⟨hl, rfl⟩ | ⟨hl, rfl⟩
  · refine ⟨hopened.append (balanced_of_no_braces ?_), ?_, by rw [hl]; rfl⟩
    · intro l hm
      rw [List.mem_singleton.mp hm, hl]
      exact ⟨by simp, by simp⟩
    · simp [terminators, opens, occurrences, hl]
  · refine ⟨.inside hopened hl hc balanced_nil, ?_, by rw [hl]; rfl⟩
    simp [terminators, opens, occurrences, hl]

/-- What holds of the tokens read so far is carried over the rest of them. -/
theorem Accepts.stands {enclosing cs concepts earlier : List ParsedConcept}
    {ts before : List Lexeme} (h : s.Accepts enclosing ts cs) (hconcepts : concepts = earlier ++ cs)
    (hopened : Opened concepts before enclosing) (hcount : terminators before = earlier.length)
    (hstart : ∀ l, before.getLast? = some l → l.token.inStatement = false) :
    Balanced (before ++ ts) ∧ terminators ts = cs.length ∧
      ∀ k c, cs[k]? = some c → s.Stands (before ++ ts) concepts (earlier.length + k) c := by
  induction h generalizing earlier before with
  | finish =>
    rw [List.append_nil]
    exact ⟨hopened.balanced, rfl, by simp⟩
  | @close c outer cs brace rest hbrace _ ih =>
    have hnone : terminators [brace] = 0 := by simp [terminators, opens, occurrences, hbrace]
    have hclosed : Opened concepts (before ++ [brace]) outer := hopened.close hbrace
    obtain ⟨hb, hn, hs⟩ := ih hconcepts hclosed
      (by rw [terminators_append, hnone, hcount, Nat.add_zero])
      (by simp [hbrace, Token.inStatement])
    rw [List.append_assoc, List.singleton_append] at hb hs
    refine ⟨hb, ?_, hs⟩
    rw [← List.singleton_append, terminators_append, hnone, hn, Nat.zero_add]
  | @statement enclosing next cs segment rest last c hsays hleaves _ ih =>
    obtain ⟨hnone, hbalanced⟩ := hsays.counts
    have hsegment : terminators (before ++ segment) = earlier.length := by
      rw [terminators_append, hnone, hcount, Nat.add_zero]
    -- A statement ends nothing inside, so its concept has the number of those that came earlier.
    have hc : concepts[terminators (before ++ segment)]? = some c := by
      rw [hsegment, hconcepts]
      simp
    obtain ⟨hnext, hone, hend⟩ := hleaves.opened (hopened.append hbalanced) hc
    have hconcepts' : concepts = earlier ++ [c] ++ cs := by simp [hconcepts]
    obtain ⟨hb, hn, hs⟩ := ih hconcepts' hnext
      (by rw [terminators_append, hsegment, hone, List.length_append, List.length_singleton])
      (by simp [hend])
    have hassoc : before ++ segment ++ [last] ++ rest = before ++ (segment ++ last :: rest) := by
      simp
    rw [hassoc] at hb hs
    refine ⟨hb, ?_, ?_⟩
    · rw [terminators_append, hnone, ← List.singleton_append, terminators_append, hone, hn,
        List.length_cons]
      omega
    · intro k c' hk
      cases k with
      | zero =>
        obtain rfl : c = c' := Option.some.inj hk
        refine ⟨before, segment, last, rest, contextOf enclosing, by simp, hcount,
          hleaves.imp And.left And.left, hstart, hsays, ?_, ?_⟩
        · intro hbefore
          rw [hopened.eq_nil hbefore]
          rfl
        · rintro outer brace inner rfl hbrace hinner
          obtain ⟨p, more, rfl, hp⟩ := hopened.innermost hbrace hinner
          exact ⟨p, hp, rfl, hsays.nestedIn⟩
      | succ k =>
        have hstands := hs k c' hk
        rw [List.length_append, List.length_singleton] at hstands
        rwa [Nat.add_right_comm, Nat.add_assoc] at hstands

end Statements

-- The language of modules and entities, with the names of its types as keywords.

namespace Small

def spoken : Registry := ⟨registry.types.map fun t => { t with keyword? := some t.name }⟩

theorem build_spoken : Registry.build (declared.map fun d => d.withKeyword d.name) = .ok spoken := by
  decide +kernel

def script : Script :=
  .ofText "small" "Module A \x7b Entity B; Entity C \x7b \x7d \x7d Module D;"

theorem parse_script :
    (outcome (script.parse spoken {})).toOption.map (·.concepts.length) = some 4 := by
  decide +kernel

end Small

/-- The concepts of a script are its statements. The braces are balanced; there is a concept for
each semicolon and each opening brace, read from just the tokens of its statement; a concept inside
of braces has the one before the brace as its parent; and no concept has a member that is not
set. -/
theorem Script.parse_structure {script : Script} {registry : Registry} {options : Options}
    {cache cache' : Cache} {parsed : Parsed} (hcache : cache.Sound)
    (h : Runs (script.parse registry options) cache parsed cache') :
    ∃ ts span, script.lex = .ok (ts ++ [⟨.endOfScript, span⟩]) ∧
      (∀ l ∈ ts, l.token ≠ .endOfScript) ∧ Balanced ts ∧
      parsed.concepts.length = terminators ts ∧
      ∀ k c, parsed.concepts[k]? = some c → c.node.Complete ∧
        Statements.Stands ⟨registry, options, script⟩ ts parsed.concepts k c := by
  obtain ⟨tokens, first, hrun, hsequence⟩ := runs_bind.mp h
  obtain ⟨hlex, rfl⟩ : script.lex = .ok tokens ∧ cache = first := runs_ofExcept.mp hrun
  obtain ⟨ts, span, rfl, hts⟩ := Script.lex_end hlex
  have haccepts := Statements.accepts_of_sequence hcache hts rfl hsequence
  have hopened : Opened parsed.concepts [] [] := .top balanced_nil
  obtain ⟨hbalanced, hcount, hstands⟩ := haccepts.stands (List.nil_append _).symm hopened rfl
    (by simp)
  refine ⟨ts, span, hlex, hts, hbalanced, hcount.symm, ?_⟩
  intro k c hk
  have hc := hstands k c hk
  rw [List.nil_append, List.length_nil, Nat.zero_add] at hc
  refine ⟨?_, hc⟩
  obtain ⟨_, _, _, _, _, _, _, _, _, hsays, _⟩ := hc
  exact hsays.complete

theorem Script.parse_structure_small :
    Registry.build (Small.declared.map fun d => d.withKeyword d.name) = .ok Small.spoken ∧
      ∃ parsed cache ts, Runs (Small.script.parse Small.spoken {}) {} parsed cache ∧ Balanced ts ∧
        terminators ts = 4 ∧ ∀ k c, parsed.concepts[k]? = some c → c.node.Complete ∧
          Statements.Stands ⟨Small.spoken, {}, Small.script⟩ ts parsed.concepts k c := by
  refine ⟨Small.build_spoken, ?_⟩
  have hparse := Small.parse_script
  cases ho : outcome (Small.script.parse Small.spoken {}) with
  | error d => simp [ho, Except.toOption] at hparse
  | ok parsed =>
    obtain ⟨cache, hruns⟩ := outcome_eq_ok.mp ho
    obtain ⟨ts, _, _, _, hbalanced, hcount, hstands⟩ :=
      Script.parse_structure Cache.sound_empty hruns
    have hlength : parsed.concepts.length = 4 := by
      simpa [ho, Except.toOption] using hparse
    exact ⟨parsed, cache, ts, hruns, hbalanced, hcount.symm.trans hlength, hstands⟩

end ConceptScript
