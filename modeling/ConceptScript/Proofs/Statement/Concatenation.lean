import ConceptScript.Proofs.Statement.Grammar
import ConceptScript.Proofs.Statement.Locality
import ConceptScript.Proofs.Statement.Order
import ConceptScript.Proofs.Token.Joining

namespace ConceptScript

open PropertyList (Cache)

namespace Parsed

def nodes (p : Parsed) : List Node := p.concepts.map ParsedConcept.node

def messages (p : Parsed) : List String := p.warnings.map Warning.message

variable (p q : Parsed)

theorem nodes_append : (p ++ q).nodes = p.nodes ++ q.nodes := List.map_append

theorem messages_append : (p ++ q).messages = p.messages ++ q.messages := List.map_append

theorem append_assoc (more : Parsed) : p ++ q ++ more = p ++ (q ++ more) :=
  congrArg₂ mk (List.append_assoc _ _ _) (List.append_assoc _ _ _)

theorem append_empty : p ++ {} = p := congrArg₂ mk (List.append_nil _) (List.append_nil _)

end Parsed

namespace Statements

variable {s : Statements} (script : Script) {cache cache' : Cache}

theorem exists_same_parts {us segment rest : List Lexeme} {last : Lexeme}
    (h : (segment ++ last :: rest).map Lexeme.token = us.map Lexeme.token) :
    ∃ segment' last' rest', us = segment' ++ last' :: rest' ∧
      segment.map Lexeme.token = segment'.map Lexeme.token ∧ last.token = last'.token ∧
      rest.map Lexeme.token = rest'.map Lexeme.token := by
  rw [List.map_append, List.map_cons] at h
  obtain ⟨segment', behind, rfl, hsegment, hbehind⟩ := List.map_eq_append_iff.mp h.symm
  obtain ⟨last', rest', rfl, hlast, hrest⟩ := List.map_eq_cons_iff.mp hbehind
  exact ⟨segment', last', rest', rfl, hsegment.symm, hlast.symm, hrest.symm⟩

theorem Leaves.same {last last' : Lexeme} {c c' : ParsedConcept}
    {enclosing enclosing' next : List ParsedConcept} (h : Leaves last c enclosing next)
    (hlast : last.token = last'.token) (hc : c.node = c'.node)
    (henclosing : enclosing.map ParsedConcept.node = enclosing'.map ParsedConcept.node) :
    ∃ next', Leaves last' c' enclosing' next' ∧
      next.map ParsedConcept.node = next'.map ParsedConcept.node := by
  rcases h with ⟨hl, rfl⟩ | ⟨hl, rfl⟩
  · exact ⟨enclosing', .inl ⟨hlast ▸ hl, rfl⟩, henclosing⟩
  · exact ⟨c' :: enclosing', .inr ⟨hlast ▸ hl, rfl⟩, by rw [List.map_cons, List.map_cons, hc, henclosing]⟩

theorem Leaves.inStatement {last : Lexeme} {c : ParsedConcept} {enclosing next : List ParsedConcept}
    (h : Leaves last c enclosing next) : last.token.inStatement = false := by
  rcases h with ⟨hl, _⟩ | ⟨hl, _⟩ <;> rw [hl] <;> rfl

theorem front_segment {segment rest : List Lexeme} {last : Lexeme}
    (h : ∀ l ∈ segment, l.token.inStatement = true) (hlast : last.token.inStatement = false) :
    front (segment ++ last :: rest) = segment.map Lexeme.token ++ [last.token] := by
  rw [front_append h, front, hlast]
  rfl

/-- A statement that ends is read from the same tokens in another place, whatever comes behind. -/
theorem statement_same {context : Option Node} {keyword : String} {head last last' : Lexeme}
    {segment segment' after : List Lexeme} {reading : Reading} {c : ParsedConcept}
    {warnings : List Warning} (hinside : ∀ l ∈ segment, l.token.inStatement = true)
    (hend : last.token.inStatement = false)
    (hsegment : segment.map Lexeme.token = segment'.map Lexeme.token)
    (hlast : last.token = last'.token)
    (h : Runs (s.statement context keyword head (segment ++ last :: after)) cache
      (reading, c, warnings) cache') (head' : Lexeme) (after' : List Lexeme) :
    ∃ c' warnings', Runs ({ s with script }.statement context keyword head'
        (segment' ++ last' :: after')) cache (reading, c', warnings') cache' ∧
      c.node = c'.node ∧ warnings.map Warning.message = warnings'.map Warning.message := by
  have hinside' : ∀ l ∈ segment', l.token.inStatement = true := by
    intro l hl
    have hmem : l.token ∈ segment.map Lexeme.token := hsegment ▸ List.mem_map_of_mem hl
    obtain ⟨l', hl', heq⟩ := List.mem_map.mp hmem
    rw [← heq]
    exact hinside l' hl'
  have hfront : front (segment ++ last :: after) = front (segment' ++ last' :: after') := by
    rw [front_segment hinside hend, front_segment hinside' (hlast ▸ hend), hsegment, hlast]
  obtain ⟨⟨_, c', warnings'⟩, hruns, rfl, hc, hwarnings⟩ :=
    (statement_lockstep script hfront keyword head head').runs h
  exact ⟨c', warnings', hruns, hc, hwarnings⟩

/-- A step that is taken before the end of a script is taken before other tokens too. -/
theorem Step.same {enclosing enclosing' next : List ParsedConcept} {ts us after : List Lexeme}
    {eof : Lexeme} {said : Parsed}
    (h : s.Step enclosing (ts ++ [eof]) cache said next after cache') (hcache : cache.Sound)
    (heof : eof.token = .endOfScript) (htokens : ts.map Lexeme.token = us.map Lexeme.token)
    (henclosing : enclosing.map ParsedConcept.node = enclosing'.map ParsedConcept.node)
    (rest : List Lexeme) :
    cache'.Sound ∧ ∃ said' next' passed ts' us', ts = passed ++ ts' ∧ passed ≠ [] ∧
      after = ts' ++ [eof] ∧ ts'.map Lexeme.token = us'.map Lexeme.token ∧
      next.map ParsedConcept.node = next'.map ParsedConcept.node ∧
      said.nodes = said'.nodes ∧ said.messages = said'.messages ∧
      { s with script }.Step enclosing' (us ++ rest) cache said' next' (us' ++ rest) cache' := by
  generalize htext : ts ++ [eof] = text at h
  cases h with
  | @close c outer brace _ _ hclose =>
    cases ts with
    | nil =>
      obtain ⟨rfl, _⟩ := List.cons.inj htext
      simp [hclose] at heof
    | cons l ts =>
      obtain ⟨rfl, rfl⟩ := List.cons.inj htext
      obtain ⟨l', us, rfl, hl, hus⟩ := List.map_eq_cons_iff.mp htokens.symm
      obtain ⟨c', outer', rfl, _, houter⟩ := List.map_eq_cons_iff.mp henclosing.symm
      exact ⟨hcache, {}, outer', [l], ts, us, rfl, by simp, rfl, hus.symm, houter.symm, rfl, rfl,
        .close (hl.trans hclose)⟩
  | @statement _ _ head last more _ keyword reading c warnings _ _ hword hstatement hdrop hleaves =>
    -- The statement and the token that ends it stand before the end of the script.
    obtain ⟨_, hsound⟩ := (steady_statement _ _ _ _ _).outcome_eq hcache hstatement
    obtain ⟨segment, behind, hall, hlen, hsays⟩ := exists_says hcache hstatement
    rw [hall, ← hlen, List.drop_left] at hdrop
    obtain rfl := hdrop
    have hne : last ≠ eof := by
      rintro rfl
      rcases hleaves with ⟨hl, _⟩ | ⟨hl, _⟩ <;> simp [hl] at heof
    obtain ⟨ts', rfl, rfl⟩ := exists_rest (htext.trans hall) hne
    obtain ⟨segment', last', us', rfl, hsegment, hlast, hus'⟩ := exists_same_parts htokens
    obtain ⟨w, span, tail, rfl, _⟩ := hsays.keyword
    obtain ⟨rfl, _⟩ := List.cons.inj hall
    obtain ⟨head', tail', rfl, hhead, _⟩ := List.map_eq_cons_iff.mp hsegment.symm
    obtain ⟨c', warnings', hstatement', hc, hwarnings⟩ := statement_same script
      hsays.inside hleaves.inStatement hsegment hlast (hall ▸ hstatement) head' (us' ++ rest)
    obtain ⟨next', hleaves', hnext⟩ := hleaves.same hlast hc henclosing
    have hdrop : (head' :: tail' ++ last' :: (us' ++ rest)).drop reading.consumed =
        last' :: (us' ++ rest) := by
      rw [← hlen, ← List.length_map Lexeme.token, hsegment, List.length_map, List.drop_left]
    have hcontext : contextOf enclosing = contextOf enclosing' := by
      rw [contextOf, contextOf, ← List.head?_map, henclosing, List.head?_map]
    refine ⟨hsound, ⟨[c'], warnings'⟩, next', ⟨.word w, span⟩ :: tail ++ [last], ts', us', by simp,
      by simp, rfl, hus', hnext, congrArg ([·]) hc, hwarnings, ?_⟩
    rw [List.append_assoc]
    rw [hcontext] at hstatement'
    exact .statement (hhead.trans hword) hstatement' hdrop hleaves'

/-- What is said up to the end of a script is said before other tokens too, and they go on where
nothing is open. -/
theorem sequence_append {enclosing enclosing' : List ParsedConcept} {ts us rest : List Lexeme}
    {eof : Lexeme} {p q : Parsed} {first : Cache} (hcache : cache.Sound)
    (hts : ∀ l ∈ ts, l.token ≠ .endOfScript) (heof : eof.token = .endOfScript)
    (htokens : ts.map Lexeme.token = us.map Lexeme.token)
    (henclosing : enclosing.map ParsedConcept.node = enclosing'.map ParsedConcept.node)
    (h : Runs (s.sequence enclosing (ts ++ [eof])) cache p first)
    (hrest : Runs ({ s with script }.sequence [] rest) first q cache') :
    ∃ p', Runs ({ s with script }.sequence enclosing' (us ++ rest)) cache (p' ++ q) cache' ∧
      p.nodes = p'.nodes ∧ p.messages = p'.messages := by
  induction hn : ts.length using Nat.strongRecOn
    generalizing enclosing enclosing' ts us p cache with
  | ind n ih =>
    cases ts with
    | nil =>
      obtain ⟨rfl, rfl, rfl⟩ := (runs_sequence_end heof).mp h
      obtain rfl : us = [] := List.map_eq_nil_iff.mp htokens.symm
      obtain rfl : enclosing' = [] := List.map_eq_nil_iff.mp henclosing.symm
      exact ⟨{}, hrest, rfl, rfl⟩
    | cons head ts =>
      obtain ⟨hhead, _⟩ := List.forall_mem_cons.mp hts
      obtain ⟨said, next, after, between, more, hstep, hmore, rfl⟩ :=
        (runs_sequence_cons hhead).mp h
      obtain ⟨hbetween, said', next', passed, ts', us', hall, hne, rfl, hus', hnext, hnodes,
        hmessages, hstep'⟩ := hstep.same script hcache heof htokens henclosing rest
      have hlt : ts'.length < n := by
        have hpos := List.length_pos_iff.mpr hne
        rw [← hn, hall, List.length_append]
        omega
      have hts' : ∀ l ∈ ts', l.token ≠ .endOfScript := fun l hl =>
        hts l (hall ▸ List.mem_append_right passed hl)
      obtain ⟨more', hruns, hnodes', hmessages'⟩ :=
        ih ts'.length hlt hbetween hts' hus' hnext hmore rfl
      obtain ⟨head', us, rfl, hsame, _⟩ := List.map_eq_cons_iff.mp htokens.symm
      refine ⟨said' ++ more', ?_, ?_, ?_⟩
      · have hhead' : head'.token ≠ .endOfScript := by rwa [hsame]
        rw [Parsed.append_assoc]
        exact (runs_sequence_cons hhead').mpr ⟨said', next', us' ++ rest, between, more' ++ q,
          hstep', hruns, rfl⟩
      · rw [Parsed.nodes_append, Parsed.nodes_append, hnodes, hnodes']
      · rw [Parsed.messages_append, Parsed.messages_append, hmessages, hmessages']

end Statements

theorem Script.runs_parse {script : Script} {registry : Registry} {options : Options} {p : Parsed}
    {cache cache' : Cache} : Runs (script.parse registry options) cache p cache' ↔
      ∃ tokens, script.lex = .ok tokens ∧
        Runs (Statements.sequence ⟨registry, options, script⟩ [] tokens) cache p cache' := by
  unfold parse
  constructor
  · intro h
    obtain ⟨tokens, first, hrun, hsequence⟩ := runs_bind.mp h
    obtain ⟨hlex, rfl⟩ : script.lex = .ok tokens ∧ cache = first := runs_ofExcept.mp hrun
    exact ⟨tokens, hlex, hsequence⟩
  · rintro ⟨tokens, hlex, hsequence⟩
    exact runs_bind.mpr ⟨tokens, cache, runs_ofExcept.mpr ⟨hlex, rfl⟩, hsequence⟩

theorem Script.parse_join {registry : Registry} {options : Options} {a b : Script} {p q : Parsed}
    {cache first cache' : Cache} (hcache : cache.Sound)
    (ha : Runs (a.parse registry options) cache p first)
    (hb : Runs (b.parse registry options) first q cache') (name : String) :
    ∃ joined, Runs ((Script.mk name (a.chars ++ '\n' :: b.chars)).parse registry options) cache
        joined cache' ∧
      joined.nodes = p.nodes ++ q.nodes ∧ joined.messages = p.messages ++ q.messages := by
  obtain ⟨_, hfirst⟩ := (a.steady_parse registry options).outcome_eq hcache ha
  obtain ⟨tokens, halex, ha⟩ := runs_parse.mp ha
  obtain ⟨tokens', hblex, hb⟩ := runs_parse.mp hb
  obtain ⟨ts, span, rfl, hts⟩ := lex_end halex
  obtain ⟨us, span', rfl, hus⟩ := lex_end hblex
  let distance := Lexer.byteLength a.chars + 1
  have hshift (ls : List Lexeme) :
      ls.map Lexeme.token = (ls.map (.shift distance)).map Lexeme.token := by
    rw [List.map_map]
    rfl
  -- The second script ends as it did, and the first one goes on with the second.
  have hend : Runs (Statements.sequence ⟨registry, options, ⟨name, a.chars ++ '\n' :: b.chars⟩⟩ []
      [⟨.endOfScript, span'.shift distance⟩]) cache' {} cache' :=
    (Statements.runs_sequence_end rfl).mpr ⟨rfl, rfl, rfl⟩
  obtain ⟨q', hq', hqnodes, hqmessages⟩ :=
    Statements.sequence_append _ hfirst hus rfl (hshift us) rfl hb hend
  obtain ⟨p', hp', hpnodes, hpmessages⟩ :=
    Statements.sequence_append _ hcache hts rfl rfl rfl ha hq'
  rw [Parsed.append_empty] at hp'
  refine ⟨p' ++ q', runs_parse.mpr ⟨_, lex_join name halex hblex, ?_⟩, ?_, ?_⟩
  · rw [List.map_append]
    exact hp'
  · rw [Parsed.nodes_append, hpnodes, hqnodes]
  · rw [Parsed.messages_append, hpmessages, hqmessages]

theorem runs_parseScripts_singleton {registry : Registry} {options : Options} {script : Script}
    {p : Parsed} {cache cache' : Cache} :
    Runs (parseScripts registry options [script]) cache p cache' ↔
      Runs (script.parse registry options) cache p cache' := by
  simp [parseScripts, Parsed.append_empty]

-- A script that ends in a line comment, and one that begins with a block comment.

namespace Rivals

def first : Script := .ofText "first" "Module A \x7b Item B; \x7d // no more"

def second : Script := .ofText "second" "/* more */ Module C; Module D \x7b Item E; \x7d"

theorem parse_first :
    (outcome (parseScripts registry {} [first])).toOption.map
      (fun p => (p.nodes.map Node.key, p.messages.length)) =
    some (["Module A", "Entity A.B"], 1) := by
  decide +kernel

theorem parse_second :
    (outcome (parseScripts registry {} [second])).toOption.map
      (fun p => (p.nodes.map Node.key, p.messages.length)) =
    some (["Module C", "Module D", "Entity D.E"], 1) := by
  decide +kernel

end Rivals

/-- Two scripts say the same in one: joined with a line break they are accepted if each one is, and
say the concepts and give the warnings of the first and then those of the second, as the two do when
they are parsed one after the other. -/
theorem parseScripts_join {registry : Registry} {options : Options} {a b : Script} {p q : Parsed}
    (ha : outcome (parseScripts registry options [a]) = .ok p)
    (hb : outcome (parseScripts registry options [b]) = .ok q) (name : String) :
    ∃ joined both,
      outcome (parseScripts registry options [.ofText name (a.text ++ "\n" ++ b.text)]) =
        .ok joined ∧
      joined.nodes = p.nodes ++ q.nodes ∧ joined.messages = p.messages ++ q.messages ∧
      outcome (parseScripts registry options [a, b]) = .ok both ∧
      both.nodes = joined.nodes ∧ both.messages = joined.messages := by
  obtain ⟨first, ha⟩ := outcome_eq_ok.mp ha
  obtain ⟨_, hb⟩ := outcome_eq_ok.mp hb
  rw [runs_parseScripts_singleton] at ha hb
  obtain ⟨_, hfirst⟩ := (a.steady_parse registry options).outcome_eq Cache.sound_empty ha
  obtain ⟨last, hb⟩ :=
    (b.steady_parse registry options).exists_runs hfirst (outcome_eq_ok.mpr ⟨_, hb⟩)
  obtain ⟨joined, hjoined, hnodes, hmessages⟩ := Script.parse_join Cache.sound_empty ha hb name
  have htext : Script.ofText name (a.text ++ "\n" ++ b.text) =
      ⟨name, a.chars ++ '\n' :: b.chars⟩ := by
    simp [Script.ofText, Script.text]
  have hboth : Runs (parseScripts registry options [a, b]) {} (p ++ q) last := by
    rw [parseScripts]
    simp only [runs_bind, runs_parseScripts_singleton, runs_pure]
    exact ⟨p, first, ha, q, last, hb, rfl, rfl⟩
  refine ⟨joined, p ++ q, ?_, hnodes, hmessages, outcome_eq_ok.mpr ⟨last, hboth⟩, ?_, ?_⟩
  · rw [htext]
    exact outcome_eq_ok.mpr ⟨last, runs_parseScripts_singleton.mpr hjoined⟩
  · rw [Parsed.nodes_append, hnodes]
  · rw [Parsed.messages_append, hmessages]

theorem parseScripts_join_rivals :
    ∃ p q joined, outcome (parseScripts Rivals.registry {} [Rivals.first]) = .ok p ∧
      outcome (parseScripts Rivals.registry {} [Rivals.second]) = .ok q ∧
      outcome (parseScripts Rivals.registry {}
        [.ofText "both" (Rivals.first.text ++ "\n" ++ Rivals.second.text)]) = .ok joined ∧
      joined.nodes = p.nodes ++ q.nodes ∧ joined.messages = p.messages ++ q.messages ∧
      joined.nodes.map Node.key =
        ["Module A", "Entity A.B", "Module C", "Module D", "Entity D.E"] ∧
      joined.messages.length = 2 := by
  obtain ⟨p, hp, hpshown⟩ := Option.map_eq_some_iff.mp Rivals.parse_first
  obtain ⟨q, hq, hqshown⟩ := Option.map_eq_some_iff.mp Rivals.parse_second
  rw [toOption_eq_some] at hp hq
  obtain ⟨hpkeys, hpcount⟩ := Prod.mk.inj hpshown
  obtain ⟨hqkeys, hqcount⟩ := Prod.mk.inj hqshown
  obtain ⟨joined, _, hjoined, hnodes, hmessages, _⟩ := parseScripts_join hp hq "both"
  refine ⟨p, q, joined, hp, hq, hjoined, hnodes, hmessages, ?_, ?_⟩
  · rw [hnodes, List.map_append, hpkeys, hqkeys]
    rfl
  · rw [hmessages, List.length_append, hpcount, hqcount]

end ConceptScript
