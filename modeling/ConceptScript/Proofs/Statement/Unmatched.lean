import ConceptScript.Proofs.Statement.Choice
import ConceptScript.Proofs.Statement.Structure

namespace ConceptScript

open PropertyList (Cache)

/-- The failures that are about braces. -/
def Code.OfBraces (code : Code) : Prop := code = .unexpectedClosingBrace ∨ code = .unclosedConcept

theorem bind_eq_error {ε α β : Type} {x : Except ε α} {f : α → Except ε β} {e : ε} :
    x >>= f = .error e ↔ x = .error e ∨ ∃ a, x = .ok a ∧ f a = .error e := by
  cases x <;> simp [bind, Except.bind]

namespace Statements

variable {s : Statements} {context : Option Node}

theorem code_of_readings {tokens : List Lexeme} {types : List ConceptType} {d : Diagnostic}
    (h : outcome (s.readings context tokens types) = .error d) : d.code = .invalidPropertyList := by
  by_cases hfatal : ∃ t ∈ types, ∃ e, s.attempt context tokens t = .error (.fatal e)
  · obtain ⟨t, ht, e, he⟩ := hfatal
    obtain ⟨d', hd', hcode⟩ := outcome_readings_of_fatal ht he
    obtain rfl := Except.error.inj (hd'.symm.trans h)
    exact hcode
  · obtain ⟨_, hok⟩ := outcome_readings fun t ht e he => hfatal ⟨t, ht, e, he⟩
    cases hok.symm.trans h

theorem not_ofBraces_of_statement {keyword : String} {head : Lexeme} {tokens : List Lexeme}
    {d : Diagnostic} (h : outcome (s.statement context keyword head tokens) = .error d) :
    ¬d.code.OfBraces := by
  unfold statement at h
  simp only [throw_bind] at h
  split at h
  · obtain rfl := Except.error.inj h
    simp [Code.OfBraces]
  · rw [outcome_bind (by simp) fun a => Steady.ite (by simp) (by simp)] at h
    rcases bind_eq_error.mp h with hreadings | ⟨found, _, h⟩
    · simp [Code.OfBraces, code_of_readings hreadings]
    · split at h
      · obtain rfl := Except.error.inj h
        simp [Code.OfBraces]
      · next hne =>
        have hfound : found.1 ≠ [] := by simpa using hne
        rw [outcome_bind (by simp) (by simp)] at h
        rcases bind_eq_error.mp h with hchoose | ⟨_, _, hpure⟩
        · simp [Code.OfBraces, (choose_eq_error hfound hchoose).2.1]
        · cases hpure

/-- A statement takes up the segment, with other tokens behind it, and is read as the concept. -/
structure States (s : Statements) (context : Option Node) (segment after : List Lexeme)
    (c : ParsedConcept) : Prop where
  said : s.Says context segment c
  chosen : ∃ head keyword reading warnings, segment.head? = some head ∧
    head.token = .word keyword ∧ reading.consumed = segment.length ∧
    outcome (s.statement context keyword head (segment ++ after)) = .ok (reading, c, warnings)

/-- The concepts whose braces are open after some tokens, with others to come, the innermost first.
The concept of a brace is that of the statement in front of it, which is read inside of the concepts
that are open there; behind the last open brace the tokens are balanced. -/
inductive Inside (s : Statements) : List Lexeme → List Lexeme → List ParsedConcept → Prop
  | top {before after : List Lexeme} : Balanced before → Inside s before after []
  | brace {outer segment inner after : List Lexeme} {brace : Lexeme} {c : ParsedConcept}
    {enclosing : List ParsedConcept} :
    Inside s outer (segment ++ brace :: (inner ++ after)) enclosing →
    (∀ l, outer.getLast? = some l → l.token.inStatement = false) →
    s.States (contextOf enclosing) segment (brace :: (inner ++ after)) c →
    brace.token = .openBrace → Balanced inner →
    Inside s (outer ++ segment ++ brace :: inner) after (c :: enclosing)

theorem closes_le_append {ts us : List Lexeme} (ht : ∀ vs, vs <+: ts → closes vs ≤ opens vs)
    (hu : ∀ vs, vs <+: us → closes vs ≤ opens vs) :
    ∀ vs, vs <+: ts ++ us → closes vs ≤ opens vs := by
  intro vs h
  rcases List.prefix_or_prefix_of_prefix h (List.prefix_append ts us) with h' | ⟨ws, rfl⟩
  · exact ht vs h'
  · rw [closes_append, opens_append]
    exact Nat.add_le_add (ht ts List.prefix_rfl) (hu ws ((List.prefix_append_right_inj ts).mp h))

namespace Inside

variable {before after : List Lexeme} {enclosing : List ParsedConcept}

theorem append {more : List Lexeme} (h : s.Inside before (more ++ after) enclosing)
    (hmore : Balanced more) : s.Inside (before ++ more) after enclosing := by
  cases h with
  | top hb => exact .top (hb.append hmore)
  | @brace outer segment inner _ brace c enclosing houter hstart hstates hbrace hinner =>
    rw [List.append_assoc (outer ++ segment), List.cons_append]
    rw [← List.append_assoc inner] at houter hstates
    exact .brace houter hstart hstates hbrace (hinner.append hmore)

/-- A closing brace ends the innermost concept. -/
theorem close {last : Lexeme} {c : ParsedConcept}
    (h : s.Inside before (last :: after) (c :: enclosing)) (hlast : last.token = .closeBrace) :
    s.Inside (before ++ [last]) after enclosing := by
  cases h with
  | @brace outer segment inner _ brace c enclosing houter _ hstates hbrace hinner =>
    have hblock : Balanced (segment ++ ([brace] ++ (inner ++ [last]))) :=
      hstates.said.counts.2.append (hinner.enclosed hbrace hlast)
    have hclosed : s.Inside (outer ++ (segment ++ ([brace] ++ (inner ++ [last])))) after
        enclosing := append (by simpa using houter) hblock
    simpa using hclosed

theorem statement {segment : List Lexeme} {last : Lexeme} {c : ParsedConcept}
    {next : List ParsedConcept} (h : s.Inside before (segment ++ last :: after) enclosing)
    (hstart : ∀ l, before.getLast? = some l → l.token.inStatement = false)
    (hstates : s.States (contextOf enclosing) segment (last :: after) c)
    (hleaves : Leaves last c enclosing next) :
    s.Inside (before ++ segment ++ [last]) after next := by
  rcases hleaves with ⟨hlast, rfl⟩ | ⟨hlast, rfl⟩
  · have hnone : Balanced [last] := balanced_of_no_braces (by simp [hlast])
    rw [List.append_assoc]
    exact append (by simpa using h) (hstates.said.counts.2.append hnone)
  · exact .brace h hstart hstates hlast balanced_nil

theorem counts (h : s.Inside before after enclosing) :
    (∀ us, us <+: before → closes us ≤ opens us) ∧
      opens before = closes before + enclosing.length := by
  induction h with
  | top hb => exact ⟨hb.closes_le, by simp [hb.closes_eq]⟩
  | @brace outer segment inner _ brace c enclosing _ _ hstates hbrace hinner ih =>
    obtain ⟨hclosed, hopen⟩ := ih
    have hsegment := hstates.said.counts.2
    have hone : opens [brace] = 1 ∧ closes [brace] = 0 := by
      simp [opens, closes, occurrences, hbrace]
    rw [← List.singleton_append, List.append_assoc]
    constructor
    · refine closes_le_append hclosed (closes_le_append hsegment.closes_le
        (closes_le_append ?_ hinner.closes_le))
      intro us hu
      rcases List.prefix_cons_iff.mp hu with rfl | ⟨us, rfl, htail⟩
      · exact Nat.le_refl 0
      · rw [List.prefix_nil.mp htail]
        omega
    · simp only [opens_append, closes_append, hopen, hsegment.closes_eq, hinner.closes_eq,
        List.length_cons]
      omega

end Inside

theorem exists_states {keyword : String} {head : Lexeme} {rest : List Lexeme} {reading : Reading}
    {c : ParsedConcept} {warnings : List Warning} (hhead : head.token = .word keyword)
    (h : outcome (s.statement context keyword head (head :: rest)) = .ok (reading, c, warnings)) :
    ∃ segment after, head :: rest = segment ++ after ∧ segment.length = reading.consumed ∧
      s.States context segment after c := by
  obtain ⟨_, hruns⟩ := outcome_eq_ok.mp h
  obtain ⟨segment, after, htokens, hlen, hsays⟩ := exists_says Cache.sound_empty hruns
  refine ⟨segment, after, htokens, hlen, hsays, head, keyword, reading, warnings, ?_, hhead,
    hlen.symm, htokens ▸ h⟩
  obtain ⟨w, span, more, rfl, _⟩ := hsays.keyword
  exact congrArg some (List.cons.inj htokens).1.symm

theorem outcome_sequence_of_append {said : Parsed} {next : List ParsedConcept}
    {after : List Lexeme} {d : Diagnostic}
    (h : outcome (do return said ++ (← s.sequence next after)) = .error d) :
    outcome (s.sequence next after) = .error d := by
  rw [outcome_bind (s.assembled_sequence next after).steady (by simp)] at h
  rcases bind_eq_error.mp h with hsequence | ⟨_, _, hpure⟩
  · exact hsequence
  · cases hpure

theorem sequence_word_eq_error {enclosing : List ParsedConcept} {keyword : String} {head : Lexeme}
    {rest : List Lexeme} {d : Diagnostic} (hword : head.token = .word keyword)
    (h : outcome (s.sequence enclosing (head :: rest)) = .error d) (hcode : d.code.OfBraces) :
    ∃ segment last after c next, head :: rest = segment ++ last :: after ∧
      s.States (contextOf enclosing) segment (last :: after) c ∧ Leaves last c enclosing next ∧
      outcome (s.sequence next after) = .error d := by
  rw [sequence.eq_def] at h
  simp only [hword] at h
  rw [outcome_bind (s.steady_statement _ _ _ _)] at h
  · rcases bind_eq_error.mp h with hstatement | ⟨⟨reading, c, warnings⟩, hstatement, h⟩
    · exact absurd hcode (not_ofBraces_of_statement hstatement)
    · obtain ⟨segment, behind, htokens, hlen, hstates⟩ := exists_states hword hstatement
      have hdrop : (head :: rest).drop reading.consumed = behind := by
        rw [htokens, ← hlen, List.drop_left]
      dsimp only at h
      split at h
      · next inside heq =>
        obtain rfl := heq.symm.trans hdrop
        exact ⟨segment, _, inside, c, c :: enclosing, htokens, hstates, .inr ⟨rfl, rfl⟩,
          outcome_sequence_of_append h⟩
      · next after heq =>
        obtain rfl := heq.symm.trans hdrop
        exact ⟨segment, _, after, c, enclosing, htokens, hstates, .inl ⟨rfl, rfl⟩,
          outcome_sequence_of_append h⟩
      · obtain rfl := Except.error.inj h
        simp [Code.OfBraces] at hcode
  · rintro ⟨reading, c, warnings⟩
    dsimp only
    split
    · exact (Assembled.step (s.assembled_sequence _ _) fun _ => by simp).steady
    · exact (Assembled.step (s.assembled_sequence _ _) fun _ => by simp).steady
    · exact steady_throw _

theorem sequence_eq_error {enclosing : List ParsedConcept} {head : Lexeme} {rest : List Lexeme}
    {d : Diagnostic} (hhead : head.token ≠ .endOfScript)
    (h : outcome (s.sequence enclosing (head :: rest)) = .error d) (hcode : d.code.OfBraces) :
    (head.token = .closeBrace ∧ enclosing = [] ∧ d.code = .unexpectedClosingBrace ∧
      d.location = some (s.script.locate head.span)) ∨
    (∃ c outer, head.token = .closeBrace ∧ enclosing = c :: outer ∧
      outcome (s.sequence outer rest) = .error d) ∨
    ∃ segment last after c next, head :: rest = segment ++ last :: after ∧
      s.States (contextOf enclosing) segment (last :: after) c ∧ Leaves last c enclosing next ∧
      outcome (s.sequence next after) = .error d := by
  by_cases hword : ∃ keyword, head.token = .word keyword
  · obtain ⟨keyword, hword⟩ := hword
    exact .inr (.inr (sequence_word_eq_error hword h hcode))
  · rw [sequence.eq_def] at h
    dsimp only at h
    split at h
    · next heof => exact absurd heof hhead
    · next hclose =>
      cases enclosing with
      | nil =>
        obtain rfl := Except.error.inj h
        exact .inl ⟨hclose, rfl, rfl, rfl⟩
      | cons c outer => exact .inr (.inl ⟨c, outer, hclose, rfl, h⟩)
    · next keyword hkeyword => exact absurd ⟨keyword, hkeyword⟩ hword
    · obtain rfl := Except.error.inj h
      simp [Code.OfBraces] at hcode

/-- What a failure for the sake of a brace says about the tokens: there is a closing brace behind
balanced ones, or concepts are open at the end. -/
theorem sequence_unmatched {enclosing : List ParsedConcept} {ts before after : List Lexeme}
    {eof : Lexeme} {d : Diagnostic} (heof : eof.token = .endOfScript)
    (hts : ∀ l ∈ ts, l.token ≠ .endOfScript) (hsplit : ts = before ++ after)
    (hinside : s.Inside before (after ++ [eof]) enclosing)
    (hstart : ∀ l, before.getLast? = some l → l.token.inStatement = false)
    (h : outcome (s.sequence enclosing (after ++ [eof])) = .error d) (hcode : d.code.OfBraces) :
    (∃ us brace vs, ts = us ++ brace :: vs ∧ brace.token = .closeBrace ∧ Balanced us ∧
      d.code = .unexpectedClosingBrace ∧ d.location = some (s.script.locate brace.span)) ∨
    ∃ c outer, s.Inside ts [eof] (c :: outer) ∧ d.code = .unclosedConcept ∧
      d.location = some c.location ∧
      d.message =
        s!"'{c.node.describe}' is not closed: expected '\x7d' before the end of {s.script.name}" := by
  -- Each step leaves fewer tokens before the end of the script.
  induction hn : after.length using Nat.strongRecOn generalizing enclosing before after with
  | ind n ih =>
    cases after with
    | nil =>
      rw [List.append_nil] at hsplit
      subst hsplit
      rw [List.nil_append, sequence.eq_def] at h
      simp only [heof] at h
      cases enclosing with
      | nil => cases h
      | cons c outer =>
        obtain rfl := Except.error.inj h
        exact .inr ⟨c, outer, hinside, rfl, rfl, rfl⟩
    | cons head rest =>
      have hhead : head.token ≠ .endOfScript := hts head (by simp [hsplit])
      rcases sequence_eq_error hhead h hcode with ⟨hclose, rfl, hd⟩ |
        ⟨c, outer, hclose, rfl, hrest⟩ | ⟨segment, last, behind, c, next, htokens, hstates,
          hleaves, hrest⟩
      · cases hinside with
        | top hbalanced => exact .inl ⟨before, head, rest, hsplit, hclose, hbalanced, hd⟩
      · exact ih rest.length (by simp [← hn]) (by simp [hsplit]) (hinside.close hclose)
          (by simp [hclose, Token.inStatement]) hrest rfl
      · have hends : last.token.inStatement = false := by
          rcases hleaves with ⟨hl, _⟩ | ⟨hl, _⟩ <;> rw [hl] <;> rfl
        have hne : last ≠ eof := by
          rintro rfl
          rcases hleaves with ⟨hl, _⟩ | ⟨hl, _⟩ <;> simp [hl] at heof
        have htokens : head :: rest ++ [eof] = segment ++ last :: behind := htokens
        obtain ⟨us, rfl, hall⟩ := exists_rest htokens hne
        rw [hall] at hsplit hn hinside
        have hlt : us.length < n := by
          rw [← hn, List.length_append, List.length_cons]
          omega
        have hnext : s.Inside (before ++ segment ++ [last]) (us ++ [eof]) next :=
          Inside.statement (by simpa using hinside) hstart hstates hleaves
        exact ih us.length hlt (by simp [hsplit]) hnext (by simp [hends]) hrest rfl

end Statements

theorem Script.code_of_lex {script : Script} {d : Diagnostic} (h : script.lex = .error d) :
    d.code = .lexical := by
  unfold lex at h
  split at h
  · cases h
  · obtain rfl := Except.error.inj h
    rfl

theorem Script.outcome_parse (script : Script) (registry : Registry) (options : Options) :
    outcome (script.parse registry options) = script.lex >>= fun tokens =>
      outcome (Statements.sequence ⟨registry, options, script⟩ [] tokens) :=
  outcome_bind (steady_ofExcept script.lex) fun tokens =>
    (Statements.assembled_sequence _ [] tokens).steady

open Statements in
/-- Failures for the sake of braces point at the right one. A script that is accepted has balanced
braces. A closing brace is unexpected if it is the first one with nothing to close. A concept is not
closed if braces stay open with none closed too many, and it is the concept of the last of them. -/
theorem Script.parse_braces {script : Script} {registry : Registry} {options : Options}
    {cache : Cache} {result : Except Diagnostic Parsed} (hcache : cache.Sound)
    (hresult : ((script.parse registry options).run.run cache).1 = result)
    (hends : (∃ parsed, result = .ok parsed) ∨ ∃ d, result = .error d ∧ d.code.OfBraces) :
    ∃ ts eof, script.lex = .ok (ts ++ [eof]) ∧ eof.token = .endOfScript ∧
      (∀ parsed, result = .ok parsed → Balanced ts) ∧
      (∀ d, result = .error d → d.code = .unexpectedClosingBrace →
        ∃ before brace after, ts = before ++ brace :: after ∧ brace.token = .closeBrace ∧
          opens (before ++ [brace]) < closes (before ++ [brace]) ∧
          (∀ us, us <+: before → closes us ≤ opens us) ∧
          d.location = some (script.locate brace.span)) ∧
      ∀ d, result = .error d → d.code = .unclosedConcept →
        (∀ us, us <+: ts → closes us ≤ opens us) ∧ closes ts < opens ts ∧
        ∃ outer segment brace inner enclosing c, ts = outer ++ segment ++ brace :: inner ∧
          brace.token = .openBrace ∧ Balanced inner ∧
          (∀ l, outer.getLast? = some l → l.token.inStatement = false) ∧
          Inside ⟨registry, options, script⟩ outer (segment ++ brace :: (inner ++ [eof]))
            enclosing ∧
          States ⟨registry, options, script⟩ (contextOf enclosing) segment
            (brace :: (inner ++ [eof])) c ∧
          d.location = some c.location ∧
          d.message =
            s!"'{c.node.describe}' is not closed: expected '\x7d' before the end of {script.name}" := by
  rw [(script.steady_parse registry options).same cache hcache, Script.outcome_parse] at hresult
  cases hlex : script.lex with
  | error e =>
    -- A script without tokens is refused for another reason.
    rw [hlex] at hresult
    obtain rfl : .error e = result := hresult
    rcases hends with ⟨_, hok⟩ | ⟨d, hd, hcode⟩
    · cases hok
    · obtain rfl := Except.error.inj hd
      simp [Code.OfBraces, Script.code_of_lex hlex] at hcode
  | ok tokens =>
    obtain ⟨ts, span, rfl, hts⟩ := Script.lex_end hlex
    rw [hlex, ok_bind] at hresult
    have hunmatched {d : Diagnostic} (hd : result = .error d) (hcode : d.code.OfBraces) :=
      sequence_unmatched rfl hts (List.nil_append ts).symm (.top balanced_nil) (by simp)
        (hresult.trans hd) hcode
    refine ⟨ts, _, rfl, rfl, ?_, ?_, ?_⟩
    · rintro parsed rfl
      obtain ⟨_, hruns⟩ := outcome_eq_ok.mp hresult
      have haccepts := accepts_of_sequence Cache.sound_empty hts rfl hruns
      have hstands := haccepts.stands (List.nil_append _).symm (.top balanced_nil) rfl (by simp)
      simpa using hstands.1
    · intro d hd hcode
      rcases hunmatched hd (.inl hcode) with ⟨us, brace, vs, rfl, hbrace, hbalanced, _, hlocation⟩ |
        ⟨_, _, _, hother, _⟩
      · refine ⟨us, brace, vs, rfl, hbrace, ?_, hbalanced.closes_le, hlocation⟩
        have hcounts : opens [brace] = 0 ∧ closes [brace] = 1 := by
          simp [opens, closes, occurrences, hbrace]
        rw [opens_append, closes_append, hbalanced.closes_eq]
        omega
      · cases hcode.symm.trans hother
    · intro d hd hcode
      rcases hunmatched hd (.inr hcode) with ⟨_, _, _, _, _, _, hother, _⟩ |
        ⟨c, enclosing, hinside, _, hlocation, hmessage⟩
      · cases hcode.symm.trans hother
      · obtain ⟨hclosed, hopen⟩ := hinside.counts
        refine ⟨hclosed, by rw [hopen, List.length_cons]; omega, ?_⟩
        cases hinside with
        | brace houter hstart hstates hbrace hinner =>
          exact ⟨_, _, _, _, enclosing, c, rfl, hbrace, hinner, hstart, houter, hstates, hlocation,
            hmessage⟩

namespace Small

def unclosed : Script := .ofText "unclosed" "Module A \x7b Entity B \x7b \x7d Entity C \x7b"

def overclosed : Script := .ofText "overclosed" "Module A \x7b \x7d \x7d Module B; \x7d"

theorem exists_refused {x : Except Diagnostic Parsed} {code : Code}
    (h : (x.mapError Diagnostic.code).map (fun _ => ()) = .error code) :
    ∃ d, x = .error d ∧ d.code = code := by
  cases x with
  | ok parsed => cases h
  | error d => exact ⟨d, rfl, Except.error.inj h⟩

theorem parse_unclosed :
    ∃ d, outcome (unclosed.parse spoken {}) = .error d ∧ d.code = .unclosedConcept :=
  exists_refused (by decide +kernel)

theorem parse_overclosed :
    ∃ d, outcome (overclosed.parse spoken {}) = .error d ∧ d.code = .unexpectedClosingBrace :=
  exists_refused (by decide +kernel)

end Small

theorem Script.parse_braces_small :
    (∃ d ts eof, outcome (Small.unclosed.parse Small.spoken {}) = .error d ∧
      d.code = .unclosedConcept ∧ Small.unclosed.lex = .ok (ts ++ [eof]) ∧ closes ts < opens ts ∧
      ∃ c : ParsedConcept, d.location = some c.location) ∧
    ∃ d before brace after eof, outcome (Small.overclosed.parse Small.spoken {}) = .error d ∧
      d.code = .unexpectedClosingBrace ∧
      Small.overclosed.lex = .ok (before ++ brace :: after ++ [eof]) ∧
      opens (before ++ [brace]) < closes (before ++ [brace]) ∧
      d.location = some (Small.overclosed.locate brace.span) := by
  constructor
  · obtain ⟨d, hd, hcode⟩ := Small.parse_unclosed
    obtain ⟨ts, eof, hlex, _, _, _, hunclosed⟩ :=
      Script.parse_braces Cache.sound_empty hd (.inr ⟨d, rfl, .inr hcode⟩)
    obtain ⟨_, hopen, _, _, _, _, _, c, _, _, _, _, _, _, hlocation, _⟩ := hunclosed d rfl hcode
    exact ⟨d, ts, eof, hd, hcode, hlex, hopen, c, hlocation⟩
  · obtain ⟨d, hd, hcode⟩ := Small.parse_overclosed
    obtain ⟨ts, eof, hlex, _, _, hoverclosed, _⟩ :=
      Script.parse_braces Cache.sound_empty hd (.inr ⟨d, rfl, .inl hcode⟩)
    obtain ⟨before, brace, after, rfl, _, hcounts, _, hlocation⟩ := hoverclosed d rfl hcode
    exact ⟨d, before, brace, after, eof, hd, hcode, hlex, hcounts, hlocation⟩

end ConceptScript
