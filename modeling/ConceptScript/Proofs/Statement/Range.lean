import ConceptScript.Proofs.Statement.Locality
import ConceptScript.Proofs.Statement.Structure

namespace ConceptScript

open PropertyList (Cache)

/-- Tokens as a script has them: the end of the script comes last, and nowhere else. -/
structure EndsOnce (tokens : List Lexeme) : Prop where
  length_pos : 0 < tokens.length
  end_iff : ∀ i l, tokens[i]? = some l → (l.token = .endOfScript ↔ i + 1 = tokens.length)

theorem Script.endsOnce_of_lex {script : Script} {tokens : List Lexeme}
    (h : script.lex = .ok tokens) : EndsOnce tokens := by
  obtain ⟨ts, span, rfl, hts⟩ := lex_end h
  refine ⟨by simp, fun i l hl => ?_⟩
  rw [List.length_append, List.length_singleton, Nat.add_right_cancel_iff]
  by_cases hi : i < ts.length
  · rw [List.getElem?_append_left hi] at hl
    have hne := hts l (List.mem_of_getElem? hl)
    exact ⟨fun heq => absurd heq hne, fun heq => absurd hi (by omega)⟩
  · rw [List.getElem?_append_right (by omega)] at hl
    have hi' := (List.getElem?_eq_some_iff.mp hl).1
    obtain rfl : i = ts.length := by
      rw [List.length_singleton] at hi'
      omega
    rw [Nat.sub_self] at hl
    obtain rfl := Option.some.inj hl
    exact ⟨fun _ => rfl, fun _ => rfl⟩

/-- From one index up to another one, all tokens stand inside of statements. -/
def Interior (tokens : List Lexeme) (start stop : Nat) : Prop :=
  ∀ i, start ≤ i → i < stop → ∃ l, tokens[i]? = some l ∧ l.token.inStatement = true

/-- The first token from an index on that belongs to no statement. -/
structure FirstEnd (tokens : List Lexeme) (start stop : Nat) : Prop where
  start_le : start ≤ stop
  interior : Interior tokens start stop
  ends : ∃ l, tokens[stop]? = some l ∧ l.token.inStatement = false

theorem FirstEnd.le_of_interior {tokens : List Lexeme} {start next stop : Nat}
    (h : FirstEnd tokens start stop) (hinterior : Interior tokens start next) : next ≤ stop := by
  by_contra hlt
  obtain ⟨l, hl, hin⟩ := hinterior stop h.start_le (by omega)
  obtain ⟨l', hl', hend⟩ := h.ends
  obtain rfl := Option.some.inj (hl.symm.trans hl')
  simp [hin] at hend

theorem FirstEnd.unique {tokens : List Lexeme} {start stop stop' : Nat}
    (h : FirstEnd tokens start stop) (h' : FirstEnd tokens start stop') : stop = stop' :=
  Nat.le_antisymm (h'.le_of_interior h.interior) (h.le_of_interior h'.interior)

namespace EndsOnce

variable {tokens : List Lexeme} (h : EndsOnce tokens)
include h

theorem succ_lt {i : Nat} {l : Lexeme} (hl : tokens[i]? = some l)
    (hne : l.token ≠ .endOfScript) : i + 1 < tokens.length := by
  have hi := (List.getElem?_eq_some_iff.mp hl).1
  have := (h.end_iff i l hl).not.mp hne
  omega

theorem succ_lt_of_inStatement {i : Nat} {l : Lexeme} (hl : tokens[i]? = some l)
    (hin : l.token.inStatement = true) : i + 1 < tokens.length := by
  refine h.succ_lt hl ?_
  intro heq
  simp [heq, Token.inStatement] at hin

theorem exists_firstEnd {start : Nat} (hs : start < tokens.length) :
    ∃ stop, FirstEnd tokens start stop := by
  induction hn : tokens.length - start using Nat.strongRecOn generalizing start with
  | ind n ih =>
    have hl : tokens[start]? = some tokens[start] := List.getElem?_eq_getElem hs
    cases hin : tokens[start].token.inStatement with
    | false => exact ⟨start, Nat.le_refl _, fun i hi hlt => absurd hlt (by omega), _, hl, hin⟩
    | true =>
      have hnext := h.succ_lt_of_inStatement hl hin
      obtain ⟨stop, hle, hinterior, hends⟩ := ih _ (by omega) hnext rfl
      refine ⟨stop, by omega, fun i hi hlt => ?_, hends⟩
      by_cases heq : i = start
      · exact ⟨_, heq ▸ hl, hin⟩
      · exact hinterior i (by omega) hlt

end EndsOnce

/-- Tokens that are the same up to one that belongs to no statement are the same to a reading. -/
theorem front_eq_of_take {ts us : List Lexeme} {n : Nat} {last : Lexeme}
    (hlast : ts[n]? = some last) (hend : last.token.inStatement = false)
    (h : (us.take (n + 1)).map Lexeme.token = (ts.take (n + 1)).map Lexeme.token) :
    front ts = front us := by
  induction ts generalizing us n with
  | nil => simp at hlast
  | cons l ts ih =>
    rw [List.take_succ_cons, List.map_cons] at h
    obtain ⟨l', rest, hus, hl, hrest⟩ := List.map_eq_cons_iff.mp h
    obtain ⟨us, rfl, rfl⟩ : ∃ us', us = l' :: us' ∧ us'.take n = rest := by
      cases us with
      | nil => simp at hus
      | cons a us =>
        obtain ⟨rfl, rfl⟩ := List.cons.inj hus
        exact ⟨us, rfl, rfl⟩
    rw [front, front, hl]
    split
    · next hin =>
      cases n with
      | zero =>
        obtain rfl := Option.some.inj hlast
        simp [hend] at hin
      | succ n => rw [ih hlast hrest]
    · rfl

namespace Reader

variable {r : Reader} {context : Option Node} {cache cache' : Cache}

/-- Reads a statement as `read` does, and also gives the tokens behind it. -/
def readTo (r : Reader) (context : Option Node) :
    List Lexeme → Attempt (Reading × List Lexeme)
  | ⟨.word w, _⟩ :: rest =>
    if r.type.keyword? = some w then do
      let (node, members) ← r.started context
      let (node, c) ← r.bind node ⟨rest, []⟩ members
      let reading ← r.finished node (rest.length + 1 - c.tokens.length) c.pending
      return (reading, c.tokens)
    else throw .silent
  | _ => throw .silent

theorem read_eq_readTo (context : Option Node) (tokens : List Lexeme) :
    r.read context tokens = Prod.fst <$> r.readTo context tokens := by
  cases tokens with
  | nil => rfl
  | cons l rest =>
    obtain ⟨token, span⟩ := l
    cases token with
    | word w =>
      rw [read_cons, readTo]
      split
      · simp
      · rfl
    | _ => rfl

theorem readTo_extent {tokens rest : List Lexeme} {reading : Reading}
    (h : Runs (r.readTo context tokens) cache (reading, rest) cache') :
    ∃ segment, tokens = segment ++ rest ∧ segment.length = reading.consumed ∧ segment ≠ [] ∧
      ∀ l ∈ segment, l.token.inStatement = true := by
  unfold readTo at h
  split at h
  · next w span more =>
    split at h
    · simp only [runs_bind, Prod.exists, runs_pure, Prod.mk.injEq] at h
      obtain ⟨_, _, _, _, node, c, _, hbind, _, _, hfinished, ⟨rfl, rfl⟩, rfl⟩ := h
      obtain ⟨used, hused, hinside, _⟩ := takes_bind hbind
      dsimp only at hused
      refine ⟨⟨.word w, span⟩ :: used, by rw [hused, List.cons_append], ?_, by simp,
        List.forall_mem_cons.mpr ⟨rfl, hinside⟩⟩
      unfold finished at hfinished
      split at hfinished
      · obtain ⟨rfl, _⟩ := runs_pure.mp hfinished
        simp only [hused, List.length_append, List.length_cons]
        omega
      · exact absurd hfinished not_runs_mismatch
    · exact absurd h not_runs_throw
  · exact absurd h not_runs_throw

/-- A reading that starts at one index and leaves the tokens from another one on. -/
structure Spans (r : Reader) (context : Option Node) (tokens : List Lexeme) (start next : Nat)
    (cache : Cache) (reading : Reading) (cache' : Cache) : Prop where
  progress : start < next
  next_lt : next < tokens.length
  consumed_eq : reading.consumed = next - start
  interior : Interior tokens start next
  rest : Runs (r.readTo context (tokens.drop start)) cache (reading, tokens.drop next) cache'

theorem exists_spans {tokens : List Lexeme} (hends : EndsOnce tokens) {start : Nat}
    {reading : Reading} (h : Runs (r.read context (tokens.drop start)) cache reading cache') :
    ∃ next, r.Spans context tokens start next cache reading cache' := by
  rw [read_eq_readTo, runs_map] at h
  obtain ⟨⟨_, rest⟩, h, rfl⟩ := h
  obtain ⟨segment, htokens, hlength, hne, hinside⟩ := readTo_extent h
  have hpos := List.length_pos_iff.mpr hne
  have hdrop : rest = tokens.drop (start + segment.length) := by
    rw [← List.drop_drop, htokens, List.drop_left]
  have hinterior : Interior tokens start (start + segment.length) := by
    intro i hi hlt
    have hk : i - start < segment.length := by omega
    refine ⟨segment[i - start], ?_, hinside _ (List.getElem_mem hk)⟩
    have hget : (tokens.drop start)[i - start]? = some segment[i - start] := by
      rw [htokens, List.getElem?_append_left hk, List.getElem?_eq_getElem hk]
    rwa [List.getElem?_drop, Nat.add_sub_cancel' hi] at hget
  obtain ⟨l, hl, hin⟩ := hinterior (start + segment.length - 1) (by omega) (by omega)
  have hlt := hends.succ_lt_of_inStatement hl hin
  exact ⟨start + segment.length, by omega, by omega, by rw [Nat.add_sub_cancel_left, hlength],
    hinterior, hdrop ▸ h⟩

/-- What is read depends on the tokens up to the first one that belongs to no statement. -/
theorem read_local (script : Script) {tokens tokens' : List Lexeme} {start start' stop : Nat}
    (hstop : FirstEnd tokens start stop)
    (hsame : ((tokens'.drop start').take (stop + 1 - start)).map Lexeme.token =
      ((tokens.drop start).take (stop + 1 - start)).map Lexeme.token)
    (hcache : cache.Sound) (hcache' : cache'.Sound) :
    Corresponds Failure.Alike Eq ((r.read context (tokens.drop start)).run.run cache).1
      (({ r with script }.read context (tokens'.drop start')).run.run cache').1 := by
  obtain ⟨last, hlast, hend⟩ := hstop.ends
  have hlast' : (tokens.drop start)[stop - start]? = some last := by
    rw [List.getElem?_drop, Nat.add_sub_cancel' hstop.start_le, hlast]
  rw [Nat.succ_sub hstop.start_le] at hsame
  rw [(r.steady_read _ _).same cache hcache, (Reader.steady_read _ _ _).same cache' hcache']
  exact (read_lockstep script context (front_eq_of_take hlast' hend hsame) {}).1

end Reader

/-- Why a run over the indexes of tokens ends without a result. -/
inductive Halt where
  /-- The script is refused. -/
  | refused
  /-- A token is asked for where there is none. -/
  | outside (index : Nat)
  /-- A statement takes up no token. -/
  | stalled (index : Nat)
  /-- The rounds are used up. -/
  | exhausted

abbrev Checked := ExceptT Halt (StateM Cache)

namespace Checked

variable {α : Type}

def token (tokens : List Lexeme) (index : Nat) : Checked Lexeme :=
  tokens[index]?.elim (throw (.outside index)) pure

/-- A computation that does not ask for tokens by their index. -/
def ofParsing (x : Parsing α) : Checked α := ExceptT.adapt (fun _ => .refused) x

theorem token_eq {tokens : List Lexeme} {index : Nat} {l : Lexeme}
    (h : tokens[index]? = some l) : token tokens index = pure l := by
  rw [token, h]
  rfl

end Checked

/-- A failure of parsing, where the checks find nothing. -/
abbrev Refuses (_ : Diagnostic) (halt : Halt) : Prop := halt = .refused

theorem refuses_ofParsing {α : Type} (x : Parsing α) :
    Lockstep Refuses Eq x (Checked.ofParsing x) := by
  intro cache
  change Corresponds Refuses Eq (x.run.run cache).1
    ((Except.mapError (fun _ => Halt.refused)) (x.run.run cache).1) ∧ _
  refine ⟨?_, rfl⟩
  cases (x.run.run cache).1 with
  | ok a => exact .ok rfl
  | error d => exact .error rfl

theorem Lockstep.prepend {x : Parsing Parsed} {y : Checked Parsed} (h : Lockstep Refuses Eq x y)
    (said : Parsed) :
    Lockstep Refuses Eq (do return said ++ (← x)) (do return said ++ (← y)) := by
  apply h.bind
  rintro more _ rfl
  exact .pure rfl

namespace Statements

/-- The statement at an index of the tokens. The tokens at which it and its longest reading end are
looked up for the sake of their places. -/
def statementAt (s : Statements) (context : Option Node) (keyword : String) (tokens : List Lexeme)
    (start : Nat) : Checked (Reading × ParsedConcept × List Warning) := do
  let head ← Checked.token tokens start
  let candidates := s.registry.withKeyword keyword
  if candidates.isEmpty then throw .refused
  let (readings, _) ← .ofParsing (s.readings context (tokens.drop start) candidates)
  if readings.isEmpty then throw .refused
  let furthest := start + (readings.map Reading.consumed).max?.getD 1
  let last ← Checked.token tokens (max (furthest - 1) start)
  let span : Span := ⟨head.span.start, last.span.stop⟩
  let (chosen, warning) ← .ofParsing (liftM (choose readings keyword (s.script.locate span)))
  let next := start + chosen.consumed
  let last ← Checked.token tokens (max (next - 1) start)
  let location := s.script.locate ⟨head.span.start, last.span.stop⟩
  let notes := chosen.notes.map fun note => (⟨note, location⟩ : Warning)
  return (chosen, ⟨chosen.node, location⟩, notes ++ warning.toList)

/-- The statements from an index on, in so many rounds. -/
def drive (s : Statements) (tokens : List Lexeme) :
    Nat → List ParsedConcept → Nat → Checked Parsed
  | 0, _, _ => throw .exhausted
  | rounds + 1, enclosing, start => do
    let head ← Checked.token tokens start
    match head.token with
    | .endOfScript => .ofParsing (s.finish enclosing)
    | .closeBrace =>
      if enclosing.isEmpty then throw .refused
      s.drive tokens rounds enclosing.tail (start + 1)
    | .word keyword => do
      let (reading, parsed, warnings) ←
        s.statementAt (contextOf enclosing) keyword tokens start
      let next := start + reading.consumed
      if next ≤ start then throw (.stalled start)
      let terminator ← Checked.token tokens next
      match terminator.token with
      | .openBrace =>
        return ⟨[parsed], warnings⟩ ++ (← s.drive tokens rounds (parsed :: enclosing) (next + 1))
      | .semicolon =>
        return ⟨[parsed], warnings⟩ ++ (← s.drive tokens rounds enclosing (next + 1))
      | _ => throw .refused
    | _ => throw .refused

variable {s : Statements} {context : Option Node} {tokens : List Lexeme}

section Checks

theorem token_of_count (head : Lexeme) {start count : Nat} (hpos : 0 < count)
    (hlt : start + count < tokens.length) :
    Checked.token tokens (max (start + count - 1) start) =
      pure ((tokens.drop start).getD (count - 1) head) := by
  have hindex : max (start + count - 1) start = start + (count - 1) := by omega
  have hlt' : start + (count - 1) < tokens.length := by omega
  apply Checked.token_eq
  rw [hindex, List.getD_eq_getElem?_getD, List.getElem?_drop, List.getElem?_eq_getElem hlt',
    Option.getD_some]

variable (hends : EndsOnce tokens)
include hends

theorem readings_in_range {cache cache' : Cache} {types : List ConceptType}
    {readings : List Reading} {reasons : List Mismatch} {start : Nat}
    (h : Runs (s.readings context (tokens.drop start) types) cache (readings, reasons) cache')
    {r : Reading} (hr : r ∈ readings) :
    0 < r.consumed ∧ start + r.consumed < tokens.length := by
  obtain ⟨t, _, first, last, _, hread⟩ := runs_of_readings h hr
  obtain ⟨next, hspans⟩ := Reader.exists_spans hends hread
  have := hspans.progress
  have := hspans.next_lt
  rw [hspans.consumed_eq]
  omega

theorem statementAt_lockstep {start : Nat} {head : Lexeme} (hhead : tokens[start]? = some head)
    (keyword : String) :
    Lockstep Refuses
      (fun a b => a = b ∧ 0 < a.1.consumed ∧ start + a.1.consumed < tokens.length)
      (s.statement context keyword head (tokens.drop start))
      (s.statementAt context keyword tokens start) := by
  unfold statement statementAt
  simp only [throw_bind]
  rw [Checked.token_eq hhead, pure_bind]
  apply Lockstep.ite
  · intro _
    exact .throw rfl
  · intro _
    apply (refuses_ofParsing (s.readings _ _ _)).ran.bind
    rintro ⟨readings, reasons⟩ _ ⟨rfl, ⟨_, _, hreadings⟩, _⟩
    dsimp only
    apply Lockstep.ite
    · intro _
      exact .throw rfl
    · intro hne
      have hrange := fun r => readings_in_range hends hreadings (r := r)
      obtain ⟨first, hfirst⟩ := List.exists_mem_of_ne_nil readings (by simpa using hne)
      have hmem : first.consumed ∈ readings.map Reading.consumed := List.mem_map_of_mem hfirst
      obtain ⟨_, hmost⟩ := Option.isSome_iff_exists.mp (List.isSome_max?_of_mem hmem)
      obtain ⟨longest, hlongest, rfl⟩ := List.mem_map.mp (List.max?_mem hmost)
      obtain ⟨hpos, hlt⟩ := hrange longest hlongest
      rw [hmost, Option.getD_some, token_of_count head hpos hlt, pure_bind]
      apply (refuses_ofParsing (liftM (choose readings keyword _))).ran.bind
      rintro ⟨chosen, warning⟩ _ ⟨rfl, ⟨_, _, hchoose⟩, _⟩
      have hchosen := mem_of_choose (runs_ofExcept.mp hchoose).1
      obtain ⟨hpos, hlt⟩ := hrange chosen hchosen
      rw [token_of_count head hpos hlt, pure_bind]
      exact .pure ⟨rfl, hpos, hlt⟩

theorem drive_lockstep {rounds start : Nat} (enclosing : List ParsedConcept)
    (hstart : start < tokens.length) (hrounds : tokens.length - start ≤ rounds) :
    Lockstep Refuses Eq (s.sequence enclosing (tokens.drop start))
      (s.drive tokens rounds enclosing start) := by
  induction rounds generalizing enclosing start with
  | zero => omega
  | succ rounds ih =>
    have hhead : tokens[start]? = some tokens[start] := List.getElem?_eq_getElem hstart
    have hdrop : tokens.drop start = tokens[start] :: tokens.drop (start + 1) :=
      List.drop_eq_getElem_cons hstart
    rw [drive, Checked.token_eq hhead, pure_bind]
    generalize tokens[start] = head at hhead hdrop
    rw [hdrop, sequence.eq_def]
    dsimp only
    cases htoken : head.token with
    | endOfScript => exact refuses_ofParsing (s.finish enclosing)
    | closeBrace =>
      have hnext := hends.succ_lt hhead (by simp [htoken])
      cases enclosing with
      | nil => exact .throw rfl
      | cons c outer => exact ih outer hnext (by omega)
    | word keyword =>
      dsimp only
      rw [← hdrop]
      apply (statementAt_lockstep hends hhead keyword).bind
      rintro ⟨reading, c, warnings⟩ _ ⟨rfl, hpos, hlt⟩
      dsimp only at hpos hlt ⊢
      have hlast : tokens[start + reading.consumed]? = some tokens[start + reading.consumed] :=
        List.getElem?_eq_getElem hlt
      have hrest : (tokens.drop start).drop reading.consumed =
          tokens[start + reading.consumed] :: tokens.drop (start + reading.consumed + 1) := by
        rw [List.drop_drop, List.drop_eq_getElem_cons hlt]
      rw [if_neg (by omega), Checked.token_eq hlast, pure_bind]
      generalize tokens[start + reading.consumed] = last at hlast hrest
      -- A token that ends the statement has another one behind it, where the next round begins.
      split
      · next hinside =>
        obtain ⟨rfl, rfl⟩ := List.cons.inj (hrest.symm.trans hinside)
        have hnext := hends.succ_lt hlast (by simp)
        exact (ih (c :: enclosing) hnext (by omega)).prepend ⟨[c], warnings⟩
      · next hafter =>
        obtain ⟨rfl, rfl⟩ := List.cons.inj (hrest.symm.trans hafter)
        have hnext := hends.succ_lt hlast (by simp)
        exact (ih enclosing hnext (by omega)).prepend ⟨[c], warnings⟩
      · next hopen hsemicolon =>
        obtain ⟨token, span⟩ := last
        cases token with
        | openBrace => exact absurd hrest (hopen _ _)
        | semicolon => exact absurd hrest (hsemicolon _ _)
        | _ => exact .throw rfl
    | _ => exact .throw rfl

end Checks

end Statements

theorem Script.parse_eq_sequence {script : Script} {tokens : List Lexeme}
    (h : script.lex = .ok tokens) (registry : Registry) (options : Options) :
    script.parse registry options = Statements.sequence ⟨registry, options, script⟩ [] tokens := by
  unfold Script.parse
  rw [h]
  rfl

theorem Script.drive_lockstep {script : Script} {tokens : List Lexeme}
    (h : script.lex = .ok tokens) (registry : Registry) (options : Options) :
    Lockstep Refuses Eq (script.parse registry options)
      (Statements.drive ⟨registry, options, script⟩ tokens tokens.length [] 0) := by
  have hends := endsOnce_of_lex h
  rw [parse_eq_sequence h, ← tokens.drop_zero]
  exact Statements.drive_lockstep hends [] hends.length_pos (by simp)

namespace Small

def nested : Script := .ofText "nested" "Module A \x7b Entity B; \x7d"

def tokens : List Lexeme := [
  ⟨.word "Module", ⟨0, 6⟩⟩, ⟨.word "A", ⟨7, 8⟩⟩, ⟨.openBrace, ⟨9, 10⟩⟩,
  ⟨.word "Entity", ⟨11, 17⟩⟩, ⟨.word "B", ⟨18, 19⟩⟩, ⟨.semicolon, ⟨19, 20⟩⟩,
  ⟨.closeBrace, ⟨21, 22⟩⟩, ⟨.endOfScript, ⟨22, 22⟩⟩]

theorem lex_nested : nested.lex = .ok tokens := toOption_eq_some.mp (by decide +kernel)

theorem firstEnd_entity : FirstEnd tokens 3 5 := by
  refine ⟨by omega, fun i hle hlt => ?_, _, rfl, rfl⟩
  obtain rfl | rfl : i = 3 ∨ i = 4 := by omega
  · exact ⟨_, rfl, rfl⟩
  · exact ⟨_, rfl, rfl⟩

def entities (script : Script) : Reader :=
  ⟨spoken, script, { entityType with keyword? := some "Entity" }⟩

theorem read_entity :
    (outcome ((entities nested).read (some (module "A")) (tokens.drop 3))).toOption.map
      Reading.consumed = some 2 := by
  decide +kernel

end Small

/-- A type that reads a statement of a script stays inside of the statement. It takes up its keyword
at least and stops in front of the first token that belongs to no statement; what it reads, or how
it fails, depends on the tokens up to that one. So a script can be parsed by the indexes of its
tokens: there is a token at each index that is looked at, each statement takes up some, and there
are as many rounds as tokens at most. -/
theorem Script.parse_in_range {script : Script} {tokens : List Lexeme}
    (hlex : script.lex = .ok tokens) (registry : Registry) :
    EndsOnce tokens ∧
      (∀ (type : ConceptType) (context : Option Node) (start : Nat), start < tokens.length →
        ∃ stop, FirstEnd tokens start stop ∧
          (∀ (cache cache' : Cache) (reading : Reading),
            Runs (Reader.read ⟨registry, script, type⟩ context (tokens.drop start)) cache reading
              cache' →
            ∃ next ≤ stop, Reader.Spans ⟨registry, script, type⟩ context tokens start next cache
              reading cache') ∧
          ∀ (script' : Script) (tokens' : List Lexeme) (start' : Nat),
            ((tokens'.drop start').take (stop + 1 - start)).map Lexeme.token =
              ((tokens.drop start).take (stop + 1 - start)).map Lexeme.token →
            ∀ cache cache' : Cache, cache.Sound → cache'.Sound →
              Corresponds Failure.Alike Eq
                ((Reader.read ⟨registry, script, type⟩ context (tokens.drop start)).run.run cache).1
                ((Reader.read ⟨registry, script', type⟩ context (tokens'.drop start')).run.run
                  cache').1) ∧
      ∀ options, Lockstep Refuses Eq (script.parse registry options)
        (Statements.drive ⟨registry, options, script⟩ tokens tokens.length [] 0) := by
  have hends := endsOnce_of_lex hlex
  refine ⟨hends, fun type context start hstart => ?_, drive_lockstep hlex registry⟩
  obtain ⟨stop, hstop⟩ := hends.exists_firstEnd hstart
  refine ⟨stop, hstop, fun cache cache' reading hread => ?_, ?_⟩
  · obtain ⟨next, hspans⟩ := Reader.exists_spans hends hread
    exact ⟨next, hstop.le_of_interior hspans.interior, hspans⟩
  · intro script' tokens' start' hsame cache cache' hcache hcache'
    exact Reader.read_local script' hstop hsame hcache hcache'

/-- The entity is read from two tokens, also where its statement stands in another script. -/
theorem Script.parse_in_range_nested :
    Small.nested.lex = .ok Small.tokens ∧
      (∃ reading cache,
        (Small.entities Small.nested).Spans (some (Small.module "A")) Small.tokens 3 5 {} reading
          cache ∧
        outcome ((Small.entities Small.script).read (some (Small.module "A"))
          ((Small.tokens.drop 3).take 3)) = .ok reading) ∧
      Lockstep Refuses Eq (Small.nested.parse Small.spoken {})
        (Statements.drive ⟨Small.spoken, {}, Small.nested⟩ Small.tokens 8 [] 0) := by
  obtain ⟨_, hreads, hdrive⟩ := Script.parse_in_range Small.lex_nested Small.spoken
  refine ⟨Small.lex_nested, ?_, hdrive {}⟩
  obtain ⟨stop, hstop, hspans, hlocal⟩ :=
    hreads (Small.entities Small.nested).type (some (Small.module "A")) 3 (by decide)
  obtain rfl := hstop.unique Small.firstEnd_entity
  obtain ⟨reading, hreading, hconsumed⟩ := Option.map_eq_some_iff.mp Small.read_entity
  obtain ⟨cache, hruns⟩ := outcome_eq_ok.mp (toOption_eq_some.mp hreading)
  obtain ⟨next, _, hnext⟩ := hspans {} cache reading hruns
  obtain rfl : next = 5 := by
    have := hnext.progress
    have := hnext.consumed_eq
    omega
  have hsame : Corresponds Failure.Alike Eq
      (outcome ((Small.entities Small.nested).read (some (Small.module "A"))
        (Small.tokens.drop 3)))
      (outcome ((Small.entities Small.script).read (some (Small.module "A"))
        ((Small.tokens.drop 3).take 3))) :=
    hlocal Small.script ((Small.tokens.drop 3).take 3) 0 rfl {} {} Cache.sound_empty
      Cache.sound_empty
  rw [toOption_eq_some.mp hreading] at hsame
  refine ⟨reading, cache, hnext, ?_⟩
  generalize outcome ((Small.entities Small.script).read _ _) = answer at hsame ⊢
  cases hsame with
  | ok heq => rw [heq]

end ConceptScript
