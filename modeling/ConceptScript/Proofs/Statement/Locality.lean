import ConceptScript.Proofs.Statement.Extent

namespace ConceptScript

open PropertyList (Cache)

section Lockstep

variable {ε δ α β γ η : Type} {E : ε → δ → Prop} {R : α → β → Prop} {S : γ → η → Prop}

/-- Two results that correspond, or two failures that do. -/
inductive Corresponds (E : ε → δ → Prop) (R : α → β → Prop) : Except ε α → Except δ β → Prop
  | ok {a : α} {b : β} : R a b → Corresponds E R (.ok a) (.ok b)
  | error {e : ε} {d : δ} : E e d → Corresponds E R (.error e) (.error d)

/-- From the same point, the two computations come to results that correspond and remember the
same. -/
def Lockstep (E : ε → δ → Prop) (R : α → β → Prop) (x : ExceptT ε (StateM Cache) α)
    (y : ExceptT δ (StateM Cache) β) : Prop :=
  ∀ cache : Cache, Corresponds E R (x.run.run cache).1 (y.run.run cache).1 ∧
    (x.run.run cache).2 = (y.run.run cache).2

namespace Lockstep

variable {x : ExceptT ε (StateM Cache) α} {y : ExceptT δ (StateM Cache) β}
  {f : α → ExceptT ε (StateM Cache) γ} {g : β → ExceptT δ (StateM Cache) η}

theorem pure {a : α} {b : β} (h : R a b) :
    Lockstep E R (pure a : ExceptT ε (StateM Cache) α) (Pure.pure b : ExceptT δ (StateM Cache) β) :=
  fun _ => ⟨.ok h, rfl⟩

theorem throw {e : ε} {d : δ} (h : E e d) :
    Lockstep E R (throw e : ExceptT ε (StateM Cache) α)
      (MonadExcept.throw d : ExceptT δ (StateM Cache) β) :=
  fun _ => ⟨.error h, rfl⟩

theorem ofExcept {x : Except ε α} {y : Except δ β} (h : Corresponds E R x y) :
    Lockstep E R (liftM x : ExceptT ε (StateM Cache) α) (liftM y : ExceptT δ (StateM Cache) β) :=
  fun _ => ⟨h, rfl⟩

theorem refl {E : ε → ε → Prop} (hE : ∀ e, E e e) (x : ExceptT ε (StateM Cache) α) :
    Lockstep E Eq x x := by
  intro cache
  refine ⟨?_, rfl⟩
  cases (x.run.run cache).1 with
  | ok a => exact .ok rfl
  | error e => exact .error (hE e)

theorem bind (h : Lockstep E R x y) (hf : ∀ a b, R a b → Lockstep E S (f a) (g b)) :
    Lockstep E S (x >>= f) (y >>= g) := by
  intro cache
  have hstep := h cache
  rw [run_bind, run_bind]
  generalize x.run.run cache = p at hstep ⊢
  generalize y.run.run cache = q at hstep ⊢
  obtain ⟨a, first⟩ := p
  obtain ⟨b, first'⟩ := q
  obtain ⟨hresults, rfl : first = first'⟩ := hstep
  dsimp only at hresults
  cases hresults with
  | ok hR => exact hf _ _ hR first
  | error he => exact ⟨.error he, rfl⟩

theorem bind_right {g : β → ExceptT δ (StateM Cache) γ} {S : α → γ → Prop} (h : Lockstep E R x y)
    (hg : ∀ a b, R a b → Lockstep E S (Pure.pure a) (g b)) : Lockstep E S x (y >>= g) := by
  rw [← bind_pure x]
  exact h.bind hg

theorem ite {p : Prop} [Decidable p] {x' : ExceptT ε (StateM Cache) α}
    {y' : ExceptT δ (StateM Cache) β} (h : p → Lockstep E R x y) (h' : ¬p → Lockstep E R x' y') :
    Lockstep E R (if p then x else x') (if p then y else y') := by
  by_cases hp : p
  · rw [if_pos hp, if_pos hp]
    exact h hp
  · rw [if_neg hp, if_neg hp]
    exact h' hp

theorem runs (h : Lockstep E R x y) {cache cache' : Cache} {a : α} (hx : Runs x cache a cache') :
    ∃ b, Runs y cache b cache' ∧ R a b := by
  obtain ⟨hresults, hcache⟩ := h cache
  rw [hx] at hresults hcache
  cases hy : (y.run.run cache).1 with
  | ok b =>
    rw [hy] at hresults
    cases hresults with
    | ok hR => exact ⟨b, Prod.ext hy hcache.symm, hR⟩
  | error d =>
    rw [hy] at hresults
    cases hresults

theorem runs_iff {y : ExceptT δ (StateM Cache) α} (h : Lockstep E Eq x y) {cache cache' : Cache}
    {a : α} : Runs x cache a cache' ↔ Runs y cache a cache' := by
  constructor
  · intro hx
    obtain ⟨b, hy, rfl⟩ := h.runs hx
    exact hy
  · intro hy
    obtain ⟨hresults, hcache⟩ := h cache
    rw [hy] at hresults hcache
    cases hx : (x.run.run cache).1 with
    | ok b =>
      rw [hx] at hresults
      cases hresults with
      | ok hab => exact Prod.ext (hx.trans (congrArg Except.ok hab)) hcache
    | error e =>
      rw [hx] at hresults
      cases hresults

/-- The results that correspond are results of the two computations. -/
theorem ran (h : Lockstep E R x y) :
    Lockstep E (fun a b => R a b ∧ (∃ cache cache', Runs x cache a cache') ∧
      ∃ cache cache', Runs y cache b cache') x y := by
  intro cache
  obtain ⟨hresults, hcache⟩ := h cache
  refine ⟨?_, hcache⟩
  cases hx : (x.run.run cache).1 with
  | ok a =>
    cases hy : (y.run.run cache).1 with
    | ok b =>
      rw [hx, hy] at hresults
      cases hresults with
      | ok hR => exact .ok ⟨hR, ⟨cache, _, Prod.ext hx rfl⟩, cache, _, Prod.ext hy rfl⟩
    | error d =>
      rw [hx, hy] at hresults
      cases hresults
  | error e =>
    cases hy : (y.run.run cache).1 with
    | ok b =>
      rw [hx, hy] at hresults
      cases hresults
    | error d =>
      rw [hx, hy] at hresults
      cases hresults with
      | error he => exact .error he

theorem lift {κ μ : Type} {F : κ → μ → Prop} (h : Lockstep E R x y) :
    Lockstep F (Corresponds E R) (ExceptT.lift x.run : ExceptT κ (StateM Cache) (Except ε α))
      (ExceptT.lift y.run : ExceptT μ (StateM Cache) (Except δ β)) :=
  fun cache => ⟨.ok (h cache).1, (h cache).2⟩

end Lockstep

end Lockstep

/-- The same failure, maybe in another place. -/
structure Diagnostic.Alike (d e : Diagnostic) : Prop where
  code : d.code = e.code
  message : d.message = e.message
  causes : d.causes = e.causes
  details : d.details = e.details

theorem Diagnostic.Alike.refl (d : Diagnostic) : d.Alike d := ⟨rfl, rfl, rfl, rfl⟩

inductive Failure.Alike : Failure → Failure → Prop
  | silent : Alike .silent .silent
  | mismatch (reason : Mismatch) : Alike (.mismatch reason) (.mismatch reason)
  | fatal {d e : Diagnostic} : d.Alike e → Alike (.fatal d) (.fatal e)

theorem Failure.Alike.refl (f : Failure) : f.Alike f := by
  cases f with
  | silent => exact .silent
  | mismatch reason => exact .mismatch reason
  | fatal d => exact .fatal (.refl d)

/-- The tokens of a statement and the one behind it, from the front of some tokens. -/
def front : List Lexeme → List Token
  | [] => [.endOfScript]
  | l :: rest => if l.token.inStatement then l.token :: front rest else [l.token]

theorem front_append {used : List Lexeme} (h : ∀ l ∈ used, l.token.inStatement = true)
    (rest : List Lexeme) : front (used ++ rest) = used.map Lexeme.token ++ front rest := by
  induction used with
  | nil => rfl
  | cons l used ih =>
    obtain ⟨hl, hused⟩ := List.forall_mem_cons.mp h
    rw [List.cons_append, front, if_pos hl, ih hused]
    rfl

namespace Cursor

variable {c d : Cursor}

/-- Where the next token stands. -/
def span (c : Cursor) : Span := (c.tokens.head?.map Lexeme.span).getD ⟨0, 0⟩

theorem front_eq (c : Cursor) :
    front c.tokens = c.peek :: if c.peek.inStatement then front c.tokens.tail else [] := by
  obtain ⟨tokens, pending⟩ := c
  cases tokens with
  | nil => rfl
  | cons l rest =>
    rw [front, peek]
    split <;> simp_all

/-- Two cursors from which a statement goes on alike. -/
structure Alike (c d : Cursor) : Prop where
  front : front c.tokens = front d.tokens
  pending : c.pending = d.pending

theorem Alike.peek (h : c.Alike d) : c.peek = d.peek := by
  have hfront := h.front
  rw [front_eq, front_eq d] at hfront
  exact (List.cons.inj hfront).1

theorem Alike.tail (h : c.Alike d) (hin : c.peek.inStatement = true) :
    ConceptScript.front c.tokens.tail = ConceptScript.front d.tokens.tail := by
  have hfront := h.front
  rw [front_eq, front_eq d, ← h.peek, if_pos hin, if_pos hin] at hfront
  exact (List.cons.inj hfront).2

theorem Alike.advance (h : c.Alike d) (hin : c.peek.inStatement = true) :
    c.advance.Alike d.advance := ⟨h.tail hin, h.pending⟩

end Cursor

namespace Reader

variable {α : Type} {r : Reader} (script : Script) {m : Member} {c d : Cursor}

/-- The two steps find the same and go on from cursors that are alike. -/
abbrev SameStep (x y : Attempt (α × Cursor)) : Prop :=
  Lockstep Failure.Alike (fun a b => a.1 = b.1 ∧ a.2.Alike b.2) x y

theorem fatal_lockstep {β : Type} {R : α → β → Prop} (span span' : Span) (fault : ListFault) :
    Lockstep Failure.Alike R (r.fatal span fault : Attempt α)
      ({ r with script }.fatal span' fault : Attempt β) :=
  .throw (.fatal ⟨rfl, rfl, rfl, rfl⟩)

theorem mismatch_lockstep {β : Type} {R : α → β → Prop} (reason : Mismatch) :
    Lockstep Failure.Alike R (mismatch reason : Attempt α) (mismatch reason : Attempt β) :=
  .throw (.mismatch reason)

theorem reference_lockstep (target : Target) (h : c.Alike d) :
    SameStep (r.reference m target c) ({ r with script }.reference m target d) := by
  unfold reference
  apply (Lockstep.refl Failure.Alike.refl (r.referenced m target)).bind
  rintro ⟨t, arity⟩ _ rfl
  rw [← h.peek, ← h.pending]
  apply (Lockstep.refl Failure.Alike.refl (r.referenceParts m t arity c.peek)).ran.bind
  rintro written _ ⟨rfl, ⟨_, _, hwritten⟩, _⟩
  have hin := inStatement_of_referenceParts hwritten
  dsimp only
  apply Lockstep.ite
  · intro _
    exact mismatch_lockstep _
  · intro _
    apply (Lockstep.refl Failure.Alike.refl (lift _)).bind
    rintro node _ rfl
    exact .pure ⟨rfl, h.tail hin, rfl⟩

theorem bracketed_step (r : Reader) (c : Cursor) :
    r.bracketed c.tokens =
      match c.peek with
      | .closeBracket => pure ([], c.tokens.tail)
      | .word w => do
        let (names, rest) ← r.bracketed c.tokens.tail
        return (w :: names, rest)
      | .path segments => r.fatal c.span (.split (.dotted (".".intercalate segments)))
      | found => r.fatal c.span (.notAName found) := by
  obtain ⟨tokens, pending⟩ := c
  cases tokens with
  | nil => rfl
  | cons l rest =>
    obtain ⟨token, span⟩ := l
    cases token <;> rfl

theorem bracketed_lockstep {ts us : List Lexeme} (h : front ts = front us) :
    Lockstep Failure.Alike (fun a b => a.1 = b.1 ∧ front a.2 = front b.2) (r.bracketed ts)
      ({ r with script }.bracketed us) := by
  induction hn : ts.length using Nat.strongRecOn generalizing ts us with
  | ind n ih =>
    have halike : (Cursor.mk ts []).Alike ⟨us, []⟩ := ⟨h, rfl⟩
    rw [r.bracketed_step ⟨ts, []⟩, Reader.bracketed_step { r with script } ⟨us, []⟩, ← halike.peek]
    cases hpeek : (Cursor.mk ts []).peek with
    | word w =>
      have hlt : ts.tail.length < n := by
        cases ts with
        | nil => cases hpeek
        | cons l rest => simp [← hn]
      apply (ih _ hlt (halike.tail (by rw [hpeek]; rfl)) rfl).bind
      rintro ⟨names, rest⟩ ⟨_, rest'⟩ ⟨rfl, hrest⟩
      exact .pure ⟨rfl, hrest⟩
    | closeBracket => exact .pure ⟨rfl, halike.tail (by rw [hpeek]; rfl)⟩
    | _ => exact fatal_lockstep script _ _ _

theorem listNames_step (r : Reader) (m : Member) (c : Cursor) :
    r.listNames m c =
      match c.peek with
      | .quoted s => do
        match ← modifyGet fun cache => cache.split s with
        | .ok names => return (names, c.span, c.advance)
        | .error f => r.fatal c.span (.split f)
      | .openBracket => do
        let (names, rest) ← r.bracketed c.tokens.tail
        if names.isEmpty then r.fatal c.span (.split .empty)
        return (names, c.span, { c with tokens := rest })
      | found => r.expected m "a property list" found := by
  obtain ⟨tokens, pending⟩ := c
  cases tokens with
  | nil => rfl
  | cons l rest =>
    obtain ⟨token, span⟩ := l
    cases token <;> rfl

theorem listNames_lockstep (h : c.Alike d) :
    Lockstep Failure.Alike (fun a b => a.1 = b.1 ∧ a.2.2.Alike b.2.2) (r.listNames m c)
      ({ r with script }.listNames m d) := by
  rw [r.listNames_step m c, Reader.listNames_step { r with script } m d, ← h.peek]
  cases hpeek : c.peek with
  | quoted s =>
    have hin : c.peek.inStatement = true := by rw [hpeek]; rfl
    apply (Lockstep.refl Failure.Alike.refl (modifyGet fun cache => cache.split s)).bind
    rintro answer _ rfl
    cases answer with
    | ok names => exact .pure ⟨rfl, h.advance hin⟩
    | error f => exact fatal_lockstep script _ _ _
  | openBracket =>
    have hin : c.peek.inStatement = true := by rw [hpeek]; rfl
    apply (bracketed_lockstep script (h.tail hin)).bind
    rintro ⟨names, rest⟩ ⟨_, rest'⟩ ⟨rfl, hrest⟩
    dsimp only
    apply Lockstep.ite
    · intro _
      exact fatal_lockstep script _ _ _
    · intro _
      exact .pure ⟨rfl, hrest, h.pending⟩
  | _ => exact mismatch_lockstep _

theorem elements_lockstep (target : ConceptType) (listing : Node) (span span' : Span)
    (names : List String) :
    Lockstep Failure.Alike Eq (r.elements target listing span names)
      ({ r with script }.elements target listing span' names) := by
  induction names with
  | nil => exact .pure rfl
  | cons name names ih =>
    unfold elements
    dsimp only
    cases r.registry.listElement target name listing with
    | error reason => exact fatal_lockstep script _ _ _
    | ok node =>
      apply ih.bind
      rintro nodes _ rfl
      exact .pure rfl

theorem list_lockstep (target : Target) (node : Node) (h : c.Alike d) :
    SameStep (r.list m target node c) ({ r with script }.list m target node d) := by
  unfold list
  apply (listNames_lockstep script h).bind
  rintro ⟨names, span, c⟩ ⟨_, span', d⟩ ⟨rfl, halike⟩
  dsimp only
  cases target with
  | any => exact mismatch_lockstep _
  | concept name =>
    dsimp only
    cases r.registry.find? name with
    | none => exact mismatch_lockstep _
    | some t =>
      apply (elements_lockstep script t node span span' names).bind
      rintro nodes _ rfl
      exact .pure ⟨rfl, halike⟩

theorem written_lockstep (node : Node) (h : c.Alike d) :
    SameStep (r.written m node c) ({ r with script }.written m node d) := by
  unfold written
  cases m.kind with
  | identifier =>
    dsimp only
    rw [← h.peek]
    cases hpeek : c.peek with
    | word w => exact .pure ⟨rfl, h.advance (by rw [hpeek]; rfl)⟩
    | quoted s =>
      apply Lockstep.ite
      · intro _
        exact .pure ⟨rfl, h.advance (by rw [hpeek]; rfl)⟩
      · intro _
        exact mismatch_lockstep _
    | _ => exact mismatch_lockstep _
  | text =>
    dsimp only
    rw [← h.peek]
    cases hpeek : c.peek with
    | word w => exact .pure ⟨rfl, h.advance (by rw [hpeek]; rfl)⟩
    | quoted s => exact .pure ⟨rfl, h.advance (by rw [hpeek]; rfl)⟩
    | _ => exact mismatch_lockstep _
  | reference target => exact reference_lockstep script target h
  | list target => exact list_lockstep script target node h

theorem fromPath_lockstep (h : c.Alike d) :
    SameStep (r.fromPath m c) ({ r with script }.fromPath m d) := by
  unfold fromPath
  cases m.kind with
  | reference target =>
    apply (Lockstep.refl Failure.Alike.refl (r.referenced m target)).bind
    rintro ⟨t, arity⟩ _ rfl
    rw [← h.pending]
    apply Lockstep.ite
    · intro _
      exact mismatch_lockstep _
    · intro _
      apply (Lockstep.refl Failure.Alike.refl (lift _)).bind
      rintro node _ rfl
      exact .pure ⟨rfl, h.front, rfl⟩
  | list target => exact mismatch_lockstep _
  | _ =>
    dsimp only
    rw [← h.pending]
    cases c.pending with
    | nil => exact mismatch_lockstep _
    | cons part pending => exact .pure ⟨rfl, h.front, rfl⟩

theorem member_lockstep (node : Node) (h : c.Alike d) :
    SameStep (r.member m node c) ({ r with script }.member m node d) := by
  unfold member
  rw [← h.pending]
  apply Lockstep.ite
  · intro _
    exact written_lockstep script node h
  · intro _
    exact fromPath_lockstep script h

theorem bind_lockstep (node : Node) (members : List (Member × Nat)) (h : c.Alike d) :
    SameStep (r.bind node c members) ({ r with script }.bind node d members) := by
  induction members generalizing node c d with
  | nil => exact .pure ⟨rfl, h⟩
  | cons member rest ih =>
    obtain ⟨m, index⟩ := member
    rw [bind_cons, bind_cons]
    apply (member_lockstep script node h).bind
    rintro ⟨value, c⟩ ⟨_, d⟩ ⟨rfl, halike⟩
    apply (Lockstep.refl Failure.Alike.refl (lift _)).bind
    rintro node _ rfl
    exact ih node halike

theorem consumed_eq {start start' node node' : Node} {members members' : List (Member × Nat)}
    {rest rest' : List Lexeme} {pending : List String} {c d : Cursor}
    {r' : Reader} {cache first cache' first' : Cache} (hrest : front rest = front rest')
    (halike : c.Alike d)
    (hc : Runs (r.bind start ⟨rest, pending⟩ members) cache (node, c) first)
    (hd : Runs (r'.bind start' ⟨rest', pending⟩ members') cache' (node', d) first') :
    rest.length + 1 - c.tokens.length = rest'.length + 1 - d.tokens.length := by
  obtain ⟨used, hused, hinside, _⟩ := takes_bind hc
  obtain ⟨used', hused', hinside', _⟩ := takes_bind hd
  dsimp only at hused hused'
  rw [hused, hused', front_append hinside, front_append hinside', halike.front] at hrest
  have hlength := congrArg List.length (List.append_cancel_right hrest)
  rw [List.length_map, List.length_map] at hlength
  rw [hused, hused', List.length_append, List.length_append, hlength]
  omega

theorem exists_cons_of_peek {tokens : List Lexeme} {w : String}
    (h : (Cursor.mk tokens []).peek = .word w) : ∃ span rest, tokens = ⟨.word w, span⟩ :: rest := by
  cases tokens with
  | nil => cases h
  | cons l rest =>
    obtain ⟨token, span⟩ := l
    obtain rfl : token = .word w := h
    exact ⟨span, rest, rfl⟩

theorem read_eq_silent (r : Reader) (context : Option Node) {tokens : List Lexeme}
    (h : ∀ w, (Cursor.mk tokens []).peek ≠ .word w) : r.read context tokens = throw .silent := by
  cases tokens with
  | nil => rfl
  | cons l rest =>
    obtain ⟨token, span⟩ := l
    cases token with
    | word w => exact absurd rfl (h w)
    | _ => rfl

/-- A reading looks at the tokens of its statement and at the one behind them. -/
theorem read_lockstep (context : Option Node) {ts us : List Lexeme} (h : front ts = front us) :
    Lockstep Failure.Alike Eq (r.read context ts) ({ r with script }.read context us) := by
  have halike : (Cursor.mk ts []).Alike ⟨us, []⟩ := ⟨h, rfl⟩
  cases hpeek : (Cursor.mk ts []).peek with
  | word w =>
    obtain ⟨span, rest, rfl⟩ := exists_cons_of_peek hpeek
    obtain ⟨span', rest', rfl⟩ := exists_cons_of_peek (halike.peek.symm.trans hpeek)
    have hrest : (Cursor.mk rest []).Alike ⟨rest', []⟩ := ⟨halike.tail rfl, rfl⟩
    rw [read_cons, read_cons]
    apply Lockstep.ite
    · intro _
      apply (Lockstep.refl Failure.Alike.refl (r.started context)).bind
      rintro ⟨start, members⟩ _ rfl
      apply (bind_lockstep script start members hrest).ran.bind
      rintro ⟨node, c⟩ ⟨_, d⟩ ⟨⟨rfl, hsame⟩, ⟨_, _, hc⟩, _, _, hd⟩
      dsimp only
      rw [consumed_eq hrest.front hsame hc hd, hsame.pending]
      exact .refl Failure.Alike.refl _
    · intro _
      exact .throw .silent
  | _ =>
    rw [read_eq_silent r context (by simp [hpeek]),
      read_eq_silent _ context (by simp [← halike.peek, hpeek])]
    exact .throw .silent

end Reader

namespace Statements

variable {s : Statements} (script : Script) {context : Option Node} {ts us : List Lexeme}

theorem gather_lockstep {x y : Parsing (List Reading × List Mismatch)}
    (h : Lockstep Diagnostic.Alike Eq x y) {result result' : Except Failure Reading}
    (hresult : Corresponds Failure.Alike Eq result result') :
    Lockstep Diagnostic.Alike Eq (gather x result) (gather y result') := by
  cases hresult with
  | @ok reading _ heq =>
    obtain rfl := heq
    apply h.bind
    rintro ⟨readings, reasons⟩ _ rfl
    exact .pure rfl
  | error halike =>
    cases halike with
    | silent => exact h
    | mismatch reason =>
      apply h.bind
      rintro ⟨readings, reasons⟩ _ rfl
      exact .pure rfl
    | fatal hd => exact .throw hd

theorem readings_lockstep (h : front ts = front us) (types : List ConceptType) :
    Lockstep Diagnostic.Alike Eq (s.readings context ts types)
      ({ s with script }.readings context us types) := by
  induction types with
  | nil => exact .pure rfl
  | cons t types ih =>
    rw [readings_cons, readings_cons]
    apply (Reader.read_lockstep (r := ⟨s.registry, s.script, t⟩) script context h).lift.bind
    intro result result' hresult
    exact gather_lockstep ih hresult

theorem choose_location (readings : List Reading) (keyword : String) (location location' : Location) :
    Corresponds Diagnostic.Alike
      (fun a b => a.1 = b.1 ∧ a.2.map Warning.message = b.2.map Warning.message)
      (choose readings keyword location) (choose readings keyword location') := by
  unfold choose
  split
  · exact .error ⟨rfl, rfl, rfl, rfl⟩
  · exact .ok ⟨rfl, rfl⟩
  · dsimp only
    split
    · exact .ok ⟨rfl, rfl⟩
    · exact .error ⟨rfl, rfl, rfl, rfl⟩

theorem statement_lockstep (h : front ts = front us) (keyword : String) (head head' : Lexeme) :
    Lockstep Diagnostic.Alike (fun a b => a.1 = b.1 ∧ a.2.1.node = b.2.1.node ∧
        a.2.2.map Warning.message = b.2.2.map Warning.message)
      (s.statement context keyword head ts)
      ({ s with script }.statement context keyword head' us) := by
  unfold statement
  simp only [throw_bind]
  apply Lockstep.ite
  · intro _
    exact .throw ⟨rfl, rfl, rfl, rfl⟩
  · intro _
    apply (readings_lockstep script h (s.registry.withKeyword keyword)).bind
    rintro ⟨readings, reasons⟩ _ rfl
    apply Lockstep.ite
    · intro _
      exact .throw ⟨rfl, rfl, rfl, rfl⟩
    · intro _
      apply (Lockstep.ofExcept (choose_location readings keyword _ _)).bind
      rintro ⟨chosen, warning⟩ ⟨_, warning'⟩ ⟨rfl, hwarning⟩
      have hmessages : warning.toList.map Warning.message = warning'.toList.map Warning.message := by
        rw [← Option.toList_map, ← Option.toList_map]
        exact congrArg Option.toList hwarning
      refine .pure ⟨rfl, rfl, ?_⟩
      dsimp only
      rw [List.map_append, List.map_append, hmessages, List.map_map, List.map_map]
      rfl

end Statements

end ConceptScript
