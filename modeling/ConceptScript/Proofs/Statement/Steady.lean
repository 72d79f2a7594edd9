import ConceptScript.Proofs.Outcome
import ConceptScript.Statement.Sequence

namespace ConceptScript

open PropertyList (Cache)

/-- Every answer that is kept is what splitting the text gives. -/
def PropertyList.Cache.Sound (cache : Cache) : Prop :=
  ∀ text answer, cache.known[text]? = some answer → answer = PropertyList.split text

theorem PropertyList.Cache.sound_empty : Cache.Sound {} := by
  intro text answer h
  simp at h

theorem PropertyList.Cache.Sound.split {cache : Cache} (h : cache.Sound) (text : String) :
    (cache.split text).1 = PropertyList.split text ∧ (cache.split text).2.Sound := by
  unfold Cache.split
  cases hk : cache.known[text]? with
  | some answer => exact ⟨h text answer hk, h⟩
  | none =>
    refine ⟨rfl, ?_⟩
    intro other answer ho
    by_cases he : text = other
    · subst he
      simpa using ho.symm
    · apply h other answer
      simpa [Std.HashMap.getElem?_insert, he] using ho

section Runs

variable {ε α β : Type} {cache cache' : Cache}

/-- From what is remembered, the computation comes to a result and to what is remembered then. -/
def Runs (x : ExceptT ε (StateM Cache) α) (cache : Cache) (a : α) (cache' : Cache) : Prop :=
  x.run.run cache = (.ok a, cache')

theorem run_bind (x : ExceptT ε (StateM Cache) α) (f : α → ExceptT ε (StateM Cache) β)
    (cache : Cache) : (x >>= f).run.run cache =
      match x.run.run cache with
      | (.ok a, cache') => (f a).run.run cache'
      | (.error e, cache') => (.error e, cache') := by
  change (ExceptT.bindCont f (x.run.run cache).1).run (x.run.run cache).2 = _
  rcases x.run.run cache with ⟨_ | a, cache'⟩ <;> rfl

@[simp] theorem runs_pure {a b : α} :
    Runs (pure a : ExceptT ε (StateM Cache) α) cache b cache' ↔ a = b ∧ cache = cache' := by
  change (Except.ok a, cache) = (Except.ok b, cache') ↔ _
  simp

@[simp] theorem not_runs_throw {e : ε} {a : α} :
    ¬Runs (throw e : ExceptT ε (StateM Cache) α) cache a cache' := by
  intro h
  cases h

@[simp] theorem runs_ofExcept {x : Except ε α} {a : α} :
    Runs (liftM x : ExceptT ε (StateM Cache) α) cache a cache' ↔ x = .ok a ∧ cache = cache' := by
  change (x, cache) = (Except.ok a, cache') ↔ _
  simp

@[simp] theorem runs_bind {x : ExceptT ε (StateM Cache) α} {f : α → ExceptT ε (StateM Cache) β}
    {b : β} : Runs (x >>= f) cache b cache' ↔
      ∃ a between, Runs x cache a between ∧ Runs (f a) between b cache' := by
  unfold Runs
  rw [run_bind]
  rcases x.run.run cache with ⟨_ | a, between⟩
  · constructor
    · intro h
      cases h
    · rintro ⟨_, _, h, _⟩
      cases h
  · constructor
    · intro h
      exact ⟨a, between, rfl, h⟩
    · rintro ⟨_, _, h, hf⟩
      cases h
      exact hf

@[simp] theorem runs_map {x : ExceptT ε (StateM Cache) α} {f : α → β} {b : β} :
    Runs (f <$> x) cache b cache' ↔ ∃ a, Runs x cache a cache' ∧ f a = b := by
  rw [map_eq_pure_bind, runs_bind]
  simp only [runs_pure]
  constructor
  · rintro ⟨a, between, hx, rfl, rfl⟩
    exact ⟨a, hx, rfl⟩
  · rintro ⟨a, hx, rfl⟩
    exact ⟨a, cache', hx, rfl, rfl⟩

end Runs

section Steady

variable {ε α β : Type}

/-- What a computation gives with nothing remembered. -/
def outcome (x : ExceptT ε (StateM Cache) α) : Except ε α := (x.run.run {}).1

/-- The computation gives the same whatever is remembered, and remembers right answers. -/
structure Steady (x : ExceptT ε (StateM Cache) α) : Prop where
  same : ∀ cache : Cache, cache.Sound → (x.run.run cache).1 = outcome x
  sound : ∀ cache : Cache, cache.Sound → (x.run.run cache).2.Sound

theorem outcome_eq_ok {x : ExceptT ε (StateM Cache) α} {a : α} :
    outcome x = .ok a ↔ ∃ cache, Runs x {} a cache := by
  constructor
  · intro h
    exact ⟨(x.run.run {}).2, Prod.ext h rfl⟩
  · rintro ⟨cache, h⟩
    exact congrArg Prod.fst h

@[simp] theorem throw_bind (e : ε) (f : α → ExceptT ε (StateM Cache) β) :
    throw e >>= f = throw e := rfl

@[simp] theorem steady_pure (a : α) : Steady (pure a : ExceptT ε (StateM Cache) α) :=
  ⟨fun _ _ => rfl, fun _ h => h⟩

@[simp] theorem steady_throw (e : ε) : Steady (throw e : ExceptT ε (StateM Cache) α) :=
  ⟨fun _ _ => rfl, fun _ h => h⟩

theorem outcome_bind {x : ExceptT ε (StateM Cache) α} {f : α → ExceptT ε (StateM Cache) β}
    (hx : Steady x) (hf : ∀ a, Steady (f a)) :
    outcome (x >>= f) = outcome x >>= fun a => outcome (f a) := by
  -- The second step starts from what the first one remembers, and that is sound.
  have hs := hx.sound {} Cache.sound_empty
  unfold outcome
  rw [run_bind]
  rcases hr : x.run.run {} with ⟨_ | a, cache⟩
  · rfl
  · rw [hr] at hs
    exact (hf a).same cache hs

@[simp] theorem Steady.bind {x : ExceptT ε (StateM Cache) α} {f : α → ExceptT ε (StateM Cache) β}
    (hx : Steady x) (hf : ∀ a, Steady (f a)) : Steady (x >>= f) := by
  constructor
  · intro cache h
    have hsame := hx.same cache h
    have hs := hx.sound cache h
    rw [outcome_bind hx hf, run_bind]
    rcases hr : x.run.run cache with ⟨_ | a, cache'⟩
    · rw [hr] at hsame
      rw [← hsame]
      rfl
    · rw [hr] at hsame hs
      rw [← hsame]
      exact (hf a).same cache' hs
  · intro cache h
    have hs := hx.sound cache h
    rw [run_bind]
    rcases hr : x.run.run cache with ⟨_ | a, cache'⟩
    · rw [hr] at hs
      exact hs
    · rw [hr] at hs
      exact (hf a).sound cache' hs

@[simp] theorem Steady.map {x : ExceptT ε (StateM Cache) α} (hx : Steady x) (f : α → β) :
    Steady (f <$> x) := by
  rw [map_eq_pure_bind]
  exact hx.bind fun _ => steady_pure _

@[simp] theorem Steady.ite {p : Prop} [Decidable p] {x y : ExceptT ε (StateM Cache) α}
    (hx : Steady x) (hy : Steady y) : Steady (if p then x else y) := by
  split
  · exact hx
  · exact hy

theorem Steady.outcome_eq {x : ExceptT ε (StateM Cache) α} (hx : Steady x) {cache cache' : Cache}
    (h : cache.Sound) {a : α} (hr : Runs x cache a cache') : outcome x = .ok a ∧ cache'.Sound := by
  have hsame := hx.same cache h
  have hsound := hx.sound cache h
  rw [hr] at hsame hsound
  exact ⟨hsame.symm, hsound⟩

theorem Steady.exists_runs {x : ExceptT ε (StateM Cache) α} (hx : Steady x) {cache : Cache}
    (h : cache.Sound) {a : α} (ha : outcome x = .ok a) : ∃ cache', Runs x cache a cache' :=
  ⟨_, Prod.ext ((hx.same cache h).trans ha) rfl⟩

theorem Steady.lift {δ : Type} {x : ExceptT ε (StateM Cache) α} (hx : Steady x) :
    Steady (ExceptT.lift x.run : ExceptT δ (StateM Cache) (Except ε α)) :=
  ⟨fun cache h => congrArg Except.ok (hx.same cache h), hx.sound⟩

@[simp] theorem outcome_lift {δ : Type} (x : ExceptT ε (StateM Cache) α) :
    outcome (ExceptT.lift x.run : ExceptT δ (StateM Cache) (Except ε α)) = .ok (outcome x) := rfl

@[simp] theorem steady_ofExcept (x : Except ε α) : Steady (liftM x : ExceptT ε (StateM Cache) α) :=
  ⟨fun _ _ => rfl, fun _ h => h⟩

@[simp] theorem steady_split (text : String) :
    Steady (modifyGet fun cache => cache.split text :
      ExceptT ε (StateM Cache) (Except PropertyList.Fault (List String))) := by
  constructor
  · intro cache h
    change Except.ok (cache.split text).1 = Except.ok (Cache.split {} text).1
    rw [(h.split text).1, (Cache.sound_empty.split text).1]
  · intro cache h
    exact (h.split text).2

end Steady

namespace Reader

/-- Made of results, failures and list texts looked up. The only failure that ends the job is that
of a list. -/
inductive Composed : {α : Type} → Attempt α → Prop
  | result {α : Type} (a : α) : Composed (pure a)
  | silent {α : Type} : Composed (throw .silent : Attempt α)
  | mismatch {α : Type} (reason : Mismatch) : Composed (mismatch reason : Attempt α)
  | fatal {α : Type} (r : Reader) (span : Span) (fault : ListFault) :
      Composed (r.fatal span fault : Attempt α)
  | split (text : String) : Composed (modifyGet fun cache => cache.split text)
  | step {α β : Type} {x : Attempt α} {f : α → Attempt β} :
      Composed x → (∀ a, Composed (f a)) → Composed (x >>= f)

attribute [simp] Composed.result Composed.silent Composed.mismatch Composed.fatal Composed.split
  Composed.step

namespace Composed

variable {α β : Type}

@[simp] theorem map {x : Attempt α} (hx : Composed x) (f : α → β) : Composed (f <$> x) := by
  rw [map_eq_pure_bind]
  exact .step hx fun a => .result (f a)

@[simp] theorem ite {p : Prop} [Decidable p] {x y : Attempt α} (hx : Composed x)
    (hy : Composed y) : Composed (if p then x else y) := by
  split
  · exact hx
  · exact hy

theorem steady {x : Attempt α} (h : Composed x) : Steady x := by
  induction h with
  | result a => exact steady_pure a
  | silent => exact steady_throw _
  | mismatch reason => exact steady_throw _
  | fatal r span fault => exact steady_throw _
  | split text => exact steady_split text
  | step _ _ hx hf => exact hx.bind hf

theorem code_of_fatal {x : Attempt α} (h : Composed x) {d : Diagnostic} {cache : Cache}
    (hd : (x.run.run cache).1 = .error (.fatal d)) : d.code = .invalidPropertyList := by
  induction h generalizing cache with
  | result a => cases hd
  | silent => cases hd
  | mismatch reason => cases hd
  | fatal r span fault =>
    cases hd
    rfl
  | split text => cases hd
  | @step α β x f _ _ hx hf =>
    rw [run_bind] at hd
    rcases hr : x.run.run cache with ⟨e | a, cache'⟩
    · rw [hr] at hd
      cases hd
      exact hx (congrArg Prod.fst hr)
    · rw [hr] at hd
      exact hf a hd

end Composed

variable (r : Reader) (m : Member)

@[simp] theorem composed_expected {α : Type} (what : String) (found : Token) :
    Composed (r.expected m what found : Attempt α) := .mismatch _

@[simp] theorem composed_lift {α : Type} (x : Except Mismatch α) : Composed (lift x) := by
  cases x <;> simp [lift]

@[simp] theorem composed_referenced (target : Target) : Composed (r.referenced m target) := by
  unfold referenced
  repeat' split
  all_goals simp

@[simp] theorem composed_referenceParts (t : ConceptType) (arity : Nat) (token : Token) :
    Composed (r.referenceParts m t arity token) := by
  unfold referenceParts
  repeat' split
  all_goals simp

@[simp] theorem composed_reference (target : Target) (c : Cursor) :
    Composed (r.reference m target c) := by
  unfold reference
  apply Composed.step (by simp)
  rintro ⟨t, arity⟩
  apply Composed.step (by simp)
  intro written
  apply Composed.ite <;> simp

@[simp] theorem composed_bracketed (tokens : List Lexeme) : Composed (r.bracketed tokens) := by
  induction tokens with
  | nil => simp [bracketed]
  | cons l rest ih =>
    obtain ⟨token, span⟩ := l
    cases token <;> simp [bracketed, ih]

@[simp] theorem composed_listNames (c : Cursor) : Composed (r.listNames m c) := by
  unfold listNames
  split
  · apply Composed.step (by simp)
    intro answer
    cases answer <;> simp
  · apply Composed.step (by simp)
    rintro ⟨names, rest⟩
    apply Composed.ite <;> simp
  · simp

@[simp] theorem composed_elements (target : ConceptType) (listing : Node) (span : Span)
    (names : List String) : Composed (r.elements target listing span names) := by
  induction names with
  | nil => simp [elements]
  | cons name names ih =>
    unfold elements
    split <;> simp [ih]

@[simp] theorem composed_list (target : Target) (node : Node) (c : Cursor) :
    Composed (r.list m target node c) := by
  unfold list
  apply Composed.step (by simp)
  rintro ⟨names, span, c⟩
  dsimp only
  repeat' split
  all_goals simp

@[simp] theorem composed_written (node : Node) (c : Cursor) : Composed (r.written m node c) := by
  unfold written
  repeat' split
  all_goals simp

@[simp] theorem composed_fromPath (c : Cursor) : Composed (r.fromPath m c) := by
  unfold fromPath
  split
  · apply Composed.step (by simp)
    rintro ⟨t, arity⟩
    apply Composed.ite <;> simp
  · simp
  · split <;> simp

/-- The value of a member, from the path that is under way or from the tokens. -/
def member (node : Node) (c : Cursor) : Attempt (Value × Cursor) :=
  if c.pending.isEmpty then r.written m node c else r.fromPath m c

@[simp] theorem composed_member (node : Node) (c : Cursor) : Composed (r.member m node c) := by
  apply Composed.ite <;> simp

theorem bind_cons (node : Node) (c : Cursor) (index : Nat) (rest : List (Member × Nat)) :
    r.bind node c ((m, index) :: rest) = (do
      let (value, c) ← r.member m node c
      let node ← lift ((node.setAt index m value).mapError .misfit)
      r.bind node c rest) := by
  conv_lhs => unfold bind
  unfold member
  cases c.pending.isEmpty <;> rfl

@[simp] theorem composed_bind (node : Node) (c : Cursor) (members : List (Member × Nat)) :
    Composed (r.bind node c members) := by
  induction members generalizing node c with
  | nil => simp [bind]
  | cons member rest ih =>
    rw [bind_cons]
    apply Composed.step (by simp)
    rintro ⟨value, c⟩
    apply Composed.step (by simp)
    intro node
    exact ih node c

@[simp] theorem composed_nest (node context : Node) : Composed (r.nest node context) := by
  unfold nest
  repeat' split
  all_goals simp

def started : Option Node → Attempt (Node × List (Member × Nat))
  | none => pure (Node.ofType r.type, r.type.members.zipIdx)
  | some outer => do
    let node ← r.nest (Node.ofType r.type) outer
    return (node, r.type.members.zipIdx.tail)

def finished (node : Node) (consumed : Nat) (pending : List String) : Attempt Reading :=
  if pending.isEmpty then pure { node, consumed, notes := r.notes }
  else mismatch (.trailing r.type.name pending)

theorem read_cons (context : Option Node) (w : String) (span : Span) (rest : List Lexeme) :
    r.read context (⟨.word w, span⟩ :: rest) =
      if r.type.keyword? = some w then do
        let (node, members) ← r.started context
        let (node, c) ← r.bind node ⟨rest, []⟩ members
        r.finished node (rest.length + 1 - c.tokens.length) c.pending
      else throw .silent := by
  have hfinished (x : Attempt (Node × Cursor)) :
      (do
        let (node, c) ← x
        if !c.pending.isEmpty then mismatch (.trailing r.type.name c.pending)
        return ({ node, consumed := rest.length + 1 - c.tokens.length,
                  notes := r.notes } : Reading) : Attempt Reading) =
      (do
        let (node, c) ← x
        r.finished node (rest.length + 1 - c.tokens.length) c.pending) := by
    refine bind_congr ?_
    rintro ⟨node, c⟩
    cases h : c.pending.isEmpty <;> simp [finished, h]
    rfl
  -- The keyword is checked first; from there on both sides bind the same members.
  unfold read
  dsimp only
  by_cases hw : r.type.keyword? = some w
  · rw [if_neg (not_not_intro hw), if_pos hw]
    cases context with
    | none => exact hfinished _
    | some outer =>
      simp only [started, bind_assoc, pure_bind]
      apply bind_congr
      intro node
      exact hfinished _
  · rw [if_pos hw, if_neg hw]
    rfl

@[simp] theorem composed_started (context : Option Node) : Composed (r.started context) := by
  cases context <;> simp [started]

@[simp] theorem composed_finished (node : Node) (consumed : Nat) (pending : List String) :
    Composed (r.finished node consumed pending) := by
  apply Composed.ite <;> simp

@[simp] theorem composed_read (context : Option Node) (tokens : List Lexeme) :
    Composed (r.read context tokens) := by
  cases tokens with
  | nil => exact .silent
  | cons l rest =>
    obtain ⟨token, span⟩ := l
    cases token with
    | word w =>
      rw [read_cons]
      apply Composed.ite
      · apply Composed.step (by simp)
        intro start
        exact Composed.step (by simp) fun _ => by simp
      · simp
    | _ => exact .silent

@[simp] theorem steady_read (context : Option Node) (tokens : List Lexeme) :
    Steady (r.read context tokens) :=
  (r.composed_read context tokens).steady

end Reader

/-- Made of results, failures and attempts to read a statement that are seen through to their
outcome. -/
inductive Assembled : {α : Type} → Parsing α → Prop
  | result {α : Type} (x : Except Diagnostic α) : Assembled (liftM x)
  | attempt {α : Type} {x : Attempt α} : Reader.Composed x → Assembled (ExceptT.lift x.run)
  | step {α β : Type} {x : Parsing α} {f : α → Parsing β} :
      Assembled x → (∀ a, Assembled (f a)) → Assembled (x >>= f)

attribute [simp] Assembled.result Assembled.attempt Assembled.step

namespace Assembled

variable {α β : Type}

@[simp] theorem pure (a : α) : Assembled (pure a) := .result (.ok a)

@[simp] theorem throw (d : Diagnostic) : Assembled (throw d : Parsing α) := .result (.error d)

@[simp] theorem map {x : Parsing α} (hx : Assembled x) (f : α → β) : Assembled (f <$> x) := by
  rw [map_eq_pure_bind]
  exact .step hx fun a => pure (f a)

@[simp] theorem ite {p : Prop} [Decidable p] {x y : Parsing α} (hx : Assembled x)
    (hy : Assembled y) : Assembled (if p then x else y) := by
  split
  · exact hx
  · exact hy

theorem steady {x : Parsing α} (h : Assembled x) : Steady x := by
  induction h with
  | result x => exact steady_ofExcept x
  | attempt hx => exact Steady.lift hx.steady
  | step _ _ hx hf => exact hx.bind hf

end Assembled

namespace Statements

variable (s : Statements)

/-- What one type makes of a statement, put before what the others make of it. -/
def gather (rest : Parsing (List Reading × List Mismatch)) :
    Except Failure Reading → Parsing (List Reading × List Mismatch)
  | .ok reading => do
    let (readings, reasons) ← rest
    return (reading :: readings, reasons)
  | .error .silent => rest
  | .error (.mismatch reason) => do
    let (readings, reasons) ← rest
    return (readings, reason :: reasons)
  | .error (.fatal d) => throw d

theorem readings_cons (context : Option Node) (tokens : List Lexeme) (t : ConceptType)
    (types : List ConceptType) : s.readings context tokens (t :: types) =
      ExceptT.lift (Reader.read ⟨s.registry, s.script, t⟩ context tokens).run >>=
        gather (s.readings context tokens types) := by
  rw [readings]
  apply bind_congr
  intro result
  match result with
  | .ok reading => rfl
  | .error .silent => rfl
  | .error (.mismatch reason) => rfl
  | .error (.fatal d) => rfl

theorem assembled_gather {rest : Parsing (List Reading × List Mismatch)} (h : Assembled rest)
    (result : Except Failure Reading) : Assembled (gather rest result) := by
  match result with
  | .ok reading => simp [gather, h]
  | .error .silent => exact h
  | .error (.mismatch reason) => simp [gather, h]
  | .error (.fatal d) => simp [gather]

@[simp] theorem assembled_readings (context : Option Node) (tokens : List Lexeme)
    (types : List ConceptType) : Assembled (s.readings context tokens types) := by
  induction types with
  | nil => simp [readings]
  | cons t types ih =>
    rw [readings_cons]
    exact .step (.attempt (by simp)) (assembled_gather ih)

@[simp] theorem assembled_statement (context : Option Node) (keyword : String) (head : Lexeme)
    (tokens : List Lexeme) : Assembled (s.statement context keyword head tokens) := by
  unfold statement
  simp only [throw_bind]
  apply Assembled.ite (by simp)
  apply Assembled.step (by simp)
  rintro ⟨readings, reasons⟩
  exact Assembled.ite (by simp) (by simp)

@[simp] theorem assembled_finish (enclosing : List ParsedConcept) :
    Assembled (s.finish enclosing) := by
  cases enclosing <;> simp [finish]

theorem length_lt_of_drop {tokens after : List Lexeme} {count : Nat} {last : Lexeme}
    (h : tokens.drop count = last :: after) : after.length < tokens.length := by
  have hlen := congrArg List.length h
  simp only [List.length_drop, List.length_cons] at hlen
  omega

theorem assembled_sequence (enclosing : List ParsedConcept) (tokens : List Lexeme) :
    Assembled (s.sequence enclosing tokens) := by
  induction hn : tokens.length using Nat.strongRecOn generalizing enclosing tokens with
  | ind n ih =>
    rw [sequence.eq_def]
    split
    · simp
    · next head rest =>
      subst hn
      split
      · simp
      · split
        · simp
        · exact ih rest.length (by simp) _ rest rfl
      · apply Assembled.step (by simp)
        rintro ⟨reading, parsed, warnings⟩
        dsimp only
        split
        · next inside h => exact .step (ih _ (length_lt_of_drop h) _ inside rfl) fun _ => by simp
        · next after h => exact .step (ih _ (length_lt_of_drop h) _ after rfl) fun _ => by simp
        · simp
      · simp

@[simp] theorem steady_readings (context : Option Node) (tokens : List Lexeme)
    (types : List ConceptType) : Steady (s.readings context tokens types) :=
  (s.assembled_readings context tokens types).steady

theorem steady_statement (context : Option Node) (keyword : String) (head : Lexeme)
    (tokens : List Lexeme) : Steady (s.statement context keyword head tokens) :=
  (s.assembled_statement context keyword head tokens).steady

end Statements

theorem Script.assembled_parse (script : Script) (registry : Registry) (options : Options) :
    Assembled (script.parse registry options) :=
  .step (.result script.lex) fun tokens => Statements.assembled_sequence _ [] tokens

theorem Script.steady_parse (script : Script) (registry : Registry) (options : Options) :
    Steady (script.parse registry options) :=
  (script.assembled_parse registry options).steady

end ConceptScript
