import ConceptScript.Proofs.Statement.Locality

namespace ConceptScript

open PropertyList (Cache)

/-- A place in a list of tokens, with the parts of a dotted path that are not bound yet. -/
structure Place (tokens : List Lexeme) where
  index : Fin tokens.length
  pending : List String

namespace Place

variable {tokens : List Lexeme}

def lexeme (p : Place tokens) : Lexeme := tokens[p.index]

/-- Goes on by one token, but not behind the last one. -/
def advance (p : Place tokens) : Place tokens :=
  if h : p.index + 1 < tokens.length then { p with index := ⟨p.index + 1, h⟩ } else p

def cursor (p : Place tokens) : Cursor := ⟨tokens.drop p.index, p.pending⟩

theorem index_advance {p : Place tokens} (h : p.index + 1 < tokens.length) :
    (p.advance.index : Nat) = p.index + 1 := by
  rw [advance, dif_pos h]

theorem pending_advance (p : Place tokens) : p.advance.pending = p.pending := by
  unfold advance
  split <;> rfl

theorem cursor_eq (p : Place tokens) :
    p.cursor = ⟨p.lexeme :: tokens.drop (p.index + 1), p.pending⟩ := by
  rw [cursor, List.drop_eq_getElem_cons p.index.isLt]
  rfl

theorem peek_tokens (p : Place tokens) (pending : List String) :
    (Cursor.mk p.cursor.tokens pending).peek = p.lexeme.token := by
  rw [cursor_eq]
  rfl

theorem peek_cursor (p : Place tokens) : p.cursor.peek = p.lexeme.token :=
  p.peek_tokens p.pending

theorem span_cursor (p : Place tokens) : p.cursor.span = p.lexeme.span := by
  rw [cursor_eq]
  rfl

theorem cursor_advance {p : Place tokens} (h : p.index + 1 < tokens.length) :
    p.advance.cursor = p.cursor.advance := by
  rw [cursor_eq p, cursor, index_advance h, pending_advance]
  rfl

end Place

/-- Why a walk over the places of a list gives nothing. -/
inductive Stop where
  | failure (reason : Failure)
  /-- The last token is a name in an open list, so that it is taken again and again. -/
  | endless

abbrev Walk := ExceptT Stop (StateM Cache)

def Attempt.walk {α : Type} (x : Attempt α) : Walk α := ExceptT.adapt Stop.failure x

namespace Reader

variable {tokens : List Lexeme} (r : Reader) (m : Member)

def bracketedAt (p : Place tokens) : Walk (List String × Place tokens) :=
  match p.lexeme.token with
  | .closeBracket => pure ([], p.advance)
  | .word w =>
    if p.index + 1 < tokens.length then do
      let (names, q) ← bracketedAt p.advance
      return (w :: names, q)
    else throw .endless
  | .path segments =>
    (r.fatal p.lexeme.span (.split (.dotted (".".intercalate segments)))).walk
  | found => (r.fatal p.lexeme.span (.notAName found)).walk
termination_by tokens.length - p.index
decreasing_by
  rw [Place.index_advance ‹_›]
  omega

def listNamesAt (p : Place tokens) : Walk (List String × Span × Place tokens) :=
  match p.lexeme.token with
  | .quoted s => do
    match ← modifyGet fun cache => cache.split s with
    | .ok names => return (names, p.lexeme.span, p.advance)
    | .error f => (r.fatal p.lexeme.span (.split f)).walk
  | .openBracket => do
    let (names, q) ← r.bracketedAt p.advance
    if names.isEmpty then (r.fatal p.lexeme.span (.split .empty)).walk
    return (names, p.lexeme.span, q)
  | found => (r.expected m "a property list" found).walk

def listAt (target : Target) (node : Node) (p : Place tokens) : Walk (Value × Place tokens) := do
  let (names, span, q) ← r.listNamesAt m p
  match target with
  | .any => (mismatch (.openList m.name r.type.name)).walk
  | .concept name =>
    match r.registry.find? name with
    | none => (mismatch (.unknownType name)).walk
    | some t => return (.list (← (r.elements t node span names).walk), q)

/-- The value of a member. Only a list takes more than the token at the place. -/
def memberAt (node : Node) (p : Place tokens) : Walk (Value × Place tokens) :=
  if p.pending.isEmpty then
    match m.kind with
    | .list target => r.listAt m target node p
    | _ => do
      let (value, c) ← (r.written m node ⟨[p.lexeme], p.pending⟩).walk
      return (value, { p.advance with pending := c.pending })
  else do
    let (value, c) ← (r.fromPath m p.cursor).walk
    return (value, { p with pending := c.pending })

def bindAt (node : Node) (p : Place tokens) : List (Member × Nat) → Walk (Node × Place tokens)
  | [] => pure (node, p)
  | (m, index) :: rest => do
    let (value, p) ← r.memberAt m node p
    let node ← (lift ((node.setAt index m value).mapError .misfit)).walk
    bindAt node p rest

def readFrom (context : Option Node) (start : Nat) (p : Place tokens) : Walk Reading :=
  match p.lexeme.token with
  | .word w =>
    if r.type.keyword? = some w then do
      let (node, members) ← (r.started context).walk
      let (node, q) ← r.bindAt node p.advance members
      (r.finished node (q.index - start) q.pending).walk
    else throw (.failure .silent)
  | _ => throw (.failure .silent)

/-- Reads the statement at an index of the tokens. An index behind the last token counts as that of
the last token. -/
def readAt (context : Option Node) (tokens : List Lexeme) (start : Nat) : Walk Reading :=
  if h : 0 < tokens.length then
    r.readFrom context start
      (⟨⟨min start (tokens.length - 1), by omega⟩, []⟩ : Place tokens)
  else throw (.failure .silent)

end Reader

/-- The end of the script comes last. -/
def Ended (tokens : List Lexeme) : Prop :=
  tokens.getLast?.map Lexeme.token = some .endOfScript

theorem Ended.cons {l : Lexeme} {tokens : List Lexeme} (h : Ended tokens) : Ended (l :: tokens) := by
  cases tokens with
  | nil => cases h
  | cons l' tokens => rwa [Ended, List.getLast?_cons_cons]

theorem Ended.of_cons {l : Lexeme} {tokens : List Lexeme} (h : Ended (l :: tokens))
    (hl : l.token ≠ .endOfScript) : Ended tokens := by
  cases tokens with
  | nil => exact absurd (Option.some.inj h) hl
  | cons l' tokens => rwa [Ended, List.getLast?_cons_cons] at h

theorem Place.token_of_last {tokens : List Lexeme} (h : Ended tokens) {p : Place tokens}
    (hlast : ¬p.index + 1 < tokens.length) : p.lexeme.token = .endOfScript := by
  have hi := p.index.isLt
  have heq : tokens.length - 1 = p.index := by omega
  rw [Ended, List.getLast?_eq_getElem?, heq, List.getElem?_eq_getElem hi, Option.map_some] at h
  exact Option.some.inj h

theorem Place.succ_lt {tokens : List Lexeme} (h : Ended tokens) {p : Place tokens}
    (hp : p.lexeme.token.inStatement = true) : p.index + 1 < tokens.length := by
  by_contra hlast
  rw [token_of_last h hlast] at hp
  cases hp

/-- A failure of a reading, where the walk comes to an end. -/
abbrev Stops (reason : Failure) (stop : Stop) : Prop := stop = .failure reason

theorem lockstep_walk {α : Type} (x : Attempt α) : Lockstep Stops Eq x x.walk := by
  intro cache
  change Corresponds Stops Eq (x.run.run cache).1 ((x.run.run cache).1.mapError Stop.failure) ∧ _
  refine ⟨?_, rfl⟩
  cases (x.run.run cache).1 with
  | ok a => exact .ok rfl
  | error d => exact .error rfl

namespace Reader

variable {tokens : List Lexeme} {r : Reader} {m : Member}

/-- The results are the same, and the tokens from the place on are those that are left. -/
abbrev SameAt {α : Type} (a : α × Cursor) (b : α × Place tokens) : Prop :=
  a.1 = b.1 ∧ a.2 = b.2.cursor

theorem written_single (hk : ∀ target, m.kind ≠ .list target) (node : Node) (l : Lexeme)
    (rest : List Lexeme) (pending : List String) :
    r.written m node ⟨l :: rest, pending⟩ = (do
      let (value, c) ← r.written m node ⟨[l], pending⟩
      return (value, ⟨rest, c.pending⟩)) := by
  cases hkind : m.kind with
  | identifier =>
    simp only [written, hkind, Cursor.peek]
    cases l.token with
    | quoted s => by_cases hs : Text.isIdentifier s = true <;> simp only [hs] <;> rfl
    | _ => rfl
  | text =>
    simp only [written, hkind, Cursor.peek]
    cases l.token <;> rfl
  | reference target =>
    simp only [written, hkind, reference, bind_assoc]
    refine bind_congr ?_
    rintro ⟨t, arity⟩
    refine bind_congr fun parts => ?_
    dsimp only
    generalize (if m.isParent = true then _ else _ : List String × List String) = divided
    by_cases hlen : divided.1.length ≠ arity
    · simp only [if_pos hlen]
      rfl
    · simp only [if_neg hlen, bind_assoc, pure_bind]
      rfl
  | list target => exact absurd hkind (hk target)

theorem inStatement_of_written (hk : ∀ target, m.kind ≠ .list target) {node : Node} {c : Cursor}
    {cache cache' : Cache} {result : Value × Cursor}
    (h : Runs (r.written m node c) cache result cache') : c.peek.inStatement = true := by
  obtain ⟨value, d⟩ := result
  cases hkind : m.kind with
  | reference target =>
    simp only [written, hkind] at h
    obtain ⟨_, _, _, _, _, hparts, _⟩ := runs_reference.mp h
    exact inStatement_of_referenceParts hparts
  | list target => exact absurd hkind (hk target)
  | _ =>
    obtain ⟨s, hs, _⟩ := (runs_written_of_text (by simp [hkind, MemberKind.target?])).mp h
    exact inStatement_of_spelled hs

theorem tokens_of_fromPath {c c' : Cursor} {cache cache' : Cache} {v : Value}
    (h : Runs (r.fromPath m c) cache (v, c') cache') : c'.tokens = c.tokens := by
  unfold fromPath at h
  split at h
  · simp only [runs_bind, Prod.exists] at h
    obtain ⟨t, arity, first, _, h⟩ := h
    split at h
    · simp at h
    · simp only [runs_bind, runs_pure, Prod.mk.injEq] at h
      obtain ⟨_, _, _, ⟨_, rfl⟩, _⟩ := h
      rfl
  · simp at h
  · split at h
    · simp at h
    · obtain ⟨hresult, _⟩ := runs_pure.mp h
      rw [← (Prod.mk.inj hresult).2]

section Ended

variable (hends : Ended tokens)
include hends

theorem bracketed_walk (p : Place tokens) :
    Lockstep Stops (fun a b => a.1 = b.1 ∧ ⟨a.2, p.pending⟩ = b.2.cursor)
      (r.bracketed p.cursor.tokens) (r.bracketedAt p) := by
  induction hn : tokens.length - p.index using Nat.strongRecOn generalizing p with
  | ind _ ih =>
    rw [bracketedAt, bracketed_step, p.peek_cursor, p.span_cursor]
    cases htoken : p.lexeme.token with
    | closeBracket =>
      have hlt := Place.succ_lt hends (by rw [htoken]; rfl)
      exact .pure ⟨rfl, (Place.cursor_advance hlt).symm⟩
    | word w =>
      have hlt := Place.succ_lt hends (by rw [htoken]; rfl)
      dsimp only
      rw [if_pos hlt]
      have hstep := ih _ (by rw [Place.index_advance hlt]; omega) p.advance rfl
      rw [Place.cursor_advance hlt, Place.pending_advance] at hstep
      apply hstep.bind
      rintro ⟨names, rest⟩ ⟨_, q⟩ ⟨rfl, hq⟩
      exact .pure ⟨rfl, hq⟩
    | _ => exact .throw rfl

theorem listNames_walk (p : Place tokens) :
    Lockstep Stops (fun a b => a.1 = b.1 ∧ a.2.1 = b.2.1 ∧ a.2.2 = b.2.2.cursor)
      (r.listNames m p.cursor) (r.listNamesAt m p) := by
  rw [listNames_step, listNamesAt, p.peek_cursor, p.span_cursor]
  cases htoken : p.lexeme.token with
  | quoted s =>
    have hlt := Place.succ_lt hends (by rw [htoken]; rfl)
    apply Lockstep.bind (R := Eq)
    · exact fun _ => ⟨.ok rfl, rfl⟩
    · rintro answer _ rfl
      cases answer with
      | ok names => exact .pure ⟨rfl, rfl, (Place.cursor_advance hlt).symm⟩
      | error f => exact .throw rfl
  | openBracket =>
    have hlt := Place.succ_lt hends (by rw [htoken]; rfl)
    have hstep := bracketed_walk (r := r) hends p.advance
    rw [Place.cursor_advance hlt, Place.pending_advance] at hstep
    apply hstep.bind
    rintro ⟨names, rest⟩ ⟨_, q⟩ ⟨rfl, hq⟩
    dsimp only
    apply Lockstep.ite
    · intro _
      exact .throw rfl
    · intro _
      exact .pure ⟨rfl, rfl, hq⟩
  | _ => exact .throw rfl

theorem list_walk (target : Target) (node : Node) (p : Place tokens) :
    Lockstep Stops SameAt (r.list m target node p.cursor) (r.listAt m target node p) := by
  apply (listNames_walk hends p).bind
  rintro ⟨names, span, c⟩ ⟨_, _, q⟩ ⟨rfl, rfl, hq⟩
  cases target with
  | any => exact .throw rfl
  | concept name =>
    dsimp only
    cases r.registry.find? name with
    | none => exact .throw rfl
    | some t =>
      apply (lockstep_walk (r.elements t node span names)).bind
      rintro nodes _ rfl
      exact .pure ⟨rfl, hq⟩

theorem member_walk (node : Node) (p : Place tokens) :
    Lockstep Stops SameAt (r.member m node p.cursor) (r.memberAt m node p) := by
  have hone (hk : ∀ target, m.kind ≠ .list target) :
      Lockstep Stops SameAt (r.written m node p.cursor) (do
        let (value, c) ← (r.written m node ⟨[p.lexeme], p.pending⟩).walk
        return (value, { p.advance with pending := c.pending })) := by
    rw [p.cursor_eq, written_single hk]
    apply (lockstep_walk (r.written m node ⟨[p.lexeme], p.pending⟩)).ran.bind
    rintro ⟨value, c⟩ _ ⟨rfl, ⟨_, _, hruns⟩, _⟩
    have hin : p.lexeme.token.inStatement = true := inStatement_of_written hk hruns
    have hlt := Place.succ_lt hends hin
    refine .pure ⟨rfl, ?_⟩
    rw [Place.cursor, Place.index_advance hlt]
  unfold member memberAt
  apply Lockstep.ite
  · intro _
    cases hkind : m.kind with
    | list target =>
      simp only [written, hkind]
      exact list_walk hends target node p
    | _ => exact hone (by simp [hkind])
  · intro _
    apply (lockstep_walk (r.fromPath m p.cursor)).ran.bind_right
    rintro ⟨value, c⟩ _ ⟨rfl, ⟨_, _, hruns⟩, _⟩
    refine .pure ⟨rfl, ?_⟩
    rw [Place.cursor]
    exact congrArg (Cursor.mk · c.pending) (tokens_of_fromPath hruns)

theorem bind_walk (node : Node) (p : Place tokens) (members : List (Member × Nat)) :
    Lockstep Stops SameAt (r.bind node p.cursor members) (r.bindAt node p members) := by
  induction members generalizing node p with
  | nil => exact .pure ⟨rfl, rfl⟩
  | cons member rest ih =>
    obtain ⟨m, index⟩ := member
    rw [bind_cons, bindAt]
    apply (member_walk hends node p).bind
    rintro ⟨value, c⟩ ⟨_, q⟩ ⟨rfl, hq⟩
    apply (lockstep_walk (lift _)).bind
    rintro node _ rfl
    obtain rfl : c = q.cursor := hq
    exact ih node q

theorem readFrom_walk (context : Option Node) {p : Place tokens} (hp : p.pending = []) :
    Lockstep Stops Eq (r.read context p.cursor.tokens) (r.readFrom context p.index p) := by
  rw [readFrom]
  by_cases hword : ∃ w, p.lexeme.token = .word w
  · obtain ⟨w, htoken⟩ := hword
    have hlt := Place.succ_lt hends (by rw [htoken]; rfl)
    have hcursor : p.cursor.advance = ⟨tokens.drop (p.index + 1), []⟩ := by
      rw [p.cursor_eq, hp]
      rfl
    have hl : p.lexeme = ⟨.word w, p.lexeme.span⟩ := by rw [← htoken]
    rw [p.cursor_eq, htoken]
    dsimp only
    rw [hl, read_cons]
    apply Lockstep.ite
    · intro _
      apply (lockstep_walk (r.started context)).bind
      rintro ⟨node, members⟩ _ rfl
      have hbind := bind_walk (r := r) hends node p.advance members
      rw [Place.cursor_advance hlt, hcursor] at hbind
      apply hbind.bind
      rintro ⟨node, c⟩ ⟨_, q⟩ ⟨rfl, hq⟩
      obtain rfl : c = q.cursor := hq
      have hcount : (tokens.drop (p.index + 1)).length + 1 - q.cursor.tokens.length =
          q.index - p.index := by
        rw [Place.cursor, List.length_drop, List.length_drop]
        omega
      dsimp only
      rw [hcount]
      exact lockstep_walk _
    · intro _
      exact .throw rfl
  · rw [not_exists] at hword
    rw [read_eq_silent r context fun w => by rw [Place.peek_tokens]; exact hword w]
    split
    · next w htoken => exact absurd htoken (hword w)
    · exact .throw rfl

theorem read_walk (context : Option Node) (start : Nat) :
    Lockstep Stops Eq (r.read context (tokens.drop start)) (r.readAt context tokens start) := by
  have hpos : 0 < tokens.length := by
    refine List.length_pos_iff.mpr ?_
    rintro rfl
    cases hends
  rw [readAt, dif_pos hpos]
  by_cases hstart : start < tokens.length
  · have hmin : min start (tokens.length - 1) = start := by omega
    simp only [hmin]
    exact readFrom_walk hends context (p := ⟨⟨start, hstart⟩, []⟩) rfl
  · have hlast : ¬min start (tokens.length - 1) + 1 < tokens.length := by omega
    rw [List.drop_of_length_le (Nat.le_of_not_lt hstart), readFrom, Place.token_of_last hends hlast]
    exact .throw rfl

/-- Places never run behind the last token. If that is the end of the script, reading by places is
reading the tokens one after the other. -/
theorem runs_readAt {context : Option Node} {start : Nat} {cache cache' : Cache}
    {reading : Reading} : Runs (r.readAt context tokens start) cache reading cache' ↔
      Runs (r.read context (tokens.drop start)) cache reading cache' :=
  (read_walk hends context start).runs_iff.symm

end Ended

end Reader

end ConceptScript
