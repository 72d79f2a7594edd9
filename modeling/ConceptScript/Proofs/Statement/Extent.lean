import ConceptScript.Proofs.Statement.Steady

namespace ConceptScript

open PropertyList (Cache)

/-- Tokens that stand inside of statements. -/
def Token.inStatement : Token → Bool
  | .openBrace => false
  | .closeBrace => false
  | .semicolon => false
  | .endOfScript => false
  | _ => true

namespace Reader

variable {α : Type} {r : Reader} {m : Member} {c c' : Cursor} {cache cache' : Cache}

@[simp] theorem not_runs_mismatch {reason : Mismatch} {a : α} :
    ¬Runs (mismatch reason : Attempt α) cache a cache' := not_runs_throw

@[simp] theorem not_runs_expected {what : String} {found : Token} {a : α} :
    ¬Runs (r.expected m what found : Attempt α) cache a cache' := not_runs_throw

@[simp] theorem not_runs_fatal {span : Span} {fault : ListFault} {a : α} :
    ¬Runs (r.fatal span fault : Attempt α) cache a cache' := not_runs_throw

@[simp] theorem runs_lift {x : Except Mismatch α} {a : α} :
    Runs (lift x) cache a cache' ↔ x = .ok a ∧ cache = cache' := by
  cases x <;> simp [lift]

@[simp] theorem mapError_eq_ok {ε δ : Type} {f : ε → δ} {x : Except ε α} {a : α} :
    x.mapError f = .ok a ↔ x = .ok a := by
  cases x <;> simp [Except.mapError]

/-- The step takes tokens off the front in which no statement ends, and gives the same whatever
comes after them. -/
def Takes (f : Cursor → Attempt (α × Cursor)) (c : Cursor) (cache : Cache) (a : α) (c' : Cursor)
    (cache' : Cache) : Prop :=
  ∃ used, c.tokens = used ++ c'.tokens ∧ (∀ l ∈ used, l.token.inStatement = true) ∧
    ∀ rest, Runs (f ⟨used ++ rest, c.pending⟩) cache (a, ⟨rest, c'.pending⟩) cache'

theorem takes_none {f : Cursor → Attempt (α × Cursor)} {a : α} (htokens : c'.tokens = c.tokens)
    (h : ∀ tokens, Runs (f ⟨tokens, c.pending⟩) cache (a, ⟨tokens, c'.pending⟩) cache') :
    Takes f c cache a c' cache' :=
  ⟨[], htokens.symm, by simp, fun rest => h rest⟩

theorem takes_one {f : Cursor → Attempt (α × Cursor)} {a : α} (hpeek : c.peek.inStatement = true)
    (htokens : c'.tokens = c.tokens.tail)
    (h : ∀ tokens, (Cursor.mk tokens c.pending).peek = c.peek →
      Runs (f ⟨tokens, c.pending⟩) cache (a, ⟨tokens.tail, c'.pending⟩) cache') :
    Takes f c cache a c' cache' := by
  obtain ⟨tokens, pending⟩ := c
  cases tokens with
  | nil => simp [Cursor.peek, Token.inStatement] at hpeek
  | cons l rest =>
    refine ⟨[l], by simp [htokens], ?_, fun rest => h (l :: rest) rfl⟩
    intro l' hl
    rw [List.mem_singleton.mp hl]
    exact hpeek

/-- The parts of a written reference that name it, and those after them. -/
def divide (m : Member) (arity : Nat) (written : List String) : List String × List String :=
  if m.isParent then (written.take arity, written.drop arity) else (written, [])

theorem runs_reference {target : Target} {v : Value} :
    Runs (r.reference m target c) cache (v, c') cache' ↔
      ∃ t arity first, Runs (r.referenced m target) cache (t, arity) first ∧
        ∃ written, Runs (r.referenceParts m t arity c.peek) first written cache' ∧
          (divide m arity written).1.length = arity ∧
          ∃ node, r.registry.placeholder t (divide m arity written).1 = .ok node ∧
            .reference node = v ∧
            ⟨c.tokens.tail, c.pending ++ (divide m arity written).2⟩ = c' := by
  unfold reference
  simp only [runs_bind, Prod.exists]
  refine exists_congr fun t => exists_congr fun arity => exists_congr fun first =>
    and_congr_right fun _ => exists_congr fun written => ?_
  -- What follows is the check of the length, on the parts as `divide` gives them.
  change (∃ last, _ ∧ Runs
    (if (divide m arity written).1.length ≠ arity then _ else _) last (v, c') cache') ↔ _
  by_cases h : (divide m arity written).1.length = arity
  · simp only [h, ne_eq, not_true_eq_false, ↓reduceIte, bind_pure_comp, runs_map, runs_lift,
      Prod.mk.injEq, ↓existsAndEq, and_true, exists_and_left, true_and, and_congr_right_iff]
    intro _
    rfl
  · simp [h]

theorem inStatement_of_referenceParts {t : ConceptType} {arity : Nat} {token : Token}
    {written : List String} (h : Runs (r.referenceParts m t arity token) cache written cache') :
    token.inStatement = true := by
  cases token <;> simp [referenceParts] at h <;> rfl

theorem takes_reference {target : Target} {v : Value}
    (h : Runs (r.reference m target c) cache (v, c') cache') :
    Takes (r.reference m target) c cache v c' cache' := by
  obtain ⟨t, arity, first, ht, written, hw, hlen, node, hnode, rfl, rfl⟩ := runs_reference.mp h
  apply takes_one (inStatement_of_referenceParts hw) rfl
  intro tokens hpeek
  exact runs_reference.mpr ⟨t, arity, first, ht, written, hpeek ▸ hw, hlen, node, hnode, rfl, rfl⟩

theorem takes_bracketed {tokens rest : List Lexeme} {names : List String}
    (h : Runs (r.bracketed tokens) cache (names, rest) cache') :
    ∃ used, tokens = used ++ rest ∧ (∀ l ∈ used, l.token.inStatement = true) ∧
      ∀ rest, Runs (r.bracketed (used ++ rest)) cache (names, rest) cache' := by
  induction tokens generalizing names with
  | nil => simp [bracketed] at h
  | cons l tokens ih =>
    obtain ⟨token, span⟩ := l
    cases token with
    | word w =>
      simp only [bracketed, runs_bind, Prod.exists, runs_pure, Prod.mk.injEq] at h
      obtain ⟨names, _, _, hnames, ⟨rfl, rfl⟩, rfl⟩ := h
      obtain ⟨used, hused, hinside, hruns⟩ := ih hnames
      refine ⟨⟨.word w, span⟩ :: used, by rw [hused, List.cons_append], ?_, ?_⟩
      · exact List.forall_mem_cons.mpr ⟨rfl, hinside⟩
      · intro rest
        simpa [bracketed] using hruns rest
    | closeBracket =>
      simp only [bracketed, runs_pure, Prod.mk.injEq] at h
      obtain ⟨⟨rfl, rfl⟩, rfl⟩ := h
      exact ⟨[⟨.closeBracket, span⟩], rfl, by simp [Token.inStatement],
        fun rest => by simp [bracketed]⟩
    | _ => exact absurd h not_runs_fatal

theorem takes_listNames {names : List String} {span : Span}
    (h : Runs (r.listNames m c) cache (names, span, c') cache') :
    ∃ used, c.tokens = used ++ c'.tokens ∧ (∀ l ∈ used, l.token.inStatement = true) ∧
      ∀ rest, Runs (r.listNames m ⟨used ++ rest, c.pending⟩) cache (names, span, ⟨rest, c'.pending⟩)
        cache' := by
  unfold listNames at h
  split at h
  · next s span' rest heq =>
    simp only [runs_bind] at h
    obtain ⟨answer, between, hsplit, h⟩ := h
    cases answer with
    | error f => simp at h
    | ok names' =>
      simp only [runs_pure, Prod.mk.injEq] at h
      obtain ⟨⟨rfl, rfl, rfl⟩, rfl⟩ := h
      refine ⟨[⟨.quoted s, span'⟩], heq, by simp [Token.inStatement], ?_⟩
      intro rest
      simp only [listNames, List.cons_append, List.nil_append, runs_bind]
      exact ⟨.ok names', between, hsplit, by simp⟩
  · next span' rest heq =>
    simp only [runs_bind, Prod.exists] at h
    obtain ⟨names', rest', between, hnames, h⟩ := h
    obtain ⟨used, hused, hinside, hruns⟩ := takes_bracketed hnames
    -- An empty pair of brackets is refused.
    cases hempty : names'.isEmpty with
    | true => simp [hempty] at h
    | false =>
      simp only [hempty, Bool.false_eq_true, if_false, runs_pure, Prod.mk.injEq] at h
      obtain ⟨⟨rfl, rfl, rfl⟩, rfl⟩ := h
      refine ⟨⟨.openBracket, span'⟩ :: used, by rw [heq, hused, List.cons_append],
        List.forall_mem_cons.mpr ⟨rfl, hinside⟩, ?_⟩
      intro rest
      simp only [listNames, List.cons_append, runs_bind, Prod.exists]
      exact ⟨names', rest, between, hruns rest, by simp [hempty]⟩
  · simp at h

theorem runs_list {target : Target} {node : Node} {v : Value} :
    Runs (r.list m target node c) cache (v, c') cache' ↔
      ∃ names span between, Runs (r.listNames m c) cache (names, span, c') between ∧
        ∃ name t nodes, target = .concept name ∧ r.registry.find? name = some t ∧
          Runs (r.elements t node span names) between nodes cache' ∧ .list nodes = v := by
  simp only [list, runs_bind, Prod.exists]
  constructor
  · rintro ⟨names, span, d, between, hnames, h⟩
    cases target with
    | any => simp at h
    | concept name =>
      cases ht : r.registry.find? name with
      | none => simp [ht] at h
      | some t =>
        simp only [ht, runs_bind, runs_pure, Prod.mk.injEq] at h
        obtain ⟨nodes, last, hnodes, ⟨hv, rfl⟩, rfl⟩ := h
        exact ⟨names, span, between, hnames, name, t, nodes, rfl, ht, hnodes, hv⟩
  · rintro ⟨names, span, between, hnames, name, t, nodes, rfl, ht, hnodes, rfl⟩
    refine ⟨names, span, c', between, hnames, ?_⟩
    simp only [ht, runs_bind]
    exact ⟨nodes, cache', hnodes, by simp⟩

theorem takes_list {target : Target} {node : Node} {v : Value}
    (h : Runs (r.list m target node c) cache (v, c') cache') :
    Takes (r.list m target node) c cache v c' cache' := by
  obtain ⟨names, span, between, hnames, helements⟩ := runs_list.mp h
  obtain ⟨used, hused, hinside, hruns⟩ := takes_listNames hnames
  refine ⟨used, hused, hinside, ?_⟩
  intro rest
  exact runs_list.mpr ⟨names, span, between, hruns rest, helements⟩

/-- The text that a token gives to a member that is not a reference. -/
def spelled (kind : MemberKind) : Token → Option String
  | .word w => some w
  | .quoted s => if kind = .text ∨ Text.isIdentifier s then some s else none
  | _ => none

theorem runs_written_of_text (hk : m.kind.target? = none) {node : Node} {v : Value} :
    Runs (r.written m node c) cache (v, c') cache' ↔
      ∃ s, spelled m.kind c.peek = some s ∧ .text s = v ∧ c.advance = c' ∧ cache = cache' := by
  cases h : m.kind with
  | identifier =>
    simp only [written, h]
    cases c.peek with
    | quoted s => by_cases hs : Text.isIdentifier s = true <;> simp [spelled, hs, and_assoc]
    | _ => simp [spelled, and_assoc]
  | text =>
    simp only [written, h]
    cases c.peek <;> simp [spelled, and_assoc]
  | reference target => simp [h, MemberKind.target?] at hk
  | list target => simp [h, MemberKind.target?] at hk

theorem inStatement_of_spelled {kind : MemberKind} {token : Token} {s : String}
    (h : spelled kind token = some s) : token.inStatement = true := by
  cases token <;> simp [spelled, Token.inStatement] at h ⊢

theorem takes_written {node : Node} {v : Value}
    (h : Runs (r.written m node c) cache (v, c') cache') :
    Takes (r.written m node) c cache v c' cache' := by
  have htext (hk : m.kind.target? = none) : Takes (r.written m node) c cache v c' cache' := by
    obtain ⟨s, hs, rfl, rfl, rfl⟩ := (runs_written_of_text hk).mp h
    apply takes_one (inStatement_of_spelled hs) rfl
    intro tokens hpeek
    exact (runs_written_of_text hk).mpr ⟨s, hpeek ▸ hs, rfl, rfl, rfl⟩
  cases hk : m.kind with
  | identifier => exact htext (by simp [hk, MemberKind.target?])
  | text => exact htext (by simp [hk, MemberKind.target?])
  | reference target =>
    have heq : r.written m node = r.reference m target := by
      funext c
      simp only [written, hk]
    rw [heq] at h ⊢
    exact takes_reference h
  | list target =>
    have heq : r.written m node = r.list m target node := by
      funext c
      simp only [written, hk]
    rw [heq] at h ⊢
    exact takes_list h

theorem takes_fromPath {v : Value} (h : Runs (r.fromPath m c) cache (v, c') cache') :
    Takes (r.fromPath m) c cache v c' cache' := by
  unfold fromPath at h
  split at h
  · next target hk =>
    simp only [runs_bind, Prod.exists] at h
    obtain ⟨t, arity, first, ht, h⟩ := h
    by_cases hlt : c.pending.length < arity
    · simp [hlt] at h
    · simp only [hlt, if_false, runs_bind, runs_lift, runs_pure, Prod.mk.injEq] at h
      obtain ⟨node, last, ⟨hnode, rfl⟩, ⟨rfl, rfl⟩, rfl⟩ := h
      refine takes_none rfl fun tokens => ?_
      simp only [fromPath, hk, runs_bind, Prod.exists]
      exact ⟨t, arity, first, ht, by simp [hlt, hnode]⟩
  · simp at h
  · split at h
    · simp at h
    · next hreference hlist _ part pending hp =>
      simp only [runs_pure, Prod.mk.injEq] at h
      obtain ⟨⟨rfl, rfl⟩, rfl⟩ := h
      refine takes_none rfl fun tokens => ?_
      cases hk : m.kind with
      | reference target => exact absurd hk (hreference target)
      | list target => exact absurd hk (hlist target)
      | _ => simp [fromPath, hk, hp]

theorem runs_bind_cons {node : Node} {i : Nat} {rest : List (Member × Nat)}
    {result : Node × Cursor} :
    Runs (r.bind node c ((m, i) :: rest)) cache result cache' ↔
      ∃ v d first, Runs (r.member m node c) cache (v, d) first ∧
        ∃ next, node.setAt i m v = .ok next ∧ Runs (r.bind next d rest) first result cache' := by
  simp only [bind_cons, runs_bind, Prod.exists, runs_lift, mapError_eq_ok]
  constructor
  · rintro ⟨v, d, first, hmember, next, _, ⟨hset, rfl⟩, hrest⟩
    exact ⟨v, d, first, hmember, next, hset, hrest⟩
  · rintro ⟨v, d, first, hmember, next, hset, hrest⟩
    exact ⟨v, d, first, hmember, next, first, ⟨hset, rfl⟩, hrest⟩

theorem takes_member {node : Node} {v : Value}
    (h : Runs (r.member m node c) cache (v, c') cache') :
    Takes (r.member m node) c cache v c' cache' := by
  unfold member at h
  split at h
  · next hp =>
    obtain ⟨used, hused, hinside, hruns⟩ := takes_written h
    exact ⟨used, hused, hinside, fun rest => by simpa [member, hp] using hruns rest⟩
  · next hp =>
    obtain ⟨used, hused, hinside, hruns⟩ := takes_fromPath h
    exact ⟨used, hused, hinside, fun rest => by simpa [member, hp] using hruns rest⟩

theorem takes_bind {node node' : Node} {members : List (Member × Nat)}
    (h : Runs (r.bind node c members) cache (node', c') cache') :
    Takes (fun c => r.bind node c members) c cache node' c' cache' := by
  induction members generalizing node c cache with
  | nil =>
    simp only [bind, runs_pure, Prod.mk.injEq] at h
    obtain ⟨⟨rfl, rfl⟩, rfl⟩ := h
    exact takes_none rfl fun tokens => by simp [bind]
  | cons member rest ih =>
    obtain ⟨v, d, first, hmember, next, hset, hrest⟩ := runs_bind_cons.mp h
    obtain ⟨used, hused, hinside, hruns⟩ := takes_member hmember
    obtain ⟨used', hused', hinside', hruns'⟩ := ih hrest
    refine ⟨used ++ used', by rw [hused, hused', List.append_assoc], ?_, ?_⟩
    · intro l hl
      rcases List.mem_append.mp hl with hl | hl
      · exact hinside l hl
      · exact hinside' l hl
    · intro others
      rw [List.append_assoc]
      exact runs_bind_cons.mpr ⟨v, _, first, hruns (used' ++ others), next, hset, hruns' others⟩

theorem runs_read {context : Option Node} {tokens : List Lexeme} {reading : Reading} :
    Runs (r.read context tokens) cache reading cache' ↔
      ∃ w span rest, tokens = ⟨.word w, span⟩ :: rest ∧ r.type.keyword? = some w ∧
        ∃ start members first, Runs (r.started context) cache (start, members) first ∧
          ∃ node c, Runs (r.bind start ⟨rest, []⟩ members) first (node, c) cache' ∧
            c.pending = [] ∧ reading = ⟨node, rest.length + 1 - c.tokens.length, r.notes⟩ := by
  constructor
  · intro h
    match tokens with
    | ⟨.word w, span⟩ :: rest =>
      rw [read_cons] at h
      split at h
      · next hw =>
        simp only [runs_bind, Prod.exists] at h
        obtain ⟨start, members, first, hstart, node, c, last, hbind, h⟩ := h
        unfold finished at h
        split at h
        · next hp =>
          obtain ⟨rfl, rfl⟩ := runs_pure.mp h
          exact ⟨w, span, rest, rfl, hw, start, members, first, hstart, node, c, hbind,
            List.isEmpty_iff.mp hp, rfl⟩
        · exact absurd h not_runs_mismatch
      · exact absurd h not_runs_throw
  · rintro ⟨w, span, rest, rfl, hw, start, members, first, hstart, node, c, hbind, hp, rfl⟩
    rw [read_cons, if_pos hw]
    simp only [runs_bind, Prod.exists]
    exact ⟨start, members, first, hstart, node, c, cache', hbind, by simp [finished, hp]⟩

/-- A reading takes up a stretch of tokens that starts with its keyword, and it is the reading of
the stretch whatever comes after. -/
theorem read_extent {context : Option Node} {tokens : List Lexeme} {reading : Reading}
    (h : Runs (r.read context tokens) cache reading cache') :
    ∃ segment rest, tokens = segment ++ rest ∧ segment.length = reading.consumed ∧
      (∃ w span more, segment = ⟨.word w, span⟩ :: more ∧ r.type.keyword? = some w) ∧
      (∀ l ∈ segment, l.token.inStatement = true) ∧
      ∀ others, Runs (r.read context (segment ++ others)) cache reading cache' := by
  obtain ⟨w, span, rest, rfl, hw, start, members, first, hstart, node, c, hbind, hp, rfl⟩ :=
    runs_read.mp h
  obtain ⟨used, hused, hinside, hruns⟩ := takes_bind hbind
  have hlength (others : List Lexeme) :
      (used ++ others).length + 1 - others.length = used.length + 1 := by
    rw [List.length_append]
    omega
  refine ⟨⟨.word w, span⟩ :: used, c.tokens, by rw [List.cons_append, ← hused], ?_,
    ⟨w, span, used, rfl, hw⟩, List.forall_mem_cons.mpr ⟨rfl, hinside⟩, ?_⟩
  · rw [List.length_cons, ← hlength c.tokens, ← hused]
  · intro others
    refine runs_read.mpr ⟨w, span, used ++ others, List.cons_append, hw, start, members, first,
      hstart, node, ⟨others, c.pending⟩, hruns others, hp, ?_⟩
    have hrest : rest = used ++ c.tokens := hused
    dsimp only
    rw [hrest, hlength, hlength]

end Reader

end ConceptScript
