import ConceptScript.Proofs.Model.Listing
import ConceptScript.Proofs.Node.Equality
import ConceptScript.Proofs.Statement.Naming
import ConceptScript.Proofs.Statement.Places

namespace ConceptScript

open PropertyList (Cache)

def Token.dotted : List String → Token
  | [w] => .word w
  | segments => .path segments

def Token.segments? : Token → Option (List String)
  | .word w => some [w]
  | .path segments => some segments
  | _ => none

namespace Node

theorem slotParts_congr (ms : List Member) {vs ws : List (Option Value)}
    (h : vs.map valueParts = ws.map valueParts) : slotParts ms vs = slotParts ms ws := by
  induction ms generalizing vs ws with
  | nil => simp [slotParts]
  | cons m ms ih =>
    cases vs with
    | nil =>
      obtain rfl : ws = [] := by simpa using h.symm
      rfl
    | cons v vs =>
      cases ws with
      | nil => cases h
      | cons w ws =>
        obtain ⟨hv, hvs⟩ := List.cons.inj h
        rw [slotParts, slotParts, hv, ih hvs]

theorem keyParts_placeholder (n : Node) : n.placeholder.keyParts = n.keyParts := by
  rw [keyParts_eq n, keyParts_eq]
  exact slotParts_key_only n.type.members n.slots

theorem parent?_cons (t : ConceptType) (p : Node) (vs : List (Option Value)) :
    (mk t (some (.reference p) :: vs)).parent? = t.parent?.map fun _ => p := by
  rw [parent?, type, slots, List.head?_cons]
  cases t.parent? <;> rfl

/-- Two concepts that the same concepts can be nested in, and that give them the same keys. -/
structure Interchangeable (p q : Node) : Prop where
  type_eq : p.type = q.type
  parts_eq : p.keyParts = q.keyParts

end Node

/-- What a slot shows of itself, and what it gives to a key. -/
def Node.shown (v : Option Value) : Option Content × List String :=
  (v.map Value.content, valueParts v)

theorem Node.equal_of_shown {t : ConceptType} {vs ws : List (Option Value)}
    (h : vs.map shown = ws.map shown) : (mk t vs).Equal (mk t ws) := by
  have hcontents := congrArg (List.map Prod.fst) h
  have hparts := congrArg (List.map Prod.snd) h
  rw [List.map_map, List.map_map] at hcontents hparts
  refine ⟨same_iff.mpr ⟨rfl, hcontents⟩, ?_⟩
  rw [key, key, keyParts_eq, keyParts_eq]
  exact congrArg (label t.root) (slotParts_congr t.members hparts)

/-- Values that show the same and fit the same members. -/
structure Value.Alike (v w : Value) : Prop where
  shown_eq : Node.shown (some v) = Node.shown (some w)
  accepts_eq : ∀ kind : MemberKind, kind.accepts v = kind.accepts w

theorem Value.Alike.refl (v : Value) : v.Alike v := ⟨rfl, fun _ => rfl⟩

theorem Value.alike_reference {p q : Node} (h : p.Interchangeable q) :
    (Value.reference p).Alike (.reference q) := by
  constructor
  · simp only [Node.shown, Option.map_some, content, Node.key, Node.valueParts, h.type_eq, h.parts_eq]
  · intro kind
    cases kind <;> simp [MemberKind.accepts, h.type_eq]

theorem Value.alike_list {ns ns' : List Node} (h : List.Forall₂ Node.Interchangeable ns ns') :
    (Value.list ns).Alike (.list ns') := by
  constructor
  · have hkeys : ns.map Node.key = ns'.map Node.key :=
      map_eq_map_of_forall₂ h fun n n' hn => by rw [Node.key, Node.key, hn.type_eq, hn.parts_eq]
    have hparts : Node.listParts ns = Node.listParts ns' := by
      rw [Node.listParts_eq, Node.listParts_eq]
      exact map_eq_map_of_forall₂ h fun n n' hn => by rw [hn.parts_eq]
    simp only [Node.shown, Option.map_some, content, Node.valueParts, hkeys, hparts]
  · intro kind
    cases kind with
    | list target =>
      change (ns.all fun n => n.type.satisfies target) = ns'.all fun n => n.type.satisfies target
      induction h with
      | nil => rfl
      | cons hn _ ih => rw [List.all_cons, List.all_cons, hn.type_eq, ih]
    | _ => rfl

/-- A listed concept stands under the owner of the list, so it is the same under one that is
interchangeable with it. -/
theorem Registry.listElement_alike {registry : Registry} {target : ConceptType} {name : String}
    {a b n : Node}
    (howner : ∀ p, a.parent? = some p → ∃ q, b.parent? = some q ∧ p.Interchangeable q)
    (h : registry.listElement target name a = .ok n) :
    ∃ n', registry.listElement target name b = .ok n' ∧ n.Interchangeable n' := by
  unfold Registry.listElement at h ⊢
  split at h
  · next parent nameMember index _ =>
    split at h
    · cases h
    · next p hp =>
      obtain ⟨q, hq, hpq⟩ := howner p hp
      rw [hq]
      rw [Reader.mapError_eq_ok] at h
      obtain ⟨first, hfirst, hlast⟩ := bind_eq_ok.mp h
      obtain ⟨hparent, rfl⟩ := Node.setAt_eq_ok.mp hfirst
      obtain ⟨hname, rfl⟩ := Node.setAt_eq_ok.mp hlast
      rw [(Value.alike_reference hpq).accepts_eq] at hparent
      refine ⟨_, Reader.mapError_eq_ok.mpr (bind_eq_ok.mpr ⟨_, Node.setAt_eq_ok.mpr ⟨hparent, rfl⟩,
        Node.setAt_eq_ok.mpr ⟨hname, rfl⟩⟩), rfl, ?_⟩
      rw [Node.keyParts_eq, Node.keyParts_eq]
      refine Node.slotParts_congr _ ?_
      simp only [Node.slots, List.map_set, Node.valueParts, hpq.parts_eq]
  · exact ⟨n, h, rfl, rfl⟩

namespace Reader

variable {r : Reader} (script : Script) {m : Member} {c c' : Cursor} {cache cache' : Cache}

-- A reading that comes about does not depend on the script that the tokens are from.

theorem runs_bracketed_script {tokens : List Lexeme} {result : List String × List Lexeme}
    (h : Runs (r.bracketed tokens) cache result cache') :
    Runs ({ r with script }.bracketed tokens) cache result cache' := by
  induction tokens generalizing result with
  | nil => simp [bracketed] at h
  | cons l tokens ih =>
    obtain ⟨token, span⟩ := l
    cases token with
    | word w =>
      simp only [bracketed, runs_bind, Prod.exists, runs_pure] at h ⊢
      obtain ⟨names, rest, _, hnames, hrest, rfl⟩ := h
      exact ⟨names, rest, _, ih hnames, hrest, rfl⟩
    | closeBracket => exact h
    | _ => exact absurd h not_runs_fatal

theorem runs_listNames_script {result : List String × Span × Cursor}
    (h : Runs (r.listNames m c) cache result cache') :
    Runs ({ r with script }.listNames m c) cache result cache' := by
  unfold listNames at h ⊢
  split at h
  · simp only [runs_bind] at h ⊢
    obtain ⟨answer, between, hsplit, h⟩ := h
    refine ⟨answer, between, hsplit, ?_⟩
    cases answer with
    | error f => exact absurd h not_runs_fatal
    | ok names => exact h
  · simp only [runs_bind, Prod.exists] at h ⊢
    obtain ⟨names, rest, between, hnames, h⟩ := h
    refine ⟨names, rest, between, runs_bracketed_script script hnames, ?_⟩
    cases hempty : names.isEmpty with
    | true => simp [hempty] at h
    | false => simpa [hempty] using h
  · exact h

/-- Only a list looks at the concept that it is a member of. -/
theorem member_eq_of_not_list {a b : Node} (hm : ∀ target, m.kind ≠ .list target) :
    { r with script }.member m b c = r.member m a c := by
  unfold member written fromPath
  cases hk : m.kind with
  | list target => exact absurd hk (hm target)
  | _ => rfl

section Owner

variable {a b : Node}
  (howner : ∀ p, a.parent? = some p → ∃ q, b.parent? = some q ∧ p.Interchangeable q)
include howner

theorem elements_alike {target : ConceptType} {span : Span} {names : List String} {ns : List Node}
    (h : Runs (r.elements target a span names) cache ns cache') :
    ∃ ns', Runs ({ r with script }.elements target b span names) cache ns' cache' ∧
      List.Forall₂ Node.Interchangeable ns ns' := by
  induction names generalizing ns with
  | nil =>
    simp only [elements, runs_pure] at h
    obtain ⟨rfl, rfl⟩ := h
    exact ⟨[], by simp [elements], .nil⟩
  | cons name names ih =>
    unfold elements at h ⊢
    split at h
    · simp at h
    · next n hn =>
      simp only [runs_bind, runs_pure] at h
      obtain ⟨nodes, between, hnodes, rfl, rfl⟩ := h
      obtain ⟨n', hn', hsame⟩ := Registry.listElement_alike howner hn
      obtain ⟨nodes', hnodes', hall⟩ := ih hnodes
      rw [hn']
      simp only [runs_bind, runs_pure]
      exact ⟨n' :: nodes', ⟨nodes', between, hnodes', rfl, rfl⟩, .cons hsame hall⟩

theorem list_alike {target : Target} {v : Value}
    (h : Runs (r.list m target a c) cache (v, c') cache') :
    ∃ v', Runs ({ r with script }.list m target b c) cache (v', c') cache' ∧ v.Alike v' := by
  obtain ⟨names, span, between, hnames, name, t, nodes, rfl, ht, hnodes, rfl⟩ := runs_list.mp h
  obtain ⟨nodes', hnodes', hall⟩ := elements_alike script howner hnodes
  exact ⟨.list nodes', runs_list.mpr ⟨names, span, between, runs_listNames_script script hnames,
    name, t, nodes', rfl, ht, hnodes', rfl⟩, Value.alike_list hall⟩

theorem member_alike {v : Value}
    (h : Runs (r.member m a c) cache (v, c') cache') :
    ∃ v', Runs ({ r with script }.member m b c) cache (v', c') cache' ∧ v.Alike v' := by
  cases hk : m.kind with
  | list target =>
    unfold member written fromPath at h ⊢
    rw [hk] at h ⊢
    by_cases hp : c.pending.isEmpty = true
    · rw [if_pos hp] at h ⊢
      exact list_alike script howner h
    · rw [if_neg hp] at h
      exact absurd h not_runs_mismatch
  | _ =>
    rw [member_eq_of_not_list script (a := a) (by simp [hk])]
    exact ⟨v, h, .refl v⟩

end Owner

/-- Two concepts that differ in what stands for their parents stay alike while the other members are
bound. -/
theorem bind_alike {t : ConceptType} {p q node : Node} {vs ws : List (Option Value)}
    {ms : List Member} {i : Nat} (hshown : vs.map Node.shown = ws.map Node.shown)
    (hlists : (∀ m ∈ ms, ∀ target, m.kind ≠ .list target) ∨ p.Interchangeable q)
    (h : Runs (r.bind (.mk t (some (.reference p) :: vs)) c (ms.zipIdx (i + 1))) cache (node, c')
      cache') :
    ∃ vs' ws', node = .mk t (some (.reference p) :: vs') ∧
      vs'.map Node.shown = ws'.map Node.shown ∧
      Runs ({ r with script }.bind (.mk t (some (.reference q) :: ws)) c (ms.zipIdx (i + 1))) cache
        (.mk t (some (.reference q) :: ws'), c') cache' := by
  induction ms generalizing vs ws i c cache with
  | nil =>
    simp only [List.zipIdx_nil, bind, runs_pure, Prod.mk.injEq] at h
    obtain ⟨⟨rfl, rfl⟩, rfl⟩ := h
    exact ⟨vs, ws, rfl, hshown, by simp [bind]⟩
  | cons m ms ih =>
    rw [List.zipIdx_cons] at h
    obtain ⟨v, d, first, hmember, next, hset, hrest⟩ := runs_bind_cons.mp h
    obtain ⟨haccepts, rfl⟩ := Node.setAt_eq_ok.mp hset
    have hmember' : ∃ v', Runs ({ r with script }.member m (.mk t (some (.reference q) :: ws)) c)
        cache (v', d) first ∧ v.Alike v' := by
      rcases hlists with hnone | hpq
      · rw [member_eq_of_not_list script (hnone m List.mem_cons_self)]
        exact ⟨v, hmember, .refl v⟩
      · refine member_alike script ?_ hmember
        intro p' hp'
        rw [Node.parent?_cons, Option.map_eq_some_iff] at hp'
        obtain ⟨parent, hparent, rfl⟩ := hp'
        exact ⟨q, by rw [Node.parent?_cons, hparent]; rfl, hpq⟩
    obtain ⟨v', hruns, halike⟩ := hmember'
    have hnext : (vs.set i (some v)).map Node.shown = (ws.set i (some v')).map Node.shown := by
      rw [List.map_set, List.map_set, hshown, halike.shown_eq]
    have htail := hlists.imp_left fun hnone m hm => hnone m (List.mem_cons_of_mem _ hm)
    obtain ⟨vs', ws', hnode, hsame, hbind⟩ := ih hnext htail hrest
    refine ⟨vs', ws', hnode, hsame, ?_⟩
    rw [List.zipIdx_cons]
    exact runs_bind_cons.mpr ⟨v', d, first, hruns, _,
      Node.setAt_eq_ok.mpr ⟨halike.accepts_eq _ ▸ haccepts, rfl⟩, hbind⟩

theorem cache_of_nest {node outer nested : Node} (h : Runs (r.nest node outer) cache nested cache') :
    cache = cache' := by
  unfold nest at h
  split at h
  · exact absurd h not_runs_mismatch
  · split at h
    · split at h
      · exact (runs_lift.mp h).2
      · exact absurd h not_runs_mismatch
    · exact absurd h not_runs_mismatch

theorem runs_referenced {target : Target} {t : ConceptType} {arity : Nat} :
    Runs (r.referenced m target) cache (t, arity) cache' ↔
      ∃ name n, target = .concept name ∧ r.registry.find? name = some t ∧
        t.arity? = some (n + 1) ∧ t.isInterface = false ∧ n + 1 = arity ∧ cache = cache' := by
  constructor
  · intro h
    unfold referenced at h
    split at h
    · exact absurd h not_runs_mismatch
    · next name =>
      split at h
      · exact absurd h not_runs_mismatch
      · next u hf =>
        split at h
        · next n hn =>
          cases hi : u.isInterface with
          | true => simp [hi] at h
          | false =>
            simp only [hi, Bool.false_eq_true, if_false, runs_pure, Prod.mk.injEq] at h
            obtain ⟨⟨rfl, rfl⟩, rfl⟩ := h
            exact ⟨name, n, rfl, hf, hn, hi, rfl, rfl⟩
        · exact absurd h not_runs_mismatch
  · rintro ⟨name, n, rfl, hf, hn, hi, rfl, rfl⟩
    simp [referenced, hf, hn, hi]

theorem fromPath_of_written {token : Token} {segments : List String} {span : Span}
    {rest : List Lexeme} {node : Node} {v : Value} (hs : token.segments? = some segments)
    (hm : m.isParent = false)
    (h : Runs (r.written m node ⟨⟨token, span⟩ :: rest, []⟩) cache (v, c') cache') :
    c' = ⟨rest, []⟩ ∧ segments ≠ [] ∧
      Runs ({ r with script }.fromPath m ⟨rest, segments⟩) cache (v, ⟨rest, []⟩) cache' := by
  have htext (hk : m.kind.target? = none) : c' = ⟨rest, []⟩ ∧ segments ≠ [] ∧
      Runs ({ r with script }.fromPath m ⟨rest, segments⟩) cache (v, ⟨rest, []⟩) cache' := by
    obtain ⟨s, hspelled, rfl, rfl, rfl⟩ := (runs_written_of_text hk).mp h
    obtain rfl : [s] = segments := by
      cases token <;> simp_all [Cursor.peek, spelled, Token.segments?]
    refine ⟨rfl, by simp, ?_⟩
    unfold fromPath
    cases hkind : m.kind with
    | identifier => simp
    | text => simp
    | reference target => simp [hkind, MemberKind.target?] at hk
    | list target => simp [hkind, MemberKind.target?] at hk
  cases hk : m.kind with
  | identifier => exact htext (by simp [hk, MemberKind.target?])
  | text => exact htext (by simp [hk, MemberKind.target?])
  | reference target =>
    simp only [written, hk] at h
    obtain ⟨t, arity, first, ht, written, hw, hlen, ref, href, rfl, rfl⟩ := runs_reference.mp h
    obtain ⟨rfl, rfl⟩ : segments = written ∧ first = cache' := by
      cases token <;> simp_all [Cursor.peek, referenceParts, Token.segments?]
    obtain ⟨name, n, rfl, hf, harity, hi, rfl, rfl⟩ := runs_referenced.mp ht
    simp only [divide, hm, Bool.false_eq_true, if_false] at hlen href ⊢
    refine ⟨rfl, by rintro rfl; simp at hlen, ?_⟩
    unfold fromPath
    simp only [hk, runs_bind, Prod.exists]
    refine ⟨t, n + 1, cache, runs_referenced.mpr ⟨name, n, rfl, hf, harity, hi, rfl, rfl⟩, ?_⟩
    have hnot : ¬segments.length < n + 1 := by omega
    have htake : segments.take (n + 1) = segments := List.take_of_length_le (Nat.le_of_eq hlen)
    have hdrop : segments.drop (n + 1) = [] := List.drop_of_length_le (Nat.le_of_eq hlen)
    simp only [if_neg hnot, htake, hdrop, runs_bind, runs_lift, runs_pure]
    exact ⟨ref, cache, ⟨href, rfl⟩, rfl, rfl⟩
  | list target =>
    simp only [written, hk] at h
    obtain ⟨names, at_, between, hnames, _⟩ := runs_list.mp h
    unfold listNames at hnames
    cases token <;> simp_all [Token.segments?]

theorem runs_referenceParts_of_segments {t : ConceptType} {arity : Nat} {token : Token}
    {segments : List String} (h : token.segments? = some segments) :
    Runs (r.referenceParts m t arity token) cache segments cache := by
  cases token with
  | word w =>
    obtain rfl := Option.some.inj h
    simp [referenceParts]
  | path s =>
    obtain rfl := Option.some.inj h
    simp [referenceParts]
  | _ => cases h

/-- A dotted name in front stands for the parent. What is left of it goes to the next members. -/
theorem bind_parent {declared : List Declaration} (h : Registry.build declared = .ok r.registry)
    {parent : Member} {ms : List Member} (hms : r.type.members = parent :: ms)
    (hp : parent.isParent = true) {target : ConceptType} (ht : target ∈ r.registry.types)
    (hk : parent.kind = .reference (.concept target.name)) {n : Nat}
    (hn : target.arity? = some (n + 1)) (hnames : r.registry.Names target.members (n + 1))
    {parts more : List String} (hlen : parts.length = n + 1)
    {token : Token} (htoken : token.segments? = some (parts ++ more)) :
    ∃ q : Node, q.type = target ∧ q.keyParts = parts ∧
      ∀ (span : Span) (rest : List Lexeme) (result : Node × Cursor) (cache cache' : Cache),
        Runs (r.bind (.mk r.type (some (.reference q) :: ms.map fun _ => none)) ⟨rest, more⟩
          (ms.zipIdx 1)) cache result cache' →
        Runs (r.bind (.ofType r.type) ⟨⟨token, span⟩ :: rest, []⟩ r.type.members.zipIdx) cache
          result cache' := by
  obtain ⟨q, hq, hqtype, hqparts⟩ := Registry.exists_placeholder h ht
    (Registry.isInterface_of_arity h ht hn) hnames (Registry.lt_wordSize_of_arity h ht hn) hlen
  refine ⟨q, hqtype, hqparts, ?_⟩
  intro span rest result cache cache' hrest
  rw [hms, List.zipIdx_cons]
  refine runs_bind_cons.mpr ⟨.reference q, ⟨rest, more⟩, cache, ?_,
    .mk r.type (some (.reference q) :: ms.map fun _ => none), ?_, hrest⟩
  · simp only [member, written, hk, List.isEmpty_nil, if_true]
    have hdivide : divide parent (n + 1) (parts ++ more) = (parts, more) := by
      rw [divide, if_pos hp, ← hlen, List.take_left, List.drop_left]
    refine runs_reference.mpr ⟨target, n + 1, cache, ?_, parts ++ more,
      runs_referenceParts_of_segments htoken, ?_⟩
    · exact runs_referenced.mpr ⟨target.name, n, rfl, Registry.find?_of_mem h ht, hn,
        Registry.isInterface_of_arity h ht hn, rfl, rfl⟩
    · rw [hdivide]
      exact ⟨hlen, q, hq, rfl, rfl⟩
  · refine Node.setAt_eq_ok.mpr ⟨?_, ?_⟩
    · rw [hk]
      change q.type.satisfies (.concept target.name) = true
      rw [hqtype]
      exact Registry.isA_self h ht
    · simp [Node.ofType, Node.type, Node.slots, hms]

theorem runs_read_nested {outer : Node} {parent : Member} {ms : List Member}
    (hms : r.type.members = parent :: ms) {tokens : List Lexeme} {reading : Reading}
    (h : Runs (r.read (some outer) tokens) cache reading cache') :
    ∃ w span rest vs c, tokens = ⟨.word w, span⟩ :: rest ∧ r.type.keyword? = some w ∧
      Runs (r.bind (.mk r.type (some (.reference outer.placeholder) :: ms.map fun _ => none))
        ⟨rest, []⟩ (ms.zipIdx 1)) cache
        (.mk r.type (some (.reference outer.placeholder) :: vs), c) cache' ∧
      c.pending = [] ∧ c.tokens.length ≤ rest.length ∧
      reading = ⟨.mk r.type (some (.reference outer.placeholder) :: vs),
        rest.length + 1 - c.tokens.length, r.notes⟩ := by
  obtain ⟨w, span, rest, rfl, hw, start, members, between, hstart, node, c, hbind, hc, rfl⟩ :=
    runs_read.mp h
  simp only [started, runs_bind, runs_pure, Prod.mk.injEq] at hstart
  obtain ⟨_, _, hnest, ⟨rfl, rfl⟩, rfl⟩ := hstart
  obtain rfl := cache_of_nest hnest
  obtain ⟨parent', ms', _, hms', _, _, _, _, rfl⟩ := runs_nest rfl hnest
  obtain ⟨rfl, rfl⟩ := List.cons.inj (hms.symm.trans hms')
  replace hbind : Runs (r.bind
      (.mk r.type ([some (.reference outer.placeholder)] ++ ms.map fun _ => none)) ⟨rest, []⟩
      (ms.zipIdx 1)) cache (node, c) cache' := by
    rw [hms] at hbind
    exact hbind
  obtain ⟨vs, rfl, _⟩ := bound_of_bind (List.length_map _) hbind
  obtain ⟨used, hused, _⟩ := takes_bind hbind
  have hle : c.tokens.length ≤ rest.length := by
    have hlength := congrArg List.length hused
    simp only [List.length_append] at hlength
    omega
  exact ⟨w, span, rest, vs, c, rfl, hw, hbind, hc, hle, rfl⟩

end Reader

theorem Token.segments?_dotted {parts : List String} (h : parts ≠ []) :
    (Token.dotted parts).segments? = some parts := by
  match parts with
  | [] => exact absurd rfl h
  | [w] => rfl
  | w :: w' :: ws => rfl

section Flat

variable {declared : List Declaration} {registry : Registry}
  (h : Registry.build declared = .ok registry) {t target : ConceptType} {parent : Member}
  (hparent : t.parent? = some parent) (htarget : target ∈ registry.types)
  (hkind : parent.kind = .reference (.concept target.name)) {n : Nat}
  (hn : target.arity? = some (n + 1)) (hnames : registry.Names target.members (n + 1))
  {outer : Node} (houter : outer.type ∈ registry.types)
  (hisA : outer.type.isA target.name = true)
  (hbound : registry.KeysBound outer.type.members outer.slots)
include h hparent htarget hkind hn hnames houter hisA hbound

/-- A dotted name that starts with the key of the outer concept gives what nesting gives, if the
members after the parent are bound to values that show the same. -/
theorem Reader.read_dotted {script : Script} {ms : List Member} (hms : t.members = parent :: ms)
    {w : String} (hw : t.keyword? = some w) {vs : List (Option Value)} {c : Cursor}
    {cache cache' : Cache} {token : Token} {more : List String} {rest : List Lexeme}
    (htoken : token.segments? = some (outer.keyParts ++ more)) (hc : c.pending = [])
    (hbind : ∀ q : Node, q.type = target → q.keyParts = outer.keyParts → ∃ ws,
      vs.map Node.shown = ws.map Node.shown ∧
      Runs (Reader.bind ⟨registry, script, t⟩
        (.mk t (some (.reference q) :: ms.map fun _ => none)) ⟨rest, more⟩ (ms.zipIdx 1)) cache
        (.mk t (some (.reference q) :: ws), c) cache') (first last : Span) :
    ∃ flat, Runs (Reader.read ⟨registry, script, t⟩ none (⟨.word w, first⟩ :: ⟨token, last⟩ :: rest))
        cache flat cache' ∧
      flat.node.Equal (.mk t (some (.reference outer.placeholder) :: vs)) ∧
      flat.consumed = rest.length + 2 - c.tokens.length ∧
      flat.notes = Reader.notes ⟨registry, script, t⟩ := by
  obtain ⟨hlen, hroot⟩ := Registry.length_keyParts h htarget
    (Registry.isInterface_of_arity h htarget hn) hnames houter hisA hbound
  have hp : parent.isParent = true := by
    simp only [Shape.parent?, hms, List.head?_cons, Option.filter_eq_some_iff] at hparent
    exact hparent.2
  obtain ⟨q, hq, hparts, hruns⟩ := Reader.bind_parent (r := ⟨registry, script, t⟩) h hms hp htarget
    hkind hn hnames hlen htoken
  obtain ⟨ws, hshown, hrest⟩ := hbind q hq hparts
  have hstart : Runs (Reader.started ⟨registry, script, t⟩ none) cache
      (Node.ofType t, t.members.zipIdx) cache := by simp [Reader.started]
  refine ⟨_, Reader.runs_read.mpr ⟨w, first, ⟨token, last⟩ :: rest, rfl, hw, _, _, cache, hstart, _, c,
    hruns last rest _ cache cache' hrest, hc, rfl⟩, Node.equal_of_shown ?_, rfl, rfl⟩
  have hkey : q.key = outer.placeholder.key := by
    rw [Node.key_placeholder, Node.key, Node.key, hq, hparts, hroot]
  have hhead : Node.shown (some (.reference q)) =
      Node.shown (some (.reference outer.placeholder)) := by
    simp only [Node.shown, Option.map_some, Value.content, Node.valueParts, hkey, hparts,
      Node.keyParts_placeholder]
  rw [List.map_cons, List.map_cons, hhead, hshown]

section Nested

variable {script : Script} (script' : Script) {ms : List Member} (hms : t.members = parent :: ms)
  (hlists : (∀ m ∈ ms, ∀ listed, m.kind ≠ .list listed) ∨ outer.type = target)
  {w : String} (hw : t.keyword? = some w) {vs : List (Option Value)} {c : Cursor}
  {cache cache' : Cache} (hc : c.pending = []) (first last : Span)
include hms hlists hw hc

/-- The whole key of the outer concept as a dotted name. -/
theorem Reader.read_named {rest : List Lexeme}
    (hbind : Runs (Reader.bind ⟨registry, script, t⟩
      (.mk t (some (.reference outer.placeholder) :: ms.map fun _ => none)) ⟨rest, []⟩ (ms.zipIdx 1))
      cache (.mk t (some (.reference outer.placeholder) :: vs), c) cache') :
    ∃ flat, Runs (Reader.read ⟨registry, script', t⟩ none
        (⟨.word w, first⟩ :: ⟨.dotted outer.keyParts, last⟩ :: rest)) cache flat cache' ∧
      flat.node.Equal (.mk t (some (.reference outer.placeholder) :: vs)) ∧
      flat.consumed = rest.length + 2 - c.tokens.length ∧
      flat.notes = Reader.notes ⟨registry, script', t⟩ := by
  have htoken : (Token.dotted outer.keyParts).segments? = some (outer.keyParts ++ []) := by
    rw [List.append_nil]
    refine Token.segments?_dotted fun hnil => ?_
    have hlen := (Registry.length_keyParts h htarget
    (Registry.isInterface_of_arity h htarget hn) hnames houter hisA hbound).1
    simp [hnil] at hlen
  refine Reader.read_dotted h hparent htarget hkind hn hnames houter hisA hbound hms hw htoken hc ?_
    first last
  intro q hq hparts
  have halike := hlists.imp_right fun he : outer.type = target =>
    (⟨he.trans hq.symm, outer.keyParts_placeholder.trans hparts.symm⟩ :
      outer.placeholder.Interchangeable q)
  obtain ⟨vs', ws, hnode, hshown, hruns⟩ := Reader.bind_alike script' rfl halike hbind
  obtain rfl : vs = vs' := (List.cons.inj (Node.mk.inj hnode).2).2
  exact ⟨ws, hshown, hruns⟩

theorem Reader.read_joined (ht : t ∈ registry.types) (hne : ms ≠ []) {next : Lexeme}
    {more : List Lexeme} {segments : List String} (hnext : next.token.segments? = some segments)
    (hbind : Runs (Reader.bind ⟨registry, script, t⟩
      (.mk t (some (.reference outer.placeholder) :: ms.map fun _ => none)) ⟨next :: more, []⟩
      (ms.zipIdx 1)) cache (.mk t (some (.reference outer.placeholder) :: vs), c) cache') :
    ∃ flat, Runs (Reader.read ⟨registry, script', t⟩ none
        (⟨.word w, first⟩ :: ⟨.path (outer.keyParts ++ segments), last⟩ :: more)) cache flat cache' ∧
      flat.node.Equal (.mk t (some (.reference outer.placeholder) :: vs)) ∧
      flat.consumed = more.length + 2 - c.tokens.length ∧
      flat.notes = Reader.notes ⟨registry, script', t⟩ := by
  obtain ⟨m, ms, rfl⟩ := List.exists_cons_of_ne_nil hne
  rw [List.zipIdx_cons] at hbind
  obtain ⟨v, d, between, hmember, _, hset, hrest⟩ := Reader.runs_bind_cons.mp hbind
  obtain ⟨haccepts, rfl⟩ := Node.setAt_eq_ok.mp hset
  have hm : m.isParent = false := Registry.isParent_of_mem_tail h ht hms m List.mem_cons_self
  -- The value of the next member is the same from the token and from what is left of the path.
  obtain ⟨rfl, hsome, hpath⟩ := Reader.fromPath_of_written script' hnext hm hmember
  refine Reader.read_dotted h hparent htarget hkind hn hnames houter hisA hbound hms hw rfl hc ?_ first last
  intro q hq hparts
  have halike := hlists.imp (fun hnone m' hm' => hnone m' (List.mem_cons_of_mem m hm'))
    fun he : outer.type = target =>
      (⟨he.trans hq.symm, outer.keyParts_placeholder.trans hparts.symm⟩ :
        outer.placeholder.Interchangeable q)
  obtain ⟨vs', ws, hnode, hshown, hruns⟩ := Reader.bind_alike script' rfl halike hrest
  obtain rfl : vs = vs' := (List.cons.inj (Node.mk.inj hnode).2).2
  refine ⟨ws, hshown, ?_⟩
  rw [List.zipIdx_cons]
  refine Reader.runs_bind_cons.mpr ⟨v, ⟨more, []⟩, between, ?_, _,
    Node.setAt_eq_ok.mpr ⟨haccepts, rfl⟩, hruns⟩
  rw [Reader.member, if_neg (by simpa using hsome)]
  exact hpath

end Nested

end Flat

-- A language with packages, which are modules, and with entities in modules.

namespace Packaged

def declared : List Declaration := [
  ({ name := "Module" } : Declaration).withKey "Name" .identifier,
  ({ name := "Package" } : Declaration).extending "Module",
  ({ name := "Entity" } : Declaration).withKeyword "Entity"
    |>.withParent "Module" (.concept "Module") |>.withKey "Name" .identifier]

def moduleType : ConceptType := Small.moduleType

def packageType : ConceptType :=
  { moduleType with name := "Package", ancestors := ["Package", "Module"] }

def entityType : ConceptType := { Small.entityType with keyword? := some "Entity" }

def registry : Registry := ⟨[moduleType, packageType, entityType]⟩

theorem build_declared : Registry.build declared = .ok registry := by decide +kernel

def package (name : String) : Node := .mk packageType [some (.text name)]

def reader : Reader := ⟨registry, .ofText "" "", entityType⟩

def lexeme (token : Token) : Lexeme := ⟨token, ⟨0, 0⟩⟩

end Packaged

/-- A statement inside of a concept can be taken out of it. With the key of the concept as a dotted
name in front, or joined to the dotted name that its next member starts with, it is read as an equal
concept. -/
theorem Reader.read_flat {declared : List Declaration} {registry : Registry}
    (h : Registry.build declared = .ok registry) {t target : ConceptType} (ht : t ∈ registry.types)
    {parent : Member} (hparent : t.parent? = some parent) (htarget : target ∈ registry.types)
    (hkind : parent.kind = .reference (.concept target.name)) {n : Nat}
    (hn : target.arity? = some (n + 1)) {outer : Node} (houter : outer.type ∈ registry.types)
    (hisA : outer.type.isA target.name = true)
    (hbound : registry.KeysBound outer.type.members outer.slots)
    (hfits : outer.keyParts.length < Registry.wordSize)
    (hlists : (∀ m ∈ t.members, ∀ listed, m.kind ≠ .list listed) ∨ outer.type = target)
    {script : Script} {keyword : Lexeme} {rest : List Lexeme} (hends : Ended rest)
    {cache cache' : Cache} {reading : Reading}
    (hread : Runs (Reader.readAt ⟨registry, script, t⟩ (some outer) (keyword :: rest) 0) cache
      reading cache') (script' : Script) (span : Span) :
    (∃ flat, Runs (Reader.readAt ⟨registry, script', t⟩ none
        (keyword :: ⟨.dotted outer.keyParts, span⟩ :: rest) 0) cache flat cache' ∧
      flat.node.Equal reading.node ∧ flat.consumed = reading.consumed + 1 ∧
      flat.notes = reading.notes) ∧
    ∀ next more segments, rest = next :: more → next.token.segments? = some segments →
      1 < t.members.length →
        ∃ flat, Runs (Reader.readAt ⟨registry, script', t⟩ none
            (keyword :: ⟨.path (outer.keyParts ++ segments), span⟩ :: more) 0) cache flat cache' ∧
          flat.node.Equal reading.node ∧ flat.consumed = reading.consumed ∧
          flat.notes = reading.notes := by
  obtain ⟨ms, hms⟩ : ∃ ms, t.members = parent :: ms := by
    have hhead := hparent
    simp only [Shape.parent?, Option.filter_eq_some_iff] at hhead
    exact List.head?_eq_some_iff.mp hhead.1
  have hnames := Registry.names_of_arity h htarget hn houter hisA hbound hfits
  rw [Reader.runs_readAt hends.cons, List.drop_zero] at hread
  obtain ⟨w, first, rest', vs, c, heq, hw, hbind, hc, hle, rfl⟩ :=
    Reader.runs_read_nested hms hread
  obtain ⟨rfl, rfl⟩ := List.cons.inj heq
  have hlists' : (∀ m ∈ ms, ∀ listed, m.kind ≠ .list listed) ∨ outer.type = target :=
    hlists.imp_left fun hnone m hm => hnone m (by rw [hms]; exact List.mem_cons_of_mem _ hm)
  constructor
  · obtain ⟨flat, hruns, hequal, hconsumed, hnotes⟩ := Reader.read_named h hparent htarget hkind hn
      hnames houter hisA hbound script' hms hlists' hw hc first span hbind
    refine ⟨flat, (Reader.runs_readAt hends.cons.cons).mpr hruns, hequal, ?_, hnotes⟩
    rw [hconsumed]
    dsimp only
    omega
  · rintro next more segments rfl hnext hmembers
    have hne : ms ≠ [] := by
      rintro rfl
      simp [hms] at hmembers
    have hmore : Ended more := hends.of_cons fun hend => by simp [hend, Token.segments?] at hnext
    obtain ⟨flat, hruns, hsame⟩ := Reader.read_joined h hparent htarget hkind hn hnames houter hisA
      hbound script' hms hlists' hw hc first span ht hne hnext hbind
    exact ⟨flat, (Reader.runs_readAt hmore.cons.cons).mpr hruns, hsame⟩

/-- An entity of a package, inside of the package and outside. -/
theorem Reader.read_flat_package :
    let reading : Reading := ⟨.mk Packaged.entityType
      [some (.reference (Packaged.package "Common")), some (.text "Person")], 2, []⟩
    let keyword := Packaged.lexeme (.word "Entity")
    let name := Packaged.lexeme (.word "Person")
    let rest := [Packaged.lexeme .semicolon, Packaged.lexeme .endOfScript]
    Runs (Packaged.reader.readAt (some (Packaged.package "Common")) (keyword :: name :: rest) 0) {}
        reading {} ∧
      (∃ flat, Runs (Packaged.reader.readAt none
          (keyword :: Packaged.lexeme (.word "Common") :: name :: rest) 0) {} flat {} ∧
        flat.node.Equal reading.node ∧ flat.consumed = 3) ∧
      ∃ flat, Runs (Packaged.reader.readAt none
          (keyword :: Packaged.lexeme (.path ["Common", "Person"]) :: rest) 0) {} flat {} ∧
        flat.node.Equal reading.node ∧ flat.consumed = 2 := by
  intro reading keyword name rest
  have hends : Ended (name :: rest) := rfl
  have hread : Runs (Packaged.reader.readAt (some (Packaged.package "Common"))
      (keyword :: name :: rest) 0) {} reading {} := (Reader.runs_readAt hends.cons).mpr rfl
  have hentity : Packaged.entityType ∈ Packaged.registry.types := by decide
  have hmodule : Packaged.moduleType ∈ Packaged.registry.types := by decide
  have hpackage : (Packaged.package "Common").type ∈ Packaged.registry.types := by decide
  have hbound : Packaged.registry.KeysBound (Packaged.package "Common").type.members
      (Packaged.package "Common").slots :=
    .key rfl ⟨.text "Common", rfl, rfl⟩ (by simp) (by simp) (.nil [])
  have hfits : (Packaged.package "Common").keyParts.length < Registry.wordSize := by decide
  have hlists : ∀ m ∈ Packaged.entityType.members, ∀ listed, m.kind ≠ .list listed := by
    simp [Packaged.entityType, Small.entityType, Small.plain]
  obtain ⟨⟨flat, hflat, hequal, hconsumed, _⟩, hjoined⟩ := Reader.read_flat
    Packaged.build_declared hentity rfl hmodule rfl rfl hpackage (by decide) hbound hfits
    (.inl hlists) hends hread Packaged.reader.script ⟨0, 0⟩
  obtain ⟨joined, hruns, hsame, hcount, _⟩ := hjoined name rest ["Person"] rfl rfl (by decide)
  exact ⟨hread, ⟨flat, hflat, hequal, hconsumed⟩, joined, hruns, hsame, hcount⟩

end ConceptScript
