import ConceptScript.Proofs.Node.Formed
import ConceptScript.Proofs.Statement.Grammar
import ConceptScript.Proofs.Statement.Naming
import ConceptScript.Proofs.Token.Names

namespace ConceptScript

open PropertyList (Cache)

variable {registry : Registry}

theorem length_keySlots {pool : List ConceptType} {owner : String} {ms : List Member}
    {parts : List String} {slots : List (Option Value)}
    (h : keySlots pool owner ms parts = .ok slots) : slots.length = ms.length := by
  induction ms generalizing parts slots with
  | nil =>
    rw [keySlots.eq_def] at h
    obtain rfl := Except.ok.inj h
    rfl
  | cons m ms ih =>
    obtain ⟨v, left, rest, _, hrest, rfl⟩ := keySlots_cons_eq_ok pool owner ms parts h
    rw [List.length_cons, ih hrest, List.length_cons]

theorem Registry.shaped_placeholder {t : ConceptType} (ht : t ∈ registry.types)
    {parts : List String} {node : Node} (h : registry.placeholder t parts = .ok node) :
    node.Shaped registry := by
  obtain ⟨slots, hslots, hnode⟩ := bind_eq_ok.mp h
  obtain rfl := pure_eq_ok.mp hnode
  exact ⟨ht, length_keySlots hslots⟩

theorem Registry.shaped_listElement {t : ConceptType} (ht : t ∈ registry.types) {name : String}
    {listing node : Node} (h : registry.listElement t name listing = .ok node) :
    node.Shaped registry := by
  unfold listElement at h
  split at h
  · split at h
    · cases h
    · rw [Reader.mapError_eq_ok] at h
      obtain ⟨first, hfirst, hnode⟩ := bind_eq_ok.mp h
      exact ((Node.Shaped.ofType ht).setAt hfirst).setAt hnode
  · split at h
    · exact shaped_placeholder ht h
    · cases h

theorem unbroken_of_isIdentifier {s : String} (h : Text.isIdentifier s = true) :
    Text.Unbroken s := by
  unfold Text.isIdentifier at h
  split at h
  · cases h
  · next c cs heq =>
    rw [Bool.and_eq_true, List.all_eq_true] at h
    -- Neither a blank nor a dot is a letter or a numeral.
    have hblank : Text.isLetter ' ' = false ∧ Text.isNumeral ' ' = false :=
      ⟨by decide +kernel, by decide +kernel⟩
    have hdot : Text.isLetter '.' = false ∧ Text.isNumeral '.' = false :=
      ⟨by decide +kernel, by decide +kernel⟩
    have hmark : ∀ d ∈ [' ', '.'], Text.isLetter d = false ∧ Text.isNumeral d = false ∧ d ≠ '_' := by
      simp [hblank, hdot]
    have hother : ∀ d ∈ [' ', '.'], d ∉ s.toList := by
      intro d hd hmem
      obtain ⟨hletter, hnumeral, hunderscore⟩ := hmark d hd
      rcases List.mem_cons.mp (heq ▸ hmem) with rfl | hmem
      · simp [hletter, hunderscore] at h
      · simpa [hletter, hnumeral, hunderscore] using h.2 d hmem
    intro d hd
    exact ⟨fun he => hother d (by simp [he]) hd, fun he => hother d (by simp [he]) hd⟩

/-- The names that a reading has at hand have no blank and no dot in them. -/
structure Cursor.Unbroken (c : Cursor) : Prop where
  tokens : ∀ l ∈ c.tokens, ∀ w ∈ l.token.names, Text.Unbroken w
  pending : ∀ s ∈ c.pending, Text.Unbroken s

namespace Reader

variable {r : Reader} {m : Member} {c c' : Cursor} {cache cache' : Cache}

theorem unbroken_of_peek (h : c.Unbroken) : ∀ w ∈ c.peek.names, Text.Unbroken w := by
  unfold Cursor.peek
  split
  · simp [Token.names]
  · next l rest heq => exact h.tokens l (by simp [heq])

theorem unbroken_of_spelled (h : c.Unbroken) {s : String}
    (hs : spelled .identifier c.peek = some s) : Text.Unbroken s := by
  have hpeek := unbroken_of_peek h
  unfold spelled at hs
  split at hs
  · next w heq =>
    obtain rfl := Option.some.inj hs
    exact hpeek w (by simp [heq, Token.names])
  · next s' heq =>
    split at hs
    · next hid =>
      obtain rfl := Option.some.inj hs
      exact unbroken_of_isIdentifier (hid.resolve_left (by simp))
    · cases hs
  · cases hs

theorem mem_of_referenced {target : Target} {t : ConceptType} {arity : Nat}
    (h : Runs (r.referenced m target) cache (t, arity) cache') :
    t ∈ r.registry.types ∧ 0 < arity := by
  unfold referenced at h
  split at h
  · simp at h
  · split at h
    · simp at h
    · next t' hfind =>
      split at h
      · split at h
        · simp at h
        · obtain ⟨heq, _⟩ := runs_pure.mp h
          obtain ⟨rfl, rfl⟩ := Prod.mk.inj heq
          exact ⟨List.mem_of_find?_eq_some hfind, Nat.succ_pos _⟩
      · simp at h

theorem unbroken_of_divide (h : c.Unbroken) {t : ConceptType} {arity : Nat} (harity : 0 < arity)
    {written : List String} (hw : Runs (r.referenceParts m t arity c.peek) cache written cache') :
    ∀ s ∈ (divide m arity written).2, Text.Unbroken s := by
  have hone (s : String) : [s].drop arity = [] := List.drop_eq_nil_of_le harity
  unfold divide
  split
  · unfold referenceParts at hw
    split at hw
    · obtain ⟨rfl, _⟩ := runs_pure.mp hw
      simp [hone]
    · next segments heq =>
      obtain ⟨rfl, _⟩ := runs_pure.mp hw
      intro s hs
      exact unbroken_of_peek h s (by simpa [heq, Token.names] using List.mem_of_mem_drop hs)
    · split at hw
      · obtain ⟨rfl, _⟩ := runs_pure.mp hw
        simp [hone]
      · simp at hw
    · simp at hw
  · simp

/-- What a step of a reading gives for a member, and the names that it leaves over. -/
structure Gives (r : Reader) (m : Member) (v : Value) (pending : List String) : Prop where
  shaped : ∀ n ∈ v.nodes, n.Shaped r.registry
  unbroken : m.kind = .identifier → ∀ s, v = .text s → Text.Unbroken s
  pending : ∀ s ∈ pending, Text.Unbroken s

theorem gives_node {node : Node} (h : node.Shaped r.registry) {pending : List String}
    (hpending : ∀ s ∈ pending, Text.Unbroken s) : r.Gives m (.reference node) pending where
  shaped n hn := by
    rw [List.mem_singleton.mp hn]
    exact h
  unbroken _ s hs := by cases hs
  pending := hpending

theorem gives_reference (h : c.Unbroken) {target : Target} {v : Value}
    (hruns : Runs (r.reference m target c) cache (v, c') cache') : r.Gives m v c'.pending := by
  obtain ⟨t, arity, first, ht, written, hw, _, node, hnode, rfl, rfl⟩ := runs_reference.mp hruns
  obtain ⟨hmem, harity⟩ := mem_of_referenced ht
  refine gives_node (Registry.shaped_placeholder hmem hnode) ?_
  intro s hs
  rcases List.mem_append.mp hs with hs | hs
  · exact h.pending s hs
  · exact unbroken_of_divide h harity hw s hs

theorem shaped_elements {t : ConceptType} (ht : t ∈ r.registry.types) {listing : Node} {span : Span}
    {names : List String} {nodes : List Node}
    (h : Runs (r.elements t listing span names) cache nodes cache') :
    ∀ n ∈ nodes, n.Shaped r.registry := by
  induction names generalizing nodes cache cache' with
  | nil =>
    obtain ⟨rfl, _⟩ := runs_pure.mp h
    simp
  | cons name names ih =>
    unfold elements at h
    split at h
    · simp at h
    · next node hnode =>
      simp only [runs_bind, runs_pure] at h
      obtain ⟨rest, _, hrest, rfl, _⟩ := h
      exact List.forall_mem_cons.mpr ⟨Registry.shaped_listElement ht hnode, ih hrest⟩

theorem pending_of_listNames {names : List String} {span : Span}
    (h : Runs (r.listNames m c) cache (names, span, c') cache') : c'.pending = c.pending := by
  unfold listNames at h
  split at h
  · simp only [runs_bind] at h
    obtain ⟨answer, _, _, h⟩ := h
    cases answer with
    | error f => simp at h
    | ok names' =>
      simp only [runs_pure, Prod.mk.injEq] at h
      rw [← h.1.2.2]
  · simp only [runs_bind, Prod.exists] at h
    obtain ⟨names', rest, _, _, h⟩ := h
    split at h
    · simp at h
    · simp only [runs_pure, Prod.mk.injEq] at h
      rw [← h.1.2.2]
  · simp at h

theorem gives_list (h : c.Unbroken) {target : Target} {node : Node} {v : Value}
    (hruns : Runs (r.list m target node c) cache (v, c') cache') : r.Gives m v c'.pending := by
  obtain ⟨names, span, between, hnames, name, t, nodes, rfl, ht, hnodes, rfl⟩ := runs_list.mp hruns
  refine ⟨shaped_elements (List.mem_of_find?_eq_some ht) hnodes, ?_, ?_⟩
  · rintro _ s ⟨⟩
  · rw [pending_of_listNames hnames]
    exact h.pending

theorem gives_written (h : c.Unbroken) {node : Node} {v : Value}
    (hruns : Runs (r.written m node c) cache (v, c') cache') : r.Gives m v c'.pending := by
  have htext (hk : m.kind.target? = none) : r.Gives m v c'.pending := by
    obtain ⟨s, hs, rfl, rfl, rfl⟩ := (runs_written_of_text hk).mp hruns
    refine ⟨by simp [Value.nodes], ?_, h.pending⟩
    rintro hid _ ⟨⟩
    exact unbroken_of_spelled h (hid ▸ hs)
  cases hk : m.kind with
  | identifier => exact htext (by simp [hk, MemberKind.target?])
  | text => exact htext (by simp [hk, MemberKind.target?])
  | reference target =>
    simp only [written, hk] at hruns
    exact gives_reference h hruns
  | list target =>
    simp only [written, hk] at hruns
    exact gives_list h hruns

theorem gives_fromPath (h : c.Unbroken) {v : Value}
    (hruns : Runs (r.fromPath m c) cache (v, c') cache') : r.Gives m v c'.pending := by
  unfold fromPath at hruns
  split at hruns
  · simp only [runs_bind, Prod.exists] at hruns
    obtain ⟨t, arity, first, ht, hruns⟩ := hruns
    by_cases hlt : c.pending.length < arity
    · simp [hlt] at hruns
    · simp only [hlt, if_false, runs_bind, runs_lift, runs_pure, Prod.mk.injEq] at hruns
      obtain ⟨node, _, ⟨hnode, rfl⟩, ⟨rfl, rfl⟩, rfl⟩ := hruns
      refine gives_node (Registry.shaped_placeholder (mem_of_referenced ht).1 hnode) ?_
      intro s hs
      exact h.pending s (List.mem_of_mem_drop hs)
  · simp at hruns
  · split at hruns
    · simp at hruns
    · next part pending hp =>
      simp only [runs_pure, Prod.mk.injEq] at hruns
      obtain ⟨⟨rfl, rfl⟩, rfl⟩ := hruns
      have hpending := h.pending
      rw [hp, List.forall_mem_cons] at hpending
      refine ⟨by simp [Value.nodes], ?_, hpending.2⟩
      rintro _ _ ⟨⟩
      exact hpending.1

theorem gives_member (h : c.Unbroken) {node : Node} {v : Value}
    (hruns : Runs (r.member m node c) cache (v, c') cache') :
    r.Gives m v c'.pending ∧ c'.Unbroken := by
  have hgives : r.Gives m v c'.pending := by
    unfold member at hruns
    split at hruns
    · exact gives_written h hruns
    · exact gives_fromPath h hruns
  obtain ⟨used, hused, _⟩ := takes_member hruns
  refine ⟨hgives, ?_, hgives.pending⟩
  intro l hl
  exact h.tokens l (by rw [hused]; exact List.mem_append_right _ hl)

theorem formed_bind {node node' : Node} {members : List (Member × Nat)} (h : c.Unbroken)
    (hnode : node.Formed r.registry)
    (hmembers : ∀ p ∈ members, node.type.members[p.2]? = some p.1)
    (hruns : Runs (r.bind node c members) cache (node', c') cache') : node'.Formed r.registry := by
  induction members generalizing node c cache with
  | nil =>
    simp only [bind, runs_pure, Prod.mk.injEq] at hruns
    rw [← hruns.1.1]
    exact hnode
  | cons p rest ih =>
    obtain ⟨v, d, first, hmember, next, hset, hrest⟩ := runs_bind_cons.mp hruns
    obtain ⟨hp, hothers⟩ := List.forall_mem_cons.mp hmembers
    obtain ⟨hgives, hd⟩ := gives_member h hmember
    refine ih hd (hnode.setAt hp hset hgives.shaped hgives.unbroken) ?_ hrest
    rw [Node.type_of_setAt hset]
    exact hothers

/-- A reading is formed, in a concept that is. -/
theorem formed_read {context : Option Node} {tokens : List Lexeme} {reading : Reading}
    (ht : r.type ∈ r.registry.types) (hcontext : ∀ outer ∈ context, outer.Formed r.registry)
    (htokens : ∀ l ∈ tokens, ∀ w ∈ l.token.names, Text.Unbroken w)
    (h : Runs (r.read context tokens) cache reading cache') : reading.node.Formed r.registry := by
  obtain ⟨w, span, rest, rfl, _, start, members, first, hstart, node, c, hbind, _, rfl⟩ :=
    runs_read.mp h
  have hrest : Cursor.Unbroken ⟨rest, []⟩ :=
    ⟨fun l hl => htokens l (List.mem_cons_of_mem _ hl), by simp⟩
  have hindex : ∀ p ∈ r.type.members.zipIdx, r.type.members[p.2]? = some p.1 := by
    rintro ⟨m, i⟩ hp
    exact List.mk_mem_zipIdx_iff_getElem?.mp hp
  cases context with
  | none =>
    simp only [started, runs_pure, Prod.mk.injEq] at hstart
    obtain ⟨⟨rfl, rfl⟩, rfl⟩ := hstart
    exact formed_bind hrest (.ofType ht) hindex hbind
  | some outer =>
    simp only [started, runs_bind, runs_pure, Prod.mk.injEq] at hstart
    obtain ⟨nested, _, hnest, ⟨rfl, rfl⟩, _⟩ := hstart
    obtain ⟨parent, ms, target, hms, _, _, _, ⟨value, hvalue, haccepts⟩, rfl⟩ := runs_nest rfl hnest
    obtain rfl := Option.some.inj hvalue
    have hparent : Node.Suits r.registry parent (.referenceTo outer) :=
      ⟨haccepts, (hcontext outer rfl).shaped.referenceTo, by rintro _ _ ⟨⟩⟩
    have hnested : Node.Formed r.registry
        (.mk r.type (some (.referenceTo outer) :: ms.map fun _ => none)) := by
      refine ⟨ht, ?_⟩
      change List.Forall₂ _ r.type.members _
      rw [hms]
      refine .cons (fun value hv => Option.some.inj hv ▸ hparent) ?_
      rw [List.forall₂_map_right_iff, List.forall₂_same]
      simp
    exact formed_bind hrest hnested (fun p hp => hindex p (List.mem_of_mem_tail hp)) hbind

end Reader

/-- A concept as a script can say it: it is formed, and its type has a keyword. -/
structure Node.Written (r : Registry) (n : Node) : Prop where
  formed : n.Formed r
  keyword : ∃ w, n.type.keyword? = some w

namespace Statements

variable {s : Statements}

theorem Says.written {context : Option Node} {segment : List Lexeme} {c : ParsedConcept}
    (h : s.Says context segment c) (hcontext : ∀ outer ∈ context, outer.Formed s.registry)
    (hsegment : ∀ l ∈ segment, ∀ w ∈ l.token.names, Text.Unbroken w) :
    c.node.Written s.registry := by
  obtain ⟨notes, hread⟩ := h.read
  obtain ⟨cache, hruns⟩ := outcome_eq_ok.mp (hread [])
  rw [List.append_nil] at hruns
  obtain ⟨w, _, _, _, hkeyword⟩ := h.keyword
  exact ⟨Reader.formed_read h.type_mem hcontext hsegment hruns, w, hkeyword⟩

theorem Accepts.written {enclosing cs : List ParsedConcept} {ts : List Lexeme}
    (h : s.Accepts enclosing ts cs) (henclosing : ∀ c ∈ enclosing, c.node.Formed s.registry)
    (hts : ∀ l ∈ ts, ∀ w ∈ l.token.names, Text.Unbroken w) :
    ∀ c ∈ cs, c.node.Written s.registry := by
  induction h with
  | finish => simp
  | close _ _ ih =>
    exact ih (fun c hc => henclosing c (List.mem_cons_of_mem _ hc))
      fun l hl => hts l (List.mem_cons_of_mem _ hl)
  | @statement enclosing next cs segment rest last c hsays hleaves _ ih =>
    have hc : c.node.Written s.registry := by
      refine hsays.written ?_ fun l hl => hts l (List.mem_append_left _ hl)
      intro outer houter
      obtain ⟨c', hc', rfl⟩ := Option.map_eq_some_iff.mp houter
      exact henclosing c' (List.mem_of_head? hc')
    refine List.forall_mem_cons.mpr ⟨hc, ih ?_ ?_⟩
    · rcases hleaves with ⟨_, rfl⟩ | ⟨_, rfl⟩
      · exact henclosing
      · exact List.forall_mem_cons.mpr ⟨hc.formed, henclosing⟩
    · intro l hl
      exact hts l (List.mem_append_right _ (List.mem_cons_of_mem _ hl))

end Statements

theorem Script.written_parse {script : Script} {options : Options} {cache cache' : Cache}
    (hcache : cache.Sound) {parsed : Parsed}
    (h : Runs (script.parse registry options) cache parsed cache') :
    ∀ c ∈ parsed.concepts, c.node.Written registry := by
  obtain ⟨tokens, first, hrun, hsequence⟩ := runs_bind.mp h
  obtain ⟨hlex, rfl⟩ : script.lex = .ok tokens ∧ cache = first := runs_ofExcept.mp hrun
  have hnames := Script.lex_names hlex
  obtain ⟨ts, span, rfl, hts⟩ := Script.lex_end hlex
  have haccepts := Statements.accepts_of_sequence hcache hts rfl hsequence
  refine haccepts.written (by simp) ?_
  intro l hl w hw d hd
  have hmarks : Lexer.isWordCharacter ' ' = false ∧ Lexer.isWordCharacter '.' = false := by
    decide +kernel
  have hword := hnames l (List.mem_append_left _ hl) w hw d hd
  constructor
  · rintro rfl
    simp [hmarks.1] at hword
  · rintro rfl
    simp [hmarks.2] at hword

theorem written_parseScripts {options : Options} {scripts : List Script} {cache cache' : Cache}
    (hcache : cache.Sound) {parsed : Parsed}
    (h : Runs (parseScripts registry options scripts) cache parsed cache') :
    ∀ c ∈ parsed.concepts, c.node.Written registry := by
  induction scripts generalizing cache parsed with
  | nil =>
    obtain ⟨rfl, _⟩ := runs_pure.mp h
    simp
  | cons script scripts ih =>
    simp only [parseScripts, runs_bind, runs_pure] at h
    obtain ⟨first, between, hfirst, rest, _, hrest, rfl, rfl⟩ := h
    have hbetween : between.Sound :=
      ((Script.steady_parse script registry options).outcome_eq hcache hfirst).2
    intro c hc
    rcases List.mem_append.mp hc with hc | hc
    · exact Script.written_parse hcache hfirst c hc
    · exact ih hbetween hrest c hc

end ConceptScript
