import ConceptScript.Proofs.Model.Listing
import ConceptScript.Proofs.PropertyList.Grammar
import ConceptScript.Proofs.Statement.Extent
import ConceptScript.Proofs.Token.Segments

namespace ConceptScript

open PropertyList (Cache)

/-- The token is read from some script. -/
def Token.IsLexed (token : Token) : Prop :=
  ∃ script tokens, Script.lex script = .ok tokens ∧ ∃ l ∈ tokens, l.token = token

/-- A word that the text of a list may have. -/
def PropertyList.IsUnseparated (word : String) : Prop :=
  ',' ∉ word.toList ∧ '|' ∉ word.toList

namespace PropertyList

theorem isItem_iff {word : String} (h : Token.isSegment word = true) :
    IsItem word ↔ IsUnseparated word := by
  obtain ⟨hne, hchars, _⟩ := Token.isSegment_iff.mp h
  constructor
  · rintro ⟨_, hitem⟩
    constructor
    · intro hcomma
      simpa using (hitem ',' hcomma).2
    · intro hbar
      simpa using (hitem '|' hbar).2
  · rintro ⟨hcomma, hbar⟩
    refine ⟨by simpa using hne, fun c hc => ?_⟩
    have hword := hchars c hc
    simp only [Lexer.isWordCharacter, Bool.and_eq_true, Bool.not_eq_true'] at hword
    refine ⟨hword.1, fun hmark => ?_⟩
    simp only [List.mem_cons, List.not_mem_nil, or_false] at hmark
    rcases hmark with rfl | rfl | rfl | rfl
    · exact hcomma hc
    · cases hword.2
    · exact hbar hc
    · cases hword.2

/-- Words with spaces between them are the text of their list and of no other. -/
theorem lists_words_iff {words names : List String} (hne : words ≠ [])
    (hwords : ∀ word ∈ words, Token.isSegment word = true) :
    Lists (" ".intercalate words) names ↔ names = words ∧ ∀ word ∈ words, IsUnseparated word := by
  constructor
  · intro h
    have hspace (word : String) (hword : word ∈ words) : ' ' ∉ word.toList := by
      intro hmem
      cases (Token.isSegment_iff.mp (hwords word hword)).2.1 ' ' hmem
    have hparts : (" ".intercalate words).toList.splitOn ' ' = words.map String.toList :=
      splitOn_intercalate hne hspace
    obtain rfl : names = words := by
      rw [h.checked.names_eq, hparts, List.map_map]
      simp [Function.comp_def]
    exact ⟨rfl, fun word hword => (isItem_iff (hwords word hword)).mp (h.isItem word hword)⟩
  · rintro ⟨rfl, h⟩
    exact ⟨hne, fun word hword => (isItem_iff (hwords word hword)).mpr (h word hword), rfl⟩

end PropertyList

namespace Reader

variable {r : Reader} {m : Member} {target : Target} {node : Node} {pending : List String}
  {cache : Cache} {names : List String} {words rest : List Lexeme} {opening closing span : Span}

/-- The concepts that names denote in a list of the target. -/
def Listed (r : Reader) (target : Target) (node : Node) (names : List String)
    (nodes : List Node) : Prop :=
  ∃ name t, target = .concept name ∧ r.registry.find? name = some t ∧
    List.Forall₂ (fun name element => r.registry.listElement t name node = .ok element) names nodes

/-- What the member is bound to and where reading goes on, unless the member is rejected. -/
def bound? (r : Reader) (m : Member) (node : Node) (cache : Cache) (c : Cursor) :
    Option (Value × Cursor) :=
  ((r.member m node c).run.run cache).1.toOption

def inBrackets (opening : Span) (words : List Lexeme) (closing : Span) (rest : List Lexeme) :
    List Lexeme :=
  ⟨.openBracket, opening⟩ :: (words ++ ⟨.closeBracket, closing⟩ :: rest)

def inQuotes (names : List String) (span : Span) (rest : List Lexeme) : List Lexeme :=
  ⟨.quoted (" ".intercalate names), span⟩ :: rest

theorem runs_elements {t : ConceptType} {nodes : List Node} {cache' : Cache} :
    Runs (r.elements t node span names) cache nodes cache' ↔
      List.Forall₂ (fun name element => r.registry.listElement t name node = .ok element) names
        nodes ∧ cache = cache' := by
  induction names generalizing nodes cache' with
  | nil => rw [elements, runs_pure, List.forall₂_nil_left_iff, eq_comm]
  | cons name names ih =>
    rw [elements, List.forall₂_cons_left_iff]
    cases r.registry.listElement t name node with
    | error reason => simp
    | ok first =>
      simp only [runs_bind, runs_pure, ih, Except.ok.injEq]
      constructor
      · rintro ⟨more, _, ⟨hmore, rfl⟩, rfl, rfl⟩
        exact ⟨⟨first, more, rfl, hmore, rfl⟩, rfl⟩
      · rintro ⟨⟨_, more, rfl, hmore, rfl⟩, rfl⟩
        exact ⟨more, cache, ⟨hmore, rfl⟩, rfl, rfl⟩

theorem outcome_list {c c' : Cursor} {v : Value} :
    outcome (r.list m target node c) = .ok (v, c') ↔
      ∃ names span, outcome (r.listNames m c) = .ok (names, span, c') ∧
        ∃ nodes, v = .list nodes ∧ r.Listed target node names nodes := by
  simp only [outcome_eq_ok, runs_list, runs_elements]
  constructor
  · rintro ⟨_, names, span, between, hnames, name, t, nodes, htarget, ht, ⟨hnodes, rfl⟩, rfl⟩
    exact ⟨names, span, ⟨between, hnames⟩, nodes, rfl, name, t, htarget, ht, hnodes⟩
  · rintro ⟨names, span, ⟨between, hnames⟩, nodes, rfl, name, t, htarget, ht, hnodes⟩
    exact ⟨between, names, span, between, hnames, name, t, nodes, htarget, ht, ⟨hnodes, rfl⟩, rfl⟩

theorem bound_list (hkind : m.kind = .list target) (hcache : cache.Sound) {c c' : Cursor}
    {v : Value} : r.bound? m node cache c = some (v, c') ↔
      c.pending = [] ∧ ∃ names span, outcome (r.listNames m c) = .ok (names, span, c') ∧
        ∃ nodes, v = .list nodes ∧ r.Listed target node names nodes := by
  rw [bound?, toOption_eq_some, (composed_member r m node c).steady.same cache hcache,
    ← outcome_list]
  unfold member
  cases c.pending with
  | nil => simp [written, hkind]
  | cons part pending => simp [fromPath, hkind, outcome_eq_ok]

theorem bracketed_words (h : words.map Lexeme.token = names.map Token.word) (closing : Span)
    (rest : List Lexeme) :
    r.bracketed (words ++ ⟨.closeBracket, closing⟩ :: rest) = pure (names, rest) := by
  induction words generalizing names with
  | nil =>
    obtain rfl : names = [] := by simpa using h.symm
    rfl
  | cons l words ih =>
    obtain ⟨token, span⟩ := l
    cases names with
    | nil => cases h
    | cons name names =>
      obtain ⟨rfl, hmore⟩ := List.cons.inj h
      rw [List.cons_append, bracketed, ih hmore]
      rfl

theorem listNames_inBrackets (hne : names ≠ [])
    (h : words.map Lexeme.token = names.map Token.word) {names' : List String} {span' : Span}
    {c : Cursor} :
    outcome (r.listNames m ⟨inBrackets opening words closing rest, pending⟩) =
        .ok (names', span', c) ↔ names = names' ∧ opening = span' ∧ ⟨rest, pending⟩ = c := by
  have hnames : r.listNames m ⟨inBrackets opening words closing rest, pending⟩ =
      pure (names, opening, ⟨rest, pending⟩) := by
    simp only [listNames, inBrackets, bracketed_words h, pure_bind]
    simp [hne]
  simp [hnames, outcome_eq_ok]

theorem listNames_inQuotes {names' : List String} {span' : Span} {c : Cursor} :
    outcome (r.listNames m ⟨inQuotes names span rest, pending⟩) = .ok (names', span', c) ↔
      PropertyList.split (" ".intercalate names) = .ok names' ∧ span = span' ∧
        ⟨rest, pending⟩ = c := by
  have hanswer : outcome (modifyGet fun cache => cache.split (" ".intercalate names) :
      Attempt (Except PropertyList.Fault (List String))) =
        .ok (PropertyList.split (" ".intercalate names)) :=
    congrArg Except.ok (Cache.sound_empty.split (" ".intercalate names)).1
  simp only [listNames, inQuotes]
  rw [outcome_bind (steady_split _), hanswer, ok_bind]
  · cases PropertyList.split (" ".intercalate names) with
    | ok split => simp [outcome_eq_ok]
    | error fault => simp [outcome_eq_ok]
  · intro answer
    cases answer with
    | ok split => exact steady_pure _
    | error fault => exact (Composed.fatal r span _).steady

theorem bound_inBrackets (hkind : m.kind = .list target) (hcache : cache.Sound) (hne : names ≠ [])
    (h : words.map Lexeme.token = names.map Token.word) {c : Cursor} {v : Value} :
    r.bound? m node cache ⟨inBrackets opening words closing rest, pending⟩ = some (v, c) ↔
      pending = [] ∧ c = ⟨rest, pending⟩ ∧
        ∃ nodes, v = .list nodes ∧ r.Listed target node names nodes := by
  rw [bound_list hkind hcache]
  simp only [listNames_inBrackets hne h]
  constructor
  · rintro ⟨hpending, _, _, ⟨rfl, rfl, rfl⟩, hnodes⟩
    exact ⟨hpending, rfl, hnodes⟩
  · rintro ⟨hpending, rfl, hnodes⟩
    exact ⟨hpending, names, opening, ⟨rfl, rfl, rfl⟩, hnodes⟩

/-- Words in a literal are the names only if the text of the literal can be split into them. -/
theorem bound_inQuotes (hkind : m.kind = .list target) (hcache : cache.Sound) (hne : names ≠ [])
    (hnames : ∀ name ∈ names, Token.isSegment name = true) {c : Cursor} {v : Value} :
    r.bound? m node cache ⟨inQuotes names span rest, pending⟩ = some (v, c) ↔
      (∀ name ∈ names, PropertyList.IsUnseparated name) ∧ pending = [] ∧ c = ⟨rest, pending⟩ ∧
        ∃ nodes, v = .list nodes ∧ r.Listed target node names nodes := by
  rw [bound_list hkind hcache]
  simp only [listNames_inQuotes, PropertyList.split_eq_ok, PropertyList.lists_words_iff hne hnames]
  constructor
  · rintro ⟨hpending, _, _, ⟨⟨rfl, hseparated⟩, rfl, rfl⟩, hnodes⟩
    exact ⟨hseparated, hpending, rfl, hnodes⟩
  · rintro ⟨hseparated, hpending, rfl, hnodes⟩
    exact ⟨hpending, names, span, ⟨⟨rfl, hseparated⟩, rfl, rfl⟩, hnodes⟩

theorem bound_inQuotes_eq_none (hkind : m.kind = .list target) (hcache : cache.Sound)
    (hnames : ∀ name ∈ names, Token.isSegment name = true) {name : String} (hname : name ∈ names)
    (hseparated : ¬PropertyList.IsUnseparated name) :
    r.bound? m node cache ⟨inQuotes names span rest, pending⟩ = none := by
  rw [Option.eq_none_iff_forall_ne_some]
  rintro ⟨v, c⟩ hbound
  have hne : names ≠ [] := List.ne_nil_of_mem hname
  exact hseparated (((bound_inQuotes hkind hcache hne hnames).mp hbound).1 name hname)

end Reader

theorem Token.IsLexed.isSegment {word : String} (h : (Token.word word).IsLexed) :
    Token.isSegment word = true := by
  obtain ⟨script, tokens, hlex, l, hl, htoken⟩ := h
  exact Script.isSegment_of_lex hlex hl htoken

namespace Indexed

def declared : List Declaration :=
  Small.declared.take 2 ++
    [({ name := "Index" } : Declaration).withParent "Module" (.concept "Module")
      |>.withKey "Entities" (.list (.concept "Entity"))]

def entities : Member := ⟨"Entities", .list (.concept "Entity"), true, false⟩

def indexType : ConceptType :=
  { Small.plain "Index" [⟨"Module", .reference (.concept "Module"), true, true⟩, entities] 0 1 with
    arity? := none }

def registry : Registry := ⟨[Small.moduleType, Small.entityType, indexType]⟩

theorem build_declared : Registry.build declared = .ok registry := by decide +kernel

/-- An index of which only the module is known yet. -/
def index : Node := .mk indexType [some (.reference (Small.module "Common")), none]

def words (text : String) : Script := .ofText "indexed.script" text

def reader : Reader := ⟨registry, words "", indexType⟩

theorem listed (names : List String) : reader.Listed (.concept "Entity") index names
    (names.map (Small.entity "Common")) := by
  refine ⟨"Entity", Small.entityType, rfl, rfl, ?_⟩
  induction names with
  | nil => exact .nil
  | cons name names ih => exact .cons rfl ih

end Indexed

/-- A list member is bound alike from words between brackets and from their text in a literal, or
rejected in both, if no word has a comma or a bar. Else the literal is rejected whatever the names
denote, while between brackets they only have to denote concepts. -/
theorem Reader.list_in_brackets_and_quotes (r : Reader) {m : Member} {target : Target}
    (hkind : m.kind = .list target) (node : Node) (pending : List String) {names : List String}
    (hne : names ≠ []) (hnames : ∀ name ∈ names, (Token.word name).IsLexed) {words : List Lexeme}
    (hwords : words.map Lexeme.token = names.map Token.word) (opening closing span : Span)
    (rest : List Lexeme) {cache cache' : Cache} (hcache : cache.Sound) (hcache' : cache'.Sound) :
    ((∀ name ∈ names, PropertyList.IsUnseparated name) →
      r.bound? m node cache ⟨inBrackets opening words closing rest, pending⟩ =
        r.bound? m node cache' ⟨inQuotes names span rest, pending⟩) ∧
    ((∃ name ∈ names, ¬PropertyList.IsUnseparated name) →
      r.bound? m node cache' ⟨inQuotes names span rest, pending⟩ = none) ∧
    (∀ v c, r.bound? m node cache ⟨inBrackets opening words closing rest, pending⟩ = some (v, c) ↔
      pending = [] ∧ c = ⟨rest, pending⟩ ∧
        ∃ nodes, v = .list nodes ∧ r.Listed target node names nodes) := by
  have hsegments := fun name hname => (hnames name hname).isSegment
  refine ⟨fun hseparated => ?_, ?_, fun v c => bound_inBrackets hkind hcache hne hwords⟩
  · apply Option.ext
    rintro ⟨v, c⟩
    rw [bound_inBrackets hkind hcache hne hwords, bound_inQuotes hkind hcache' hne hsegments]
    exact (and_iff_right hseparated).symm
  · rintro ⟨name, hname, hseparated⟩
    exact bound_inQuotes_eq_none hkind hcache' hsegments hname hseparated

theorem Reader.list_in_brackets_and_quotes_index :
    let tokens : List Lexeme := [⟨.word "a", 1, 2⟩, ⟨.word "b/", 3, 5⟩]
    let bound := some (Value.list [Small.entity "Common" "a", Small.entity "Common" "b/"],
      Cursor.mk [⟨.endOfScript, 6, 6⟩] [])
    Registry.build Indexed.declared = .ok Indexed.registry ∧
      (Indexed.words "[a b/]").lex =
        .ok (inBrackets ⟨0, 1⟩ tokens ⟨5, 6⟩ [⟨.endOfScript, 6, 6⟩]) ∧
      Indexed.reader.bound? Indexed.entities Indexed.index {}
        ⟨inBrackets ⟨0, 1⟩ tokens ⟨5, 6⟩ [⟨.endOfScript, 6, 6⟩], []⟩ = bound ∧
      Indexed.reader.bound? Indexed.entities Indexed.index {}
        ⟨inQuotes ["a", "b/"] ⟨0, 6⟩ [⟨.endOfScript, 6, 6⟩], []⟩ = bound := by
  intro tokens bound
  have hlex : (Indexed.words "[a b/]").lex =
      .ok (inBrackets ⟨0, 1⟩ tokens ⟨5, 6⟩ [⟨.endOfScript, 6, 6⟩]) := by decide +kernel
  have hnames : ∀ name ∈ ["a", "b/"], (Token.word name).IsLexed := by
    simp only [List.forall_mem_cons, List.not_mem_nil, false_imp_iff, implies_true, and_true]
    exact ⟨⟨_, _, hlex, ⟨.word "a", 1, 2⟩, by simp [inBrackets, tokens], rfl⟩,
      ⟨_, _, hlex, ⟨.word "b/", 3, 5⟩, by simp [inBrackets, tokens], rfl⟩⟩
  have hseparated : ∀ name ∈ ["a", "b/"], PropertyList.IsUnseparated name := by
    unfold PropertyList.IsUnseparated
    decide +kernel
  have hkind : Indexed.entities.kind = .list (.concept "Entity") := rfl
  have hwords : tokens.map Lexeme.token = ["a", "b/"].map Token.word := rfl
  obtain ⟨hagree, _, hbrackets⟩ := Indexed.reader.list_in_brackets_and_quotes hkind Indexed.index
    [] (by simp) hnames hwords ⟨0, 1⟩ ⟨5, 6⟩ ⟨0, 6⟩ [⟨.endOfScript, 6, 6⟩]
    Cache.sound_empty Cache.sound_empty
  have hbound := (hbrackets _ _).mpr ⟨rfl, rfl, _, rfl, Indexed.listed ["a", "b/"]⟩
  exact ⟨Indexed.build_declared, hlex, hbound, (hagree hseparated).symm.trans hbound⟩

/-- A word with a comma names one concept between brackets and none in a literal. -/
theorem Reader.comma_in_brackets :
    let token : Lexeme := ⟨.word "a,b", 1, 4⟩
    Registry.build Indexed.declared = .ok Indexed.registry ∧
      (Indexed.words "[a,b]").lex =
        .ok (inBrackets ⟨0, 1⟩ [token] ⟨4, 5⟩ [⟨.endOfScript, 5, 5⟩]) ∧
      Indexed.reader.bound? Indexed.entities Indexed.index {}
          ⟨inBrackets ⟨0, 1⟩ [token] ⟨4, 5⟩ [⟨.endOfScript, 5, 5⟩], []⟩ =
        some (.list [Small.entity "Common" "a,b"], ⟨[⟨.endOfScript, 5, 5⟩], []⟩) ∧
      Indexed.reader.bound? Indexed.entities Indexed.index {}
        ⟨inQuotes ["a,b"] ⟨0, 5⟩ [⟨.endOfScript, 5, 5⟩], []⟩ = none := by
  intro token
  refine ⟨Indexed.build_declared, by decide +kernel, ?_, ?_⟩
  · exact (bound_inBrackets rfl Cache.sound_empty (by simp) rfl).mpr
      ⟨rfl, rfl, _, rfl, Indexed.listed ["a,b"]⟩
  · have hsegments : ∀ name ∈ ["a,b"], Token.isSegment name = true := by decide +kernel
    have hcomma : ',' ∈ "a,b".toList := by decide +kernel
    exact bound_inQuotes_eq_none rfl Cache.sound_empty hsegments List.mem_cons_self
      fun hseparated => hseparated.1 hcomma

end ConceptScript
