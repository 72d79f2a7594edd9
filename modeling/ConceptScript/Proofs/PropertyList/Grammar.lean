import ConceptScript.Proofs.Text.Occurrence
import ConceptScript.PropertyList

namespace ConceptScript

namespace Text

variable {sep : Char}

theorem splitOn_cons (sep c : Char) (cs : List Char) : ∃ part parts,
    cs.splitOn sep = part :: parts ∧
      (c :: cs).splitOn sep = if c = sep then [] :: part :: parts else (c :: part) :: parts := by
  obtain ⟨part, parts, hparts⟩ := List.exists_cons_of_ne_nil (List.splitOn_ne_nil sep cs)
  refine ⟨part, parts, hparts, ?_⟩
  rw [List.splitOn_cons_eq_if_modifyHead, hparts]
  simp only [beq_iff_eq, List.modifyHead_cons]

theorem fields_eq_splitOn (sep : Char) (cs : List Char) : fields sep cs = cs.splitOn sep := by
  induction cs with
  | nil => rfl
  | cons c cs ih =>
    obtain ⟨part, parts, hparts, hcons⟩ := splitOn_cons sep c cs
    rw [fields, ih, hparts, hcons]

theorem exists_mem_splitOn_iff {c : Char} {cs : List Char} :
    (∃ part ∈ cs.splitOn sep, c ∈ part) ↔ c ∈ cs ∧ c ≠ sep := by
  induction cs with
  | nil => simp
  | cons d cs ih =>
    obtain ⟨part, parts, hparts, hcons⟩ := splitOn_cons sep d cs
    rw [hparts, List.exists_mem_cons_iff] at ih
    rw [hcons, List.mem_cons]
    by_cases hd : d = sep
    · rw [if_pos hd, List.exists_mem_cons_iff, List.exists_mem_cons_iff, ih]
      grind
    · rw [if_neg hd, List.exists_mem_cons_iff, List.mem_cons, or_assoc, ih]
      grind

theorem head?_splitOn_iff {cs : List Char} :
    (cs.splitOn sep).head? = some [] ↔ cs = [] ∨ cs.head? = some sep := by
  cases cs with
  | nil => simp
  | cons c cs =>
    obtain ⟨part, parts, _, hcons⟩ := splitOn_cons sep c cs
    rw [hcons]
    by_cases hc : c = sep <;> simp [hc]

theorem nil_mem_tail_splitOn_iff {cs : List Char} :
    [] ∈ (cs.splitOn sep).tail ↔ cs.getLast? = some sep ∨ [sep, sep] <:+: cs := by
  induction cs with
  | nil => simp
  | cons c cs ih =>
    obtain ⟨part, parts, hparts, hcons⟩ := splitOn_cons sep c cs
    have hlast : (c :: cs).getLast? = some sep ↔ (cs = [] ∧ c = sep) ∨ cs.getLast? = some sep := by
      cases cs <;> simp
    have hpair : [sep, sep] <:+: c :: cs ↔
        (sep = c ∧ cs.head? = some sep) ∨ [sep, sep] <:+: cs := by
      rw [List.infix_cons_iff, List.cons_prefix_cons, List.singleton_prefix_iff_head?_eq_some]
    rw [hcons, hlast, hpair]
    by_cases hc : c = sep
    · -- A separator goes in front of the first part, so that part counts too.
      have hfirst : [] = part ↔ cs = [] ∨ cs.head? = some sep := by
        rw [← head?_splitOn_iff, hparts, List.head?_cons, Option.some_inj, eq_comm]
      rw [hparts, List.tail_cons] at ih
      rw [if_pos hc, List.tail_cons, List.mem_cons, hfirst, ih]
      simp only [hc, and_true, true_and]
      grind
    · rw [hparts, List.tail_cons] at ih
      rw [if_neg hc, List.tail_cons, ih]
      simp [hc, Ne.symm hc]

/-- A part is empty where a separator is at an end of the text, or beside another one. -/
theorem nil_mem_splitOn_iff {cs : List Char} :
    [] ∈ cs.splitOn sep ↔
      cs = [] ∨ cs.head? = some sep ∨ cs.getLast? = some sep ∨ [sep, sep] <:+: cs := by
  obtain ⟨part, parts, hparts⟩ := List.exists_cons_of_ne_nil (List.splitOn_ne_nil sep cs)
  rw [← nil_mem_tail_splitOn_iff, ← or_assoc, ← head?_splitOn_iff, hparts]
  simp [eq_comm]

end Text

namespace PropertyList

/-- A name that a list may have. -/
def IsItem (name : String) : Prop :=
  name ≠ "" ∧ ∀ c ∈ name.toList, Text.isBlank c = false ∧ c ∉ [',', ';', '|', '.']

/-- The text is the names with one space between each two. -/
structure Lists (text : String) (names : List String) : Prop where
  names_ne_nil : names ≠ []
  isItem : ∀ name ∈ names, IsItem name
  text_eq : text = " ".intercalate names

theorem isBlank_iff {c : Char} (h : isSeparator c = false) : Text.isBlank c = true ↔ c = ' ' := by
  constructor
  · intro hblank
    simp only [isSeparator, hblank, Bool.true_and, Bool.or_eq_false_iff, bne_eq_false_iff_eq] at h
    exact h.1.1.1
  · rintro rfl
    rfl

theorem item_character_iff {c : Char} : Text.isBlank c = false ∧ c ∉ [',', ';', '|', '.'] ↔
    isSeparator c = false ∧ c ≠ ' ' ∧ c ≠ '.' := by
  constructor
  · rintro ⟨hblank, hmarks⟩
    have hsep : isSeparator c = false := by simp_all [isSeparator]
    have hspace : c ≠ ' ' := by
      rw [ne_eq, ← isBlank_iff hsep, hblank]
      simp
    exact ⟨hsep, hspace, by simp_all⟩
  · rintro ⟨hsep, hspace, hdot⟩
    have hblank : Text.isBlank c = false := by
      rwa [← Bool.not_eq_true, isBlank_iff hsep]
    exact ⟨hblank, by simp_all [isSeparator]⟩

/-- What the checks leave of a text: the parts between the spaces, none of them empty. -/
structure Checked (text : String) (names : List String) : Prop where
  no_separator : ∀ c ∈ text.toList, isSeparator c = false
  no_empty : [] ∉ text.toList.splitOn ' '
  names_eq : names = (text.toList.splitOn ' ').map .ofList
  no_dot : ∀ name ∈ names, '.' ∉ name.toList

theorem split_eq_ok_iff_checked {text : String} {names : List String} :
    split text = .ok names ↔ Checked text names := by
  have hempty : [] ∈ text.toList.splitOn ' ' ↔ text.toList = [] ∨ text.toList.head? = some ' ' ∨
      text.toList.getLast? = some ' ' ∨ [' ', ' '] <:+: text.toList := Text.nil_mem_splitOn_iff
  have hdoubled : Text.contains text "  " = false ↔ ¬[' ', ' '] <:+: text.toList :=
    Text.contains_eq_false_iff
  fun_cases split text with
  | case1 cs hblank =>
    -- A text of spaces begins with one.
    refine iff_of_false (by simp) fun h => h.no_empty (hempty.mpr ?_)
    cases htext : text.toList with
    | nil => exact .inl rfl
    | cons c rest =>
      have hmem : c ∈ text.toList := by simp [htext]
      have hspace := (isBlank_iff (h.no_separator c hmem)).mp (List.all_eq_true.mp hblank c hmem)
      exact .inr (.inl (by simp [hspace]))
  | case2 cs hblank c hfind =>
    refine iff_of_false (by simp) fun h => ?_
    have hc := h.no_separator c (List.mem_of_find?_eq_some hfind)
    rw [List.find?_some hfind] at hc
    cases hc
  | case3 cs hblank hfind hends =>
    refine iff_of_false (by simp) fun h => h.no_empty (hempty.mpr ?_)
    simp only [Bool.or_eq_true, decide_eq_true_eq] at hends
    exact .inr (hends.imp_right .inl)
  | case4 cs hblank hfind hends hdouble =>
    refine iff_of_false (by simp) fun h => h.no_empty (hempty.mpr (.inr (.inr (.inr ?_))))
    by_contra hpair
    rw [hdoubled.mpr hpair] at hdouble
    cases hdouble
  | case5 cs hblank hfind hends hdouble parts name hdot =>
    refine iff_of_false (by simp) fun h => ?_
    have hparts : parts = names := by rw [h.names_eq, ← Text.fields_eq_splitOn]
    rw [hparts] at hdot
    exact h.no_dot name (List.mem_of_find?_eq_some hdot) (by simpa using List.find?_some hdot)
  | case6 cs hblank hfind hends hdouble parts hdot =>
    have hparts : parts = (text.toList.splitOn ' ').map .ofList := by rw [← Text.fields_eq_splitOn]
    rw [Except.ok.injEq]
    constructor
    · rintro rfl
      refine ⟨by simpa using hfind, ?_, hparts, by simpa using hdot⟩
      rw [hempty]
      rintro (hnil | hhead | hlast | hpair)
      · exact hblank (by simp [cs, hnil])
      · exact hends (by simp [cs, hhead])
      · exact hends (by simp [cs, hlast])
      · exact hdoubled.mp (by simpa using hdouble) hpair
    · intro h
      rw [hparts, h.names_eq]

theorem splitOn_intercalate {names : List String} (hne : names ≠ [])
    (h : ∀ name ∈ names, ' ' ∉ name.toList) :
    (" ".intercalate names).toList.splitOn ' ' = names.map String.toList := by
  rw [String.toList_intercalate]
  exact List.splitOn_intercalate ' ' (List.forall_mem_map.mpr h) (by simpa using hne)

theorem Lists.checked {text : String} {names : List String} (h : Lists text names) :
    Checked text names := by
  obtain ⟨hne, hitem, rfl⟩ := h
  have hchar (name : String) (hname : name ∈ names) (c : Char) (hc : c ∈ name.toList) :
      isSeparator c = false ∧ c ≠ ' ' ∧ c ≠ '.' :=
    item_character_iff.mp ((hitem name hname).2 c hc)
  have hparts := splitOn_intercalate hne fun name hname hspace =>
    (hchar name hname ' ' hspace).2.1 rfl
  constructor
  · intro c hc
    by_cases hspace : c = ' '
    · rw [hspace]
      rfl
    · obtain ⟨part, hpart, hcpart⟩ := Text.exists_mem_splitOn_iff.mpr ⟨hc, hspace⟩
      rw [hparts] at hpart
      obtain ⟨name, hname, rfl⟩ := List.mem_map.mp hpart
      exact (hchar name hname c hcpart).1
  · rw [hparts]
    rintro hnil
    obtain ⟨name, hname, heq⟩ := List.mem_map.mp hnil
    exact (hitem name hname).1 (by simpa using heq)
  · rw [hparts, List.map_map]
    simp [Function.comp_def]
  · exact fun name hname hdot => (hchar name hname '.' hdot).2.2 rfl

theorem Checked.lists {text : String} {names : List String} (h : Checked text names) :
    Lists text names := by
  obtain ⟨hsep, hempty, rfl, hdots⟩ := h
  refine ⟨by simp, ?_, ?_⟩
  · intro name hname
    obtain ⟨part, hpart, rfl⟩ := List.mem_map.mp hname
    refine ⟨?_, fun c hc => item_character_iff.mpr ?_⟩
    · rintro hnil
      obtain rfl : part = [] := by simpa using hnil
      exact hempty hpart
    · have hdot := hdots _ hname
      rw [String.toList_ofList] at hc hdot
      obtain ⟨hmem, hspace⟩ := Text.exists_mem_splitOn_iff.mp ⟨part, hpart, hc⟩
      exact ⟨hsep c hmem, hspace, fun heq => hdot (heq ▸ hc)⟩
  · rw [← String.toList_inj, String.toList_intercalate, List.map_map]
    simp [Function.comp_def]

theorem split_eq_ok {text : String} {names : List String} :
    split text = .ok names ↔ Lists text names :=
  split_eq_ok_iff_checked.trans ⟨Checked.lists, Lists.checked⟩

/-- A text is read as a list of names just when it is the names with one space between each two. -/
theorem split_iff_lists (text : String) :
    (∀ names, split text = .ok names ↔ Lists text names) ∧
      ((∃ fault, split text = .error fault) ↔ ¬∃ names, Lists text names) := by
  refine ⟨fun names => split_eq_ok, ?_⟩
  simp only [← split_eq_ok]
  cases split text <;> simp

end PropertyList

end ConceptScript
