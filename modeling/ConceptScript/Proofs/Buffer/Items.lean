import ConceptScript.Buffer
import ConceptScript.Proofs.Text.Occurrence

namespace ConceptScript.Buffer

/-- A text that no marker starts in. -/
structure Literal where
  text : String
  plain : '<' ∉ text.toList
  deriving DecidableEq

/-- A marker, by what stands between its delimiters. -/
structure Mark where
  body : String
  unopened : Text.contains body "/*<" = false
  unclosed : Text.contains body ">*/" = false
  deriving DecidableEq

def Mark.text (m : Mark) : String := "/*<" ++ m.body ++ ">*/"

inductive Item where
  | literal (l : Literal)
  | marker (m : Mark)
  deriving DecidableEq

def Item.text : Item → String
  | literal l => l.text
  | marker m => m.text

def render : List Item → String
  | [] => ""
  | i :: is => i.text ++ render is

def literals : List Item → String
  | [] => ""
  | .literal l :: is => l.text ++ literals is
  | .marker _ :: is => literals is

theorem render_append (is js : List Item) : render (is ++ js) = render is ++ render js := by
  induction is with
  | nil => simp [render]
  | cons i is ih => rw [List.cons_append, render, render, ih, String.append_assoc]

theorem literals_append (is js : List Item) : literals (is ++ js) = literals is ++ literals js := by
  induction is with
  | nil => simp [literals]
  | cons i is ih =>
    cases i with
    | literal l => rw [List.cons_append, literals, literals, ih, String.append_assoc]
    | marker m => rw [List.cons_append, literals, literals, ih]

theorem toList_render_cons (i : Item) (is : List Item) :
    (render (i :: is)).toList = i.text.toList ++ (render is).toList := by
  rw [render, String.toList_append]

theorem Mark.toList_text (m : Mark) :
    m.text.toList = ['/', '*', '<'] ++ (m.body.toList ++ ['>', '*', '/']) := by
  rw [text, String.toList_append, String.toList_append, List.append_assoc]
  rfl

theorem Mark.text_ne_nil (m : Mark) : m.text.toList ≠ [] := by
  rw [m.toList_text]
  simp

/-- No item starts with what is left of an opening delimiter that started before it. -/
theorem render_not_opening (is : List Item) :
    ¬['<'] <+: (render is).toList ∧ ¬['*', '<'] <+: (render is).toList := by
  induction is with
  | nil => simp [render]
  | cons i is ih =>
    rw [toList_render_cons]
    cases i with
    | marker m => simp [Item.text, m.toList_text]
    | literal l =>
      have hplain := l.plain
      rw [Item.text]
      -- An end of the delimiter has two characters at most.
      match l.text.toList, hplain with
      | [], _ => exact ih
      | [c], hplain =>
        have hc : c ≠ '<' := by
          rintro rfl
          simp at hplain
        refine ⟨by simp [hc.symm], ?_⟩
        intro h
        exact ih.1 ((List.cons_prefix_cons.mp h).2)
      | c :: d :: cs, hplain =>
        simp only [List.mem_cons, not_or] at hplain
        simp [hplain.1, hplain.2.1]

theorem ends_of_opening {s : List Char} (hs : s <:+ ['/', '*', '<']) (hne : s ≠ [])
    (hproper : s ≠ ['/', '*', '<']) : s = ['*', '<'] ∨ s = ['<'] := by
  simp only [List.suffix_cons_iff, List.suffix_nil] at hs
  rcases hs with h | h | h | h
  · exact absurd h hproper
  · exact .inl h
  · exact .inr h
  · exact absurd h hne

theorem clear_literal (l : Literal) (is : List Item) :
    Text.Clear ['/', '*', '<'] l.text.toList (render is).toList := by
  apply Text.clear_of_not_infix
  · intro h
    exact l.plain (h.subset (by simp))
  · intro s hs hne hproper
    rcases ends_of_opening hs hne hproper with rfl | rfl
    · exact (render_not_opening is).2
    · exact (render_not_opening is).1

namespace Mark

variable (m : Mark)

theorem clear_opening (rest : List Char) :
    Text.Clear ['/', '*', '<'] m.body.toList (['>', '*', '/'] ++ rest) := by
  apply Text.clear_of_not_infix (Text.contains_eq_false_iff.mp m.unopened)
  intro s hs hne hproper
  rcases ends_of_opening hs hne hproper with rfl | rfl <;> simp

theorem clear_closing (rest : List Char) :
    Text.Clear ['>', '*', '/'] m.body.toList (['>', '*', '/'] ++ rest) := by
  apply Text.clear_of_not_infix (Text.contains_eq_false_iff.mp m.unclosed)
  intro s hs hne hproper
  change s <:+ ['>', '*', '/'] at hs
  simp only [List.suffix_cons_iff, List.suffix_nil] at hs
  rcases hs with rfl | rfl | rfl | rfl
  · exact absurd rfl hproper
  · simp
  · simp
  · exact absurd rfl hne

theorem cutAt?_closing (rest : List Char) :
    Text.cutAt? ['>', '*', '/'] (m.body.toList ++ (['>', '*', '/'] ++ rest)) =
      some (m.body.toList, rest) := by
  rw [Text.cutAt?_clear (m.clear_closing _), Text.cutAt?_append_self]
  simp

theorem eq_of_isPrefix {m m' : Mark} {rest : List Char}
    (h : m.text.toList <+: m'.text.toList ++ rest) : m = m' := by
  obtain ⟨more, hmore⟩ := h
  rw [m.toList_text, m'.toList_text] at hmore
  simp only [List.append_assoc, List.append_cancel_left_eq] at hmore
  have hcut := m.cutAt?_closing more
  rw [hmore, m'.cutAt?_closing rest] at hcut
  have hbody : m'.body = m.body := by
    simpa [String.toList_inj] using (Prod.mk.inj (Option.some.inj hcut)).1
  cases m
  cases m'
  simpa using hbody.symm

theorem text_inj {m m' : Mark} (h : m.text = m'.text) : m = m' :=
  eq_of_isPrefix (by rw [h]; exact List.prefix_append _ [])

/-- Inside of a marker no other one starts, and none starts at its end. -/
theorem clear_inside (is : List Item) :
    Text.Clear ['/', '*', '<'] (['*', '<'] ++ (m.body.toList ++ ['>', '*', '/']))
      (render is).toList := by
  obtain ⟨_, hstar⟩ := render_not_opening is
  rw [Text.clear_append, Text.clear_append]
  refine ⟨by simp [Text.Clear], m.clear_opening _, ?_⟩
  simpa [Text.Clear] using hstar

theorem clear_other {m m' : Mark} (h : m' ≠ m) (is : List Item) :
    Text.Clear m.text.toList m'.text.toList (render is).toList := by
  have hopening : ['/', '*', '<'] <+: m.text.toList := by
    rw [m.toList_text]
    exact List.prefix_append _ _
  have hinside := (m'.clear_inside is).of_isPrefix hopening
  have htext : m'.text.toList = '/' :: (['*', '<'] ++ (m'.body.toList ++ ['>', '*', '/'])) :=
    m'.toList_text
  rw [htext]
  refine ⟨?_, hinside⟩
  intro hp
  rw [← List.cons_append, ← htext] at hp
  exact h (eq_of_isPrefix hp).symm

/-- An occurrence of a marker starts in no other item. -/
theorem clear_item {i : Item} (h : i ≠ .marker m) (is : List Item) :
    Text.Clear m.text.toList i.text.toList (render is).toList := by
  cases i with
  | literal l =>
    apply (clear_literal l is).of_isPrefix
    rw [m.toList_text]
    exact List.prefix_append _ _
  | marker m' => exact clear_other (fun he => h (congrArg Item.marker he)) is

theorem cutAt?_render (is : List Item) :
    Text.cutAt? m.text.toList (render is).toList =
      if .marker m ∈ is then
        some ((render (is.takeWhile (· ≠ .marker m))).toList,
          (render (is.dropWhile (· ≠ .marker m)).tail).toList)
      else none := by
  induction is with
  | nil =>
    rw [if_neg (by simp), Text.cutAt?_eq_none_iff, render, String.toList_empty, List.infix_nil]
    exact m.text_ne_nil
  | cons i is ih =>
    rw [toList_render_cons]
    by_cases hi : i = .marker m
    · subst hi
      rw [Item.text, Text.cutAt?_append_self]
      simp [render]
    · rw [Text.cutAt?_clear (m.clear_item hi is), ih, List.takeWhile_cons, List.dropWhile_cons,
        if_pos (decide_eq_true hi), if_pos (decide_eq_true hi), toList_render_cons]
      have hmem : .marker m ∈ i :: is ↔ .marker m ∈ is := by simp [Ne.symm hi]
      by_cases his : .marker m ∈ is
      · rw [if_pos his, if_pos (hmem.mpr his), Option.map_some]
      · rw [if_neg his, if_neg (his ∘ hmem.mp), Option.map_none]

theorem contains_render (is : List Item) :
    Text.contains (render is) m.text = decide (.marker m ∈ is) := by
  rw [Text.contains, m.cutAt?_render]
  split <;> simp_all

theorem replace_render (new is : List Item) :
    Text.replace (render is) m.text (render new) =
      render (is.flatMap fun i => if i = .marker m then new else [i]) := by
  rw [Text.replace_eq m.text_ne_nil, ← String.toList_inj, String.toList_ofList]
  induction is with
  | nil =>
    rw [Text.substitute_of_none, List.flatMap_nil]
    rw [Text.cutAt?_eq_none_iff, render, String.toList_empty, List.infix_nil]
    exact m.text_ne_nil
  | cons i is ih =>
    rw [toList_render_cons, List.flatMap_cons, render_append, String.toList_append, ← ih]
    by_cases hi : i = .marker m
    · rw [if_pos hi, hi, Item.text, Text.substitute_append_self]
    · rw [if_neg hi, Text.substitute_clear _ (m.clear_item hi is), toList_render_cons]
      simp [render]

end Mark

section Strip

variable {opening closing : List Char} (h : opening ≠ [] ∨ closing ≠ [])

theorem strip_of_none {text : List Char} (hc : Text.cutAt? opening text = none) :
    strip opening closing h text = text := by
  rw [strip]
  split
  · rfl
  · next ho => simp [hc] at ho

theorem strip_of_some {text before inside body after : List Char}
    (ho : Text.cutAt? opening text = some (before, inside))
    (hc : Text.cutAt? closing inside = some (body, after)) :
    strip opening closing h text = before ++ strip opening closing h after := by
  rw [strip]
  split
  · next ho' => simp [ho] at ho'
  · next ho' =>
    obtain ⟨rfl, rfl⟩ := Prod.mk.inj (Option.some.inj (ho.symm.trans ho'))
    split
    · next hc' => simp [hc] at hc'
    · next hc' =>
      obtain ⟨_, rfl⟩ := Prod.mk.inj (Option.some.inj (hc.symm.trans hc'))
      rfl

theorem strip_of_open {text before inside : List Char}
    (ho : Text.cutAt? opening text = some (before, inside))
    (hc : Text.cutAt? closing inside = none) : strip opening closing h text = text := by
  rw [strip]
  split
  · rfl
  · next ho' =>
    obtain ⟨rfl, rfl⟩ := Prod.mk.inj (Option.some.inj (ho.symm.trans ho'))
    split
    · rfl
    · next hc' => simp [hc] at hc'

theorem strip_clear {xs rest : List Char} (hx : Text.Clear opening xs rest) :
    strip opening closing h (xs ++ rest) = xs ++ strip opening closing h rest := by
  have hcut := Text.cutAt?_clear hx
  cases ho : Text.cutAt? opening rest with
  | none =>
    rw [ho] at hcut
    rw [strip_of_none h hcut, strip_of_none h ho]
  | some cut =>
    rw [ho] at hcut
    cases hc : Text.cutAt? closing cut.2 with
    | none => rw [strip_of_open h hcut hc, strip_of_open h ho hc]
    | some ends => rw [strip_of_some h hcut hc, strip_of_some h ho hc, List.append_assoc]

end Strip

/-- Stripping a text leaves its literals. -/
theorem strip_render (is : List Item) {opening closing : List Char}
    (ho : opening = ['/', '*', '<']) (hc : closing = ['>', '*', '/'])
    (h : opening ≠ [] ∨ closing ≠ []) :
    strip opening closing h (render is).toList = (literals is).toList := by
  subst ho hc
  induction is with
  | nil => exact strip_of_none _ (by rfl)
  | cons i is ih =>
    rw [toList_render_cons]
    cases i with
    | literal l =>
      rw [Item.text, strip_clear _ (clear_literal l is), ih, literals, String.toList_append]
    | marker m =>
      rw [literals, ← ih, Item.text, m.toList_text, List.append_assoc, List.append_assoc]
      exact strip_of_some _ (Text.cutAt?_append_self _ _) (m.cutAt?_closing _)

end ConceptScript.Buffer
