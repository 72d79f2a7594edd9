import Mathlib.Data.List.Forall2

namespace ConceptScript.Text

/-- The text is empty or goes on with one of the marks. -/
def Follows (marks text : List Char) : Prop := ∀ c ∈ text.head?, c ∈ marks

theorem Follows.nil (marks : List Char) : Follows marks [] := by simp [Follows]

theorem Follows.cons {marks : List Char} {c : Char} (h : c ∈ marks) (text : List Char) :
    Follows marks (c :: text) := by simpa [Follows] using h

theorem Follows.mono {marks more text : List Char} (h : Follows marks text) (hm : marks ⊆ more) :
    Follows more text := fun c hc => hm (h c hc)

/-- A text of the kind and what follows it can be told apart, if one of the marks follows. -/
def Delimited (marks : List Char) (kind : List Char → Prop) : Prop :=
  ∀ ⦃w w' t t' : List Char⦄, kind w → kind w' → Follows marks t → Follows marks t' →
    w ++ t = w' ++ t' → w = w' ∧ t = t'

theorem delimited_of_not_mem {marks : List Char} {kind : List Char → Prop}
    (h : ∀ w, kind w → ∀ c ∈ w, c ∉ marks) : Delimited marks kind := by
  intro w w' t t' hw hw' ht ht' he
  have hc := h w hw
  have hc' := h w' hw'
  clear hw hw'
  induction w generalizing w' with
  | nil =>
    cases w' with
    | nil => exact ⟨rfl, he⟩
    | cons c w' =>
      rw [List.nil_append] at he
      exact absurd (ht c (by simp [he])) (hc' c List.mem_cons_self)
  | cons c w ih =>
    cases w' with
    | nil =>
      rw [List.nil_append] at he
      exact absurd (ht' c (by simp [← he])) (hc c List.mem_cons_self)
    | cons c' w' =>
      obtain ⟨rfl, hrest⟩ := List.cons.inj he
      obtain ⟨rfl, rfl⟩ := ih hrest (fun d hd => hc d (List.mem_cons_of_mem c hd))
        fun d hd => hc' d (List.mem_cons_of_mem c hd)
      exact ⟨rfl, rfl⟩

def joinRest (sep : Char) (ps : List (List Char)) (t : List Char) : List Char :=
  match ps with
  | [] => t
  | p :: ps => sep :: ([sep].intercalate (p :: ps) ++ t)

theorem intercalate_cons_append (sep : Char) (p : List Char) (ps : List (List Char))
    (t : List Char) : [sep].intercalate (p :: ps) ++ t = p ++ joinRest sep ps t := by
  cases ps with
  | nil => rw [List.intercalate_singleton, joinRest]
  | cons q qs =>
    rw [List.intercalate_cons_cons, joinRest]
    simp only [List.append_assoc, List.singleton_append]
    rfl

theorem follows_joinRest {sep : Char} {marks t : List Char} (ht : Follows marks t)
    (ps : List (List Char)) : Follows (sep :: marks) (joinRest sep ps t) := by
  cases ps with
  | nil => exact ht.mono (List.subset_cons_self sep marks)
  | cons p ps => exact .cons List.mem_cons_self _

/-- A fixed number of texts, each of its own kind, can be told apart when they are joined. -/
theorem join_inj {sep : Char} {marks : List Char} {kinds : List (List Char → Prop)}
    (h : ∀ kind ∈ kinds, Delimited (sep :: marks) kind) {ps qs : List (List Char)}
    (hp : List.Forall₂ (fun kind p => kind p) kinds ps)
    (hq : List.Forall₂ (fun kind q => kind q) kinds qs) {t t' : List Char}
    (ht : Follows marks t) (ht' : Follows marks t')
    (he : [sep].intercalate ps ++ t = [sep].intercalate qs ++ t') : ps = qs ∧ t = t' := by
  induction hp generalizing qs with
  | nil =>
    cases hq
    exact ⟨rfl, he⟩
  | @cons kind p kinds ps hkind hps ih =>
    cases hq with
    | @cons _ q _ qs hkind' hqs =>
      obtain ⟨hhead, htail⟩ := List.forall_mem_cons.mp h
      rw [intercalate_cons_append, intercalate_cons_append] at he
      obtain ⟨rfl, hrest⟩ := hhead hkind hkind' (follows_joinRest ht ps) (follows_joinRest ht' qs) he
      cases hps with
      | nil =>
        cases hqs
        exact ⟨rfl, hrest⟩
      | cons hp₂ hps =>
        cases hqs with
        | cons hq₂ hqs =>
          obtain ⟨heq, rfl⟩ := ih htail (.cons hq₂ hqs) (List.cons.inj hrest).2
          exact ⟨by rw [heq], rfl⟩

theorem join_all_inj {sep : Char} {marks : List Char} {kind : List Char → Prop}
    (h : Delimited (sep :: marks) kind) (hsep : sep ∉ marks)
    (hstart : ∀ w, kind w → ∀ t, ¬Follows marks (w ++ t)) {ps qs : List (List Char)}
    (hp : ∀ p ∈ ps, kind p) (hq : ∀ q ∈ qs, kind q) {t t' : List Char}
    (ht : Follows marks t) (ht' : Follows marks t')
    (he : [sep].intercalate ps ++ t = [sep].intercalate qs ++ t') : ps = qs ∧ t = t' := by
  induction ps generalizing qs with
  | nil =>
    cases qs with
    | nil => exact ⟨rfl, he⟩
    | cons q qs =>
      rw [intercalate_cons_append, List.intercalate_nil, List.nil_append] at he
      rw [he] at ht
      exact absurd ht (hstart q (hq q List.mem_cons_self) _)
  | cons p ps ih =>
    cases qs with
    | nil =>
      rw [intercalate_cons_append, List.intercalate_nil, List.nil_append] at he
      rw [← he] at ht'
      exact absurd ht' (hstart p (hp p List.mem_cons_self) _)
    | cons q qs =>
      rw [intercalate_cons_append, intercalate_cons_append] at he
      obtain ⟨rfl, hrest⟩ := h (hp p List.mem_cons_self) (hq q List.mem_cons_self)
        (follows_joinRest ht ps) (follows_joinRest ht' qs) he
      -- The separator shows whether another text comes.
      cases ps with
      | nil =>
        cases qs with
        | nil => exact ⟨rfl, hrest⟩
        | cons q' qs => exact absurd (ht sep (by rw [joinRest] at hrest; simp [hrest, joinRest])) hsep
      | cons p' ps =>
        cases qs with
        | nil => exact absurd (ht' sep (by rw [joinRest, joinRest] at hrest; simp [← hrest])) hsep
        | cons q' qs =>
          obtain ⟨heq, rfl⟩ := ih (fun x hx => hp x (List.mem_cons_of_mem p hx))
            (fun x hx => hq x (List.mem_cons_of_mem p hx)) (List.cons.inj hrest).2
          exact ⟨by rw [heq], rfl⟩

/-- A name that can be read back: not empty, and without dots and spaces. -/
def isPlain (s : String) : Bool :=
  !s.toList.isEmpty && s.toList.all fun c => c != '.' && c != ' '

def NameText (w : List Char) : Prop := w ≠ [] ∧ ∀ c ∈ w, c ≠ '.' ∧ c ≠ ' '

/-- Names with dots between them. -/
def PathText (n : Nat) (w : List Char) : Prop :=
  ∃ ps : List (List Char), ps.length = n + 1 ∧ (∀ p ∈ ps, NameText p) ∧ w = ['.'].intercalate ps

/-- Paths of one length with spaces between them. -/
def PathsText (n : Nat) (w : List Char) : Prop :=
  ∃ ps : List (List Char), (∀ p ∈ ps, PathText n p) ∧ w = [' '].intercalate ps

theorem nameText_of_isPlain {s : String} (h : isPlain s = true) : NameText s.toList := by
  simpa [isPlain, NameText] using h

theorem delimited_nameText {marks : List Char} (h : marks ⊆ ['.', ' ']) :
    Delimited marks NameText := by
  apply delimited_of_not_mem
  intro w hw c hc hm
  have hdot := hw.2 c hc
  have := h hm
  simp_all

theorem forall₂_replicate {kind : List Char → Prop} {n : Nat} {ps : List (List Char)}
    (hlen : ps.length = n) (h : ∀ p ∈ ps, kind p) :
    List.Forall₂ (fun kind p => kind p) (List.replicate n kind) ps := by
  subst hlen
  induction ps with
  | nil => exact .nil
  | cons p ps ih =>
    obtain ⟨hp, hps⟩ := List.forall_mem_cons.mp h
    exact .cons hp (ih hps)

theorem delimited_pathText (n : Nat) : Delimited [' ', '.'] (PathText n) := by
  rintro w w' t t' ⟨ps, hlen, hp, rfl⟩ ⟨qs, hlen', hq, rfl⟩ ht ht' he
  have hkinds : ∀ kind ∈ List.replicate (n + 1) NameText, Delimited ['.', ' ', '.'] kind := by
    intro kind hkind
    rw [List.eq_of_mem_replicate hkind]
    exact delimited_nameText (by simp)
  obtain ⟨rfl, rfl⟩ := join_inj hkinds (forall₂_replicate hlen hp) (forall₂_replicate hlen' hq)
    ht ht' he
  exact ⟨rfl, rfl⟩

theorem PathText.not_follows {n : Nat} {w : List Char} (h : PathText n w) (t : List Char) :
    ¬Follows ['.'] (w ++ t) := by
  obtain ⟨ps, hlen, hp, rfl⟩ := h
  cases ps with
  | nil => simp at hlen
  | cons p ps =>
    obtain ⟨hne, hchars⟩ := hp p List.mem_cons_self
    cases p with
    | nil => exact absurd rfl hne
    | cons c p =>
      intro hf
      rw [intercalate_cons_append] at hf
      have := hf c rfl
      exact (hchars c List.mem_cons_self).1 (by simpa using this)

theorem delimited_pathsText (n : Nat) : Delimited ['.'] (PathsText n) := by
  rintro w w' t t' ⟨ps, hp, rfl⟩ ⟨qs, hq, rfl⟩ ht ht' he
  obtain ⟨rfl, rfl⟩ := join_all_inj (delimited_pathText n) (by decide)
    (fun w hw t => hw.not_follows t) hp hq ht ht' he
  exact ⟨rfl, rfl⟩

end ConceptScript.Text
