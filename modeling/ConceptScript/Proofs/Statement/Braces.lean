import Mathlib.Data.List.Infix
import ConceptScript.Proofs.Statement.Extent

namespace ConceptScript

def occurrences (token : Token) (ts : List Lexeme) : Nat := (ts.map Lexeme.token).count token

def opens (ts : List Lexeme) : Nat := occurrences .openBrace ts

def closes (ts : List Lexeme) : Nat := occurrences .closeBrace ts

/-- How many statements end in the tokens. -/
def terminators (ts : List Lexeme) : Nat := occurrences .semicolon ts + opens ts

section Counts

variable (ts us : List Lexeme)

@[simp] theorem opens_append : opens (ts ++ us) = opens ts + opens us := by
  simp [opens, occurrences]

@[simp] theorem closes_append : closes (ts ++ us) = closes ts + closes us := by
  simp [closes, occurrences]

@[simp] theorem terminators_append : terminators (ts ++ us) = terminators ts + terminators us := by
  simp [terminators, occurrences]
  omega

variable {ts}

theorem occurrences_eq_zero {token : Token} (h : ∀ l ∈ ts, l.token ≠ token) :
    occurrences token ts = 0 := by
  unfold occurrences
  rw [List.count_eq_zero]
  intro hm
  obtain ⟨l, hl, he⟩ := List.mem_map.mp hm
  exact h l hl he

end Counts

/-- No brace is closed before it is opened, and none stays open. -/
structure Balanced (ts : List Lexeme) : Prop where
  closes_le : ∀ us, us <+: ts → closes us ≤ opens us
  closes_eq : closes ts = opens ts

theorem balanced_nil : Balanced [] where
  closes_le us h := by
    rw [List.prefix_nil.mp h]
    exact Nat.le_refl 0
  closes_eq := rfl

theorem Balanced.append {ts us : List Lexeme} (ht : Balanced ts) (hu : Balanced us) :
    Balanced (ts ++ us) where
  closes_le vs h := by
    rcases List.prefix_or_prefix_of_prefix h (List.prefix_append ts us) with h' | ⟨ws, rfl⟩
    · exact ht.closes_le vs h'
    · have hw := hu.closes_le ws ((List.prefix_append_right_inj ts).mp h)
      rw [closes_append, opens_append, ht.closes_eq]
      omega
  closes_eq := by rw [closes_append, opens_append, ht.closes_eq, hu.closes_eq]

theorem balanced_of_no_braces {ts : List Lexeme}
    (h : ∀ l ∈ ts, l.token ≠ .openBrace ∧ l.token ≠ .closeBrace) : Balanced ts := by
  have hcloses (us : List Lexeme) (hu : us ⊆ ts) : closes us = 0 :=
    occurrences_eq_zero fun l hl => (h l (hu hl)).2
  have hopens : opens ts = 0 := occurrences_eq_zero fun l hl => (h l hl).1
  constructor
  · intro us hu
    rw [hcloses us hu.subset]
    exact Nat.zero_le _
  · rw [hcloses ts (fun _ hl => hl), hopens]

theorem brace_counts {first last : Lexeme} (hfirst : first.token = .openBrace)
    (hlast : last.token = .closeBrace) :
    opens [first] = 1 ∧ closes [first] = 0 ∧ opens [last] = 0 ∧ closes [last] = 1 := by
  simp [opens, closes, occurrences, hfirst, hlast]

/-- Balanced tokens between a brace and the one that closes it. -/
theorem Balanced.enclosed {ts : List Lexeme} (h : Balanced ts) {first last : Lexeme}
    (hfirst : first.token = .openBrace) (hlast : last.token = .closeBrace) :
    Balanced ([first] ++ (ts ++ [last])) := by
  have hcounts := brace_counts hfirst hlast
  constructor
  · intro us hu
    rcases List.prefix_cons_iff.mp hu with rfl | ⟨us, rfl, htail⟩
    · exact Nat.le_refl 0
    · rw [← List.singleton_append, closes_append, opens_append]
      rcases List.prefix_concat_iff.mp htail with rfl | htail
      · rw [closes_append, opens_append, h.closes_eq]
        omega
      · have := h.closes_le us htail
        omega
  · simp only [closes_append, opens_append, h.closes_eq]
    omega

theorem Balanced.not_open {outer inner : List Lexeme} {brace : Lexeme}
    (h : Balanced (outer ++ brace :: inner)) (hbrace : brace.token = .openBrace) :
    ¬Balanced inner := by
  intro hinner
  have houter := h.closes_le outer (List.prefix_append _ _)
  have htotal := h.closes_eq
  have hone : opens [brace] = 1 ∧ closes [brace] = 0 := by
    simp [opens, closes, occurrences, hbrace]
  rw [← List.singleton_append] at htotal
  simp only [closes_append, opens_append, hinner.closes_eq] at htotal
  omega

/-- The innermost open brace is the only one after which the tokens are balanced. -/
theorem innermost_unique {outer outer' inner inner' : List Lexeme} {brace brace' : Lexeme}
    (h : outer ++ brace :: inner = outer' ++ brace' :: inner') (hbrace : brace.token = .openBrace)
    (hbrace' : brace'.token = .openBrace) (hinner : Balanced inner) (hinner' : Balanced inner') :
    outer = outer' := by
  rcases List.append_eq_append_iff.mp h with ⟨between, houter, hrest⟩ | ⟨between, houter, hrest⟩
  · cases between with
    | nil => simpa using houter.symm
    | cons l between =>
      obtain ⟨rfl, rfl⟩ := List.cons.inj hrest
      exact absurd hinner' (hinner.not_open hbrace')
  · cases between with
    | nil => simpa using houter
    | cons l between =>
      obtain ⟨rfl, rfl⟩ := List.cons.inj hrest
      exact absurd hinner (hinner'.not_open hbrace)

/-- The stack holds the concepts whose braces are open after the tokens, the innermost first. The
concept of a brace is told by the number of statements that end before it. -/
inductive Opened (concepts : List ParsedConcept) : List Lexeme → List ParsedConcept → Prop
  | top {before : List Lexeme} : Balanced before → Opened concepts before []
  | inside {outer inner : List Lexeme} {brace : Lexeme} {c : ParsedConcept}
    {enclosing : List ParsedConcept} :
    Opened concepts outer enclosing → brace.token = .openBrace →
    concepts[terminators outer]? = some c → Balanced inner →
    Opened concepts (outer ++ brace :: inner) (c :: enclosing)

namespace Opened

variable {concepts enclosing : List ParsedConcept} {before : List Lexeme}

theorem append (h : Opened concepts before enclosing) {more : List Lexeme} (hm : Balanced more) :
    Opened concepts (before ++ more) enclosing := by
  cases h with
  | top hb => exact .top (hb.append hm)
  | inside houter hbrace hc hinner =>
    rw [List.append_assoc, List.cons_append]
    exact .inside houter hbrace hc (hinner.append hm)

theorem close {c : ParsedConcept} (h : Opened concepts before (c :: enclosing)) {last : Lexeme}
    (hlast : last.token = .closeBrace) : Opened concepts (before ++ [last]) enclosing := by
  cases h with
  | @inside outer inner brace _ _ houter hbrace _ hinner =>
    have happend := houter.append (hinner.enclosed hbrace hlast)
    simpa using happend

theorem balanced (h : Opened concepts before []) : Balanced before := by
  cases h with
  | top hb => exact hb

theorem eq_nil (h : Opened concepts before enclosing) (hb : Balanced before) : enclosing = [] := by
  cases h with
  | top _ => rfl
  | inside _ hbrace _ hinner => exact absurd hinner (hb.not_open hbrace)

theorem innermost {outer inner : List Lexeme} {brace : Lexeme}
    (h : Opened concepts (outer ++ brace :: inner) enclosing)
    (hbrace : brace.token = .openBrace) (hinner : Balanced inner) :
    ∃ c more, enclosing = c :: more ∧ concepts[terminators outer]? = some c := by
  generalize hb : outer ++ brace :: inner = before at h
  cases h with
  | top hbefore =>
    rw [← hb] at hbefore
    exact absurd hinner (hbefore.not_open hbrace)
  | @inside outer' inner' brace' c more _ hbrace' hc hinner' =>
    rw [innermost_unique hb hbrace hbrace' hinner hinner']
    exact ⟨c, more, rfl, hc⟩

end Opened

end ConceptScript
