import ConceptScript.Proofs.Token.Lexemes

namespace ConceptScript

/-- The names that a token is made of. -/
def Token.names : Token → List String
  | .word w => [w]
  | .path segments => segments
  | _ => []

namespace Lexer

theorem isWordCharacter_of_mem_segment (cs : List Char) :
    ∀ c ∈ (segment cs).1, isWordCharacter c = true := by
  fun_induction segment cs with
  | case1 => simp
  | case2 c cs h word rest heq ih =>
    rw [Bool.and_eq_true] at h
    rw [heq] at ih
    exact List.forall_mem_cons.mpr ⟨h.1, ih⟩
  | case3 => simp

theorem isWordCharacter_of_mem_segments {cs rest : List Char} {words : List String}
    (h : segments cs = .ok (words, rest)) :
    ∀ w ∈ words, ∀ c ∈ w.toList, isWordCharacter c = true := by
  have hsegment (cs : List Char) :
      ∀ c ∈ (String.ofList (segment cs).1).toList, isWordCharacter c = true := by
    rw [String.toList_ofList]
    exact isWordCharacter_of_mem_segment cs
  refine segments_induction
    (P := fun _ words _ => ∀ w ∈ words, ∀ c ∈ w.toList, isWordCharacter c = true) ?last ?dot h
  case last => exact fun {cs} _ => List.forall_mem_singleton.mpr (hsegment cs)
  case dot =>
    intro cs d tail words rest _ _ _ ih
    exact List.forall_mem_cons.mpr ⟨hsegment cs, ih⟩

theorem names_nameToken (words : List String) : (nameToken words).names = words := by
  unfold nameToken
  split <;> rfl

theorem names_of_punctuation {c : Char} {token : Token} (h : punctuation c = some token) :
    token.names = [] := by
  unfold punctuation at h
  split at h <;> cases h <;> rfl

theorem isWordCharacter_of_mem_names {c : Char} {cs rest : List Char} {p : Piece}
    (h : piece c cs = .ok (p, rest)) {token : Token} (ht : p.token? = some token) :
    ∀ w ∈ token.names, ∀ d ∈ w.toList, isWordCharacter d = true := by
  rcases token_cases h ht with ⟨s, rfl⟩ | hp | ⟨words, hwords, rfl⟩
  · simp [Token.names]
  · rw [names_of_punctuation hp]
    simp
  · rw [names_nameToken]
    exact isWordCharacter_of_mem_segments hwords

theorem forall_lexemes {P : Token → Prop} (hend : P .endOfScript)
    (hpiece : ∀ {c cs p rest}, piece c cs = .ok (p, rest) → ∀ {token}, p.token? = some token →
      P token)
    {offset : Nat} {cs : List Char} {tokens : List Lexeme} (h : lexemes offset cs = .ok tokens) :
    ∀ l ∈ tokens, P l.token := by
  refine lexemes_induction (P := fun _ _ tokens => ∀ l ∈ tokens, P l.token) ?finish ?step h
  case finish => simpa using hend
  case step =>
    intro offset c cs p rest more hp hmore l hl
    rcases List.mem_append.mp hl with hl | hl
    · exact hpiece hp (token?_of_mem_lexeme hl)
    · exact hmore l hl

end Lexer

theorem Script.lex_names {script : Script} {tokens : List Lexeme} (h : script.lex = .ok tokens) :
    ∀ l ∈ tokens, ∀ w ∈ l.token.names, ∀ c ∈ w.toList, Lexer.isWordCharacter c = true :=
  Lexer.forall_lexemes (by simp [Token.names]) Lexer.isWordCharacter_of_mem_names (lex_eq_ok.mp h)

end ConceptScript
