namespace ConceptScript.Text

/-- Cuts a text at the first occurrence of a pattern, which stays in neither half. -/
def cutAt? (pattern : List Char) : List Char → Option (List Char × List Char)
  | [] => if pattern = [] then some ([], []) else none
  | c :: cs =>
    match pattern.isPrefixOf? (c :: cs) with
    | some rest => some ([], rest)
    | none => (cutAt? pattern cs).map fun (before, after) => (c :: before, after)

theorem append_of_isPrefixOf? {pattern text rest : List Char}
    (h : pattern.isPrefixOf? text = some rest) : pattern ++ rest = text := by
  induction pattern generalizing text with
  | nil => exact (Option.some.inj h).symm
  | cons p ps ih =>
    cases text with
    | nil => cases h
    | cons c cs =>
      change (if p == c then ps.isPrefixOf? cs else none) = some rest at h
      split at h
      · next hpc => simp [eq_of_beq hpc, ih h]
      · simp at h

theorem eq_of_cutAt? {pattern text before after : List Char}
    (h : cutAt? pattern text = some (before, after)) : text = before ++ pattern ++ after := by
  induction text generalizing before after with
  | nil =>
    simp only [cutAt?] at h
    split at h
    · simp_all
    · simp at h
  | cons c cs ih =>
    simp only [cutAt?] at h
    split at h
    · next rest hr =>
      obtain ⟨rfl, rfl⟩ : [] = before ∧ rest = after := by simpa using h
      simpa using (append_of_isPrefixOf? hr).symm
    · obtain ⟨⟨b, a⟩, hba, hc⟩ := Option.map_eq_some_iff.1 h
      obtain ⟨rfl, rfl⟩ : c :: b = before ∧ a = after := by simpa using hc
      simp [ih hba]

theorem length_after_lt {pattern text before after : List Char} (hp : pattern ≠ [])
    (h : cutAt? pattern text = some (before, after)) : after.length < text.length := by
  have := List.length_pos_iff.2 hp
  rw [eq_of_cutAt? h]
  simp only [List.length_append]
  omega

/-- Replaces every occurrence of a non-empty pattern, from left to right and without overlap. -/
def substitute (pattern new : List Char) (hp : pattern ≠ []) (text : List Char) : List Char :=
  match _h : cutAt? pattern text with
  | none => text
  | some (before, after) => before ++ new ++ substitute pattern new hp after
termination_by text.length
decreasing_by exact length_after_lt hp _h

/-- Replaces every occurrence of a pattern. The empty pattern occurs before each character and
at the end. -/
def replaceAll (pattern new text : List Char) : List Char :=
  if hp : pattern ≠ [] then substitute pattern new hp text
  else new ++ text.flatMap fun c => c :: new

def contains (text pattern : String) : Bool := (cutAt? pattern.toList text.toList).isSome

def replace (text pattern new : String) : String :=
  .ofList (replaceAll pattern.toList new.toList text.toList)

end ConceptScript.Text
