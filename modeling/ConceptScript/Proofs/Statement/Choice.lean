import ConceptScript.Proofs.Statement.Order

namespace ConceptScript

/-- A chain of parents that is concrete comes before an open one; of two alike, the one with fewer
steps comes first. -/
def Nesting.Before (a b : Nesting) : Prop :=
  a.concrete = true ∧ b.concrete = false ∨ a.concrete = b.concrete ∧ a.depth < b.depth

instance (a b : Nesting) : Decidable (a.Before b) :=
  inferInstanceAs (Decidable (_ ∨ _))

theorem Nesting.le_iff {a b : Nesting} : a.le b = true ↔ ¬b.Before a := by
  obtain ⟨ca, da⟩ := a
  obtain ⟨cb, db⟩ := b
  cases ca <;> cases cb <;> simp [le, Before]

theorem Nesting.not_before_trans {a b c : Nesting} (hab : ¬b.Before a) (hbc : ¬c.Before b) :
    ¬c.Before a := by
  obtain ⟨ca, da⟩ := a
  obtain ⟨cb, db⟩ := b
  obtain ⟨cc, dc⟩ := c
  cases ca <;> cases cb <;> cases cc <;> simp [Before] at * <;> omega

theorem Nesting.Before.asymm {a b : Nesting} (h : a.Before b) : ¬b.Before a := by
  obtain ⟨ca, da⟩ := a
  obtain ⟨cb, db⟩ := b
  cases ca <;> cases cb <;> simp [Before] at * <;> omega

/-- The readings that no other is longer than. -/
def contenders (readings : List Reading) : List Reading :=
  readings.filter fun r => ∀ other ∈ readings, other.consumed ≤ r.consumed

/-- The longest readings that none of the others nests less than. -/
def winners (readings : List Reading) : List Reading :=
  (contenders readings).filter fun r =>
    ∀ other ∈ contenders readings, ¬other.node.type.nesting.Before r.node.type.nesting

theorem longest_eq (readings : List Reading) : longest readings = contenders readings := by
  apply List.filter_congr
  intro r hr
  rw [Bool.eq_iff_iff, beq_iff_eq, decide_eq_true_iff]
  have hmem : r.consumed ∈ readings.map Reading.consumed := List.mem_map_of_mem hr
  obtain ⟨most, hmost⟩ := Option.isSome_iff_exists.mp (List.isSome_max?_of_mem hmem)
  obtain ⟨hin, hle⟩ := List.max?_eq_some_iff.mp hmost
  rw [hmost, Option.getD_some]
  constructor
  · rintro rfl other hother
    exact hle _ (List.mem_map_of_mem hother)
  · intro hall
    obtain ⟨longer, hlonger, rfl⟩ := List.mem_map.mp hin
    exact Nat.le_antisymm (hle _ hmem) (hall longer hlonger)

theorem filter_nestsLeast_eq (readings : List Reading) :
    (contenders readings).filter (Reading.nestsLeast (contenders readings)) =
      winners readings := by
  apply List.filter_congr
  intro r _
  rw [Bool.eq_iff_iff, decide_eq_true_iff, Reading.nestsLeast, List.all_eq_true]
  simp only [Nesting.le_iff]

theorem exists_first {α : Type} {R : α → α → Prop} (total : ∀ a b, R a b ∨ R b a)
    (trans : ∀ {a b c}, R a b → R b c → R a c) {xs : List α} (h : xs ≠ []) :
    ∃ a ∈ xs, ∀ b ∈ xs, R a b := by
  induction xs with
  | nil => exact absurd rfl h
  | cons x xs ih =>
    have hself : R x x := (total x x).elim id id
    by_cases hxs : xs = []
    · exact ⟨x, List.mem_cons_self, by simpa [hxs] using hself⟩
    · obtain ⟨a, ha, hall⟩ := ih hxs
      rcases total x a with hxa | hax
      · refine ⟨x, List.mem_cons_self, List.forall_mem_cons.mpr ⟨hself, ?_⟩⟩
        exact fun b hb => trans hxa (hall b hb)
      · exact ⟨a, List.mem_cons_of_mem x ha, List.forall_mem_cons.mpr ⟨hax, hall⟩⟩

theorem contenders_ne_nil {readings : List Reading} (h : readings ≠ []) :
    contenders readings ≠ [] := by
  obtain ⟨r, hr, hall⟩ := exists_first (R := fun a b : Reading => b.consumed ≤ a.consumed)
    (fun a b => Nat.le_total b.consumed a.consumed) (fun hab hbc => Nat.le_trans hbc hab) h
  exact List.ne_nil_of_mem (List.mem_filter.mpr ⟨hr, decide_eq_true hall⟩)

theorem winners_ne_nil {readings : List Reading} (h : readings ≠ []) : winners readings ≠ [] := by
  have htotal (a b : Nesting) : ¬b.Before a ∨ ¬a.Before b := by
    by_cases hba : b.Before a
    · exact .inr hba.asymm
    · exact .inl hba
  obtain ⟨r, hr, hall⟩ := exists_first
    (R := fun a b : Reading => ¬b.node.type.nesting.Before a.node.type.nesting)
    (fun _ _ => htotal _ _) Nesting.not_before_trans (contenders_ne_nil h)
  exact List.ne_nil_of_mem (List.mem_filter.mpr ⟨hr, decide_eq_true hall⟩)

theorem winners_of_contender {readings : List Reading} {only : Reading}
    (h : contenders readings = [only]) : winners readings = [only] := by
  have hself : ¬only.node.type.nesting.Before only.node.type.nesting := fun hb => hb.asymm hb
  simp [winners, h, hself]

theorem choose_cases {readings : List Reading} (h : readings ≠ []) (keyword : String)
    (location : Location) :
    (∃ winner warning, choose readings keyword location = .ok (winner, warning) ∧
      winners readings = [winner] ∧ (warning.isSome = true ↔ 1 < (contenders readings).length)) ∨
    ∃ d, choose readings keyword location = .error d ∧ 1 < (winners readings).length ∧
      d.code = .ambiguousSyntax ∧
      d.details = (winners readings).map fun r => r.node.typeName := by
  have hcontenders := contenders_ne_nil h
  have hwinners := winners_ne_nil h
  unfold choose
  rw [longest_eq]
  split
  · next hnone => exact absurd hnone hcontenders
  · next only honly =>
    exact .inl ⟨only, none, rfl, winners_of_contender honly, by simp [honly]⟩
  · next hnone hmany =>
    dsimp only
    have hlength : 1 < (contenders readings).length := by
      rcases hc : contenders readings with _ | ⟨a, _ | ⟨b, rest⟩⟩
      · exact absurd hc hnone
      · exact absurd hc (hmany a)
      · simp
    rw [filter_nestsLeast_eq]
    split
    · next winner hw => exact .inl ⟨winner, _, rfl, hw, by simp [hlength]⟩
    · next htie =>
      refine .inr ⟨_, rfl, ?_, rfl, rfl⟩
      rcases hw : winners readings with _ | ⟨a, _ | ⟨b, rest⟩⟩
      · exact absurd hw hwinners
      · exact absurd hw (htie a)
      · simp

theorem choose_eq_ok_iff {readings : List Reading} (h : readings ≠ []) {keyword : String}
    {location : Location} {winner : Reading} :
    (∃ warning, choose readings keyword location = .ok (winner, warning)) ↔
      winners readings = [winner] := by
  rcases choose_cases h keyword location with ⟨only, warning, hc, hw, _⟩ | ⟨d, hc, htie, _⟩
  · rw [hc, hw]
    simp
  · rw [hc]
    constructor
    · rintro ⟨_, hok⟩
      cases hok
    · intro hw
      simp [hw] at htie

theorem choose_eq_error {readings : List Reading} (h : readings ≠ []) {keyword : String}
    {location : Location} {d : Diagnostic} (hd : choose readings keyword location = .error d) :
    1 < (winners readings).length ∧ d.code = .ambiguousSyntax ∧
      d.details = (winners readings).map fun r => r.node.typeName := by
  rcases choose_cases h keyword location with ⟨_, _, hc, _⟩ | ⟨d', hc, htie⟩
  · rw [hc] at hd
    cases hd
  · obtain rfl := Except.error.inj (hc.symm.trans hd)
    exact htie

theorem winners_perm {readings permuted : List Reading} (h : permuted.Perm readings) :
    (winners permuted).Perm (winners readings) := by
  rw [← filter_nestsLeast_eq, ← filter_nestsLeast_eq, ← longest_eq, ← longest_eq]
  exact filter_nestsLeast_perm (longest_perm h).2

/-- The choice is exact and fails closed. There is one if one reading wins, and it is that reading,
with a warning if there were others as long. Otherwise the winners are named as ambiguous. Readings
in another order lead to the same choice, or to an ambiguity of the same types. -/
theorem choose_decides {readings : List Reading} (h : readings ≠ []) (keyword : String)
    (location : Location) :
    (∀ winner, (∃ warning, choose readings keyword location = .ok (winner, warning)) ↔
      winners readings = [winner]) ∧
    (∀ winner warning, choose readings keyword location = .ok (winner, warning) →
      (warning.isSome = true ↔ 1 < (contenders readings).length)) ∧
    ((∀ winner, winners readings ≠ [winner]) → 1 < (winners readings).length ∧
      ∃ d, choose readings keyword location = .error d ∧ d.code = .ambiguousSyntax ∧
        d.details = (winners readings).map fun r => r.node.typeName) ∧
    ∀ permuted : List Reading, permuted.Perm readings →
      (∀ winner, (∃ warning, choose permuted keyword location = .ok (winner, warning)) ↔
        ∃ warning, choose readings keyword location = .ok (winner, warning)) ∧
      ∀ d, choose readings keyword location = .error d →
        ∃ d', choose permuted keyword location = .error d' ∧ d'.code = d.code ∧
          d'.details.Perm d.details := by
  refine ⟨fun winner => choose_eq_ok_iff h, ?_, ?_, ?_⟩
  · intro winner warning hok
    rcases choose_cases h keyword location with ⟨_, _, hc, _, hwarning⟩ | ⟨_, hc, _⟩
    · obtain ⟨_, rfl⟩ := Prod.mk.inj (Except.ok.inj (hc.symm.trans hok))
      exact hwarning
    · rw [hc] at hok
      cases hok
  · intro htie
    rcases choose_cases h keyword location with ⟨winner, _, _, hw, _⟩ | ⟨d, hc, hmany, hd⟩
    · exact absurd hw (htie winner)
    · exact ⟨hmany, d, hc, hd⟩
  · intro permuted hperm
    have hne : permuted ≠ [] := fun hnil => h (hperm.symm.trans (hnil ▸ .refl _)).eq_nil
    have hwinners := winners_perm hperm
    constructor
    · intro winner
      rw [choose_eq_ok_iff hne, choose_eq_ok_iff h]
      exact ⟨fun hw => (hw ▸ hwinners).singleton_eq.symm, fun hw => (hw ▸ hwinners).eq_singleton⟩
    · intro d hd
      obtain ⟨hmany, hcode, hdetails⟩ := choose_eq_error h hd
      rcases choose_cases hne keyword location with ⟨_, _, _, hw, _⟩ |
        ⟨d', hd', _, hcode', hdetails'⟩
      · have hlength := hwinners.length_eq
        simp only [hw, List.length_singleton] at hlength
        omega
      · exact ⟨d', hd', hcode'.trans hcode.symm, hdetails' ▸ hdetails ▸ hwinners.map _⟩

namespace Rivals

def reading (t : ConceptType) (consumed : Nat) : Reading := ⟨.ofType t, consumed, []⟩

/-- A module that reads less, a note and an entity. -/
def readings : List Reading :=
  [reading Small.moduleType 1, reading noteType 2, reading Small.entityType 2]

/-- A note between two types that nest alike. -/
def equals : List Reading :=
  [reading Small.entityType 2, reading noteType 2,
    reading { Small.entityType with name := "Twin" } 2]

end Rivals

theorem choose_decides_rivals :
    let location := Rivals.script.locate ⟨0, 0⟩
    Rivals.readings ≠ [] ∧ Rivals.equals ≠ [] ∧
      (∃ warning, choose Rivals.readings "Item" location =
        .ok (Rivals.reading Small.entityType 2, warning) ∧ warning.isSome = true) ∧
      ∃ d, choose Rivals.equals "Item" location = .error d ∧ d.code = .ambiguousSyntax ∧
        d.details = ["Entity", "Twin"] := by
  intro location
  have hreadings : Rivals.readings ≠ [] := List.cons_ne_nil _ _
  have hequals : Rivals.equals ≠ [] := List.cons_ne_nil _ _
  refine ⟨hreadings, hequals, ?_, ?_⟩
  · obtain ⟨hchoice, hwarning, _⟩ := choose_decides hreadings "Item" location
    obtain ⟨warning, hok⟩ := (hchoice (Rivals.reading Small.entityType 2)).mpr rfl
    exact ⟨warning, hok, (hwarning _ warning hok).mpr (by decide)⟩
  · obtain ⟨_, _, htie, _⟩ := choose_decides hequals "Item" location
    have hnames : (winners Rivals.equals).map (fun r => r.node.typeName) = ["Entity", "Twin"] := rfl
    obtain ⟨_, d, hd, hcode, hdetails⟩ := htie fun winner hw => by simp [hw] at hnames
    exact ⟨d, hd, hcode, hdetails.trans hnames⟩

end ConceptScript
