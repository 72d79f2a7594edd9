import Mathlib.Data.List.Sort
import ConceptScript.Model.Serialize
import ConceptScript.Proofs.Model.Indexes

namespace ConceptScript

namespace Model

def keys (m : Model) : List String := m.entries.toList.map Entry.key

def sortedKeys (m : Model) : List String := m.keys.mergeSort fun a b => decide (a ≤ b)

theorem sortedKeys_eq (m : Model) : m.sortedKeys =
    (m.entries.toList.mergeSort fun a b => decide (a.key ≤ b.key)).map Entry.key := by
  symm
  apply List.map_mergeSort
  intro a _ b _
  rfl

section Keys

variable {m : Model} (h : m.Indexed)
include h

theorem Indexed.nodup_keys : m.keys.Nodup := by
  rw [keys, h.keys_eq]
  exact h.keys_nodup

theorem Indexed.mem_keys_iff {k : String} : k ∈ m.keys ↔ ∃ e, m.entry? k = some e := by
  simp only [keys, List.mem_map, h.entry?_eq_some_iff]

theorem Indexed.map_toJson :
    ((m.entries.toList.mergeSort fun a b => decide (a.key ≤ b.key)).map Entry.toJson).map some =
      m.sortedKeys.map fun k => (m.entry? k).map Entry.toJson := by
  rw [sortedKeys_eq, List.map_map, List.map_map]
  apply List.map_congr_left
  intro e he
  have hentry : m.entry? e.key = some e :=
    h.entry?_eq_some_iff.mpr ⟨(List.mergeSort_perm _ _).mem_iff.mp he, rfl⟩
  simp only [Function.comp_apply, hentry, Option.map_some]

end Keys

theorem pairwise_sorted (keys : List String) :
    (keys.mergeSort fun a b => decide (a ≤ b)).Pairwise (· ≤ ·) := by
  have htrans (a b c : String) (hab : decide (a ≤ b) = true) (hbc : decide (b ≤ c) = true) :
      decide (a ≤ c) = true := by
    simp only [decide_eq_true_eq] at hab hbc ⊢
    exact String.le_trans hab hbc
  have htotal (a b : String) : (decide (a ≤ b) || decide (b ≤ a)) = true := by
    simpa using String.le_total a b
  exact (List.pairwise_mergeSort htrans htotal keys).imp fun hab => of_decide_eq_true hab

theorem pairwise_sortedKeys (m : Model) : m.sortedKeys.Pairwise (· ≤ ·) := pairwise_sorted m.keys

theorem toJson_eq_of_entries {m m' : Model} (h : m.Indexed) (h' : m'.Indexed)
    (hentries : ∀ k, (m.entry? k).map Entry.toJson = (m'.entry? k).map Entry.toJson) :
    m.toJson = m'.toJson := by
  have hmem (k : String) : k ∈ m.keys ↔ k ∈ m'.keys := by
    rw [h.mem_keys_iff, h'.mem_keys_iff, ← Option.isSome_iff_exists, ← Option.isSome_iff_exists,
      ← Option.isSome_map, hentries k, Option.isSome_map]
  have hperm : m.keys.Perm m'.keys := by
    rw [List.perm_ext_iff_of_nodup h.nodup_keys h'.nodup_keys]
    exact hmem
  have hkeys : m.sortedKeys = m'.sortedKeys := by
    refine List.Perm.eq_of_pairwise ?_ m.pairwise_sortedKeys m'.pairwise_sortedKeys ?_
    · intro a b _ _ hab hba
      exact String.le_antisymm hab hba
    · exact (List.mergeSort_perm _ _).trans (hperm.trans (List.mergeSort_perm _ _).symm)
  have hjson := h.map_toJson.trans ((congrArg _ hkeys).trans
    ((List.map_congr_left fun k _ => hentries k).trans h'.map_toJson.symm))
  rw [toJson, toJson, (Option.some_injective _).list_map hjson]

end Model

end ConceptScript
