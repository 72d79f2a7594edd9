import Mathlib.Data.List.Perm.Basic
import ConceptScript.Proofs.Registry.Settling

namespace ConceptScript.Registry

/-- The same items in some order, each under a name of its own. -/
structure Shuffled {α : Type} (nameOf : α → String) (xs ys : List α) : Prop where
  perm : xs.Perm ys
  nodup : (xs.map nameOf).Nodup

namespace Shuffled

variable {α : Type} {nameOf : α → String} {xs ys : List α} (h : Shuffled nameOf xs ys)
include h

theorem symm : Shuffled nameOf ys xs :=
  ⟨h.perm.symm, (h.perm.map nameOf).nodup_iff.mp h.nodup⟩

theorem find?_eq (name : String) :
    xs.find? (fun a => nameOf a == name) = ys.find? fun a => nameOf a == name := by
  ext a
  rw [find?_eq_some_iff h.nodup, find?_eq_some_iff h.symm.nodup, h.perm.mem_iff]

theorem without (name : String) :
    Shuffled nameOf (without nameOf xs name) (Registry.without nameOf ys name) :=
  ⟨h.perm.filter _, h.nodup.sublist (List.filter_sublist.map nameOf)⟩

end Shuffled

theorem shapeOf_shuffled {ds ds' : List Declaration} (h : Shuffled Declaration.name ds ds')
    {d : Declaration} {s : Shape} (hs : shapeOf ds d = .ok s) : shapeOf ds' d = .ok s := by
  refine inherit_mono h.find?_eq (fun name e he => ?_) hs
  rw [← (h.without d.name).find?_eq]
  exact he

/-- The nesting without the proof that its pool gets smaller. -/
theorem nestingIn_eq (pool : List Shape) (s : Shape) :
    nestingIn pool s =
      match s.parent? with
      | none => ⟨true, 0⟩
      | some p =>
        match p.kind.target? with
        | some (.concept name) =>
          match pool.find? fun t => t.name == name with
          | none => ⟨true, 1⟩
          | some t =>
            if t.isInterface then ⟨false, 0⟩
            else
              let outer := nestingIn (without Shape.name pool name) t
              ⟨outer.concrete, outer.depth + 1⟩
        | _ => ⟨false, 0⟩ := by
  rw [nestingIn.eq_def]
  cases s.parent? with
  | none => rfl
  | some p =>
    dsimp only
    rcases p.kind.target? with _ | (_ | name)
    · rfl
    · rfl
    · dsimp only
      split
      · next hf => rw [hf]
      · next hf => rw [hf]

section Shapes

variable {shapes shapes' : List Shape} (h : Shuffled Shape.name shapes shapes')
include h

theorem danglingTarget?_shuffled (m : Member) :
    danglingTarget? shapes m = danglingTarget? shapes' m := by
  unfold danglingTarget?
  split
  · rw [h.perm.any_eq]
  · rfl

theorem checkTargets_shuffled
    (hc : checkTargets shapes (shapes.flatMap fun s => s.members.map fun m => (s, m)) = .ok ()) :
    checkTargets shapes' (shapes'.flatMap fun s => s.members.map fun m => (s, m)) = .ok () := by
  rw [checkTargets_eq_ok_iff] at hc ⊢
  intro p hp
  rw [← danglingTarget?_shuffled h]
  exact hc p ((h.perm.flatMap_right _).symm.subset hp)

theorem nestingIn_shuffled (s : Shape) : nestingIn shapes s = nestingIn shapes' s := by
  induction shapes, s using nestingIn.induct generalizing shapes' with
  | case1 pool s hp =>
    rw [nestingIn_eq, nestingIn_eq]
    simp only [hp]
  | case2 pool s p hp name ht hf =>
    rw [nestingIn_eq, nestingIn_eq]
    simp only [hp, ht, ← h.find?_eq name, hf]
  | case3 pool s p hp name ht t hf hi =>
    rw [nestingIn_eq, nestingIn_eq]
    simp only [hp, ht, ← h.find?_eq name, hf, hi, if_true]
  | case4 pool s p hp name ht t hf hi ih =>
    rw [nestingIn_eq, nestingIn_eq]
    simp only [hp, ht, ← h.find?_eq name, hf, if_neg hi, ih (h.without name)]
  | case5 pool s p hp ht =>
    rw [nestingIn_eq, nestingIn_eq]
    simp only [hp]

theorem complete_shuffled {known known' : Arities}
    (hknown : ∀ name, known.lookup name = known'.lookup name) (s : Shape) :
    complete shapes known s = complete shapes' known' s := by
  rw [complete, complete, hknown, nestingOf, nestingOf, nestingIn_shuffled (h.without s.name)]

end Shapes

/-- Declarations in another order make a registry of the same types. -/
theorem build_shuffled {ds ds' : List Declaration} (h : ds.Perm ds') {r : Registry}
    (hr : build ds = .ok r) :
    ∃ r', build ds' = .ok r' ∧ Shuffled (fun t => t.name) r.types r'.types := by
  obtain ⟨shapes, known, hshapesOf, hknown, rfl⟩ := buildWith_eq_ok.mp hr
  obtain ⟨hd, hs, ht⟩ := shapesOf_eq_ok.mp hshapesOf
  obtain ⟨hnames, _, hbare⟩ := checkDeclarations_eq_ok_iff.mp hd
  have hds : Shuffled Declaration.name ds ds' := ⟨h, hnames⟩
  have hd' : checkDeclarations [] ds' = .ok () :=
    checkDeclarations_eq_ok_iff.mpr ⟨hds.symm.nodup, by simp, fun d hd => hbare d (h.mem_iff.mpr hd)⟩
  -- The shapes come in the order of the declarations.
  obtain ⟨shapes', hs', hperm⟩ := List.perm_comp_forall₂ h.symm
    (hs.imp fun d s hds' => shapeOf_shuffled hds hds')
  have hcontained := selfContained_of_shapesOf hshapesOf
  have hshapes : Shuffled Shape.name shapes shapes' := ⟨hperm.symm, hcontained.names_nodup⟩
  have hshapesOf' := shapesOf_eq_ok.mpr ⟨hd', hs', checkTargets_shuffled hshapes ht⟩
  have hcontained' := selfContained_of_shapesOf hshapesOf'
  have hleads (s t : Shape) (h : KeyLeads shapes' s t) : KeyLeads shapes s t :=
    ⟨hperm.subset h.1, h.2⟩
  obtain ⟨known', hknown'⟩ := (exists_aritiesOf_wrapping hcontained').mpr fun s hs hcycle =>
    (exists_aritiesOf_wrapping hcontained).mp ⟨known, hknown⟩ s (hperm.subset hs)
      (hcycle.lift id hleads)
  have hlookup := lookup_aritiesOf_perm hcontained hcontained' hperm.symm hknown hknown'
  refine ⟨_, buildWith_eq_ok.mpr ⟨shapes', known', hshapesOf', hknown', rfl⟩, ?_,
    names_nodup_of_build hr⟩
  rw [List.map_congr_left fun s _ => complete_shuffled hshapes hlookup s]
  exact hperm.symm.map _

end ConceptScript.Registry
