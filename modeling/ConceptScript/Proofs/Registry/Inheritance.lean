import Mathlib.Data.List.Nodup
import ConceptScript.Registry.Build
import ConceptScript.Proofs.Outcome

namespace ConceptScript.Registry

/-- The shape of a declaration, with its bases worked out anew. -/
def inherit (declared : List Declaration) (path : List String) (pool : List Declaration)
    (d : Declaration) : Except Fault Shape :=
  match d.base? with
  | none => extend declared d [] d.name [d.name]
  | some b =>
    match _h : pool.find? fun e => e.name == b with
    | none =>
      if path.contains b then .error (.inheritanceCycle (path ++ [b]))
      else .error (.unknownBase d.name b)
    | some base => do
      let shape ← inherit declared (path ++ [b]) (without Declaration.name pool b) base
      extendBase declared d base shape
termination_by pool.length
decreasing_by exact length_without_lt _h

def shapeOf (declared : List Declaration) (d : Declaration) : Except Fault Shape :=
  inherit declared [d.name] (without Declaration.name declared d.name) d

/-- The shape of a declaration whose bases are in the pool. -/
inductive Inherits (declared : List Declaration) : List Declaration → Declaration → Shape → Prop
  | root {pool : List Declaration} {d : Declaration} {s : Shape} :
    d.base? = none → s.members = d.members → s.root = d.name →
    implement declared d.name [d.name] d.interfaces = .ok s.ancestors →
    s.name = d.name → s.isInterface = d.isInterface →
    checkMembers d.name [] s.members = .ok () → Inherits declared pool d s
  | derived {pool : List Declaration} {d base : Declaration} {s b : Shape} :
    d.base? = some base.name → pool.find? (fun e => e.name == base.name) = some base →
    Inherits declared (without Declaration.name pool base.name) base b →
    base.isInterface = false → (∀ m ∈ d.members, m.isKey = false ∧ m.isParent = false) →
    s.members = b.members ++ d.members → s.root = b.root →
    implement declared d.name (d.name :: b.ancestors) d.interfaces = .ok s.ancestors →
    s.name = d.name → s.isInterface = d.isInterface →
    checkMembers d.name [] s.members = .ok () → Inherits declared pool d s

theorem inherit_root {declared pool : List Declaration} {path : List String} {d : Declaration}
    (hb : d.base? = none) :
    inherit declared path pool d = extend declared d [] d.name [d.name] := by
  rw [inherit]
  split
  · rfl
  · next b hb' => simp [hb] at hb'

theorem inherit_derived {declared pool : List Declaration} {path : List String}
    {d base : Declaration} {b : String} (hb : d.base? = some b)
    (hf : pool.find? (fun e => e.name == b) = some base) :
    inherit declared path pool d = (do
      let shape ← inherit declared (path ++ [b]) (without Declaration.name pool b) base
      extendBase declared d base shape) := by
  rw [inherit]
  split
  · next hb' => simp [hb] at hb'
  · next b' hb' =>
    obtain rfl : b = b' := by simpa [hb] using hb'
    split
    · next hf' => simp [hf] at hf'
    · next base' hf' =>
      obtain rfl : base = base' := by simpa [hf] using hf'
      rfl

def unknownBase (path : List String) (d : Declaration) (b : String) : Fault :=
  if path.contains b then .inheritanceCycle (path ++ [b]) else .unknownBase d.name b

theorem inherit_unknown {declared pool : List Declaration} {path : List String} {d : Declaration}
    {b : String} (hb : d.base? = some b) (hf : pool.find? (fun e => e.name == b) = none) :
    inherit declared path pool d = .error (unknownBase path d b) := by
  rw [inherit, unknownBase]
  simp only [hb]
  split
  · split <;> rfl
  · next base hf' => simp [hf] at hf'

theorem inherits_of_inherit {declared : List Declaration} {path : List String}
    {pool : List Declaration} {d : Declaration} {s : Shape}
    (h : inherit declared path pool d = .ok s) : Inherits declared pool d s := by
  induction path, pool, d using inherit.induct generalizing s with
  | case1 path pool d hb =>
    rw [inherit_root hb] at h
    obtain ⟨_, hm, h⟩ := bind_eq_ok.mp h
    obtain ⟨ancestors, ha, h⟩ := bind_eq_ok.mp h
    obtain rfl := pure_eq_ok.mp h
    exact .root hb rfl rfl ha rfl rfl hm
  | case2 path pool d b hb hf hp => simp [inherit_unknown hb hf] at h
  | case3 path pool d b hb hf hp => simp [inherit_unknown hb hf] at h
  | case4 path pool d b hb base hf ih =>
    obtain rfl : base.name = b := by simpa using List.find?_some hf
    rw [inherit_derived hb hf] at h
    obtain ⟨shape, hs, h⟩ := bind_eq_ok.mp h
    unfold extendBase at h
    by_cases hi : base.isInterface = true
    · rw [if_pos hi] at h
      exact absurd h nofun
    · rw [if_neg hi] at h
      split at h
      · exact absurd h nofun
      · next ho =>
        obtain ⟨_, hm, h⟩ := bind_eq_ok.mp h
        obtain ⟨ancestors, ha, h⟩ := bind_eq_ok.mp h
        obtain rfl := pure_eq_ok.mp h
        exact .derived hb hf (ih hs) (by simpa using hi) (by simpa using ho) rfl rfl ha rfl rfl hm

theorem Inherits.name_eq {declared pool : List Declaration} {d : Declaration} {s : Shape}
    (h : Inherits declared pool d s) : s.name = d.name := by
  cases h with
  | root _ _ _ _ hn _ _ => exact hn
  | derived _ _ _ _ _ _ _ _ hn _ _ => exact hn

theorem without_sublist {α : Type} (nameOf : α → String) (pool : List α) (name : String) :
    (without nameOf pool name).Sublist pool :=
  List.filter_sublist

theorem find?_eq_some_iff {α : Type} {nameOf : α → String} {xs : List α}
    (h : (xs.map nameOf).Nodup) {name : String} {a : α} :
    xs.find? (fun a => nameOf a == name) = some a ↔ a ∈ xs ∧ nameOf a = name := by
  constructor
  · intro hf
    exact ⟨List.mem_of_find?_eq_some hf, by simpa using List.find?_some hf⟩
  · rintro ⟨hmem, rfl⟩
    cases hf : xs.find? fun b => nameOf b == nameOf a with
    | none => simpa using List.find?_eq_none.mp hf a hmem
    | some b =>
      have hname : nameOf b = nameOf a := by simpa using List.find?_some hf
      rw [List.inj_on_of_nodup_map h (List.mem_of_find?_eq_some hf) hmem hname]

theorem find?_without {α : Type} {nameOf : α → String} (pool : List α) {name other : String}
    (h : name ≠ other) : (without nameOf pool other).find? (fun a => nameOf a == name) =
      pool.find? fun a => nameOf a == name := by
  rw [without, List.find?_filter]
  congr
  funext a
  by_cases ha : nameOf a = name <;> simp [ha, h]

/-- Declarations are looked up by name only, along the bases and for the interfaces. -/
theorem inherit_mono {ds ds' : List Declaration}
    (hds : ∀ name, ds.find? (fun e => e.name == name) = ds'.find? fun e => e.name == name)
    {path path' : List String} {pool pool' : List Declaration} {d : Declaration} {s : Shape}
    (hpool : ∀ name e, pool.find? (fun e => e.name == name) = some e →
      pool'.find? (fun e => e.name == name) = some e)
    (h : inherit ds path pool d = .ok s) : inherit ds' path' pool' d = .ok s := by
  have himplement (name : String) (ancestors interfaces : List String) :
      implement ds name ancestors interfaces = implement ds' name ancestors interfaces := by
    induction interfaces generalizing ancestors with
    | nil => rfl
    | cons i is ih => rw [implement, implement, hds, ih]
  have hextend (d : Declaration) (ms : List Member) (root : String) (ancestors : List String) :
      extend ds d ms root ancestors = extend ds' d ms root ancestors := by
    rw [extend, extend, himplement]
  induction path, pool, d using inherit.induct generalizing s path' pool' with
  | case1 path pool d hb =>
    rw [inherit_root hb] at h ⊢
    rw [← hextend, h]
  | case2 path pool d b hb hf hp => simp [inherit_unknown hb hf] at h
  | case3 path pool d b hb hf hp => simp [inherit_unknown hb hf] at h
  | case4 path pool d b hb base hf ih =>
    rw [inherit_derived hb hf] at h
    rw [inherit_derived hb (hpool b base hf)]
    obtain ⟨shape, hshape, hrest⟩ := bind_eq_ok.mp h
    have hinner (name : String) (e : Declaration)
        (he : (without Declaration.name pool b).find? (fun e => e.name == name) = some e) :
        (without Declaration.name pool' b).find? (fun e => e.name == name) = some e := by
      by_cases hname : name = b
      · have hmem := List.mem_of_find?_eq_some he
        have he' : e.name = b := by simpa [hname] using List.find?_some he
        simp [without, he'] at hmem
      · rw [find?_without _ hname] at he ⊢
        exact hpool name e he
    rw [ih hinner hshape, ok_bind, extendBase, ← hextend]
    exact hrest

-- Looking a shape up among those that are resolved saves the work and changes no result: the
-- bases of a resolved shape are resolved too, so none of them is on the path that leads to it.

/-- Each shape is that of a declaration whose bases are resolved. -/
def Resolved (declared : List Declaration) (resolved : List Shape) : Prop :=
  ∀ s ∈ resolved, ∃ d ∈ declared, s.name = d.name ∧ ∃ pool : List Declaration,
    (∀ e ∈ pool, e ∈ declared ∧ e.name ≠ d.name ∧ e.name ∈ resolved.map Shape.name) ∧
      inherit declared [] pool d = .ok s

theorem name_of_extend {declared : List Declaration} {d : Declaration} {inherited : List Member}
    {root : String} {ancestors : List String} {s : Shape}
    (h : extend declared d inherited root ancestors = .ok s) : s.name = d.name := by
  obtain ⟨_, _, h⟩ := bind_eq_ok.mp h
  obtain ⟨_, _, h⟩ := bind_eq_ok.mp h
  obtain rfl := pure_eq_ok.mp h
  rfl

theorem name_of_extendBase {declared : List Declaration} {d base : Declaration} {shape s : Shape}
    (h : extendBase declared d base shape = .ok s) : s.name = d.name := by
  unfold extendBase at h
  split at h
  · cases h
  · split at h
    · cases h
    · exact name_of_extend h

theorem Resolved.cons {declared : List Declaration} {resolved : List Shape}
    (h : Resolved declared resolved) {d : Declaration} (hd : d ∈ declared) {s : Shape}
    (hs : s.name = d.name) {pool : List Declaration}
    (hpool : ∀ e ∈ pool, e ∈ declared ∧ e.name ≠ d.name ∧ e.name ∈ resolved.map Shape.name)
    (hi : inherit declared [] pool d = .ok s) : Resolved declared (s :: resolved) := by
  intro u hu
  rcases List.mem_cons.mp hu with rfl | hu
  · refine ⟨d, hd, hs, pool, fun e he => ?_, hi⟩
    obtain ⟨hmem, hne, hres⟩ := hpool e he
    exact ⟨hmem, hne, List.mem_cons_of_mem _ hres⟩
  · obtain ⟨e, he, hname, pool', hpool', hi'⟩ := h u hu
    refine ⟨e, he, hname, pool', fun e' he' => ?_, hi'⟩
    obtain ⟨hmem, hne, hres⟩ := hpool' e' he'
    exact ⟨hmem, hne, List.mem_cons_of_mem _ hres⟩

/-- What resolving a declaration gives: the shape that it inherits, and shapes of the pool. -/
structure Resolves (declared : List Declaration) (path : List String) (pool : List Declaration)
    (resolved : List Shape) (d : Declaration) (x : Shape × List Shape) : Prop where
  inherit_eq : inherit declared path pool d = .ok x.1
  mem : x.1 ∈ x.2
  resolved_after : Resolved declared x.2
  mem_or : ∀ s ∈ x.2, s ∈ resolved ∨ s.name = d.name ∨ s.name ∈ pool.map Declaration.name
  subset : resolved ⊆ x.2

section Resolve

variable {declared pool : List Declaration} {path : List String} {resolved : List Shape}
  {d : Declaration}

theorem resolve_root (hnew : resolved.find? (fun s => s.name == d.name) = none)
    (hb : d.base? = none) : resolve declared path pool resolved d = (do
      let s ← extend declared d [] d.name [d.name]
      return (s, s :: resolved)) := by
  rw [resolve]
  simp only [hnew, hb]

theorem resolve_derived (hnew : resolved.find? (fun s => s.name == d.name) = none) {b : String}
    (hb : d.base? = some b) {base : Declaration}
    (hf : pool.find? (fun e => e.name == b) = some base) :
    resolve declared path pool resolved d = (do
      let x ← resolve declared (path ++ [b]) (without Declaration.name pool b) resolved base
      let s ← extendBase declared d base x.1
      return (s, s :: x.2)) := by
  rw [resolve]
  simp only [hnew, hb]
  split
  · next hf' => simp [hf] at hf'
  · next base' hf' =>
    obtain rfl : base = base' := by simpa [hf] using hf'
    rfl

theorem resolve_unknown (hnew : resolved.find? (fun s => s.name == d.name) = none) {b : String}
    (hb : d.base? = some b) (hf : pool.find? (fun e => e.name == b) = none) :
    resolve declared path pool resolved d = .error (unknownBase path d b) := by
  rw [resolve, unknownBase]
  simp only [hnew, hb]
  split
  · split <;> rfl
  · next base hf' => simp [hf] at hf'

end Resolve

/-- A resolved base stands for its own bases in the pool of what extends it. -/
theorem inherit_of_base {declared pool : List Declaration} {d base : Declaration} {shape s : Shape}
    (hb : d.base? = some base.name) (hpool : ∀ e ∈ pool, e.name ≠ base.name)
    (hbase : inherit declared [] pool base = .ok shape)
    (hs : extendBase declared d base shape = .ok s) :
    inherit declared [] (base :: pool) d = .ok s := by
  have hfind : (base :: pool).find? (fun e => e.name == base.name) = some base := by simp
  have hinner : inherit declared ([] ++ [base.name])
      (without Declaration.name (base :: pool) base.name) base = .ok shape := by
    refine inherit_mono (fun _ => rfl) (fun name e he => ?_) hbase
    have hname : e.name = name := by simpa using List.find?_some he
    have hne : name ≠ base.name := hname ▸ hpool e (List.mem_of_find?_eq_some he)
    rw [find?_without _ hne, List.find?_cons_of_neg (by simpa using hne.symm), he]
  rw [inherit_derived hb hfind, hinner, ok_bind, hs]

theorem Resolves.derived {declared : List Declaration}
    (hnames : (declared.map Declaration.name).Nodup) {path : List String}
    {pool : List Declaration} {resolved : List Shape} {d base : Declaration}
    {x : Shape × List Shape} (hd : d ∈ declared) (hpool : pool ⊆ declared) (hself : d ∉ pool)
    (hnew : d.name ∉ resolved.map Shape.name) (hb : d.base? = some base.name)
    (hf : pool.find? (fun e => e.name == base.name) = some base)
    (hx : Resolves declared (path ++ [base.name]) (without Declaration.name pool base.name) resolved
      base x) {s : Shape} (hs : extendBase declared d base x.1 = .ok s) :
    Resolves declared path pool resolved d (s, s :: x.2) := by
  have hbase := List.mem_of_find?_eq_some hf
  have hsub := (without_sublist Declaration.name pool base.name).subset
  have hne {e : Declaration} (he : e ∈ pool) : e.name ≠ d.name := fun hname =>
    hself (List.inj_on_of_nodup_map hnames (hpool he) hd hname ▸ he)
  have hmem_or (u : Shape) (hu : u ∈ x.2) :
      u ∈ resolved ∨ u.name ∈ pool.map Declaration.name := by
    rcases hx.mem_or u hu with hu | hu | hu
    · exact .inl hu
    · exact .inr (hu ▸ List.mem_map_of_mem hbase)
    · exact .inr (List.map_subset _ hsub hu)
  have hnew' : d.name ∉ x.2.map Shape.name := by
    intro hmem
    obtain ⟨u, hu, hname⟩ := List.mem_map.mp hmem
    rcases hmem_or u hu with hu | hu
    · exact hnew (hname ▸ List.mem_map_of_mem hu)
    · obtain ⟨e, he, hname'⟩ := List.mem_map.mp hu
      exact hne he (hname'.trans hname)
  have hname : x.1.name = base.name := (inherits_of_inherit hx.inherit_eq).name_eq
  obtain ⟨e, he, hename, pool', hpool', hi⟩ := hx.resolved_after x.1 hx.mem
  obtain rfl := List.inj_on_of_nodup_map hnames he (hpool hbase) (hename.symm.trans hname)
  refine ⟨?_, List.mem_cons_self, hx.resolved_after.cons hd (name_of_extendBase hs)
    ?_ (inherit_of_base hb (fun e he => (hpool' e he).2.1) hi hs),
    ?_, List.subset_cons_of_subset _ hx.subset⟩
  · rw [inherit_derived hb hf, hx.inherit_eq, ok_bind, hs]
  · refine List.forall_mem_cons.mpr ⟨⟨he, hne hbase, hname ▸ List.mem_map_of_mem hx.mem⟩, ?_⟩
    intro e' he'
    obtain ⟨hmem, _, hres⟩ := hpool' e' he'
    exact ⟨hmem, fun h => hnew' (h ▸ hres), hres⟩
  · intro u hu
    rcases List.mem_cons.mp hu with rfl | hu
    · exact .inr (.inl (name_of_extendBase hs))
    · exact (hmem_or u hu).imp_right .inr

/-- A declaration is resolved to what it inherits, where all that is resolved is in the pool. -/
theorem resolve_ends {declared : List Declaration} (hnames : (declared.map Declaration.name).Nodup)
    {path : List String} {pool : List Declaration} {resolved : List Shape} {d : Declaration}
    (hres : Resolved declared resolved) (hd : d ∈ declared) (hpool : pool.Sublist declared)
    (hself : d ∉ pool)
    (hknown : ∀ e ∈ declared, e.name ≠ d.name → e.name ∈ resolved.map Shape.name → e ∈ pool) :
    Ends (Resolves declared path pool resolved d) (fun f => inherit declared path pool d = .error f)
      (resolve declared path pool resolved d) := by
  induction hn : pool.length using Nat.strongRecOn generalizing path pool resolved d with
  | ind _ ih =>
    cases hfound : resolved.find? fun s => s.name == d.name with
    | some s =>
      have hs := List.mem_of_find?_eq_some hfound
      obtain ⟨e, he, hname, pool', hpool', hi⟩ := hres s hs
      have hsd : s.name = d.name := by simpa using List.find?_some hfound
      obtain rfl := List.inj_on_of_nodup_map hnames he hd (hname.symm.trans hsd)
      rw [resolve, hfound]
      refine ⟨inherit_mono (fun _ => rfl) (fun name u hu => ?_) hi, hs, hres, fun _ => .inl,
        List.Subset.refl _⟩
      have hmem := List.mem_of_find?_eq_some hu
      obtain ⟨hu', hne, hr⟩ := hpool' u hmem
      exact (find?_eq_some_iff (hnames.sublist (hpool.map _))).mpr
        ⟨hknown u hu' hne hr, by simpa using List.find?_some hu⟩
    | none =>
      have hnew : d.name ∉ resolved.map Shape.name := by
        intro hmem
        obtain ⟨s, hs, hname⟩ := List.mem_map.mp hmem
        simpa [hname] using List.find?_eq_none.mp hfound s hs
      cases hb : d.base? with
      | none =>
        rw [resolve_root hfound hb, inherit_root hb]
        cases hs : extend declared d [] d.name [d.name] with
        | error f => rfl
        | ok s =>
          have hroot : inherit declared [] [] d = .ok s := by rw [inherit_root hb, hs]
          refine ⟨by rw [inherit_root hb, hs], List.mem_cons_self,
            hres.cons hd (name_of_extend hs) (by simp) hroot, fun u hu => ?_,
            List.subset_cons_self _ _⟩
          rcases List.mem_cons.mp hu with rfl | hu
          · exact .inr (.inl (name_of_extend hs))
          · exact .inl hu
      | some b =>
        cases hf : pool.find? fun e => e.name == b with
        | none =>
          rw [resolve_unknown hfound hb hf]
          exact inherit_unknown hb hf
        | some base =>
          have hbase := List.mem_of_find?_eq_some hf
          obtain rfl : base.name = b := by simpa using List.find?_some hf
          have hless := length_without_lt hf
          have hinner := @ih _ (hn ▸ hless) (path ++ [base.name]) _ _ _ hres (hpool.subset hbase)
            ((without_sublist Declaration.name pool base.name).trans hpool) (by simp [without])
            (fun e he hname hmem => List.mem_filter.mpr
              ⟨hknown e he (fun h => hnew (h ▸ hmem)) hmem, by simpa using hname⟩) rfl
          rw [resolve_derived hfound hb hf, inherit_derived hb hf]
          cases hx : resolve declared (path ++ [base.name])
              (without Declaration.name pool base.name) resolved base with
          | error f =>
            rw [hx] at hinner
            exact congrArg (· >>= extendBase declared d base) hinner
          | ok x =>
            rw [hx] at hinner
            rw [ok_bind, hinner.inherit_eq, ok_bind]
            cases hs : extendBase declared d base x.1 with
            | error f => rfl
            | ok s => exact hinner.derived hnames hd hpool.subset hself hnew hb hf hs

theorem resolveAll_eq {declared : List Declaration} (hnames : (declared.map Declaration.name).Nodup)
    {resolved : List Shape} (hres : Resolved declared resolved) {ds : List Declaration}
    (hds : ds ⊆ declared) : resolveAll declared resolved ds = ds.mapM (shapeOf declared) := by
  induction ds generalizing resolved with
  | nil => rfl
  | cons d ds ih =>
    rw [List.cons_subset] at hds
    have hd := @resolve_ends declared hnames [d.name] _ _ _ hres hds.1
      (without_sublist Declaration.name declared d.name) (by simp [without])
      (fun e he hname _ => List.mem_filter.mpr ⟨he, by simpa using hname⟩)
    rw [resolveAll, List.mapM_cons, shapeOf]
    cases hx : resolve declared [d.name] (without Declaration.name declared d.name) resolved d with
    | error f =>
      rw [hx] at hd
      rw [show inherit declared _ _ d = .error f from hd, error_bind, error_bind]
    | ok x =>
      rw [hx] at hd
      rw [hd.inherit_eq, ok_bind, ok_bind, ← ih hd.resolved_after hds.2]

/-- An implemented name is that of an interface. -/
def IsInterface (declared : List Declaration) (name : String) : Prop :=
  ∃ d, declared.find? (fun d => d.name == name) = some d ∧ d.isInterface = true

theorem implement_eq_ok {declared : List Declaration} {name : String}
    {interfaces ancestors all : List String}
    (h : implement declared name ancestors interfaces = .ok all) :
    (ancestors.Nodup → all.Nodup) ∧ ancestors.Sublist all ∧
      ∀ a ∈ all, a ∈ ancestors ∨ IsInterface declared a := by
  induction interfaces generalizing ancestors with
  | nil =>
    obtain rfl := Except.ok.inj h
    exact ⟨id, List.Sublist.refl _, fun a ha => .inl ha⟩
  | cons i is ih =>
    rw [implement] at h
    split at h
    · exact absurd h nofun
    · next d hd =>
      split at h
      · exact absurd h nofun
      · next hi =>
        have hdi : IsInterface declared i := ⟨d, hd, by simpa using hi⟩
        obtain ⟨hn, hs, hm⟩ := ih h
        by_cases hc : ancestors.contains i = true
        · rw [if_pos hc] at hn hs hm
          exact ⟨hn, hs, hm⟩
        · rw [if_neg hc] at hn hs hm
          refine ⟨fun ha => hn ?_, (List.sublist_append_left _ _).trans hs, fun a ha => ?_⟩
          · rw [List.nodup_append]
            refine ⟨ha, by simp, ?_⟩
            rintro a ha b hb rfl
            rw [List.mem_singleton.mp hb] at ha
            exact hc (by simpa using ha)
          · rcases hm a ha with hm | hm
            · rcases List.mem_append.mp hm with hm | hm
              · exact .inl hm
              · rw [List.mem_singleton.mp hm]
                exact .inr hdi
            · exact .inr hm

theorem exists_implement_iff {declared : List Declaration} {name : String}
    {interfaces ancestors : List String} :
    (∃ all, implement declared name ancestors interfaces = .ok all) ↔
      ∀ i ∈ interfaces, IsInterface declared i := by
  induction interfaces generalizing ancestors with
  | nil => simp [implement]
  | cons i is ih =>
    rw [List.forall_mem_cons, implement, IsInterface]
    cases hf : declared.find? fun d => d.name == i with
    | none => simp
    | some d =>
      dsimp only
      by_cases hi : d.isInterface = true
      · rw [if_neg (by simp [hi]), ih]
        simp [hi]
      · rw [if_pos (by simpa using hi)]
        simp [hi]

theorem Inherits.ancestors_mem {declared pool : List Declaration} {d : Declaration} {s : Shape}
    (h : Inherits declared pool d s) :
    ∀ a ∈ s.ancestors, a = d.name ∨ (∃ e ∈ pool, e.name = a) ∨ IsInterface declared a := by
  induction h with
  | root _ _ _ ha _ _ _ =>
    intro a hm
    rcases (implement_eq_ok ha).2.2 a hm with hm | hm
    · exact .inl (List.mem_singleton.mp hm)
    · exact .inr (.inr hm)
  | @derived pool d base s b _ hf _ _ _ _ _ ha _ _ _ ih =>
    intro a hm
    rcases (implement_eq_ok ha).2.2 a hm with hm | hm
    · rcases List.mem_cons.mp hm with rfl | hm
      · exact .inl rfl
      · rcases ih a hm with rfl | ⟨e, he, rfl⟩ | hm
        · exact .inr (.inl ⟨base, List.mem_of_find?_eq_some hf, rfl⟩)
        · exact .inr (.inl ⟨e, (without_sublist _ _ _).subset he, rfl⟩)
        · exact .inr (.inr hm)
    · exact .inr (.inr hm)

theorem Inherits.ancestors_nodup {declared pool : List Declaration} {d : Declaration} {s : Shape}
    (h : Inherits declared pool d s) (hd : ∀ e ∈ pool, e.name ≠ d.name)
    (hi : ∀ e, e.base?.isSome = true → (e = d ∨ e ∈ pool) → ¬IsInterface declared e.name) :
    s.ancestors.Nodup := by
  induction h with
  | root _ _ _ ha _ _ _ => exact (implement_eq_ok ha).1 (by simp)
  | @derived pool d base s b hb hf hbase _ _ _ _ ha _ _ _ ih =>
    have hmem : base ∈ pool := List.mem_of_find?_eq_some hf
    refine (implement_eq_ok ha).1 (List.nodup_cons.mpr ⟨?_, ih ?_ ?_⟩)
    · -- the name is off the pool, and a declaration with a base is no interface
      intro hm
      rcases hbase.ancestors_mem d.name hm with he | ⟨e, he, hn⟩ | hm
      · exact hd base hmem he.symm
      · exact hd e ((without_sublist _ _ _).subset he) hn
      · exact hi d (by rw [hb]; rfl) (.inl rfl) hm
    · intro e he
      simpa [without] using (List.mem_filter.mp he).2
    · rintro e hs (rfl | he)
      · exact hi e hs (.inr hmem)
      · exact hi e hs (.inr ((without_sublist _ _ _).subset he))

theorem checkDeclarations_eq_ok_iff {seen : List String} {ds : List Declaration} {u : Unit} :
    checkDeclarations seen ds = .ok u ↔
      (ds.map Declaration.name).Nodup ∧ (∀ d ∈ ds, d.name ∉ seen) ∧
        ∀ d ∈ ds, d.isInterface = true → d.members = [] ∧ d.keyword? = none ∧ d.base? = none := by
  induction ds generalizing seen with
  | nil => simp [checkDeclarations]
  | cons d ds ih =>
    rw [checkDeclarations]
    split
    · next hs =>
      simp only [reduceCtorEq, List.forall_mem_cons, false_iff]
      intro h
      exact h.2.1.1 (by simpa using hs)
    · next hs =>
      split
      · next hi =>
        simp only [reduceCtorEq, List.forall_mem_cons, false_iff]
        intro h
        simp only [Bool.and_eq_true] at hi
        obtain ⟨hm, hk, hb⟩ := h.2.2.1 hi.1
        simp [hm, hk, hb] at hi
      · next hi =>
        rw [ih]
        simp only [List.forall_mem_cons, List.map_cons, List.nodup_cons, List.mem_map]
        simp only [List.mem_cons, not_or, not_exists, not_and]
        constructor
        · rintro ⟨hn, hd, hall⟩
          refine ⟨⟨fun e he => (hd e he).1, hn⟩,
            ⟨by simpa using hs, fun e he => (hd e he).2⟩, ?_, hall⟩
          intro h
          simpa [h, and_assoc] using hi
        · rintro ⟨⟨hne, hn⟩, ⟨_, hd⟩, _, hall⟩
          exact ⟨hn, fun e he => ⟨hne e he, hd e he⟩, hall⟩

theorem checkMembers_cons_eq_ok_iff {owner : String} {seen : List String} {m : Member}
    {ms : List Member} {u : Unit} : checkMembers owner seen (m :: ms) = .ok u ↔
      m.name ∉ seen ∧ (m.isParent = true → seen = []) ∧
        checkMembers owner (m.name :: seen) ms = .ok u := by
  rw [checkMembers]
  split
  · next hs =>
    simp only [reduceCtorEq, false_iff]
    intro h
    exact h.1 (by simpa using hs)
  · next hs =>
    split
    · next hp =>
      simp only [reduceCtorEq, false_iff]
      intro h
      simp only [Bool.and_eq_true] at hp
      simp [h.2.1 hp.1] at hp
    · next hp =>
      have hs' : m.name ∉ seen := by simpa using hs
      have hp' : m.isParent = true → seen = [] := by simpa using hp
      exact ⟨fun h => ⟨hs', hp', h⟩, fun h => h.2.2⟩

/-- Members behind the first one have new names, and none of them is a parent. -/
theorem checkMembers_behind_eq_ok_iff {owner : String} {seen : List String} (hseen : seen ≠ [])
    {ms : List Member} {u : Unit} : checkMembers owner seen ms = .ok u ↔
      (ms.map Member.name).Nodup ∧ (∀ m ∈ ms, m.name ∉ seen) ∧ ∀ m ∈ ms, m.isParent = false := by
  induction ms generalizing seen with
  | nil => simp [checkMembers]
  | cons m ms ih =>
    rw [checkMembers_cons_eq_ok_iff, ih (by simp)]
    simp only [List.map_cons, List.nodup_cons, List.mem_map, List.mem_cons, not_or, not_exists,
      not_and, hseen, imp_false, Bool.not_eq_true]
    grind

theorem checkMembers_eq_ok_iff {owner : String} {ms : List Member} {u : Unit} :
    checkMembers owner [] ms = .ok u ↔
      (ms.map Member.name).Nodup ∧ ∀ m ∈ ms.tail, m.isParent = false := by
  cases ms with
  | nil => simp [checkMembers]
  | cons m ms =>
    rw [checkMembers_cons_eq_ok_iff, checkMembers_behind_eq_ok_iff (by simp)]
    simp only [List.not_mem_nil, not_false_eq_true, implies_true, true_and, List.mem_singleton,
      List.map_cons, List.nodup_cons, List.mem_map, not_exists, not_and, List.tail_cons]
    grind

theorem Inherits.members_checked {declared pool : List Declaration} {d : Declaration} {s : Shape}
    (h : Inherits declared pool d s) : checkMembers d.name [] s.members = .ok () := by
  cases h with
  | root _ _ _ _ _ _ hc => exact hc
  | derived _ _ _ _ _ _ _ _ _ _ hc => exact hc

theorem shapesOf_eq_ok {declared : List Declaration} {shapes : List Shape} :
    shapesOf declared = .ok shapes ↔ checkDeclarations [] declared = .ok () ∧
      List.Forall₂ (fun d s => shapeOf declared d = .ok s) declared shapes ∧
      checkTargets shapes (shapes.flatMap fun s => s.members.map fun m => (s, m)) = .ok () := by
  have hall (hd : checkDeclarations [] declared = .ok ()) :
      resolveAll declared [] declared = .ok shapes ↔
        List.Forall₂ (fun d s => shapeOf declared d = .ok s) declared shapes := by
    rw [resolveAll_eq (checkDeclarations_eq_ok_iff.mp hd).1 (by simp [Resolved])
      (List.Subset.refl _), mapM_eq_ok]
  constructor
  · intro h
    obtain ⟨_, hd, h⟩ := bind_eq_ok.mp h
    obtain ⟨shapes', hs, h⟩ := bind_eq_ok.mp h
    obtain ⟨_, ht, h⟩ := bind_eq_ok.mp h
    obtain rfl := pure_eq_ok.mp h
    exact ⟨hd, (hall hd).mp hs, ht⟩
  · rintro ⟨hd, hs, ht⟩
    exact bind_eq_ok.mpr ⟨(), hd, bind_eq_ok.mpr ⟨shapes, (hall hd).mpr hs,
      bind_eq_ok.mpr ⟨(), ht, rfl⟩⟩⟩

theorem buildWith_eq_ok {ε : Type} {addition : Addition ε} {declared : List Declaration}
    {r : Registry} : buildWith addition declared = .ok r ↔ ∃ shapes known,
      shapesOf declared = .ok shapes ∧ aritiesOf addition shapes = .ok known ∧
        r = ⟨shapes.map (complete shapes known)⟩ := by
  constructor
  · intro h
    obtain ⟨shapes, hs, h⟩ := bind_eq_ok.mp h
    obtain ⟨known, hk, h⟩ := bind_eq_ok.mp h
    exact ⟨shapes, known, mapError_eq_ok.mp hs, hk, (pure_eq_ok.mp h).symm⟩
  · rintro ⟨shapes, known, hs, hk, rfl⟩
    exact bind_eq_ok.mpr ⟨shapes, mapError_eq_ok.mpr hs, bind_eq_ok.mpr ⟨known, hk, rfl⟩⟩

/-- What the types of a registry are made of. -/
theorem build_eq_ok {declared : List Declaration} {r : Registry} (h : build declared = .ok r) :
    ∃ shapes known, checkDeclarations [] declared = .ok () ∧
      List.Forall₂ (fun d s => shapeOf declared d = .ok s) declared shapes ∧
      checkTargets shapes (shapes.flatMap fun s => s.members.map fun m => (s, m)) = .ok () ∧
      aritiesOf .wrapping shapes = .ok known ∧ r.types = shapes.map (complete shapes known) := by
  obtain ⟨shapes, known, hs, hk, rfl⟩ := buildWith_eq_ok.mp h
  obtain ⟨hd, hs, ht⟩ := shapesOf_eq_ok.mp hs
  exact ⟨shapes, known, hd, hs, ht, hk, rfl⟩

theorem inherits_of_mem_types {declared : List Declaration} {r : Registry}
    (h : build declared = .ok r) {t : ConceptType} (ht : t ∈ r.types) :
    ∃ d ∈ declared, Inherits declared (without Declaration.name declared d.name) d t.toShape := by
  obtain ⟨shapes, known, _, hs, _, _, hr⟩ := build_eq_ok h
  rw [hr] at ht
  obtain ⟨s, hm, rfl⟩ := List.mem_map.mp ht
  obtain ⟨d, hd, hds⟩ := exists_of_forall₂_right hs hm
  exact ⟨d, hd, inherits_of_inherit hds⟩

theorem names_of_build {declared : List Declaration} {r : Registry} (h : build declared = .ok r) :
    r.types.map (fun t => t.name) = declared.map Declaration.name := by
  obtain ⟨shapes, known, _, hs, _, _, hr⟩ := build_eq_ok h
  rw [hr, List.map_map]
  refine (map_eq_map_of_forall₂ hs ?_).symm
  intro d s hds
  exact (inherits_of_inherit hds).name_eq.symm

theorem names_nodup_of_build {declared : List Declaration} {r : Registry}
    (h : build declared = .ok r) : (r.types.map fun t => t.name).Nodup := by
  obtain ⟨_, _, hd, _⟩ := build_eq_ok h
  rw [names_of_build h]
  exact (checkDeclarations_eq_ok_iff.mp hd).1

theorem eq_of_name_eq {declared : List Declaration} {r : Registry} (h : build declared = .ok r)
    {t u : ConceptType} (ht : t ∈ r.types) (hu : u ∈ r.types) (hn : t.name = u.name) : t = u :=
  List.inj_on_of_nodup_map (names_nodup_of_build h) ht hu hn

theorem ancestors_nodup_of_build {declared : List Declaration} {r : Registry}
    (h : build declared = .ok r) {t : ConceptType} (ht : t ∈ r.types) : t.ancestors.Nodup := by
  obtain ⟨d, hd, hi⟩ := inherits_of_mem_types h ht
  obtain ⟨_, _, hc, _⟩ := build_eq_ok h
  obtain ⟨hnames, _, hbare⟩ := checkDeclarations_eq_ok_iff.mp hc
  apply hi.ancestors_nodup
  · intro e he
    simpa [without] using (List.mem_filter.mp he).2
  · rintro e hb hmem ⟨e', hf, hi'⟩
    have he : e ∈ declared := by
      rcases hmem with rfl | hmem
      · exact hd
      · exact (without_sublist _ _ _).subset hmem
    have hn : e'.name = e.name := by simpa using List.find?_some hf
    obtain rfl := List.inj_on_of_nodup_map hnames (List.mem_of_find?_eq_some hf) he hn
    simp [(hbare e' he hi').2.2] at hb

end ConceptScript.Registry
