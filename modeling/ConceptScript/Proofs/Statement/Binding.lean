import ConceptScript.Proofs.Node.Keyed
import ConceptScript.Proofs.Statement.Extent

namespace ConceptScript

open PropertyList (Cache)

namespace Node

/-- The member is set, to a value that it accepts. -/
def Bound (m : Member) (v : Option Value) : Prop :=
  ∃ value, v = some value ∧ m.kind.accepts value = true

def Complete (n : Node) : Prop := List.Forall₂ Bound n.type.members n.slots

theorem setAt_eq_ok {n n' : Node} {i : Nat} {m : Member} {value : Value} :
    n.setAt i m value = .ok n' ↔
      m.kind.accepts value = true ∧ mk n.type (n.slots.set i (some value)) = n' := by
  unfold setAt
  split <;> simp_all

theorem slotParts_key_only (ms : List Member) (vs : List (Option Value)) :
    slotParts ms ((ms.zip vs).map fun (m, v) => if m.isKey then v else none) = slotParts ms vs := by
  induction ms generalizing vs with
  | nil => simp [slotParts]
  | cons m ms ih =>
    cases vs with
    | nil => simp [slotParts]
    | cons v vs =>
      rw [List.zip_cons_cons, List.map_cons]
      cases hk : m.isKey with
      | true => simp [slotParts_cons hk, hk, ih]
      | false => simp [slotParts_cons_of_not_key hk, ih]

/-- A placeholder stands for its concept: it has the same key. -/
theorem key_placeholder (n : Node) : n.placeholder.key = n.key := by
  rw [key, key, keyParts_eq n, keyParts_eq]
  exact congrArg (label n.type.root) (slotParts_key_only n.type.members n.slots)

end Node

namespace Reader

variable {r : Reader} {cache cache' : Cache}

theorem bound_of_bind {t : ConceptType} {filled todo : List (Option Value)} {ms : List Member}
    {c c' : Cursor} {node : Node} (hlen : todo.length = ms.length)
    (h : Runs (r.bind (.mk t (filled ++ todo)) c (ms.zipIdx filled.length)) cache (node, c') cache') :
    ∃ vs, node = .mk t (filled ++ vs) ∧ List.Forall₂ Node.Bound ms vs := by
  induction ms generalizing filled todo c cache with
  | nil =>
    obtain rfl := List.length_eq_zero_iff.mp hlen
    simp only [List.zipIdx_nil, bind, runs_pure, Prod.mk.injEq] at h
    exact ⟨[], h.1.1.symm, .nil⟩
  | cons m ms ih =>
    cases todo with
    | nil => simp at hlen
    | cons v todo =>
      rw [List.zipIdx_cons] at h
      obtain ⟨value, d, first, _, next, hset, hrest⟩ := runs_bind_cons.mp h
      obtain ⟨haccepts, rfl⟩ := Node.setAt_eq_ok.mp hset
      -- The index of the member is that of the first slot to do.
      have hslots : (filled ++ v :: todo).set filled.length (some value) =
          (filled ++ [some value]) ++ todo := by simp
      have hfilled : filled.length + 1 = (filled ++ [some value]).length := by simp
      rw [Node.type, Node.slots, hslots, hfilled] at hrest
      obtain ⟨vs, rfl, hvs⟩ := ih (Nat.succ.inj hlen) hrest
      exact ⟨some value :: vs, by simp, .cons ⟨value, rfl, haccepts⟩ hvs⟩

/-- What nesting asks of the type: its first member refers to concepts like the one around. -/
theorem runs_nest {t : ConceptType} (ht : r.type = t) {outer node : Node}
    (h : Runs (r.nest (.ofType t) outer) cache node cache') :
    ∃ parent ms target, t.members = parent :: ms ∧ t.parent? = some parent ∧
      parent.kind = .reference target ∧ outer.type.satisfies target = true ∧
      Node.Bound parent (some (.referenceTo outer)) ∧
      node = .mk t (some (.referenceTo outer) :: ms.map fun _ => none) := by
  subst ht
  unfold nest at h
  split at h
  · simp at h
  · next parent hparent =>
    split at h
    · next target hkind =>
      split at h
      · next hsat =>
        simp only [runs_lift, mapError_eq_ok] at h
        obtain ⟨haccepts, rfl⟩ := Node.setAt_eq_ok.mp h.1
        -- The parent is the first member, so the slot that was set is its own.
        have hhead := hparent
        unfold Shape.parent? at hhead
        cases hms : r.type.members with
        | nil => simp [hms] at hhead
        | cons first ms =>
          obtain rfl : first = parent := by
            simp only [hms, List.head?_cons, Option.filter_eq_some_iff] at hhead
            exact Option.some.inj hhead.1
          refine ⟨first, ms, target, rfl, hparent, hkind, hsat, ⟨_, rfl, haccepts⟩, ?_⟩
          simp [Node.ofType, Node.slots, Node.type, hms]
      · simp at h
    · simp at h

/-- The slots that are filled before the tokens are read. -/
def given (context : Option Node) : List (Option Value) :=
  context.toList.map fun outer => some (.referenceTo outer)

theorem bound_of_started {context : Option Node} {start : Node} {members : List (Member × Nat)}
    (h : Runs (r.started context) cache (start, members) cache') :
    ∃ done ms todo, r.type.members = done ++ ms ∧ List.Forall₂ Node.Bound done (given context) ∧
      start = .mk r.type (given context ++ todo) ∧ todo.length = ms.length ∧
      members = ms.zipIdx (given context).length := by
  cases context with
  | none =>
    simp only [started, runs_pure, Prod.mk.injEq] at h
    obtain ⟨⟨rfl, rfl⟩, _⟩ := h
    exact ⟨[], r.type.members, r.type.members.map fun _ => none, rfl, .nil, rfl, by simp, rfl⟩
  | some outer =>
    simp only [started, runs_bind, runs_pure, Prod.mk.injEq] at h
    obtain ⟨node, first, hnest, ⟨rfl, rfl⟩, rfl⟩ := h
    obtain ⟨parent, ms, target, hms, _, _, _, hbound, rfl⟩ := runs_nest rfl hnest
    exact ⟨[parent], ms, ms.map fun _ => none, hms, .cons hbound .nil, rfl, by simp,
      by rw [hms]; rfl⟩

/-- A reading leaves no member unset. -/
theorem read_complete {context : Option Node} {tokens : List Lexeme} {reading : Reading}
    (h : Runs (r.read context tokens) cache reading cache') :
    reading.node.type = r.type ∧ given context <+: reading.node.slots ∧
      reading.node.Complete := by
  obtain ⟨w, span, rest, rfl, _, start, members, first, hstart, node, c, hbind, _, rfl⟩ :=
    runs_read.mp h
  obtain ⟨done, ms, todo, hms, hdone, rfl, hlen, rfl⟩ := bound_of_started hstart
  obtain ⟨vs, rfl, hvs⟩ := bound_of_bind hlen hbind
  refine ⟨rfl, List.prefix_append _ _, ?_⟩
  change List.Forall₂ Node.Bound r.type.members (given context ++ vs)
  rw [hms]
  exact List.rel_append hdone hvs

theorem read_nested {outer : Node} {tokens : List Lexeme} {reading : Reading}
    (h : Runs (r.read (some outer) tokens) cache reading cache') :
    ∃ parent target, reading.node.type.parent? = some parent ∧ parent.kind = .reference target ∧
      outer.type.satisfies target = true ∧ reading.node.parent? = some outer.placeholder := by
  obtain ⟨htype, hgiven, _⟩ := read_complete h
  obtain ⟨w, span, rest, rfl, _, start, members, first, hstart, _⟩ := runs_read.mp h
  simp only [started, runs_bind] at hstart
  obtain ⟨node, first, hnest, _⟩ := hstart
  obtain ⟨parent, _, target, _, hparent, hkind, hsat, _⟩ := runs_nest rfl hnest
  rw [← htype] at hparent
  refine ⟨parent, target, hparent, hkind, hsat, ?_⟩
  obtain ⟨more, hmore⟩ := hgiven
  simp [Node.parent?, hparent, ← hmore, given, Value.referenceTo]

end Reader

end ConceptScript
