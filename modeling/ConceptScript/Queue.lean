namespace ConceptScript

/-- First in, first out; the newest item is at the head of the back. -/
structure Queue (α : Type) where
  front : List α := []
  back : List α := []

namespace Queue

variable {α : Type}

def ofList (items : List α) : Queue α := ⟨items, []⟩

def toList (q : Queue α) : List α := q.front ++ q.back.reverse

def isEmpty (q : Queue α) : Bool := q.front.isEmpty && q.back.isEmpty

def push (q : Queue α) (a : α) : Queue α := ⟨q.front, a :: q.back⟩

def pushAll (q : Queue α) (items : List α) : Queue α := items.foldl push q

def pop? (q : Queue α) : Option (α × Queue α) :=
  match q.front with
  | a :: front => some (a, ⟨front, q.back⟩)
  | [] =>
    match q.back.reverse with
    | [] => none
    | a :: front => some (a, ⟨front, []⟩)

@[simp] theorem toList_ofList (items : List α) : (ofList items).toList = items := by
  simp [ofList, toList]

@[simp] theorem toList_push (q : Queue α) (a : α) : (q.push a).toList = q.toList ++ [a] := by
  simp [push, toList]

@[simp] theorem toList_pushAll (q : Queue α) (items : List α) :
    (q.pushAll items).toList = q.toList ++ items := by
  induction items generalizing q with
  | nil => simp [pushAll]
  | cons a items ih => simpa [pushAll] using ih (q.push a)

theorem toList_of_pop?_eq_none {q : Queue α} (h : q.pop? = none) : q.toList = [] := by
  unfold pop? at h
  split at h
  · simp at h
  · split at h <;> simp_all [toList]

theorem toList_of_pop?_eq_some {q r : Queue α} {a : α} (h : q.pop? = some (a, r)) :
    q.toList = a :: r.toList := by
  unfold pop? at h
  split at h
  · next hf =>
    obtain ⟨rfl, rfl⟩ := Prod.mk.inj (Option.some.inj h)
    simp [toList, hf]
  · next hf =>
    split at h
    · simp at h
    · next hb =>
      obtain ⟨rfl, rfl⟩ := Prod.mk.inj (Option.some.inj h)
      simp [toList, hf, hb]

end Queue

end ConceptScript
