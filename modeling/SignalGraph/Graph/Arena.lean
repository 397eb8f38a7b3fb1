/-!
# Arenas

Numbered places that are filled in order. A place that was cleared stays empty for good, so a
number stands for one thing only.
-/

namespace SignalGraph

structure Arena (α : Type) where
  slots : Array (Option α) := #[]

namespace Arena

variable {α : Type}

/-- How many places were ever filled. -/
def size (a : Arena α) : Nat :=
  a.slots.size

def get? (a : Arena α) (k : Nat) : Option α :=
  a.slots[k]?.join

/-- Fills the next place. -/
def push (a : Arena α) (x : α) : Arena α :=
  ⟨a.slots.push (some x)⟩

/-- Replaces what is at a place that was filled. -/
def set (a : Arena α) (k : Nat) (x : α) : Arena α :=
  ⟨a.slots.setIfInBounds k (some x)⟩

/-- Clears a place. -/
def erase (a : Arena α) (k : Nat) : Arena α :=
  ⟨a.slots.setIfInBounds k none⟩

/-- Changes what is at a place, if anything is. -/
def modify (a : Arena α) (k : Nat) (f : α → α) : Arena α :=
  match a.get? k with
  | some x => a.set k (f x)
  | none => a

/-- Everything in the arena, by number. -/
def toList (a : Arena α) : List α :=
  a.slots.toList.filterMap id

theorem get?_push {a : Arena α} {x : α} {k : Nat} :
    (a.push x).get? k = if k = a.size then some x else a.get? k := by
  by_cases h : k = a.slots.size
  · simp [get?, push, size, h]
  · simp [get?, push, size, Array.getElem?_push, h]

theorem get?_erase {a : Arena α} {k j : Nat} :
    (a.erase j).get? k = if k = j then none else a.get? k := by
  by_cases h : k = j
  · subst h
    by_cases hk : k < a.slots.size <;> simp [get?, erase, hk]
  · simp [get?, erase, h, Ne.symm h]

theorem get?_set {a : Arena α} {x : α} {k j : Nat} (h : j < a.size) :
    (a.set j x).get? k = if k = j then some x else a.get? k := by
  by_cases hk : k = j
  · subst hk
    simp [get?, set, show k < a.slots.size from h]
  · simp [get?, set, hk, Ne.symm hk]

theorem lt_size_of_get? {a : Arena α} {k : Nat} {x : α} (h : a.get? k = some x) : k < a.size := by
  by_cases hk : k < a.slots.size
  · exact hk
  · simp [get?, Array.getElem?_eq_none (Nat.le_of_not_lt hk)] at h

@[simp] theorem size_push {a : Arena α} {x : α} : (a.push x).size = a.size + 1 := by
  simp [size, push]

@[simp] theorem size_set {a : Arena α} {x : α} {k : Nat} : (a.set k x).size = a.size := by
  simp [size, set]

@[simp] theorem size_erase {a : Arena α} {k : Nat} : (a.erase k).size = a.size := by
  simp [size, erase]

theorem mem_toList {a : Arena α} {x : α} : x ∈ a.toList ↔ ∃ k, a.get? k = some x := by
  simp only [toList, List.mem_filterMap, id, exists_eq_right, Array.mem_toList_iff,
    Array.mem_iff_getElem?, get?]
  constructor
  · rintro ⟨k, hk⟩
    exact ⟨k, by simp [hk]⟩
  · rintro ⟨k, hk⟩
    exact ⟨k, by simpa [Option.join_eq_some_iff] using hk⟩

end Arena

end SignalGraph
