import Mathlib
import SignalGraph.Graph.Arena
import SignalGraph.Id

/-!
# Sets of ids and arenas

Sets of ids are lists that ascend (`Ascends`), and two of them with the same members are the same
list (`Ascends.ext`). `insert`, `union` and `ofList` keep lists ascending and have the members one
expects. What an arena lists is what is at its places, each place once.
-/

namespace SignalGraph

variable {part : Part}

/-- Each id is lower than all after it. -/
def Ascends (l : List (Id part)) : Prop :=
  l.Pairwise fun a b => a.index < b.index

namespace Ascends

theorem nodup {l : List (Id part)} (h : Ascends l) : l.Nodup :=
  h.imp fun hlt he => by simp [he] at hlt

theorem filter {l : List (Id part)} (h : Ascends l) (p : Id part → Bool) : Ascends (l.filter p) :=
  List.Pairwise.filter p h

/-- Ascending lists with the same members are equal. -/
theorem ext {l m : List (Id part)} (hl : Ascends l) (hm : Ascends m)
    (h : ∀ a, a ∈ l ↔ a ∈ m) : l = m := by
  have hp : l.Perm m := (List.perm_ext_iff_of_nodup hl.nodup hm.nodup).2 h
  refine hp.eq_of_pairwise (fun a b _ _ hab hba => ?_) hl hm
  exact absurd hab (Nat.lt_asymm hba)

end Ascends

namespace Ascending

theorem ascends_insert {a : Id part} {s : List (Id part)} (h : Ascends s) :
    Ascends (insert a s) := by
  induction s with
  | nil => simp [insert, Ascends]
  | cons b rest ih =>
    obtain ⟨hb, hr⟩ := List.pairwise_cons.1 h
    simp only [insert]
    split
    · rename_i hab
      refine List.pairwise_cons.2 ⟨fun x hx => ?_, h⟩
      rcases List.mem_cons.1 hx with rfl | hx
      · exact hab
      · exact Nat.lt_trans hab (hb x hx)
    · split
      · exact h
      · rename_i hab hne
        refine List.pairwise_cons.2 ⟨fun x hx => ?_, ih hr⟩
        rcases mem_insert.1 hx with rfl | hx
        · omega
        · exact hb x hx

theorem mem_union {x : Id part} {s l : List (Id part)} : x ∈ union s l ↔ x ∈ s ∨ x ∈ l := by
  induction l with
  | nil => simp [union]
  | cons a l ih =>
    have he : union s (a :: l) = insert a (union s l) := rfl
    rw [he, mem_insert, ih, List.mem_cons]
    exact or_left_comm

theorem ascends_union {s l : List (Id part)} (h : Ascends s) : Ascends (union s l) := by
  induction l with
  | nil => exact h
  | cons a l ih => exact ascends_insert ih

@[simp] theorem mem_ofList {x : Id part} {l : List (Id part)} : x ∈ ofList l ↔ x ∈ l := by
  simp [ofList, mem_union]

end Ascending

namespace Arena

variable {α : Type}

theorem get?_modify {a : Arena α} {f : α → α} {k j : Nat} :
    (a.modify j f).get? k = if k = j then (a.get? j).map f else a.get? k := by
  unfold modify
  split
  · rename_i x hx
    rw [get?_set (lt_size_of_get? hx), hx]
    rfl
  · rename_i hx
    split
    · rename_i hk
      rw [hk, hx]
      rfl
    · rfl

@[simp] theorem size_modify {a : Arena α} {f : α → α} {k : Nat} :
    (a.modify k f).size = a.size := by
  unfold modify
  split
  · exact size_set
  · rfl

/-- Arenas with as many places and the same at each are equal. -/
theorem ext_get? {a b : Arena α} (hs : a.size = b.size) (h : ∀ k, a.get? k = b.get? k) : a = b := by
  obtain ⟨a⟩ := a
  obtain ⟨b⟩ := b
  refine congrArg mk (Array.ext hs fun k hk hk' => ?_)
  simpa [get?, hk, hk'] using h k

theorem get?_eq_none {a : Arena α} {k : Nat} (h : a.size ≤ k) : a.get? k = none := by
  cases hk : a.get? k with
  | none => rfl
  | some x => exact absurd (lt_size_of_get? hk) (Nat.not_lt.2 h)

end Arena

end SignalGraph
