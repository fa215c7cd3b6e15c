import Mathlib.Data.List.Basic

/-!
# Bounded lists that drop their oldest element

The abstract bounded queue: an addition to a full list makes room by giving up the head, and a
change of the bound keeps the newest elements that fit. The laws are about the lengths and the
places of the elements, which is what an implementation by a ring has to reproduce.
-/

namespace DropOldest

variable {α : Type*}

/-- Adds `x` to a list bounded by `c`: the head goes if the list is full. A bound of zero keeps
nothing, so the addition has no effect. -/
def push (c : Nat) (l : List α) (x : α) : List α :=
  if c = 0 then l else if l.length < c then l ++ [x] else l.drop 1 ++ [x]

/-- The newest elements that a bound `c` has room for. -/
def keep (c : Nat) (l : List α) : List α := l.drop (l.length - c)

theorem push_zero (l : List α) (x : α) : push 0 l x = l := if_pos rfl

theorem push_of_lt {c : Nat} {l : List α} (h : l.length < c) (x : α) : push c l x = l ++ [x] := by
  rw [push, if_neg (by omega), if_pos h]

theorem push_of_full {c : Nat} {l : List α} (hc : c ≠ 0) (h : ¬l.length < c) (x : α) :
    push c l x = l.drop 1 ++ [x] := by
  rw [push, if_neg hc, if_neg h]

theorem length_keep (c : Nat) (l : List α) : (keep c l).length = min l.length c := by
  rw [keep, List.length_drop]
  omega

/-- A list within the bound is kept whole. -/
theorem keep_of_le {c : Nat} {l : List α} (h : l.length ≤ c) : keep c l = l := by
  rw [keep, Nat.sub_eq_zero_of_le h, List.drop_zero]

/-- Nothing is kept of an empty list. -/
theorem keep_nil (c : Nat) : keep c ([] : List α) = [] := List.drop_nil

end DropOldest
