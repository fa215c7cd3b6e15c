import Mathlib.Data.List.Basic

/-!
# Tables

A table is a list that is read by place. A step of a program rewrites an entry of it or adds one,
and these are the rules for what a place has then: an entry that was read before is still there, or
one in its place that is related to it, and an entry that is read afterwards is the new one or was
there before.
-/

namespace Tables

variable {α : Type*} {table : List α} {i j : Nat} {a b c : α}

theorem set_here (h : table[i]? = some a) (b : α) : (table.set i b)[i]? = some b :=
  List.getElem?_set_self (List.getElem?_eq_some_iff.mp h).1

/-- What is in a table with a rewritten entry. -/
theorem set_cases (hi : table[i]? = some a) (h : (table.set i b)[j]? = some c) :
    j = i ∧ c = b ∨ j ≠ i ∧ table[j]? = some c := by
  by_cases same : j = i
  · subst same
    rw [set_here hi] at h
    exact .inl ⟨rfl, (Option.some.inj h).symm⟩
  · rw [List.getElem?_set_ne (Ne.symm same)] at h
    exact .inr ⟨same, h⟩

/-- What becomes of an entry: at the rewritten place, only what the new one has in common with the
old one is kept. -/
theorem set_kept {R : α → Prop} (hi : table[i]? = some a) (h : table[j]? = some c) (old : R c)
    (new : j = i → a = c → R b) : ∃ d, (table.set i b)[j]? = some d ∧ R d := by
  by_cases same : j = i
  · subst same
    exact ⟨b, set_here hi b, new rfl (Option.some.inj (hi.symm.trans h))⟩
  · exact ⟨c, by rw [List.getElem?_set_ne (Ne.symm same), h], old⟩

theorem append_kept (h : table[i]? = some a) (more : List α) : (table ++ more)[i]? = some a := by
  rw [List.getElem?_append_left (List.getElem?_eq_some_iff.mp h).1, h]

/-- What is in a table with an entry more. -/
theorem append_cases (h : (table ++ [b])[j]? = some c) :
    j = table.length ∧ c = b ∨ j ≠ table.length ∧ table[j]? = some c := by
  rcases Nat.lt_or_ge j table.length with old | new
  · exact .inr ⟨Nat.ne_of_lt old, (List.getElem?_append_left old).symm.trans h⟩
  · rw [List.getElem?_append_right new, List.getElem?_singleton] at h
    obtain ⟨last, h⟩ := Option.ite_none_right_eq_some.mp h
    exact .inl ⟨Nat.le_antisymm (Nat.le_of_sub_eq_zero last) new, (Option.some.inj h).symm⟩

end Tables
