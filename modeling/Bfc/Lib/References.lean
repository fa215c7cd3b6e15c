import Mathlib.Data.List.Basic

/-!
# Counting references

A table of slots, some of which are in use and refer to an object: `holders` is how many refer to
a given one. Its laws are about the two changes a table sees, a new slot and a slot that is
rewritten, in the form a reference count needs them: what the slot refers to before and after.
-/

namespace References

variable {α ι : Type*} [DecidableEq ι]

/-- What a slot refers to, if it is in use and refers to something. -/
def target (refers : α → Option ι) (slot : Option α) : Option ι := slot.bind refers

/-- How many slots refer to the object. -/
def holders (refers : α → Option ι) (slots : List (Option α)) (id : ι) : Nat :=
  slots.countP fun slot => target refers slot = some id

/-- A reference, counted: one if it is to the object. -/
def refersTo (reference : Option ι) (id : ι) : Nat := if reference = some id then 1 else 0

/-- A local variable's reference, counted in a list of references. -/
theorem count_toList (reference : Option ι) (id : ι) :
    reference.toList.count id = refersTo reference id := by
  cases reference with
  | none => rfl
  | some id' =>
    rw [Option.toList_some, List.count_singleton]
    simp only [beq_iff_eq, refersTo, Option.some.injEq]

omit [DecidableEq ι] in
@[simp] theorem target_some (refers : α → Option ι) (a : α) :
    target refers (some a) = refers a := rfl

variable {refers : α → Option ι} {slots : List (Option α)}

/-- A new slot adds its reference. -/
theorem holders_append (slot : Option α) (id : ι) :
    holders refers (slots ++ [slot]) id =
      holders refers slots id + refersTo (target refers slot) id := by
  simp only [holders, List.countP_append, List.countP_singleton, decide_eq_true_eq, refersTo]

/-- Rewriting a slot exchanges its reference. -/
theorem holders_set (refers : α → Option ι) {slots : List (Option α)} {i : Nat} {old : Option α}
    (h : slots[i]? = some old) (slot : Option α) (id : ι) :
    holders refers (slots.set i slot) id + refersTo (target refers old) id =
      holders refers slots id + refersTo (target refers slot) id := by
  obtain ⟨hi, rfl⟩ := List.getElem?_eq_some_iff.mp h
  have counted : refersTo (target refers slots[i]) id ≤ holders refers slots id := by
    unfold refersTo
    split
    · rename_i refersHere
      exact List.countP_pos_iff.mpr ⟨_, List.getElem_mem hi, by simpa using refersHere⟩
    · exact Nat.zero_le _
  have set :=
    List.countP_set (p := fun slot => decide (target refers slot = some id)) (a := slot) hi
  simp only [decide_eq_true_eq] at set
  unfold holders refersTo at *
  rw [set]
  omega

/-- A slot that refers to an object is one of its holders. -/
theorem holders_pos {i : Nat} {a : α} {id : ι} (h : slots[i]? = some (some a))
    (ha : refers a = some id) : 0 < holders refers slots id :=
  List.countP_pos_iff.mpr ⟨some a, List.mem_of_getElem? h, decide_eq_true ha⟩

end References
