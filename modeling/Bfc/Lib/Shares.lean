import Mathlib.Data.List.Basic
import Mathlib.Data.List.Perm.Basic

/-!
# What the entries of a table hold

Each entry of a table holds a list of things, its share, and the table holds them all. When an
entry is rewritten, the whole gains what the new share has and loses what the old one had; that is
an equation of counts, for each thing, and says at once that nothing moves but between the two.
-/

namespace Shares

variable {α β : Type*}

/-- What the entries hold together. -/
def whole (share : α → List β) (table : List α) : List β := table.flatMap share

variable {share : α → List β} {table : List α}

theorem whole_append (more : List α) :
    whole share (table ++ more) = whole share table ++ whole share more :=
  List.flatMap_append

theorem whole_singleton (a : α) : whole share [a] = share a := List.flatMap_singleton share a

/-- A thing is held by some entry. -/
theorem mem_whole {x : β} :
    x ∈ whole share table ↔ ∃ (i : Nat) (a : α), table[i]? = some a ∧ x ∈ share a := by
  constructor
  · intro h
    obtain ⟨a, mem, held⟩ := List.mem_flatMap.mp h
    obtain ⟨i, hi⟩ := List.getElem?_of_mem mem
    exact ⟨i, a, hi, held⟩
  · rintro ⟨i, a, hi, held⟩
    exact List.mem_flatMap.mpr ⟨a, List.mem_of_getElem? hi, held⟩

variable (share) in
/-- The law of a rewritten entry, for what the table holds as a whole. -/
theorem set_perm {i : Nat} {a : α} (h : table[i]? = some a) (b : α) :
    (whole share (table.set i b) ++ share a).Perm (whole share table ++ share b) := by
  unfold whole
  induction table generalizing i with
  | nil => cases h
  | cons c rest ih =>
    cases i with
    | zero =>
      obtain rfl := Option.some.inj h
      rw [List.set_cons_zero, List.flatMap_cons, List.flatMap_cons]
      exact (List.perm_append_comm.trans
        (List.Perm.append_left _ List.perm_append_comm)).trans (by rw [← List.append_assoc])
    | succ i =>
      rw [List.getElem?_cons_succ] at h
      rw [List.set_cons_succ, List.flatMap_cons, List.flatMap_cons, List.append_assoc,
        List.append_assoc]
      exact (ih h).append_left _

variable [BEq β]

/-- **The law of a rewritten entry.** -/
theorem count_set {i : Nat} {a : α} (h : table[i]? = some a) (b : α) (x : β) :
    (whole share (table.set i b)).count x + (share a).count x =
      (whole share table).count x + (share b).count x := by
  unfold whole
  induction table generalizing i with
  | nil => cases h
  | cons c rest ih =>
    cases i with
    | zero =>
      obtain rfl := Option.some.inj h
      rw [List.set_cons_zero, List.flatMap_cons, List.flatMap_cons, List.count_append,
        List.count_append]
      omega
    | succ i =>
      rw [List.getElem?_cons_succ] at h
      have := ih h
      rw [List.set_cons_succ, List.flatMap_cons, List.flatMap_cons, List.count_append,
        List.count_append]
      omega

end Shares
