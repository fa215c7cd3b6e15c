import Mathlib.Data.List.Pairwise
import Mathlib.Data.List.Nodup
import Mathlib.Order.Lattice

/-!
# Maps ordered by their keys

An ordered map is the list of its entries in increasing order of the keys, and carries that order.
Iteration is the list, so the first entry has the least key, and a loop from the front that stops at
the first entry it does not want has seen all entries it wants, when wanting is closed downwards.
-/

/-- Entries in strictly increasing order of their keys. -/
structure OrderedMap (κ β : Type*) [LinearOrder κ] where
  entries : List (κ × β) := []
  sorted : entries.Pairwise (fun a b => a.1 < b.1) := by exact List.Pairwise.nil

namespace OrderedMap

variable {κ β : Type*} [LinearOrder κ]

/-- The keys, in increasing order. -/
def keys (m : OrderedMap κ β) : List κ := m.entries.map Prod.fst

/-- The entry at the key's place; an entry that has the key stays as it is. -/
def insertEntry (k : κ) (v : β) : List (κ × β) → List (κ × β)
  | [] => [(k, v)]
  | e :: rest =>
    if k < e.1 then (k, v) :: e :: rest
    else if k = e.1 then e :: rest
    else e :: insertEntry k v rest

/-- An inserted entry comes from the list or is the new one. -/
theorem mem_insertEntry {k : κ} {v : β} {l : List (κ × β)} {e : κ × β}
    (h : e ∈ insertEntry k v l) : e = (k, v) ∨ e ∈ l := by
  induction l with
  | nil => exact .inl (List.mem_singleton.mp h)
  | cons a rest ih =>
    unfold insertEntry at h
    split at h
    · exact List.mem_cons.mp h
    · split at h
      · exact .inr h
      · rcases List.mem_cons.mp h with rfl | h
        · exact .inr (List.mem_cons_self)
        · exact (ih h).imp_right (List.mem_cons_of_mem a)

theorem insertEntry_sorted (k : κ) (v : β) {l : List (κ × β)}
    (sorted : l.Pairwise (fun a b => a.1 < b.1)) :
    (insertEntry k v l).Pairwise (fun a b => a.1 < b.1) := by
  induction l with
  | nil => exact List.pairwise_singleton _ _
  | cons a rest ih =>
    obtain ⟨first, rest_sorted⟩ := List.pairwise_cons.mp sorted
    unfold insertEntry
    split
    · rename_i before
      refine List.Pairwise.cons (fun e he => ?_) sorted
      rcases List.mem_cons.mp he with rfl | he
      · exact before
      · exact lt_trans before (first e he)
    · split
      · exact sorted
      · rename_i notBefore ne
        refine List.Pairwise.cons (fun e he => ?_) (ih rest_sorted)
        rcases mem_insertEntry he with rfl | he
        · exact lt_of_le_of_ne (not_lt.mp notBefore) (Ne.symm ne)
        · exact first e he

/-- A new key adds its entry. -/
theorem insertEntry_perm {k : κ} (v : β) {l : List (κ × β)} (new : k ∉ l.map Prod.fst) :
    (insertEntry k v l).Perm ((k, v) :: l) := by
  induction l with
  | nil => exact List.Perm.refl _
  | cons a rest ih =>
    rw [List.map_cons, List.mem_cons, not_or] at new
    unfold insertEntry
    split
    · exact List.Perm.refl _
    · rw [if_neg new.1]
      exact ((ih new.2).cons a).trans (List.Perm.swap _ _ _)

/-- `emplace`. -/
def emplace (m : OrderedMap κ β) (k : κ) (v : β) : OrderedMap κ β where
  entries := insertEntry k v m.entries
  sorted := insertEntry_sorted k v m.sorted

/-- `erase` by key. -/
def erase (m : OrderedMap κ β) (k : κ) : OrderedMap κ β where
  entries := m.entries.filter fun e => e.1 ≠ k
  sorted := m.sorted.filter _

/-- The keys are distinct. -/
theorem keys_nodup (m : OrderedMap κ β) : m.keys.Nodup :=
  List.pairwise_map.mpr (m.sorted.imp fun {_ _} h => ne_of_lt h)

/-- An entry is known by its key. -/
theorem eq_of_key {m : OrderedMap κ β} {a b : κ × β} (ha : a ∈ m.entries) (hb : b ∈ m.entries)
    (same : a.1 = b.1) : a = b :=
  List.inj_on_of_nodup_map m.keys_nodup ha hb same

theorem keys_emplace {m : OrderedMap κ β} {k : κ} (new : k ∉ m.keys) (v : β) :
    (m.emplace k v).keys.Perm (k :: m.keys) :=
  (insertEntry_perm v new).map Prod.fst

theorem keys_erase (m : OrderedMap κ β) (k : κ) : (m.erase k).keys = m.keys.erase k := by
  rw [m.keys_nodup.erase_eq_filter]
  unfold keys erase
  rw [List.filter_map]
  congr 1
  apply List.filter_congr
  intro e _
  simp only [ne_eq, decide_not, Function.comp_apply, bne, beq_eq_decide]

/-- Erasing the first entry leaves the rest. -/
theorem erase_first {m : OrderedMap κ β} {e : κ × β} {rest : List (κ × β)}
    (h : m.entries = e :: rest) : (m.erase e.1).entries = rest := by
  have above := (List.pairwise_cons.mp (h ▸ m.sorted)).1
  show m.entries.filter _ = rest
  rw [h, List.filter_cons_of_neg (by simp), List.filter_eq_self]
  intro a ha
  exact decide_eq_true (ne_of_gt (above a ha))

/-- The first entry has the least key. -/
theorem first_le {m : OrderedMap κ β} {e : κ × β} {rest : List (κ × β)}
    (h : m.entries = e :: rest) {k : κ} (mem : k ∈ m.keys) : e.1 ≤ k := by
  have above := (List.pairwise_cons.mp (h ▸ m.sorted)).1
  unfold keys at mem
  rw [h, List.map_cons, List.mem_cons] at mem
  rcases mem with rfl | mem
  · exact le_refl _
  · obtain ⟨a, ha, rfl⟩ := List.mem_map.mp mem
    exact le_of_lt (above a ha)

/-- When wanting is closed downwards, nothing is wanted behind an entry that is not. -/
theorem none_wanted {e : κ × β} {rest : List (κ × β)} {wanted : κ → Bool}
    (sorted : (e :: rest).Pairwise (fun a b => a.1 < b.1))
    (down : ∀ a b, a < b → wanted b = true → wanted a = true) (stop : wanted e.1 = false) :
    (e :: rest).filter (fun a => wanted a.1) = [] := by
  rw [List.filter_eq_nil_iff]
  intro a ha
  rcases List.mem_cons.mp ha with rfl | ha
  · rw [stop]
    exact Bool.false_ne_true
  · intro want
    have := down e.1 a.1 (List.rel_of_pairwise_cons sorted ha) want
    rw [stop] at this
    exact Bool.false_ne_true this

end OrderedMap
