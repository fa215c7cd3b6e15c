import Mathlib.Data.List.Basic
import Mathlib.Data.List.Nodup
import Mathlib.Data.List.Perm.Basic

/-!
# A vector whose elements know their place

A table keeps, for each key, the position its element has in a vector, and the vector's elements
carry their keys. `Linked` is the agreement of the two: a position in the table leads to the
element of that key, and an element's key leads back to its position. So keys occur once in the
vector, and a position held by the table is always in range.

Three operations keep the agreement: appending an element of a new key (`Linked.push`), replacing
an element by one of the same key (`Linked.set`), and `swapRemove`, which moves the last element
into the hole and gives its key the hole's position (`Linked.swapRemove`).
-/

namespace IndexedVector

variable {α K : Type*}

/-! ## Removal by the last element -/

/-- Removes the element at a position: the last element takes its place. -/
def swapRemove (l : List α) (i : Nat) : List α :=
  match l.getLast? with
  | none => l
  | some last => (l.set i last).dropLast

/-- Removing the last position drops the last element. -/
theorem swapRemove_last (front : List α) (x : α) :
    swapRemove (front ++ [x]) front.length = front := by
  simp [swapRemove]

/-- Removing an earlier position puts the last element there. -/
theorem swapRemove_mid (front mid : List α) (x m : α) :
    swapRemove (front ++ x :: (mid ++ [m])) front.length = front ++ m :: mid := by
  have hlast : (front ++ x :: (mid ++ [m])).getLast? = some m := by
    rw [← List.cons_append, ← List.append_assoc, List.getLast?_concat]
  have hset : (front ++ x :: (mid ++ [m])).set front.length m =
      (front ++ m :: mid) ++ [m] := by
    simp
  simp only [swapRemove, hlast, hset, List.dropLast_concat]

/-- A list split at a position in range: the position is the last one, or there is a last element
after it. -/
theorem split_at {l : List α} {i : Nat} (hi : i < l.length) :
    (∃ front x, l = front ++ [x] ∧ i = front.length) ∨
      ∃ front x mid m, l = front ++ x :: (mid ++ [m]) ∧ i = front.length := by
  have split : l = l.take i ++ l[i] :: l.drop (i + 1) := by
    rw [← List.drop_eq_getElem_cons hi, List.take_append_drop]
  have len : (l.take i).length = i := List.length_take_of_le (Nat.le_of_lt hi)
  rcases List.eq_nil_or_concat (l.drop (i + 1)) with hnil | ⟨mid, m, hmid⟩
  · exact .inl ⟨l.take i, l[i], by rw [hnil] at split; exact split, len.symm⟩
  · refine .inr ⟨l.take i, l[i], mid, m, ?_, len.symm⟩
    rw [hmid, List.concat_eq_append] at split
    exact split

/-- What each position holds after a removal: the hole holds the last element, every other
position what it held. -/
theorem getElem?_swapRemove {l : List α} {i : Nat} (hi : i < l.length) (j : Nat) :
    (swapRemove l i)[j]? =
      if j < l.length - 1 then (if j = i then l[l.length - 1]? else l[j]?) else none := by
  rcases split_at hi with ⟨front, x, rfl, rfl⟩ | ⟨front, x, mid, m, rfl, rfl⟩
  · rw [swapRemove_last]
    by_cases hj : j < front.length
    · have hne : j ≠ front.length := Nat.ne_of_lt hj
      simp [hj, hne, List.getElem?_append_left hj]
    · simp [hj]
  · rw [swapRemove_mid]
    rcases Nat.lt_trichotomy j front.length with hj | rfl | hj
    · have hlt : j < (front ++ x :: (mid ++ [m])).length - 1 := by simp; omega
      rw [if_pos hlt, if_neg (Nat.ne_of_lt hj), List.getElem?_append_left hj,
        List.getElem?_append_left hj]
    · have hlt : front.length < (front ++ x :: (mid ++ [m])).length - 1 := by simp
      have hlast : (front ++ x :: (mid ++ [m]))[(front ++ x :: (mid ++ [m])).length - 1]? =
          some m := by
        rw [← List.getLast?_eq_getElem?, ← List.cons_append, ← List.append_assoc,
          List.getLast?_concat]
      rw [if_pos hlt, if_pos rfl, hlast]
      simp
    · obtain ⟨d, rfl⟩ : ∃ d, j = front.length + (d + 1) := ⟨j - front.length - 1, by omega⟩
      have hne : front.length + (d + 1) ≠ front.length := by omega
      rw [if_neg hne, List.getElem?_append_right (by omega),
        List.getElem?_append_right (by omega)]
      simp only [Nat.add_sub_cancel_left, List.getElem?_cons_succ]
      by_cases hd : d < mid.length
      · rw [List.getElem?_append_left hd, if_pos (by simp; omega)]
      · rw [List.getElem?_eq_none (Nat.le_of_not_lt hd), if_neg (by simp; omega)]

/-- A removal by the last element keeps the elements an ordinary erasure keeps. -/
theorem swapRemove_perm {l : List α} {i : Nat} (hi : i < l.length) :
    (swapRemove l i).Perm (l.eraseIdx i) := by
  rcases split_at hi with ⟨front, x, rfl, rfl⟩ | ⟨front, x, mid, m, rfl, rfl⟩
  · rw [swapRemove_last]
    simp [List.eraseIdx_append_of_length_le]
  · have herase : (front ++ x :: (mid ++ [m])).eraseIdx front.length = front ++ (mid ++ [m]) := by
      simp [List.eraseIdx_append_of_length_le]
    rw [swapRemove_mid, herase]
    exact List.Perm.append_left front (List.perm_append_singleton m mid).symm

/-- A removal adds no element. -/
theorem mem_of_mem_swapRemove {l : List α} {i : Nat} (hi : i < l.length) {a : α}
    (h : a ∈ swapRemove l i) : a ∈ l :=
  (List.eraseIdx_sublist l i).subset ((swapRemove_perm hi).subset h)

/-- A removal keeps a projection of the elements free of duplicates. -/
theorem nodup_map_swapRemove {β : Type*} (f : α → β) {l : List α} {i : Nat} (hi : i < l.length)
    (h : (l.map f).Nodup) : ((swapRemove l i).map f).Nodup :=
  ((swapRemove_perm hi).map f).nodup_iff.mpr
    (((List.eraseIdx_sublist l i).map f).nodup h)

/-- Replacing an element by one of the same projection changes no projection. -/
theorem map_set_of_eq {β : Type*} (f : α → β) {l : List α} {i : Nat} {p q : α}
    (hp : l[i]? = some p) (hf : f q = f p) : (l.set i q).map f = l.map f := by
  obtain ⟨hi, rfl⟩ := List.getElem?_eq_some_iff.mp hp
  rw [List.map_set, hf, ← List.getElem_map f (h := by simpa using hi), List.set_getElem_self]

/-! ## The agreement of table and vector -/

/-- The table's positions and the vector's keys agree. -/
structure Linked (key : α → K) (idx : K → Option Nat) (l : List α) : Prop where
  /-- A position in the table holds an element of that key. -/
  ref : ∀ {k i}, idx k = some i → ∃ a, l[i]? = some a ∧ key a = k
  /-- An element's key is in the table at the element's position. -/
  back : ∀ {i a}, l[i]? = some a → idx (key a) = some i

namespace Linked

variable {key : α → K} {idx idx' : K → Option Nat} {l : List α}

/-- A position in the table is in range. -/
theorem lt (h : Linked key idx l) {k : K} {i : Nat} (hk : idx k = some i) : i < l.length := by
  obtain ⟨a, ha, _⟩ := h.ref hk
  exact (List.getElem?_eq_some_iff.mp ha).1

/-- Every element is in the table. -/
theorem of_mem (h : Linked key idx l) {a : α} (ha : a ∈ l) :
    ∃ i, idx (key a) = some i ∧ l[i]? = some a := by
  obtain ⟨i, hi⟩ := List.mem_iff_getElem?.mp ha
  exact ⟨i, h.back hi, hi⟩

/-- A key occurs at one position only. -/
theorem key_inj (h : Linked key idx l) {i j : Nat} {a b : α} (hi : l[i]? = some a)
    (hj : l[j]? = some b) (hk : key a = key b) : i = j := by
  have hb := h.back hj
  rw [← hk, h.back hi] at hb
  exact Option.some.inj hb

/-- The agreement reads the table only through its positions. -/
theorem congr (h : Linked key idx l) (same : ∀ k, idx' k = idx k) : Linked key idx' l where
  ref hk := h.ref (by rw [← same]; exact hk)
  back hi := by rw [same]; exact h.back hi

/-- Appending an element of a key that had no position. -/
theorem push (h : Linked key idx l) {a : α} (fresh : idx (key a) = none)
    (here : idx' (key a) = some l.length) (other : ∀ k, k ≠ key a → idx' k = idx k) :
    Linked key idx' (l ++ [a]) where
  ref {k i} hk := by
    by_cases hka : k = key a
    · subst hka
      obtain rfl : l.length = i := Option.some.inj (here.symm.trans hk)
      exact ⟨a, by simp, rfl⟩
    · obtain ⟨b, hb, hkb⟩ := h.ref ((other k hka).symm.trans hk)
      refine ⟨b, ?_, hkb⟩
      rw [List.getElem?_append_left (List.getElem?_eq_some_iff.mp hb).1]
      exact hb
  back {i b} hi := by
    rcases Nat.lt_or_ge i l.length with hlt | hge
    · rw [List.getElem?_append_left hlt] at hi
      have hb := h.back hi
      have hne : key b ≠ key a := fun e => by rw [e, fresh] at hb; cases hb
      rw [other _ hne]
      exact hb
    · rw [List.getElem?_append_right hge] at hi
      obtain ⟨hlt, hba⟩ := List.getElem?_eq_some_iff.mp hi
      simp only [List.length_singleton] at hlt
      obtain rfl : i = l.length := by omega
      simp only [List.getElem_singleton] at hba
      rw [← hba]
      exact here

/-- Replacing an element by one of the same key. -/
theorem set (h : Linked key idx l) {i : Nat} {a b : α} (ha : l[i]? = some a)
    (hkey : key b = key a) : Linked key idx (l.set i b) where
  ref {k j} hk := by
    obtain ⟨c, hc, hkc⟩ := h.ref hk
    by_cases hij : i = j
    · subst hij
      have hlt := (List.getElem?_eq_some_iff.mp hc).1
      refine ⟨b, by rw [List.getElem?_set_self hlt], ?_⟩
      rw [hkey, ← hkc, Option.some.inj (ha.symm.trans hc)]
    · exact ⟨c, by rw [List.getElem?_set_ne hij]; exact hc, hkc⟩
  back {j c} hj := by
    by_cases hij : i = j
    · subst hij
      have hlt := (List.getElem?_eq_some_iff.mp ha).1
      rw [List.getElem?_set_self hlt] at hj
      rw [← Option.some.inj hj, hkey]
      exact h.back ha
    · rw [List.getElem?_set_ne hij] at hj
      exact h.back hj

/-- Removing the element of a key: the last element's key takes over its position. -/
theorem swapRemove (h : Linked key idx l) {k : K} {i : Nat} {m : α} (hk : idx k = some i)
    (hm : l[l.length - 1]? = some m) (gone : idx' k = none)
    (moved : key m ≠ k → idx' (key m) = some i)
    (other : ∀ k', k' ≠ k → k' ≠ key m → idx' k' = idx k') :
    Linked key idx' (swapRemove l i) where
  ref {k' j} hj := by
    have hi := h.lt hk
    have hne : k' ≠ k := fun e => by rw [e, gone] at hj; cases hj
    by_cases hkm : k' = key m
    · subst hkm
      obtain rfl : i = j := Option.some.inj ((moved hne).symm.trans hj)
      have hil : i ≠ l.length - 1 := fun e => by
        obtain ⟨a, ha, hka⟩ := h.ref hk
        rw [e, hm] at ha
        exact hne (by rw [Option.some.inj ha]; exact hka)
      exact ⟨m, by rw [getElem?_swapRemove hi, if_pos (by omega), if_pos rfl]; exact hm, rfl⟩
    · rw [other k' hne hkm] at hj
      obtain ⟨a, ha, hka⟩ := h.ref hj
      have hjl := h.lt hj
      have hjlast : j ≠ l.length - 1 := fun e => by
        rw [e, hm] at ha
        exact hkm (by rw [← hka, Option.some.inj ha])
      have hji : j ≠ i := fun e => by
        obtain ⟨b, hb, hkb⟩ := h.ref hk
        rw [← e, ha] at hb
        exact hne (by rw [← hka, ← hkb, Option.some.inj hb])
      exact ⟨a, by rw [getElem?_swapRemove hi, if_pos (by omega), if_neg hji]; exact ha, hka⟩
  back {j a} hj := by
    have hi := h.lt hk
    rw [getElem?_swapRemove hi] at hj
    split at hj
    · rename_i hlt
      split at hj
      · rename_i hji
        subst hji
        obtain rfl : m = a := Option.some.inj (hm.symm.trans hj)
        refine moved fun e => ?_
        have := h.back hm
        rw [e, hk] at this
        have := Option.some.inj this
        omega
      · rename_i hji
        have hb := h.back hj
        have hne : key a ≠ k := fun e => by
          rw [e, hk] at hb
          exact hji (Option.some.inj hb).symm
        have hnm : key a ≠ key m := fun e => by
          have := h.key_inj hj hm e
          omega
        rw [other _ hne hnm]
        exact hb
    · cases hj

end Linked

end IndexedVector
