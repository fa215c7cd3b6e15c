import Mathlib.Data.List.Rotate
import Mathlib.Data.Nat.ModEq

/-!
# Lists laid out in a ring of slots

A fixed number of slots, a head position and a number of elements represent a list: its `i`-th
element is in the slot `i` places after the head, counted around the end, and all other slots are
empty. `Window` is this representation, and its laws are the four things one does with a ring:
filling the slot after the last element, overwriting the first when the ring is full, emptying the
first, and reading it.
-/

namespace Ring

variable {α : Type*}

/-- The slots hold the list from position `head` on, and nothing else. -/
structure Window (slots : List (Option α)) (head : Nat) (l : List α) : Prop where
  fits : l.length ≤ slots.length
  inside : 0 < slots.length → head < slots.length
  place : ∀ i, i < slots.length → slots[(head + i) % slots.length]? = some l[i]?

/-- Different elements have different slots. -/
theorem place_inj {n head i j : Nat} (hi : i < n) (hj : j < n)
    (h : (head + i) % n = (head + j) % n) : i = j := by
  have : i ≡ j [MOD n] := Nat.ModEq.add_left_cancel' head h
  rwa [Nat.ModEq, Nat.mod_eq_of_lt hi, Nat.mod_eq_of_lt hj] at this

/-- The slots from the one after the head on: the head's own slot comes last. -/
theorem place_succ {n head i : Nat} (hi : i < n) (hhead : head < n) :
    ((head + 1) % n + i) % n = if i + 1 < n then (head + (i + 1)) % n else head := by
  rw [Nat.mod_add_mod, Nat.add_assoc, Nat.add_comm 1 i]
  split
  · rfl
  · rw [show i + 1 = n by omega, Nat.add_mod_right, Nat.mod_eq_of_lt hhead]

variable {slots : List (Option α)} {head : Nat} {l : List α}

/-- Empty slots hold the empty list. -/
theorem Window.empty (n : Nat) : Window (List.replicate n (none : Option α)) 0 [] where
  fits := Nat.zero_le _
  inside h := h
  place i hi := by
    rw [List.length_replicate] at hi ⊢
    rw [List.getElem?_replicate, if_pos (Nat.mod_lt _ (Nat.zero_lt_of_lt hi)), List.getElem?_nil]

/-- The slot at the head has the first element. -/
theorem Window.front (h : Window slots head l) (pos : 0 < slots.length) :
    slots[head]? = some l[0]? := by
  have := h.place 0 pos
  rwa [Nat.add_zero, Nat.mod_eq_of_lt (h.inside pos)] at this

/-- The slots from the head on are those of the list, and then the empty ones. -/
theorem Window.rotate (h : Window slots head l) :
    slots.rotate head = l.map some ++ List.replicate (slots.length - l.length) none := by
  have fits := h.fits
  refine List.ext_getElem? fun i => ?_
  rcases Nat.lt_or_ge i slots.length with hi | hi
  · rw [List.getElem?_rotate hi, Nat.add_comm, h.place i hi]
    rcases Nat.lt_or_ge i l.length with hl | hl
    · rw [List.getElem?_append_left (by rwa [List.length_map]), List.getElem?_map,
        List.getElem?_eq_getElem hl, Option.map_some]
    · rw [List.getElem?_append_right (by rwa [List.length_map]), List.length_map,
        List.getElem?_replicate, if_pos (by omega), List.getElem?_eq_none hl]
  · rw [List.getElem?_eq_none (by rwa [List.length_rotate]), List.getElem?_eq_none]
    rw [List.length_append, List.length_map, List.length_replicate]
    omega

/-- What the slots hold is the list. -/
theorem Window.perm (h : Window slots head l) : (slots.filterMap id).Perm l := by
  have values : (slots.rotate head).filterMap id = l := by
    rw [h.rotate, List.filterMap_append, List.filterMap_map]
    simp
  exact values ▸ ((List.rotate_perm slots head).filterMap id).symm

/-- Filling the slot after the last element appends to the list. -/
theorem Window.push (h : Window slots head l) (room : l.length < slots.length) (x : α) :
    Window (slots.set ((head + l.length) % slots.length) (some x)) head (l ++ [x]) where
  fits := by
    rw [List.length_set, List.length_append, List.length_singleton]
    exact room
  inside := by
    rw [List.length_set]
    exact h.inside
  place i hi := by
    rw [List.length_set] at hi ⊢
    by_cases hil : i = l.length
    · subst hil
      rw [List.getElem?_set_self (Nat.mod_lt _ (Nat.zero_lt_of_lt hi)),
        List.getElem?_append_right (Nat.le_refl _), Nat.sub_self, List.getElem?_cons_zero]
    · rw [List.getElem?_set_ne (fun he => hil (place_inj room hi he).symm), h.place i hi]
      congr 1
      rcases Nat.lt_or_gt_of_ne hil with hlt | hgt
      · rw [List.getElem?_append_left hlt]
      · rw [List.getElem?_eq_none (Nat.le_of_lt hgt), List.getElem?_eq_none]
        rw [List.length_append, List.length_singleton]
        exact hgt

/-- Emptying the slot at the head removes the first element. -/
theorem Window.pop (h : Window slots head l) (nonempty : l ≠ []) :
    Window (slots.set head none) ((head + 1) % slots.length) (l.drop 1) := by
  have pos : 0 < slots.length := Nat.lt_of_lt_of_le (List.length_pos_iff.mpr nonempty) h.fits
  refine ⟨?_, ?_, ?_⟩
  · rw [List.length_drop, List.length_set]
    exact Nat.le_trans (Nat.sub_le _ _) h.fits
  · intro _
    rw [List.length_set]
    exact Nat.mod_lt _ pos
  · intro i hi
    rw [List.length_set] at hi ⊢
    rw [place_succ hi (h.inside pos), List.getElem?_drop, Nat.add_comm 1 i]
    split
    · rename_i hlt
      rw [List.getElem?_set_ne, h.place _ hlt]
      intro he
      have first : (head + 0) % slots.length = (head + (i + 1)) % slots.length := by
        rw [← he, Nat.add_zero, Nat.mod_eq_of_lt (h.inside pos)]
      cases place_inj pos hlt first
    · rename_i hge
      have hlen := h.fits
      rw [List.getElem?_set_self (h.inside pos), List.getElem?_eq_none (by omega)]

/-- Overwriting the slot at the head of a full ring drops the first element and appends. -/
theorem Window.overwrite (h : Window slots head l) (pos : 0 < slots.length)
    (full : l.length = slots.length) (x : α) :
    Window (slots.set head (some x)) ((head + 1) % slots.length) (l.drop 1 ++ [x]) := by
  have popped := h.pop (List.ne_nil_of_length_pos (full ▸ pos))
  have short : (l.drop 1).length < (slots.set head none).length := by
    rw [List.length_drop, List.length_set]
    omega
  have pushed := popped.push short x
  -- the freed slot is the one after the last element
  have last : ((head + 1) % slots.length + (l.drop 1).length) % (slots.set head none).length =
      head := by
    rw [List.length_set] at short ⊢
    rw [place_succ short (h.inside pos), if_neg]
    rw [List.length_drop]
    omega
  rwa [last, List.set_set] at pushed

end Ring
