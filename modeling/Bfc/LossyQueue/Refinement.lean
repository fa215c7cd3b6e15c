import Bfc.Lib.Ring
import Bfc.LossyQueue.Queue

/-!
# The circular lossy queue is a bounded list

`Represents` says which list a queue stands for: its ring is a `Ring.Window` of it, and the
capacity and the reactor are the bound's. Each call on a queue that represents a list does without
a fault what the bounded list does, answers the same, and leaves a queue that represents the new
list. The ring's laws carry the element moves; the calls add the sizes around them.
-/

namespace Bfc.LossyQueue

open Ring

variable {α ρ : Type}

/-- The queue stands for the bounded list. -/
structure Represents (q : Queue α ρ) (b : Bounded α ρ) : Prop where
  slots : q.slots.length = q.capacity
  window : Window q.slots q.head b.items
  count : q.count = b.items.length
  bound : q.capacity = b.bound
  small : q.capacity ≤ maxSize
  reactor : q.wakeCallback = b.reactor

/-! ## The parts of the calls -/

theorem addSize_eq {a b : Nat} (h : a + b < 2 ^ 64) : addSize a b = a + b := Nat.mod_eq_of_lt h

theorem modSize_eq {a b : Nat} (h : b ≠ 0) : modSize a b = .ok (a % b) := if_neg h

theorem store_eq {slots : List (Option α)} {i : Nat} (h : i < slots.length) (x : Option α) :
    store slots i x = .ok (slots.set i x) := if_pos h

theorem deref_eq {slots : List (Option α)} {i : Nat} {x : α} (h : slots[i]? = some (some x)) :
    deref slots i = .ok x := by
  rw [deref, h]

namespace Represents

variable {q : Queue α ρ} {b : Bounded α ρ}

/-- A list with an element is in a ring with a slot. -/
theorem pos (h : Represents q b) (nonempty : b.items ≠ []) : 0 < q.capacity := by
  have := h.window.fits
  have := List.length_pos_iff.mpr nonempty
  have := h.slots
  omega

theorem head_lt (h : Represents q b) (pos : 0 < q.capacity) : q.head < q.capacity := by
  have := h.window.inside
  rw [h.slots] at this
  exact this pos

theorem count_le (h : Represents q b) : q.count ≤ q.capacity := by
  rw [h.count, ← h.slots]
  exact h.window.fits

/-- The head's slot has the list's head. -/
theorem deref_head (h : Represents q b) {x : α} {rest : List α} (items : b.items = x :: rest) :
    deref q.slots q.head = .ok x := by
  have pos : 0 < q.slots.length := by
    rw [h.slots]
    exact h.pos (by rw [items]; exact List.cons_ne_nil _ _)
  refine deref_eq ?_
  rw [h.window.front pos, items, List.getElem?_cons_zero]

theorem push (h : Represents q b) (u : α) :
    ∃ q', q.push u = .ok (q', (b.push u).2) ∧ Represents q' (b.push u).1 := by
  have small := h.small
  have count := h.count
  have slots := h.slots
  have window := h.window
  unfold Queue.push Bounded.push
  by_cases zero : q.capacity = 0
  · -- the element is discarded
    have zero' : b.bound = 0 := h.bound ▸ zero
    rw [if_pos zero, if_pos zero', if_pos zero', zero', DropOldest.push_zero, count]
    exact ⟨q, rfl, { h with bound := by rw [zero] }⟩
  · have pos : 0 < q.capacity := Nat.pos_of_ne_zero zero
    have zero' : b.bound ≠ 0 := h.bound ▸ zero
    have head := h.head_lt pos
    rw [if_neg zero, if_neg zero', if_neg zero']
    by_cases room : q.count < q.capacity
    · -- there is an empty slot after the last element
      have room' : b.items.length < b.bound := by rw [← count, ← h.bound]; exact room
      have sum : addSize q.head q.count = q.head + q.count := by
        refine addSize_eq ?_
        rw [maxSize] at small
        omega
      have inside : (q.head + q.count) % q.capacity < q.slots.length := by
        rw [slots]
        exact Nat.mod_lt _ pos
      have next : addSize q.count 1 = q.count + 1 := by
        refine addSize_eq ?_
        rw [maxSize] at small
        omega
      rw [if_pos room, sum, modSize_eq zero, if_neg (Nat.ne_of_lt room')]
      simp only [bind, Except.bind, store_eq inside, next]
      rw [← count, ← h.reactor]
      refine ⟨_, rfl, ?_, ?_, ?_, h.bound, small, rfl⟩
      · rw [List.length_set, slots]
      · rw [DropOldest.push_of_lt room', ← slots, count]
        exact window.push (by rw [slots, ← count]; exact room) u
      · rw [DropOldest.push_of_lt room', List.length_append, List.length_singleton, count]
    · -- the ring is full: the first element gives up its slot
      have full : q.count = q.capacity := Nat.le_antisymm h.count_le (Nat.le_of_not_lt room)
      have full' : b.items.length = b.bound := by rw [← count, ← h.bound, full]
      have sum : addSize q.head 1 = q.head + 1 := by
        refine addSize_eq ?_
        rw [maxSize] at small
        omega
      rw [if_neg room, if_pos full', sum, modSize_eq zero]
      obtain ⟨x, rest, items⟩ : ∃ x rest, b.items = x :: rest := by
        refine List.exists_cons_of_ne_nil (List.ne_nil_of_length_pos ?_)
        omega
      rw [h.deref_head items]
      simp only [bind, Except.bind, store_eq (slots.symm ▸ head)]
      rw [← count, ← h.reactor, show b.items.head? = some x by rw [items, List.head?_cons]]
      refine ⟨_, rfl, ?_, ?_, ?_, h.bound, small, rfl⟩
      · rw [List.length_set, slots]
      · rw [DropOldest.push_of_full zero' (by omega), ← slots]
        exact window.overwrite (slots.symm ▸ pos) (by rw [slots, ← count, full]) u
      · rw [DropOldest.push_of_full zero' (by omega), List.length_append,
          List.length_singleton, List.length_drop]
        show q.count = _
        omega

theorem pop (h : Represents q b) :
    ∃ q', q.pop = .ok (q', (b.call .pop).2) ∧ Represents q' (b.call .pop).1 := by
  have small := h.small
  have slots := h.slots
  unfold Queue.pop Bounded.call
  cases items : b.items with
  | nil =>
    have zero : q.count = 0 := by rw [h.count, items, List.length_nil]
    rw [if_pos zero]
    refine ⟨q, rfl, { h with window := ?_, count := ?_ }⟩
    · rw [List.drop_nil, ← items]
      exact h.window
    · rw [List.drop_nil, zero, List.length_nil]
  | cons x rest =>
    have nonempty : b.items ≠ [] := by rw [items]; exact List.cons_ne_nil _ _
    have nonzero : q.count ≠ 0 := by rw [h.count, items, List.length_cons]; exact Nat.succ_ne_zero _
    have pos := h.pos nonempty
    have head := h.head_lt pos
    have sum : addSize q.head 1 = q.head + 1 := by
      refine addSize_eq ?_
      rw [maxSize] at small
      omega
    rw [if_neg nonzero, h.deref_head items, sum, modSize_eq (Nat.ne_of_gt pos)]
    simp only [bind, Except.bind, store_eq (slots.symm ▸ head), List.head?_cons]
    refine ⟨_, rfl, ?_, ?_, ?_, h.bound, small, h.reactor⟩
    · rw [List.length_set, slots]
    · rw [← items, ← slots]
      exact h.window.pop nonempty
    · rw [h.count, items, List.length_cons, List.drop_one, List.tail_cons, Nat.add_sub_cancel]

/-- The loop of `set_capacity`: it moves `n` elements, from the `k`-th on, to the end of what the
new slots hold. -/
theorem moveSlots (h : Represents q b) : ∀ (n k idx : Nat) (newSlots : List (Option α))
    (moved : List α), k + n ≤ b.items.length → idx = (q.head + k) % q.capacity →
    moved.length + n ≤ newSlots.length → Window newSlots 0 moved →
    ∃ newSlots', q.moveSlots n moved.length idx newSlots = .ok newSlots' ∧
      newSlots'.length = newSlots.length ∧
      Window newSlots' 0 (moved ++ (b.items.drop k).take n) := by
  intro n
  induction n with
  | zero =>
    intro k idx newSlots moved _ _ _ window
    exact ⟨newSlots, rfl, rfl, by rw [List.take_zero, List.append_nil]; exact window⟩
  | succ n ih =>
    intro k idx newSlots moved there hidx room window
    have small := h.small
    have fits := h.count_le
    have hk : k < b.items.length := by omega
    have hkc : k < q.capacity := by rw [h.count] at fits; omega
    have head := h.head_lt (Nat.zero_lt_of_lt hkc)
    have zero : q.capacity ≠ 0 := Nat.ne_of_gt (Nat.zero_lt_of_lt hkc)
    have read : q.slots[idx]? = some (some b.items[k]) := by
      have := h.window.place k (h.slots.symm ▸ hkc)
      rw [h.slots] at this
      rw [hidx, this, List.getElem?_eq_getElem hk]
    have sum : addSize idx 1 = idx + 1 := by
      refine addSize_eq ?_
      have : idx < q.capacity := hidx ▸ Nat.mod_lt _ (Nat.pos_of_ne_zero zero)
      rw [maxSize] at small
      omega
    have next : (idx + 1) % q.capacity = (q.head + (k + 1)) % q.capacity := by
      rw [hidx, Nat.mod_add_mod, Nat.add_assoc]
    have place : moved.length % newSlots.length = moved.length := Nat.mod_eq_of_lt (by omega)
    have pushed := window.push (by omega) b.items[k]
    rw [Nat.zero_add, place] at pushed
    obtain ⟨newSlots', run, length, held⟩ := ih (k + 1) ((idx + 1) % q.capacity)
      (newSlots.set moved.length (some b.items[k])) (moved ++ [b.items[k]]) (by omega) next
      (by rw [List.length_append, List.length_singleton, List.length_set]; omega) pushed
    rw [List.length_append, List.length_singleton] at run
    refine ⟨newSlots', ?_, by rw [length, List.length_set], ?_⟩
    · rw [Queue.moveSlots, deref_eq read, sum, modSize_eq zero]
      simp only [bind, Except.bind, store_eq (show moved.length < newSlots.length by omega)]
      exact run
    · rw [List.append_assoc, List.singleton_append] at held
      rwa [List.drop_eq_getElem_cons hk, List.take_succ_cons]

theorem setCapacity (h : Represents q b) (capacity : Nat) (allocates : Bool) :
    ∃ q', q.setCapacity capacity allocates = .ok (q', (b.setBound capacity allocates).2) ∧
      Represents q' (b.setBound capacity allocates).1 := by
  have count := h.count
  have small := h.small
  unfold Queue.setCapacity Bounded.setBound
  by_cases same : capacity = q.capacity
  · have fits : b.items.length ≤ capacity := by rw [← count, same]; exact h.count_le
    rw [if_pos same, if_neg (fun hc => hc.1 (same.trans h.bound)), DropOldest.keep_of_le fits]
    exact ⟨q, rfl, { h with bound := same.symm }⟩
  · have same' : capacity ≠ b.bound := fun hc => same (hc.trans h.bound.symm)
    rw [if_neg same]
    by_cases fails : allocates = false ∨ maxSize < capacity
    · rw [if_pos fails, if_pos ⟨same', fails⟩]
      exact ⟨q, rfl, h⟩
    · have bounded : ¬(capacity ≠ b.bound ∧ (allocates = false ∨ maxSize < capacity)) :=
        fun hc => fails hc.2
      rw [if_neg fails, if_neg bounded]
      have allowed : capacity ≤ maxSize := Nat.le_of_not_lt fun hc => fails (.inr hc)
      -- a queue of capacity zero has no elements to keep
      have kept : (if q.capacity = 0 then 0 else min q.count capacity) = min q.count capacity := by
        have fits := h.count_le
        split <;> omega
      have length : (DropOldest.keep capacity b.items).length = min q.count capacity := by
        rw [DropOldest.length_keep, count]
      have new := Window.empty (α := α) capacity
      simp only [kept, bind, Except.bind]
      by_cases nothing : min q.count capacity = 0
      · have keepsNone : DropOldest.keep capacity b.items = [] :=
          List.length_eq_zero_iff.mp (length.trans nothing)
        rw [if_neg (not_not_intro nothing), nothing, keepsNone]
        exact ⟨_, rfl, List.length_replicate, new, rfl, rfl, allowed, h.reactor⟩
      · have fits := h.count_le
        have pos : 0 < q.capacity := by omega
        have head := h.head_lt pos
        have sum : addSize q.head (q.count - min q.count capacity) =
            q.head + (q.count - min q.count capacity) := by
          refine addSize_eq ?_
          rw [maxSize] at small
          omega
        obtain ⟨newSlots, run, hlength, held⟩ := h.moveSlots (min q.count capacity)
          (q.count - min q.count capacity) _ (List.replicate capacity none) [] (by omega) rfl
          (by rw [List.length_replicate, List.length_nil]; omega) new
        have all : [] ++ (b.items.drop (q.count - min q.count capacity)).take
            (min q.count capacity) = DropOldest.keep capacity b.items := by
          rw [List.nil_append, List.take_of_length_le, DropOldest.keep,
            show q.count - min q.count capacity = b.items.length - capacity by omega]
          rw [List.length_drop]
          omega
        rw [if_pos nothing, sum, modSize_eq (Nat.ne_of_gt pos)]
        simp only
        rw [show q.moveSlots _ 0 _ _ = .ok newSlots from run]
        rw [List.length_replicate] at hlength
        refine ⟨_, rfl, hlength, ?_, length.symm, rfl, allowed, h.reactor⟩
        rw [← all]
        exact held

/-- **Each call refines the bounded list's.** -/
theorem call (h : Represents q b) (op : Op α ρ) :
    ∃ q', q.call op = .ok (q', (b.call op).2) ∧ Represents q' (b.call op).1 := by
  cases op with
  | push u => exact h.push u
  | pop => exact h.pop
  | size => exact ⟨q, by rw [Queue.call, h.count]; rfl, h⟩
  | capacity => exact ⟨q, by rw [Queue.call, h.bound]; rfl, h⟩
  | hasData =>
    refine ⟨q, ?_, h⟩
    rw [Queue.call, h.count]
    cases items : b.items <;> simp [Bounded.call, items]
  | setCapacity capacity allocates => exact h.setCapacity capacity allocates
  | setReactor reactor => exact ⟨_, rfl, { h with reactor := rfl }⟩

/-- So does every sequence of calls. -/
theorem run (h : Represents q b) (ops : List (Op α ρ)) :
    ∃ q', q.run ops = .ok (q', (b.run ops).2) ∧ Represents q' (b.run ops).1 := by
  induction ops generalizing q b with
  | nil => exact ⟨q, rfl, h⟩
  | cons op ops ih =>
    obtain ⟨q₁, first, h₁⟩ := h.call op
    obtain ⟨q₂, rest, h₂⟩ := ih h₁
    refine ⟨q₂, ?_, h₂⟩
    simp only [Queue.run, bind, Except.bind, first, rest, Bounded.run]

end Represents

/-- A new queue stands for the empty list of bound zero. -/
theorem represents_fresh : Represents ({} : Queue α ρ) {} where
  slots := rfl
  window := Window.empty 0
  count := rfl
  bound := rfl
  small := Nat.zero_le _
  reactor := rfl

/-- **The ring refines a bounded list that drops its oldest element.** Whatever is called on a new
queue, no call faults, every call answers what the bounded list answers, and the queue then stands
for that list: as many slots as the capacity, the element `i` in the slot `i` places after the
head, and every other slot empty. No sum of the ring reaches 2^64. -/
theorem ring_refines (ops : List (Op α ρ)) :
    ∃ q : Queue α ρ, ({} : Queue α ρ).run ops = .ok (q, (({} : Bounded α ρ).run ops).2) ∧
      Represents q (({} : Bounded α ρ).run ops).1 ∧ q.count ≤ q.capacity ∧
      (0 < q.capacity → q.head < q.capacity ∧ q.head + q.count < 2 ^ 64) ∧
      (∀ i, i < q.capacity →
        q.slots[(q.head + i) % q.capacity]? = some (({} : Bounded α ρ).run ops).1.items[i]?) := by
  obtain ⟨q, run, h⟩ := represents_fresh.run ops
  refine ⟨q, run, h, h.count_le, fun pos => ⟨h.head_lt pos, ?_⟩, fun i hi => ?_⟩
  · have count := h.count_le
    have head := h.head_lt pos
    have small := h.small
    rw [maxSize] at small
    omega
  · have := h.window.place i (h.slots.symm ▸ hi)
    rwa [h.slots] at this


/-- Shrinking after the head has moved around the end. -/
example : ∃ q, ({} : Queue Nat Unit).run [.setCapacity 3 true, .push 1, .push 2, .push 3, .push 4,
    .setCapacity 2 true, .pop, .pop, .pop] =
      .ok (q, [.done, .pushed 0 none [], .pushed 1 none [], .pushed 2 none [],
        .pushed 3 (some 1) [], .done, .popped (some 3), .popped (some 4), .popped none]) :=
  ⟨_, rfl⟩

end Bfc.LossyQueue
