import Mathlib.Algebra.Group.Nat.Defs
import Bfc.Lib.DropOldest

/-!
# The circular lossy queue

`reactive_circular_lossy_queue` as the source has it: a ring of optional slots, a head and a
count, with `push`, `pop` and `set_capacity`, and the reactor bound by `set_reactor`, which every
enqueue signals. Each method's critical section is one step.

What the source may not do is an error of the model: reading an empty slot, reading or writing
past the slots, and taking a remainder by zero (`Fault`). Sizes are `size_t`, so their sums are
taken modulo 2^64. An allocation may fail, and does for a capacity past the vector's `max_size`;
`set_capacity` then throws before it has moved anything.

`Bounded` says what the queue is for: a list with a bound that drops its oldest element.
-/

namespace Bfc.LossyQueue

variable {α ρ : Type}

/-- Undefined behaviour. -/
inductive Fault where
  | emptySlot
  | outOfRange
  | zeroModulus
deriving DecidableEq

/-- The queue: `m_capacity`, `m_head`, `m_count` and `m_slots`, and the reactor that
`m_wake_callback` wakes. -/
structure Queue (α ρ : Type) where
  capacity : Nat := 0
  head : Nat := 0
  count : Nat := 0
  slots : List (Option α) := []
  wakeCallback : Option ρ := none
deriving DecidableEq

/-- A call of a method; `allocates` is whether the allocation in `set_capacity` succeeds. -/
inductive Op (α ρ : Type) where
  | push (u : α)
  | pop
  | size
  | capacity
  | hasData
  | setCapacity (capacity : Nat) (allocates : Bool)
  | setReactor (reactor : Option ρ)

/-- What a call answers. `push` tells the occupancy before it, and here also the element it
dropped and the reactors it woke. -/
inductive Answer (α ρ : Type) where
  | pushed (sizeBefore : Nat) (dropped : Option α) (woken : List ρ)
  | popped (out : Option α)
  | number (n : Nat)
  | flag (b : Bool)
  | done
  | badAlloc
deriving DecidableEq

/-- The addition of `size_t`. -/
def addSize (a b : Nat) : Nat := (a + b) % 2 ^ 64

/-- No vector of slots is longer than this: `max_size` of a vector whose elements take two bytes
or more. -/
def maxSize : Nat := 2 ^ 62

/-- The remainder of `size_t`. -/
def modSize (a b : Nat) : Except Fault Nat := if b = 0 then .error .zeroModulus else .ok (a % b)

/-- `*m_slots[i]`. -/
def deref (slots : List (Option α)) (i : Nat) : Except Fault α :=
  match slots[i]? with
  | none => .error .outOfRange
  | some none => .error .emptySlot
  | some (some x) => .ok x

/-- `m_slots[i].emplace(x)`, and `m_slots[i].reset()` for `none`. -/
def store (slots : List (Option α)) (i : Nat) (x : Option α) : Except Fault (List (Option α)) :=
  if i < slots.length then .ok (slots.set i x) else .error .outOfRange

namespace Queue

/-- `notify_push`: the reactors woken. -/
def notifyPush (q : Queue α ρ) : List ρ := q.wakeCallback.toList

/-- `push`. -/
def push (q : Queue α ρ) (u : α) : Except Fault (Queue α ρ × Answer α ρ) := do
  let sizeBefore := q.count
  if q.capacity = 0 then
    .ok (q, .pushed sizeBefore (some u) [])
  else if q.count < q.capacity then
    let tail ← modSize (addSize q.head q.count) q.capacity
    let slots ← store q.slots tail (some u)
    .ok ({ q with slots := slots, count := addSize q.count 1 },
      .pushed sizeBefore none q.notifyPush)
  else
    let dropped ← deref q.slots q.head
    let slots ← store q.slots q.head (some u)
    let head ← modSize (addSize q.head 1) q.capacity
    .ok ({ q with slots := slots, head := head }, .pushed sizeBefore (some dropped) q.notifyPush)

/-- `pop`. -/
def pop (q : Queue α ρ) : Except Fault (Queue α ρ × Answer α ρ) := do
  if q.count = 0 then
    .ok (q, .popped none)
  else
    let out ← deref q.slots q.head
    let slots ← store q.slots q.head none
    let head ← modSize (addSize q.head 1) q.capacity
    .ok ({ q with slots := slots, head := head, count := q.count - 1 }, .popped (some out))

/-- The loop of `set_capacity` with `n` elements to go, at `new_slots[i]` and `m_slots[idx]`. -/
def moveSlots (q : Queue α ρ) : Nat → Nat → Nat → List (Option α) →
    Except Fault (List (Option α))
  | 0, _, _, newSlots => .ok newSlots
  | n + 1, i, idx, newSlots => do
    let x ← deref q.slots idx
    let newSlots ← store newSlots i (some x)
    let idx ← modSize (addSize idx 1) q.capacity
    q.moveSlots n (i + 1) idx newSlots

/-- `set_capacity`. -/
def setCapacity (q : Queue α ρ) (capacity : Nat) (allocates : Bool) :
    Except Fault (Queue α ρ × Answer α ρ) := do
  if capacity = q.capacity then
    .ok (q, .done)
  else if allocates = false ∨ maxSize < capacity then
    .ok (q, .badAlloc)
  else
    let newSlots := List.replicate capacity none
    let keep := if q.capacity = 0 then 0 else min q.count capacity
    let newSlots ←
      if keep ≠ 0 then do
        let drop := q.count - keep
        let idx ← modSize (addSize q.head drop) q.capacity
        q.moveSlots keep 0 idx newSlots
      else .ok newSlots
    .ok ({ q with slots := newSlots, capacity := capacity, head := 0, count := keep }, .done)

/-- A call. -/
def call (q : Queue α ρ) : Op α ρ → Except Fault (Queue α ρ × Answer α ρ)
  | .push u => q.push u
  | .pop => q.pop
  | .size => .ok (q, .number q.count)
  | .capacity => .ok (q, .number q.capacity)
  | .hasData => .ok (q, .flag (q.count ≠ 0))
  | .setCapacity capacity allocates => q.setCapacity capacity allocates
  | .setReactor reactor => .ok ({ q with wakeCallback := reactor }, .done)

/-- The calls one after the other, with their answers. -/
def run (q : Queue α ρ) : List (Op α ρ) → Except Fault (Queue α ρ × List (Answer α ρ))
  | [] => .ok (q, [])
  | op :: ops => do
    let (q, answer) ← q.call op
    let (q, answers) ← q.run ops
    .ok (q, answer :: answers)

end Queue

/-! ## What the queue is for -/

/-- A list with a bound, and the reactor that its additions wake. -/
structure Bounded (α ρ : Type) where
  bound : Nat := 0
  items : List α := []
  reactor : Option ρ := none

namespace Bounded

/-- An addition to a list of bound zero has no effect and wakes no one. Otherwise the element is
appended, the head of a full list goes first, and the reactor is woken once. -/
def push (b : Bounded α ρ) (u : α) : Bounded α ρ × Answer α ρ :=
  ({ b with items := DropOldest.push b.bound b.items u },
    .pushed b.items.length
      (if b.bound = 0 then some u else if b.items.length = b.bound then b.items.head? else none)
      (if b.bound = 0 then [] else b.reactor.toList))

/-- A new bound keeps the newest elements that fit. Without the memory for it, nothing changes. -/
def setBound (b : Bounded α ρ) (bound : Nat) (allocates : Bool) : Bounded α ρ × Answer α ρ :=
  if bound ≠ b.bound ∧ (allocates = false ∨ maxSize < bound) then (b, .badAlloc)
  else ({ b with bound := bound, items := DropOldest.keep bound b.items }, .done)

/-- A call: a pop takes the head out, and the length is reported. -/
def call (b : Bounded α ρ) : Op α ρ → Bounded α ρ × Answer α ρ
  | .push u => b.push u
  | .pop => ({ b with items := b.items.drop 1 }, .popped b.items.head?)
  | .size => (b, .number b.items.length)
  | .capacity => (b, .number b.bound)
  | .hasData => (b, .flag (!b.items.isEmpty))
  | .setCapacity capacity allocates => b.setBound capacity allocates
  | .setReactor reactor => ({ b with reactor := reactor }, .done)

/-- The calls one after the other, with their answers. -/
def run (b : Bounded α ρ) : List (Op α ρ) → Bounded α ρ × List (Answer α ρ)
  | [] => (b, [])
  | op :: ops => (((b.call op).1.run ops).1, (b.call op).2 :: ((b.call op).1.run ops).2)

end Bounded

end Bfc.LossyQueue
