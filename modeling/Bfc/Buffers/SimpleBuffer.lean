import Mathlib.Data.Option.Basic

/-!
# Simple buffers

`simple_buffer` as the source has it: a pointer with a size and a deleter, which can be moved and
not copied. What `data` points to is an element of `β`, and a deleter, whose closure is all that is
of interest in it, one of `δ`; `D{}` is `none`. The calls of deleters are handed to the caller, who
knows what they do. A `noexcept` function that calls an empty deleter ends the program.
-/

namespace Bfc.Buffers

/-- `simple_buffer`. -/
structure SimpleBuffer (β δ : Type) where
  size : Nat := 0
  data : Option β := none
  deleter : Option δ := none
deriving DecidableEq

/-- Undefined behaviour, or the end of a program. -/
inductive Fault where
  | outOfRange
  | terminated
deriving DecidableEq

/-- A call of a deleter. -/
structure Deletion (β δ : Type) where
  deleter : δ
  data : β

namespace SimpleBuffer

variable {β δ : Type}

/-- `simple_buffer(p_data, p_size, p_deleter)`. -/
def make (data : β) (size : Nat) (deleter : δ) : SimpleBuffer β δ :=
  { size := size, data := some data, deleter := some deleter }

/-- `clear`, which is what is left of its argument. -/
def clear (_other : SimpleBuffer β δ) : SimpleBuffer β δ := {}

/-- `reset`, with the deleter's call. -/
def reset (b : SimpleBuffer β δ) :
    Except Fault (SimpleBuffer β δ × Option (Deletion β δ)) :=
  match b.data with
  | none => .ok (clear b, none)
  | some data =>
    match b.deleter with
    | none => .error .terminated
    | some deleter => .ok (clear b, some { deleter := deleter, data := data })

/-- `transfer` into an object whose members do not matter any more: the object, and the other. -/
def transfer (other : SimpleBuffer β δ) : SimpleBuffer β δ × SimpleBuffer β δ :=
  ({ data := other.data, size := other.size, deleter := other.deleter }, clear other)

/-- The move constructor: the new object, and the other. -/
def moveConstruct (other : SimpleBuffer β δ) : SimpleBuffer β δ × SimpleBuffer β δ :=
  ({ size := other.size, data := other.data, deleter := other.deleter }, clear other)

/-- The move assignment between two objects: both, and the deleter's call. -/
def moveAssign (this other : SimpleBuffer β δ) :
    Except Fault (SimpleBuffer β δ × SimpleBuffer β δ × Option (Deletion β δ)) := do
  let (_, deletion) ← this.reset
  let (this, other) := transfer other
  .ok (this, other, deletion)

/-- What the constructors make of a pointer, and the moves keep: nothing without data, and with it
a deleter. -/
structure Formed (b : SimpleBuffer β δ) : Prop where
  empty : b.data = none → b.size = 0
  deletes : b.data.isSome → b.deleter.isSome

theorem formed_default : ({} : SimpleBuffer β δ).Formed where
  empty _ := rfl
  deletes h := by cases h

/-- A formed object can be reset; its deleter is called exactly if it has data. -/
theorem Formed.reset {b : SimpleBuffer β δ} (h : b.Formed) :
    ∃ deletion, b.reset = .ok ({}, deletion) ∧
      deletion.map Deletion.data = b.data ∧
      ∀ d, deletion = some d → b.deleter = some d.deleter := by
  unfold SimpleBuffer.reset
  cases hd : b.data with
  | none => exact ⟨none, rfl, rfl, fun d hd => by cases hd⟩
  | some data =>
    obtain ⟨deleter, hdel⟩ := Option.isSome_iff_exists.mp (h.deletes (by rw [hd]; rfl))
    rw [hdel]
    exact ⟨some { deleter := deleter, data := data }, rfl, rfl,
      fun d same => Option.some.inj same ▸ rfl⟩

/-- The move assignment gives up the target's data and leaves the source empty. -/
theorem Formed.moveAssign {this : SimpleBuffer β δ} (h : this.Formed) (other : SimpleBuffer β δ) :
    ∃ deletion, this.moveAssign other = .ok (other, {}, deletion) ∧
      this.reset = .ok ({}, deletion) := by
  obtain ⟨deletion, reset, -⟩ := h.reset
  refine ⟨deletion, ?_, reset⟩
  simp only [SimpleBuffer.moveAssign, bind, Except.bind, reset]
  rfl

end SimpleBuffer

end Bfc.Buffers
