import Bfc.Buffers.SimpleBuffer

/-!
# Sized buffers

`sized_buffer` as the source has it: a `buffer` with a logical size of its own, and the defaulted
moves, which move the one member and copy the other. A storage is owned by the buffer that points to
it and is part of it here, as the list of its bytes; what a deleter is called with is gone.

A copy past the end of a storage is an error of the model. What memory holds before it is written is
an argument of the operation that allocates it.
-/

namespace Bfc.Buffers

variable {ρ : Type}

/-- A deleter: `delete[]`, or the caller's. -/
inductive Deleter (ρ : Type) where
  | deleteArray
  | given (fn : ρ)
deriving DecidableEq

/-- `buffer`, with the bytes it points to. -/
abbrev Buffer (ρ : Type) := SimpleBuffer (List UInt8) (Deleter ρ)

/-- `sized_buffer`. -/
structure SizedBuffer (ρ : Type) where
  size : Nat := 0
  storage : Buffer ρ := {}
deriving DecidableEq

/-- `memcpy`. -/
def memcpy (dest src : List UInt8) (n : Nat) : Except Fault (List UInt8) :=
  if dest.length < n ∨ src.length < n then .error .outOfRange
  else .ok (src.take n ++ dest.drop n)

/-- `new std::byte[n]`. -/
def newBytes (n : Nat) (memory : Nat → UInt8) : List UInt8 := (List.range n).map memory

/-- The bytes that a buffer shows: `size()` of them at `data()`. -/
def bytesOf (b : Buffer ρ) : List UInt8 := (b.data.getD []).take b.size

namespace SizedBuffer

/-- `capacity`. -/
def capacity (b : SizedBuffer ρ) : Nat := b.storage.size

/-- The payload: `size()` bytes at `data()`. -/
def payload (b : SizedBuffer ρ) : List UInt8 := (b.storage.data.getD []).take b.size

/-- `clear`. -/
def clear (b : SizedBuffer ρ) : Except Fault (SizedBuffer ρ) := do
  let (storage, _) ← b.storage.reset
  .ok { storage := storage, size := 0 }

/-- The middle of `reserve`: what the storage holds goes to the new memory. -/
def copyStorage (b : SizedBuffer ρ) (data : List UInt8) : Except Fault (List UInt8) :=
  match b.storage.data with
  | some bytes => if 0 < b.size then memcpy data bytes b.size else .ok data
  | none => .ok data

/-- `reserve`. -/
def reserve (b : SizedBuffer ρ) (newCapacity : Nat) (memory : Nat → UInt8) :
    Except Fault (SizedBuffer ρ) := do
  if newCapacity ≤ b.capacity then
    .ok b
  else
    let data ← b.copyStorage (newBytes newCapacity memory)
    let (storage, _, _) ← b.storage.moveAssign (.make data newCapacity .deleteArray)
    .ok { b with storage := storage }

/-- `resize`. -/
def resize (b : SizedBuffer ρ) (newSize : Nat) (memory : Nat → UInt8) :
    Except Fault (SizedBuffer ρ) := do
  let b ← if b.capacity < newSize then b.reserve newSize memory else .ok b
  .ok { b with size := newSize }

/-- `to_buffer`: the buffer, and what is left. -/
def toBuffer (b : SizedBuffer ρ) (memory : Nat → UInt8) :
    Except Fault (Buffer ρ × SizedBuffer ρ) := do
  if b.size = 0 then
    let b ← b.clear
    .ok ({}, b)
  else if b.size = b.storage.size then
    let (out, storage) := b.storage.moveConstruct
    .ok (out, { size := 0, storage := storage })
  else
    let outSize := b.size
    let data := newBytes outSize memory
    let data ← match b.storage.data with
      | some bytes => memcpy data bytes outSize
      | none => .ok data
    let b ← b.clear
    .ok (.make data outSize .deleteArray, b)

/-- `sized_buffer(buffer, size)`. -/
def ofBuffer (buffer : Buffer ρ) (size : Nat) : Except Fault (SizedBuffer ρ) := do
  let (storage, _, _) ← ({} : Buffer ρ).moveAssign buffer
  .ok { storage := storage, size := size }

/-- The defaulted move constructor, member by member: the new object, and the other. -/
def moveConstruct (other : SizedBuffer ρ) : SizedBuffer ρ × SizedBuffer ρ :=
  let (storage, left) := other.storage.moveConstruct
  ({ size := other.size, storage := storage }, { size := other.size, storage := left })

/-- The defaulted move assignment between two objects: both. -/
def moveAssign (this other : SizedBuffer ρ) : Except Fault (SizedBuffer ρ × SizedBuffer ρ) := do
  let (storage, left, _) ← this.storage.moveAssign other.storage
  .ok ({ size := other.size, storage := storage }, { size := other.size, storage := left })

/-- `data()[k] = byte`, on a byte of the payload. -/
def write (b : SizedBuffer ρ) (k : Nat) (byte : UInt8) : SizedBuffer ρ :=
  { b with storage := { b.storage with data := b.storage.data.map fun bytes => bytes.set k byte } }

end SizedBuffer

/-! ## Calls -/

/-- The objects of a program; a destroyed one leaves an empty slot. -/
abbrev World (ρ : Type) := List (Option (SizedBuffer ρ))

/-- A call; objects are named by their places. -/
inductive Op (ρ : Type) where
  | construct
  | constructSized (initialSize : Nat) (memory : Nat → UInt8)
  | ofBuffer (buffer : Buffer ρ) (size : Nat)
  | moveConstruct (other : Nat)
  | moveAssign (this other : Nat)
  | destroy (this : Nat)
  | clear (this : Nat)
  | reserve (this newCapacity : Nat) (memory : Nat → UInt8)
  | resize (this newSize : Nat) (memory : Nat → UInt8)
  | toBuffer (this : Nat) (memory : Nat → UInt8)
  | write (this k : Nat) (byte : UInt8)

/-- A buffer that a program can have: one without data has no size, and one with data has as many
bytes as it says, and a deleter. -/
def wellFormed (b : Buffer ρ) : Bool :=
  match b.data with
  | none => b.size = 0
  | some bytes => b.size ≤ bytes.length && b.deleter.isSome

namespace World

/-- An object. -/
def object (w : World ρ) (i : Nat) : Option (SizedBuffer ρ) := (w[i]?).join

/-- One object is replaced by what a function makes of it; there is no call on one that does not
exist. -/
def onObject (w : World ρ) (this : Nat)
    (f : SizedBuffer ρ → Except Fault (Option (SizedBuffer ρ))) : Except Fault (World ρ) :=
  match w.object this with
  | none => .ok w
  | some b => do
    let b ← f b
    .ok (w.set this b)

/-- A new object. -/
def construct (w : World ρ) (x : Except Fault (SizedBuffer ρ)) : Except Fault (World ρ) := do
  let b ← x
  .ok (w ++ [some b])

/-- The move constructor. -/
def moveConstruct (w : World ρ) (other : Nat) : World ρ :=
  match w.object other with
  | none => w
  | some o =>
    let (new, left) := o.moveConstruct
    w.set other (some left) ++ [some new]

/-- The move assignment. An object assigned to itself copies its size, and its storage sees to
itself. -/
def moveAssign (w : World ρ) (this other : Nat) : Except Fault (World ρ) :=
  match w.object this, w.object other with
  | some b, some o =>
    if this = other then .ok w
    else do
      let (b, left) ← b.moveAssign o
      .ok ((w.set other (some left)).set this (some b))
  | _, _ => .ok w

/-- The effect of a call. A buffer comes with a size that is not beyond its own. -/
def call (w : World ρ) : Op ρ → Except Fault (World ρ)
  | .construct => w.construct (.ok {})
  | .constructSized initialSize memory =>
    w.construct (({} : SizedBuffer ρ).resize initialSize memory)
  | .ofBuffer buffer size =>
    if wellFormed buffer && size ≤ buffer.size then
      w.construct (SizedBuffer.ofBuffer buffer size)
    else .ok w
  | .moveConstruct other => .ok (w.moveConstruct other)
  | .moveAssign this other => w.moveAssign this other
  | .destroy this => w.onObject this fun b => do
    let _ ← b.storage.reset
    .ok none
  | .clear this => w.onObject this fun b => do
    let b ← b.clear
    .ok (some b)
  | .reserve this newCapacity memory => w.onObject this fun b => do
    let b ← b.reserve newCapacity memory
    .ok (some b)
  | .resize this newSize memory => w.onObject this fun b => do
    let b ← b.resize newSize memory
    .ok (some b)
  | .toBuffer this memory => w.onObject this fun b => do
    let (_, b) ← b.toBuffer memory
    .ok (some b)
  | .write this k byte => w.onObject this fun b =>
    .ok (some (if k < b.size then b.write k byte else b))

/-- The calls of a program, as steps. -/
def step (w : World ρ) (op : Op ρ) : Option (World ρ) := (w.call op).toOption

/-- The size that a call leaves behind in the object it moves from. -/
def leftSize (w : World ρ) : Op ρ → Nat
  | .moveConstruct other => (w.object other).elim 0 SizedBuffer.size
  | .moveAssign this other =>
    if this = other ∨ w.object this = none then 0 else (w.object other).elim 0 SizedBuffer.size
  | _ => 0

end World

end Bfc.Buffers
