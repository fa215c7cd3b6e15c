import Mathlib.Data.Nat.Log
import Bfc.Buffers.SimpleBuffer
import Bfc.Lib.Shares

/-!
# Memory pools

`sized_memory_pool` and `log2_memory_pool` as the source has them, with the buffers that a program
has got from them. The pools are a table, and a pool is named by its place, which is what the
deleter of a buffer holds as `this`; a `log2_memory_pool` is the places of its eleven pools. The
objects of type `buffer` are a table too, in which a destroyed one leaves an empty slot.

A block is named by its number among those that `operator new[]` has returned, so that each of them
is a fresh one; for the record, there is for each the pool that asked for it and the size it asked
for. Pools are never destroyed.
-/

namespace Bfc.MemoryPool

open Bfc.Buffers

/-- Undefined behaviour, or the end of the program. -/
inductive Fault where
  | noPool
  | noBuffer
  | inBuffer (fault : Buffers.Fault)
deriving DecidableEq

/-- What a call throws. -/
inductive Thrown where
  | badAlloc
  | outOfRange
deriving DecidableEq

/-- `sized_memory_pool`. -/
structure SizedMemoryPool where
  size : Nat
  allocations : List Nat := []
deriving DecidableEq

/-- `buffer`, with a pool's deleter. -/
abbrev Buffer := SimpleBuffer Nat Nat

/-- The pools, the buffers, and the blocks obtained. -/
structure World where
  pools : List SizedMemoryPool := []
  log2 : List (List Nat) := []
  buffers : List (Option Buffer) := []
  obtained : List (Nat × Nat) := []
deriving DecidableEq

/-- The sizes of the pools of a `log2_memory_pool`. -/
def log2Sizes : List Nat := [16, 32, 64, 128, 256, 512, 1024, 2048, 4096, 8192, 16384]

/-- `std::ceil(std::log2(p_size)) - 4`, the logarithm being exact. -/
def log2Index (size : Nat) : Nat := Nat.clog 2 size - 4

namespace World

/-- `sized_memory_pool(p_size)`. -/
def sizedMemoryPool (w : World) (size : Nat) : World :=
  { w with pools := w.pools ++ [{ size := size }] }

/-- `log2_memory_pool()`. -/
def log2MemoryPool (w : World) : World :=
  { w with
    pools := w.pools ++ log2Sizes.map fun size => { size := size }
    log2 := w.log2 ++ [(List.range log2Sizes.length).map (w.pools.length + ·)] }

/-- A pool that is there. -/
def pool (w : World) (p : Nat) : Except Fault SizedMemoryPool :=
  match w.pools[p]? with
  | some pool => .ok pool
  | none => .error .noPool

/-- `sized_memory_pool::free`. -/
def free (w : World) (p block : Nat) : Except Fault World := do
  let pool ← w.pool p
  .ok { w with
    pools := w.pools.set p { pool with allocations := pool.allocations ++ [block] } }

/-- `allocate_raw`. -/
def allocateRaw (w : World) (p : Nat) : Except Fault (Nat × World) := do
  let pool ← w.pool p
  match pool.allocations.getLast? with
  | some rv =>
    .ok (rv, { w with
      pools := w.pools.set p { pool with allocations := pool.allocations.dropLast } })
  | none => .ok (w.obtained.length, { w with obtained := w.obtained ++ [(p, pool.size)] })

/-- A new object. -/
def newBuffer (w : World) (b : Buffer) : World := { w with buffers := w.buffers ++ [some b] }

/-- `sized_memory_pool::allocate`. -/
def allocate (w : World) (p : Nat) : Except Fault World := do
  let pool ← w.pool p
  let (rv, w) ← w.allocateRaw p
  .ok (w.newBuffer (.make rv pool.size p))

/-- `log2_memory_pool::allocate`. -/
def log2Allocate (w : World) (l size : Nat) : Except Fault (World × Option Thrown) :=
  match w.log2[l]? with
  | none => .error .noPool
  | some pools =>
    if size ≤ 8 then .ok (w, some .badAlloc)
    else
      match pools[log2Index size]? with
      | none => .ok (w, some .outOfRange)
      | some p => do
        let w ← w.allocate p
        .ok (w, none)

/-! ## The buffers -/

/-- An object. -/
def buffer (w : World) (i : Nat) : Except Fault Buffer :=
  match w.buffers[i]? with
  | some (some b) => .ok b
  | _ => .error .noBuffer

/-- A slot is written. -/
def setBuffer (w : World) (i : Nat) (slot : Option Buffer) : World :=
  { w with buffers := w.buffers.set i slot }

/-- The deleter's call: the block goes back to the pool that the deleter holds. -/
def delete (w : World) : Option (Deletion Nat Nat) → Except Fault World
  | none => .ok w
  | some call => w.free call.deleter call.data

/-- What a function of `simple_buffer` does. -/
def lift {α : Type} (x : Except Buffers.Fault α) : Except Fault α := x.mapError .inBuffer

/-- The move constructor. -/
def moveConstruct (w : World) (other : Nat) : Except Fault World := do
  let o ← w.buffer other
  let (new, o) := o.moveConstruct
  .ok ((w.setBuffer other (some o)).newBuffer new)

/-- The move assignment. -/
def moveAssign (w : World) (this other : Nat) : Except Fault World := do
  if this = other then
    .ok w
  else
    let b ← w.buffer this
    let o ← w.buffer other
    let (b, o, call) ← lift (b.moveAssign o)
    let w ← w.delete call
    .ok ((w.setBuffer other (some o)).setBuffer this (some b))

/-- `reset`. -/
def reset (w : World) (this : Nat) : Except Fault World := do
  let b ← w.buffer this
  let (b, call) ← lift b.reset
  let w ← w.delete call
  .ok (w.setBuffer this (some b))

/-- The destructor. -/
def destroy (w : World) (this : Nat) : Except Fault World := do
  let w ← w.reset this
  .ok (w.setBuffer this none)

end World

/-! ## Calls -/

/-- A call; objects are named by their places. -/
inductive Op where
  | sizedMemoryPool (size : Nat)
  | log2MemoryPool
  | allocate (p : Nat)
  | log2Allocate (l size : Nat)
  | construct
  | moveConstruct (other : Nat)
  | moveAssign (this other : Nat)
  | reset (this : Nat)
  | destroy (this : Nat)
deriving DecidableEq

namespace World

/-- An object exists. -/
def live (w : World) (i : Nat) : Bool :=
  match w.buffers[i]? with
  | some (some _) => true
  | _ => false

/-- The objects of a call exist; a program makes no other call, and no call of `free`. -/
def valid (w : World) : Op → Bool
  | .sizedMemoryPool _ | .log2MemoryPool | .construct => true
  | .allocate p => p < w.pools.length
  | .log2Allocate l _ => l < w.log2.length
  | .moveConstruct other => w.live other
  | .moveAssign this other => w.live this && w.live other
  | .reset this | .destroy this => w.live this

/-- The effect of a call. What it throws leaves the world as the call has left it. -/
def perform (w : World) : Op → Except Fault World
  | .sizedMemoryPool size => .ok (w.sizedMemoryPool size)
  | .log2MemoryPool => .ok w.log2MemoryPool
  | .allocate p => w.allocate p
  | .log2Allocate l size => do
    let (w, _) ← w.log2Allocate l size
    .ok w
  | .construct => .ok (w.newBuffer {})
  | .moveConstruct other => w.moveConstruct other
  | .moveAssign this other => w.moveAssign this other
  | .reset this => w.reset this
  | .destroy this => w.destroy this

def call (w : World) (op : Op) : Except Fault World :=
  if w.valid op then w.perform op else .ok w

/-- The calls one after the other. -/
def run (w : World) (ops : List Op) : Except Fault World := ops.foldlM call w

/-! ## Where the blocks are -/

/-- The block of a slot. -/
def blockOf (slot : Option Buffer) : List Nat := (slot.bind SimpleBuffer.data).toList

/-- The blocks that the live buffers own. -/
def owned (w : World) : List Nat := Shares.whole blockOf w.buffers

/-- The blocks in the free lists. -/
def freed (w : World) : List Nat := Shares.whole SizedMemoryPool.allocations w.pools

end World

end Bfc.MemoryPool
