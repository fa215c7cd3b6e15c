import Bfc.Lib.References
import Bfc.MemoryPool.Pool

/-!
# Shared buffers and views of them

`shared_buffer` is `std::shared_ptr` of a buffer, and `simple_shared_buffer_view` shows a part of
one and shares its ownership. The variables of these types are a table, in which a destroyed one
leaves an empty slot; the buffers are those of the pools, so that the last owner that goes has a
block to give back. A call on a shared buffer, `p->reset()` or a move from or to `*p`, is that of
the pools on the buffer which the control block has; the use count is in the control block.

A `shared_ptr` has its documented behaviour: a copy counts, a move does not and leaves null, an
assignment acquires before it releases, and the release that leaves no owner destroys the buffer.
What is not defined of a null pointer or a destroyed buffer is an error of the model. A view of
`const` bytes has the same members, and the element type is left out.
-/

namespace Bfc.MemoryPool

open References

/-- Undefined behaviour. -/
inductive SharedFault where
  | noVariable
  | nullPointer
  | useAfterDestruction
  | inPool (fault : Fault)
deriving DecidableEq

/-- The control block of a `std::shared_ptr`. -/
structure Control where
  buffer : Nat
  uses : Nat
deriving DecidableEq

/-- `simple_shared_buffer_view`, whose pointer is named by its control block. -/
structure View where
  buffer : Option Nat := none
  offset : Nat := 0
  size : Nat := 0
deriving DecidableEq

/-- A variable: a `shared_buffer` or a view. -/
inductive Holder where
  | pointer (buffer : Option Nat)
  | view (v : View)
deriving DecidableEq

/-- The control block that a variable refers to. -/
def Holder.refers : Holder → Option Nat
  | .pointer buffer => buffer
  | .view v => v.buffer

/-- The pools and their buffers, the control blocks, and the variables. -/
structure Shared where
  pools : World := {}
  controls : List Control := []
  holders : List (Option Holder) := []
deriving DecidableEq

namespace Shared

/-! ## Variables -/

/-- A variable that is there. -/
def holder (w : Shared) (i : Nat) : Except SharedFault Holder :=
  match w.holders[i]? with
  | some (some holder) => .ok holder
  | _ => .error .noVariable

/-- A variable of type `shared_buffer`. -/
def pointer (w : Shared) (i : Nat) : Except SharedFault (Option Nat) := do
  match ← w.holder i with
  | .pointer buffer => .ok buffer
  | .view _ => .error .noVariable

/-- A view. -/
def view (w : Shared) (i : Nat) : Except SharedFault View := do
  match ← w.holder i with
  | .pointer _ => .error .noVariable
  | .view v => .ok v

/-- A new variable. -/
def newHolder (w : Shared) (holder : Holder) : Shared :=
  { w with holders := w.holders ++ [some holder] }

/-- A variable is written, or goes. -/
def setHolder (w : Shared) (i : Nat) (holder : Option Holder) : Shared :=
  { w with holders := w.holders.set i holder }

/-! ## Ownership -/

/-- The control block of a buffer that has owners. -/
def control (w : Shared) (id : Nat) : Except SharedFault Control :=
  match w.controls[id]? with
  | some c => if c.uses = 0 then .error .useAfterDestruction else .ok c
  | none => .error .useAfterDestruction

/-- What the pools do. -/
def inPools {α : Type} (x : Except Fault α) : Except SharedFault α := x.mapError .inPool

/-- A `shared_ptr` is copied. -/
def acquire (w : Shared) : Option Nat → Except SharedFault Shared
  | none => .ok w
  | some id => do
    let c ← w.control id
    .ok { w with controls := w.controls.set id { c with uses := c.uses + 1 } }

/-- A `shared_ptr` goes: the last one destroys the buffer. -/
def release (w : Shared) : Option Nat → Except SharedFault Shared
  | none => .ok w
  | some id => do
    let c ← w.control id
    let w := { w with controls := w.controls.set id { c with uses := c.uses - 1 } }
    if c.uses = 1 then
      let pools ← inPools (w.pools.destroy c.buffer)
      .ok { w with pools := pools }
    else .ok w

/-- `*p`. -/
def deref (w : Shared) : Option Nat → Except SharedFault Buffer
  | none => .error .nullPointer
  | some id => do
    let c ← w.control id
    inPools (w.pools.buffer c.buffer)

/-- `std::make_shared<buffer>(std::move(b))`. -/
def makeShared (w : Shared) (b : Nat) : Except SharedFault Shared := do
  let pools ← inPools (w.pools.moveConstruct b)
  let made : Control := { buffer := w.pools.buffers.length, uses := 1 }
  .ok (newHolder { w with pools := pools, controls := w.controls ++ [made] }
    (.pointer (some w.controls.length)))

/-- A copy of a `shared_buffer`. -/
def copyPointer (w : Shared) (other : Nat) : Except SharedFault Shared := do
  let p ← w.pointer other
  let w ← w.acquire p
  .ok (w.newHolder (.pointer p))

/-- `shared_buffer(std::move(other))`. -/
def movePointer (w : Shared) (other : Nat) : Except SharedFault Shared := do
  let p ← w.pointer other
  .ok ((w.setHolder other (some (.pointer none))).newHolder (.pointer p))

/-- The copy assignment of a `shared_buffer`. -/
def assignPointer (w : Shared) (this other : Nat) : Except SharedFault Shared := do
  let old ← w.pointer this
  let p ← w.pointer other
  let w ← w.acquire p
  (w.setHolder this (some (.pointer p))).release old

/-- The move assignment of a `shared_buffer`: `shared_buffer(std::move(other)).swap(*this)`. -/
def moveAssignPointer (w : Shared) (this other : Nat) : Except SharedFault Shared := do
  let p ← w.pointer other
  let w := w.setHolder other (some (.pointer none))
  let old ← w.pointer this
  (w.setHolder this (some (.pointer p))).release old

/-- The destructor of either type. -/
def drop (w : Shared) (this : Nat) : Except SharedFault Shared := do
  let h ← w.holder this
  (w.setHolder this none).release h.refers

/-! ## Views -/

/-- The argument `p_buffer` of a constructor: a copy of a `shared_buffer`, or it is moved there. -/
def argument (w : Shared) (p : Nat) (moved : Bool) :
    Except SharedFault (Option Nat × Shared) := do
  let buffer ← w.pointer p
  if moved then .ok (buffer, w.setHolder p (some (.pointer none)))
  else
    let w ← w.acquire buffer
    .ok (buffer, w)

/-- `simple_shared_buffer_view(p_buffer)`. -/
def fullView (w : Shared) (p : Nat) (moved : Bool) : Except SharedFault Shared := do
  let (buffer, w) ← w.argument p moved
  let b ← w.deref buffer
  .ok (w.newHolder (.view { buffer := buffer, offset := 0, size := b.size }))

/-- `simple_shared_buffer_view(offset, size, p_buffer)`. -/
def partView (w : Shared) (offset size p : Nat) (moved : Bool) : Except SharedFault Shared := do
  let (buffer, w) ← w.argument p moved
  .ok (w.newHolder (.view { buffer := buffer, offset := offset, size := size }))

/-- `get_shared_buffer` of a view: the pointer that is returned. -/
def getSharedBuffer (w : Shared) (v : View) : Except SharedFault (Option Nat × Shared) := do
  let w ← w.acquire v.buffer
  .ok (v.buffer, w)

/-- The constructor of a view of `const` bytes from one of bytes. -/
def constView (w : Shared) (other : Nat) : Except SharedFault Shared := do
  let v ← w.view other
  let (buffer, w) ← w.getSharedBuffer v
  .ok (w.newHolder (.view { buffer := buffer, offset := v.offset, size := v.size }))

/-- The copy constructor. -/
def copyView (w : Shared) (other : Nat) : Except SharedFault Shared := do
  let v ← w.view other
  let w ← w.acquire v.buffer
  .ok (w.newHolder (.view { buffer := v.buffer, offset := v.offset, size := v.size }))

/-- The copy assignment, which assigns member by member. -/
def assignView (w : Shared) (this other : Nat) : Except SharedFault Shared := do
  let old ← w.view this
  let v ← w.view other
  let w ← w.acquire v.buffer
  let w ← (w.setHolder this (some (.view { old with buffer := v.buffer }))).release old.buffer
  .ok (w.setHolder this (some (.view { buffer := v.buffer, offset := v.offset, size := v.size })))

/-- `view(offset, size)`, which checks nothing. -/
def setView (w : Shared) (this offset size : Nat) : Except SharedFault Shared := do
  let v ← w.view this
  .ok (w.setHolder this (some (.view { v with offset := offset, size := size })))

/-- A variable of what `get_shared_buffer` returns. -/
def sharedBuffer (w : Shared) (this : Nat) : Except SharedFault Shared := do
  let v ← w.view this
  let (buffer, w) ← w.getSharedBuffer v
  .ok (w.newHolder (.pointer buffer))

/-- `data()`: the block, or null, and the place that is counted from there. -/
def data (w : Shared) (v : View) : Except SharedFault (Option Nat × Nat) := do
  let b ← w.deref v.buffer
  .ok (b.data, v.offset)

/-- `empty()`. -/
def empty (v : View) : Bool := v.buffer.isNone || v.size = 0

end Shared

/-! ## Calls -/

/-- A call; variables are named by their places. -/
inductive SharedOp where
  | pools (op : Op)
  | makeShared (b : Nat)
  | newPointer
  | copyPointer (other : Nat)
  | movePointer (other : Nat)
  | assignPointer (this other : Nat)
  | moveAssignPointer (this other : Nat)
  | newView
  | fullView (p : Nat) (moved : Bool)
  | partView (offset size p : Nat) (moved : Bool)
  | constView (other : Nat)
  | copyView (other : Nat)
  | assignView (this other : Nat)
  | setView (this offset size : Nat)
  | sharedBuffer (this : Nat)
  | drop (this : Nat)
deriving DecidableEq

/-- The buffers that a call of the pools names. -/
def Op.objects : Op → List Nat
  | .moveConstruct other => [other]
  | .moveAssign this other => [this, other]
  | .reset this | .destroy this => [this]
  | .sizedMemoryPool _ | .log2MemoryPool | .allocate _ | .log2Allocate .. | .construct => []

/-- The buffers that it destroys. -/
def Op.destroys : Op → List Nat
  | .destroy this => [this]
  | _ => []

namespace Shared

/-- A buffer is managed by a control block. -/
def managed (w : Shared) (i : Nat) : Bool := w.controls.any fun c => c.buffer = i

/-- A variable of type `shared_buffer` is there. -/
def isPointer (w : Shared) (i : Nat) : Bool :=
  match w.pointer i with
  | .ok _ => true
  | .error _ => false

/-- A view is there. -/
def isView (w : Shared) (i : Nat) : Bool :=
  match w.view i with
  | .ok _ => true
  | .error _ => false

/-- A variable is there that is not null, and its buffer has room for the part. -/
def room (w : Shared) (buffer : Option Nat) (offset size : Nat) : Bool :=
  match w.deref buffer with
  | .ok b => offset + size ≤ b.size
  | .error _ => false

/-- The variables of a call exist, and the notes of the constructors are heeded, which ask for a
buffer that is there and for a part of it. A shared buffer is destroyed by its owners only. -/
def valid (w : Shared) : SharedOp → Bool
  | .pools op => op.destroys.all fun i => !w.managed i
  | .makeShared b => w.pools.live b
  | .newPointer | .newView => true
  | .copyPointer other | .movePointer other => w.isPointer other
  | .assignPointer this other | .moveAssignPointer this other =>
    w.isPointer this && w.isPointer other
  | .fullView p _ =>
    match w.pointer p with
    | .ok buffer => w.room buffer 0 0
    | .error _ => false
  | .partView offset size p _ =>
    match w.pointer p with
    | .ok buffer => w.room buffer offset size
    | .error _ => false
  | .constView other | .copyView other | .sharedBuffer other | .setView other _ _ => w.isView other
  | .assignView this other => w.isView this && w.isView other
  | .drop this => w.isPointer this || w.isView this

/-- A call that leaves every view inside its buffer: what `view` is called with is a part of it, and
the bytes of a shared buffer stay there. -/
def fits (w : Shared) : SharedOp → Bool
  | .pools op => op.objects.all fun i => !w.managed i
  | .makeShared b => !w.managed b
  | .setView this offset size =>
    match w.view this with
    | .ok v => v.buffer.isNone || w.room v.buffer offset size
    | .error _ => true
  | _ => true

/-- The effect of a call. -/
def perform (w : Shared) : SharedOp → Except SharedFault Shared
  | .pools op => do
    let pools ← inPools (w.pools.call op)
    .ok { w with pools := pools }
  | .makeShared b => w.makeShared b
  | .newPointer => .ok (w.newHolder (.pointer none))
  | .copyPointer other => w.copyPointer other
  | .movePointer other => w.movePointer other
  | .assignPointer this other => w.assignPointer this other
  | .moveAssignPointer this other => w.moveAssignPointer this other
  | .newView => .ok (w.newHolder (.view {}))
  | .fullView p moved => w.fullView p moved
  | .partView offset size p moved => w.partView offset size p moved
  | .constView other => w.constView other
  | .copyView other => w.copyView other
  | .assignView this other => w.assignView this other
  | .setView this offset size => w.setView this offset size
  | .sharedBuffer this => w.sharedBuffer this
  | .drop this => w.drop this

def call (w : Shared) (op : SharedOp) : Except SharedFault Shared :=
  if w.valid op then w.perform op else .ok w

/-- The calls one after the other. -/
def run (w : Shared) (ops : List SharedOp) : Except SharedFault Shared := ops.foldlM call w

/-- All of the calls leave every view inside its buffer. -/
def allFit (w : Shared) : List SharedOp → Bool
  | [] => true
  | op :: ops => w.fits op &&
    match w.call op with
    | .ok w => w.allFit ops
    | .error _ => true

end Shared

end Bfc.MemoryPool
