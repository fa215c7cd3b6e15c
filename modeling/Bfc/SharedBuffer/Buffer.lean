import Bfc.Lib.References

/-!
# Shared sized buffers

`shared_sized_buffer` as the source has it: views into counted storages, with the special members,
the factories and the modifiers written out over the hand-kept count. The objects of a program are
a table of views, in which a destroyed object leaves an empty slot; storages are never forgotten,
so that one used after its deletion is seen. A local object of the source (`out`, `next`) is a new
slot here, and `out` is the returned object itself.

Sizes are `size_t`, as `UInt64`, whose sums and differences wrap. Using a deleted storage and
copying past the end of one are errors of the model. What memory holds before it is written is an
argument of the operation that allocates it. A release function is named by an element of `ρ`, and
the calls of release functions are kept in order, each with the number of views that refer to the
storage when it is called.
-/

namespace Bfc.SharedBuffer

open References

variable {ρ : Type}

/-- Undefined behaviour. -/
inductive Fault where
  | noView
  | useAfterDelete
  | outOfRange
deriving DecidableEq

/-- A pointer to bytes: null, an array of `new[]`, or the caller's. -/
inductive BytePtr where
  | null
  | allocated (storage : Nat)
  | given (address : Nat)
deriving DecidableEq

/-- A release function: `delete[]`, or the caller's. -/
inductive Release (ρ : Type) where
  | deleteArray
  | given (fn : ρ)
deriving DecidableEq

/-- `shared_sized_buffer`. -/
structure View where
  storage : Option Nat := none
  offset : UInt64 := 0
  size : UInt64 := 0
deriving DecidableEq

/-- `storage`, with the bytes it points to and whether it has been deleted. -/
structure Storage (ρ : Type) where
  bytes : BytePtr := .null
  capacity : UInt64 := 0
  release : Option (Release ρ) := none
  refs : Int := 1
  contents : Nat → UInt8
  deleted : Bool := false

/-- A call of a release function: for a storage, or for bytes that `adopt` refused. -/
structure Released (ρ : Type) where
  storage : Option Nat
  fn : Release ρ
  bytes : BytePtr
  views : Nat := 0
deriving DecidableEq

/-- The views, the storages, and the releases so far. -/
structure State (ρ : Type) where
  views : List (Option View) := []
  storages : List (Storage ρ) := []
  released : List (Released ρ) := []

/-- `release && bytes`: deletion calls the release function. -/
def Storage.releases (st : Storage ρ) : Option (Release ρ) :=
  if st.bytes = .null then none else st.release

namespace State

/-! ## Views and storages -/

/-- The views that refer to a storage. -/
def viewsOf (s : State ρ) (id : Nat) : Nat := holders View.storage s.views id

/-- An object. -/
def view (s : State ρ) (i : Nat) : Except Fault View :=
  match s.views[i]? with
  | some (some v) => .ok v
  | _ => .error .noView

/-- An object is written. -/
def setView (s : State ρ) (i : Nat) (v : View) : State ρ :=
  { s with views := s.views.set i (some v) }

/-- A storage that is in use. -/
def deref (s : State ρ) (id : Nat) : Except Fault (Storage ρ) :=
  match s.storages[id]? with
  | some st => if st.deleted then .error .useAfterDelete else .ok st
  | none => .error .useAfterDelete

/-- A storage is written. -/
def setStorage (s : State ρ) (id : Nat) (st : Storage ρ) : State ρ :=
  { s with storages := s.storages.set id st }

/-- `acquire`. -/
def acquire (s : State ρ) : Option Nat → Except Fault (State ρ)
  | none => .ok s
  | some id => do
    let st ← s.deref id
    .ok (s.setStorage id { st with refs := st.refs + 1 })

/-- `delete`, with `~storage`. -/
def deleteStorage (s : State ρ) (id : Nat) (st : Storage ρ) : State ρ :=
  let s := s.setStorage id { st with deleted := true }
  match st.releases with
  | none => s
  | some fn =>
    { s with released := s.released ++
        [{ storage := some id, fn := fn, bytes := st.bytes, views := s.viewsOf id }] }

/-- `release_ref`. -/
def releaseRef (s : State ρ) : Option Nat → Except Fault (State ρ)
  | none => .ok s
  | some id => do
    let st ← s.deref id
    let dropped := { st with refs := st.refs - 1 }
    .ok (if st.refs = 1 then s.deleteStorage id dropped else s.setStorage id dropped)

/-- `capacity()` of a view. -/
def capacity (s : State ρ) (v : View) : Except Fault UInt64 :=
  match v.storage with
  | none => .ok 0
  | some id => do
    let st ← s.deref id
    .ok (st.capacity - v.offset)

/-- `empty()` of a view. -/
def empty (v : View) : Bool := v.storage.isNone || v.size = 0

/-- `memcpy` of `n` bytes into a storage. -/
def copyBytes (s : State ρ) (id : Nat) (n : UInt64) (bytes : Nat → UInt8) :
    Except Fault (State ρ) := do
  let st ← s.deref id
  if st.capacity < n then .error .outOfRange
  else .ok (s.setStorage id
    { st with contents := fun k => if k < n.toNat then bytes k else st.contents k })

/-! ## The special members -/

/-- A new object. -/
def newView (s : State ρ) (v : View) : State ρ := { s with views := s.views ++ [some v] }

/-- The copy constructor. -/
def copyConstruct (s : State ρ) (other : Nat) : Except Fault (State ρ) := do
  let o ← s.view other
  let s ← s.acquire o.storage
  .ok (s.newView o)

/-- The copy assignment. -/
def copyAssign (s : State ρ) (this other : Nat) : Except Fault (State ρ) := do
  if this = other then
    .ok s
  else
    let old ← s.view this
    let o ← s.view other
    let s ← s.acquire o.storage
    (s.setView this o).releaseRef old.storage

/-- The move constructor. -/
def moveConstruct (s : State ρ) (other : Nat) : Except Fault (State ρ) := do
  let o ← s.view other
  .ok ((s.setView other {}).newView o)

/-- The move assignment. -/
def moveAssign (s : State ρ) (this other : Nat) : Except Fault (State ρ) := do
  if this = other then
    .ok s
  else
    let old ← s.view this
    let o ← s.view other
    ((s.setView other {}).setView this o).releaseRef old.storage

/-- The destructor; from its start on the object is no view any more. -/
def destroy (s : State ρ) (this : Nat) : Except Fault (State ρ) := do
  let v ← s.view this
  { s with views := s.views.set this none }.releaseRef v.storage

/-! ## The factories and the modifiers -/

/-- `allocate`, whose object is the new slot at the end. -/
def allocate (s : State ρ) (capacity : UInt64) (memory : Nat → UInt8) : State ρ :=
  if capacity = 0 then s.newView {}
  else
    let id := s.storages.length
    let st : Storage ρ :=
      { bytes := .allocated id, capacity := capacity, release := some .deleteArray
        contents := memory }
    { s with storages := s.storages ++ [st] }.newView { storage := some id }

/-- `adopt`. -/
def adopt (s : State ρ) (data : BytePtr) (capacity size : UInt64) (release : Option ρ)
    (contents : Nat → UInt8) : State ρ :=
  if data = .null ∨ capacity = 0 ∨ capacity < size then
    let s : State ρ := match release with
      | none => s
      | some fn =>
        if data = .null then s
        else { s with released := s.released ++
          [{ storage := none, fn := .given fn, bytes := data }] }
    s.newView {}
  else
    let id := s.storages.length
    let st : Storage ρ :=
      { bytes := data, capacity := capacity, release := release.map .given, contents := contents }
    { s with storages := s.storages ++ [st] }.newView { storage := some id, size := size }

/-- `clear`. -/
def clear (s : State ρ) (this : Nat) : Except Fault (State ρ) := do
  let v ← s.view this
  (s.setView this {}).releaseRef v.storage

/-- The bytes a view shows, from its first on. -/
def bytesOf (s : State ρ) (v : View) : Except Fault (Nat → UInt8) :=
  match v.storage with
  | none => .error .outOfRange
  | some id => do
    let st ← s.deref id
    if (st.capacity - v.offset) < v.size then .error .outOfRange
    else .ok fun k => st.contents (v.offset.toNat + k)

/-- The middle of `reserve`: `next` gets the bytes that the view shows. -/
def fillNext (s : State ρ) (v : View) (next : Nat) : Except Fault (State ρ) := do
  if empty v then
    .ok s
  else
    let bytes ← s.bytesOf v
    let n ← s.view next
    match n.storage with
    | none => .error .outOfRange
    | some id =>
      let s ← s.copyBytes id v.size bytes
      .ok (s.setView next { n with size := v.size })

/-- `reserve`. -/
def reserve (s : State ρ) (this : Nat) (capacity : UInt64) (memory : Nat → UInt8) :
    Except Fault (State ρ) := do
  let v ← s.view this
  let current ← s.capacity v
  if v.offset ≠ 0 ∨ capacity ≤ current then
    .ok s
  else
    let next := s.views.length
    let s := s.allocate capacity memory
    let s ← s.fillNext v next
    let s ← s.moveAssign this next
    s.destroy next

/-- `m_size = size`. -/
def setSize (s : State ρ) (this : Nat) (size : UInt64) : Except Fault (State ρ) := do
  let v ← s.view this
  .ok (s.setView this { v with size := size })

/-- `resize`. -/
def resize (s : State ρ) (this : Nat) (size : UInt64) (memory : Nat → UInt8) :
    Except Fault (State ρ) := do
  let v ← s.view this
  if v.offset ≠ 0 then
    .ok s
  else
    let current ← s.capacity v
    if current < size then
      let s ← s.reserve this size memory
      s.setSize this size
    else s.setSize this size

/-- `copy_from`; `none` is a null pointer. -/
def copyFrom (s : State ρ) (data : Option (Nat → UInt8)) (size : UInt64)
    (memory : Nat → UInt8) : Except Fault (State ρ) := do
  let out := s.views.length
  let s := s.newView {}
  match data with
  | none => .ok s
  | some bytes =>
    if size = 0 then .ok s
    else
      let s ← s.resize out size memory
      let v ← s.view out
      match v.storage with
      | none => .error .outOfRange
      | some id => s.copyBytes id size bytes

/-- `subview`. -/
def subview (s : State ρ) (this : Nat) (offset size : UInt64) : Except Fault (State ρ) := do
  let v ← s.view this
  if v.storage = none ∨ v.size < offset ∨ v.size - offset < size then
    .ok (s.newView {})
  else
    let s ← s.acquire v.storage
    .ok (s.newView { storage := v.storage, offset := v.offset + offset, size := size })

end State

/-! ## Calls -/

/-- A call; objects are named by their slots. -/
inductive Op (ρ : Type) where
  | construct
  | copyConstruct (other : Nat)
  | copyAssign (this other : Nat)
  | moveConstruct (other : Nat)
  | moveAssign (this other : Nat)
  | destroy (this : Nat)
  | copyFrom (data : Option (Nat → UInt8)) (size : UInt64) (memory : Nat → UInt8)
  | allocate (capacity : UInt64) (memory : Nat → UInt8)
  | adopt (data : BytePtr) (capacity size : UInt64) (release : Option ρ) (contents : Nat → UInt8)
  | clear (this : Nat)
  | reserve (this : Nat) (capacity : UInt64) (memory : Nat → UInt8)
  | resize (this : Nat) (size : UInt64) (memory : Nat → UInt8)
  | subview (this : Nat) (offset size : UInt64)

/-- The objects a call uses. -/
def Op.objects : Op ρ → List Nat
  | .construct | .copyFrom .. | .allocate .. | .adopt .. => []
  | .copyConstruct other | .moveConstruct other => [other]
  | .copyAssign this other | .moveAssign this other => [this, other]
  | .destroy this | .clear this | .reserve this .. | .resize this .. | .subview this .. => [this]

namespace State

/-- An object exists. -/
def live (s : State ρ) (i : Nat) : Bool :=
  match s.views[i]? with
  | some (some _) => true
  | _ => false

/-- The effect of a call. -/
def perform (s : State ρ) : Op ρ → Except Fault (State ρ)
  | .construct => .ok (s.newView {})
  | .copyConstruct other => s.copyConstruct other
  | .copyAssign this other => s.copyAssign this other
  | .moveConstruct other => s.moveConstruct other
  | .moveAssign this other => s.moveAssign this other
  | .destroy this => s.destroy this
  | .copyFrom data size memory => s.copyFrom data size memory
  | .allocate capacity memory => .ok (s.allocate capacity memory)
  | .adopt data capacity size release contents =>
    .ok (s.adopt data capacity size release contents)
  | .clear this => s.clear this
  | .reserve this capacity memory => s.reserve this capacity memory
  | .resize this size memory => s.resize this size memory
  | .subview this offset size => s.subview this offset size

/-- A call, on objects that exist; a program makes no other. -/
def call (s : State ρ) (op : Op ρ) : Except Fault (State ρ) :=
  if op.objects.all s.live then s.perform op else .ok s

/-- The calls one after the other. -/
def run (s : State ρ) (ops : List (Op ρ)) : Except Fault (State ρ) := ops.foldlM call s

end State

end Bfc.SharedBuffer
