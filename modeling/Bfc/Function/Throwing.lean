import Bfc.Lib.Exits

/-!
# Function objects whose callables throw

`bfc::function` again, now for the lifetimes of what it holds. The four pointers and the storage are
five members that are written one by one, so nothing here says that they fit together. A pointer is
named by the callable type whose lambda it points to, and the storage by the callable object that
lives in it, which has a number of its own: `constructed` has the type of each callable object that
was ever constructed in a storage, and `destroyed` those that were destroyed, in order.

A call through a null pointer, or through one to a lambda of a type that is not that of the object
in the storage, goes wrong. A constructor of a callable may throw: each operation constructs one at
most, and is told whether that one throws. What has been done by then stays done, and a function
object whose own constructor is left by an exception has never existed.

The functions are a table, in which one that is gone leaves an empty place. Destructors of
callables do not throw, and the special members of callables do not use the functions.
-/

namespace Bfc.Function.Throwing

open Exits

variable {τ : Type}

/-- `bfc::function`: `m_object`, as the number of the callable object in it, and the pointers. -/
structure FunctionObject (τ : Type) where
  object : Option Nat := none
  fn : Option τ := none
  destroyer : Option τ := none
  copier : Option τ := none
  mover : Option τ := none

/-- `operator bool`. -/
def FunctionObject.engaged (f : FunctionObject τ) : Bool := f.fn.isSome

/-- The functions, and the callable objects that were constructed and destroyed in their storage. -/
structure World (τ : Type) where
  functions : List (Option (FunctionObject τ)) := []
  constructed : List τ := []
  destroyed : List Nat := []

/-- What can go wrong. -/
inductive Fault where
  | nullPointer
  | notThisCallable
  | noFunction
deriving DecidableEq, Repr

/-- What an operation returns, or how it ends otherwise. -/
abbrev Result (τ α : Type) := Except (Exit (World τ) Fault) α

namespace World

/-! ## The storage and the pointers -/

/-- The function at a place. -/
def function (w : World τ) (i : Nat) : Result τ (FunctionObject τ) :=
  match w.functions[i]? with
  | some (some f) => .ok f
  | _ => .error (.wrong .noFunction)

/-- The function at a place becomes this. -/
def put (w : World τ) (i : Nat) (f : FunctionObject τ) : World τ :=
  { w with functions := w.functions.set i (some f) }

/-- `new (m_object) callable_tType(..)`, whose constructor may throw. -/
def newCallable (w : World τ) (this : Nat) (t : τ) (throws : Bool) : Result τ (World τ) := do
  let f ← w.function this
  if throws then .error (.threw w)
  else .ok { w.put this { f with object := some w.constructed.length } with
    constructed := w.constructed ++ [t] }

/-- The callable object in a storage, which a lambda of this type expects there. -/
def callable [DecidableEq τ] (w : World τ) (i : Nat) (t : τ) : Result τ Nat := do
  let f ← w.function i
  match f.object with
  | some n => if w.constructed[n]? = some t then .ok n else .error (.wrong .notThisCallable)
  | none => .error (.wrong .notThisCallable)

/-- `m_copier` or `m_mover`, called with the storage of `this` and of `other`: both construct a
callable in the first from the one in the second. -/
def constructFromOther [DecidableEq τ] (w : World τ) (pointer : Option τ) (this other : Nat)
    (throws : Bool) : Result τ (World τ) :=
  match pointer with
  | none => .error (.wrong .nullPointer)
  | some t => do
    let _ ← w.callable other t
    w.newCallable this t throws

/-- `m_destroyer(m_object)`. -/
def callDestroyer [DecidableEq τ] (w : World τ) (this : Nat) : Result τ (World τ) := do
  let f ← w.function this
  match f.destroyer with
  | none => .error (.wrong .nullPointer)
  | some t => do
    let n ← w.callable this t
    .ok { w.put this { f with object := none } with destroyed := w.destroyed ++ [n] }

/-! ## Member functions -/

def clear (w : World τ) (this : Nat) : Result τ (World τ) := do
  let f ← w.function this
  .ok (w.put this { f with fn := none })

/-- `if (m_fn) m_destroyer(m_object)`. -/
def destroyCallable [DecidableEq τ] (w : World τ) (this : Nat) : Result τ (World τ) := do
  let f ← w.function this
  if f.engaged then w.callDestroyer this else .ok w

def reset [DecidableEq τ] (w : World τ) (this : Nat) : Result τ (World τ) := do
  let w ← w.destroyCallable this
  w.clear this

/-- `~function`. -/
def destroy [DecidableEq τ] (w : World τ) (this : Nat) : Result τ (World τ) := do
  let w ← w.destroyCallable this
  .ok { w with functions := w.functions.set this none }

def copyMetaFrom (w : World τ) (this other : Nat) : Result τ (World τ) := do
  let f ← w.function this
  let o ← w.function other
  .ok (w.put this
    { f with fn := o.fn, destroyer := o.destroyer, copier := o.copier, mover := o.mover })

def set (w : World τ) (this : Nat) (t : τ) (throws : Bool) : Result τ (World τ) := do
  let w ← w.newCallable this t throws
  let f ← w.function this
  .ok (w.put this
    { f with destroyer := some t, copier := some t, mover := some t, fn := some t })

/-- `swap`: the four pointers and the bytes, with the callable objects that they are. -/
def swap (w : World τ) (this other : Nat) : Result τ (World τ) :=
  if this = other then .ok w
  else do
    let f ← w.function this
    let o ← w.function other
    .ok ((w.put this o).put other f)

/-- A constructor, with its body: the object is at the next place, its members are initialised, and
if the body throws it is no object. -/
def constructing (w : World τ) (body : World τ → Nat → Result τ (World τ)) : Result τ (World τ) :=
  let this := w.functions.length
  match body { w with functions := w.functions ++ [some {}] } this with
  | .error (.threw w) => .error (.threw { w with functions := w.functions.set this none })
  | r => r

/-- `function()` and `function(std::nullptr_t)`. -/
def construct (w : World τ) : Result τ (World τ) := w.constructing fun w this => w.clear this

/-- `function(callable_t&&)`. -/
def constructFrom (w : World τ) (t : τ) (throws : Bool) : Result τ (World τ) :=
  w.constructing fun w this => w.set this t throws

/-- `function(const function&)`. -/
def copyConstruct [DecidableEq τ] (w : World τ) (other : Nat) (throws : Bool) :
    Result τ (World τ) :=
  w.constructing fun w this => do
    let o ← w.function other
    if o.engaged then do
      let w ← w.constructFromOther o.copier this other throws
      w.copyMetaFrom this other
    else w.clear this

/-- What `function(function&&)` and `operator=(function&&)` have in common. -/
def moveFrom [DecidableEq τ] (w : World τ) (this other : Nat) (throws : Bool) :
    Result τ (World τ) := do
  let o ← w.function other
  if o.engaged then do
    let w ← w.constructFromOther o.mover this other throws
    let w ← w.copyMetaFrom this other
    w.reset other
  else w.clear this

/-- `function(function&&)`. -/
def moveConstruct [DecidableEq τ] (w : World τ) (other : Nat) (throws : Bool) :
    Result τ (World τ) :=
  w.constructing fun w this => w.moveFrom this other throws

/-- `operator=(const function&)`: the temporary is at the next place. -/
def copyAssign [DecidableEq τ] (w : World τ) (this other : Nat) (throws : Bool) :
    Result τ (World τ) :=
  if this = other then .ok w
  else do
    let tmp := w.functions.length
    let w ← w.copyConstruct other throws
    let w ← w.swap this tmp
    w.destroy tmp

/-- `operator=(function&&)`. -/
def moveAssign [DecidableEq τ] (w : World τ) (this other : Nat) (throws : Bool) :
    Result τ (World τ) :=
  if this = other then .ok w
  else do
    let w ← w.reset this
    w.moveFrom this other throws

/-- `operator=(callable_t&&)`. -/
def assign [DecidableEq τ] (w : World τ) (this : Nat) (t : τ) (throws : Bool) :
    Result τ (World τ) := do
  let w ← w.reset this
  w.set this t throws

end World

/-! ## Programs -/

/-- What a program does with functions. `construct` is also the construction from `nullptr`, and
`reset` also its assignment. -/
inductive Op (τ : Type) where
  | construct
  | constructFrom (t : τ) (throws : Bool)
  | copyConstruct (other : Nat) (throws : Bool)
  | moveConstruct (other : Nat) (throws : Bool)
  | copyAssign (this other : Nat) (throws : Bool)
  | moveAssign (this other : Nat) (throws : Bool)
  | assign (this : Nat) (t : τ) (throws : Bool)
  | reset (this : Nat)
  | swap (this other : Nat)
  | destroy (this : Nat)

namespace World

/-- There is a function at a place. -/
def live (w : World τ) (i : Nat) : Bool :=
  match w.functions[i]? with
  | some (some _) => true
  | _ => false

/-- The functions that an operation is on exist; a program makes no other. -/
def valid (w : World τ) : Op τ → Bool
  | .construct | .constructFrom .. => true
  | .copyConstruct other _ | .moveConstruct other _ => w.live other
  | .copyAssign this other _ | .moveAssign this other _ | .swap this other =>
    w.live this && w.live other
  | .assign this _ _ | .reset this | .destroy this => w.live this

variable [DecidableEq τ]

/-- The effect of an operation. -/
def perform (w : World τ) : Op τ → Result τ (World τ)
  | .construct => w.construct
  | .constructFrom t throws => w.constructFrom t throws
  | .copyConstruct other throws => w.copyConstruct other throws
  | .moveConstruct other throws => w.moveConstruct other throws
  | .copyAssign this other throws => w.copyAssign this other throws
  | .moveAssign this other throws => w.moveAssign this other throws
  | .assign this t throws => w.assign this t throws
  | .reset this => w.reset this
  | .swap this other => w.swap this other
  | .destroy this => w.destroy this

/-- What an operation leaves: the program goes on after an exception. -/
def call (w : World τ) (op : Op τ) : Except Fault (World τ) :=
  if w.valid op then left (w.perform op) else .ok w

/-- The operations one after the other. -/
def run (w : World τ) (ops : List (Op τ)) : Except Fault (World τ) := ops.foldlM call w

end World

end Bfc.Function.Throwing
