import Mathlib.Logic.Function.Basic
import Bfc.Lib.DropOldest
import Bfc.Lib.Mutexes

/-!
# Read handlers

What a read handler of a reactive queue may call, with every mutex that is locked on the way: three
of each queue, three of each `cv_reactor`. A handler is given by a name, and what it does is a list
of calls, which may install handlers again; `code` has the list of each name. Callbacks given to
`wake_up` are handlers too.

All of it is on one thread. A binding or a queue's copy of it may be the last owner of a reactor, as
far as the others let go of theirs: `last` says whether it is, and then the reactor's destructor
stops it.

`invoked` is not in the source: it is the queues whose handlers `notify_callback` has invoked, with
the handlers, in order.
-/

namespace Bfc.ReadHandler

open Mutexes

variable {ι ρ κ α : Type*}

/-- The mutexes of a queue and of a reactor: `m_queue_mtx`, `cb_mtx` and `m_reactor_mtx`, and
`m_ctx_mtx`, `m_wake_up_cb_mtx` and `m_wakeup_mtx`. -/
inductive Mutex (ι ρ : Type*) where
  | queue (q : ι)
  | callback (q : ι)
  | binding (q : ι)
  | contexts (r : ρ)
  | wakeUpCb (r : ρ)
  | wakeup (r : ρ)
deriving DecidableEq

/-- A queue: `reactive_event_queue`, or, with a capacity, `reactive_circular_lossy_queue`. -/
structure Queue (ρ κ α : Type*) where
  capacity : Option Nat := none
  items : List α := []
  callback : Option κ := none
  wakeCallback : Option ρ := none

/-- The members of `cv_reactor` that handlers and the loop use. -/
structure Reactor (ι κ : Type*) where
  running : Bool := true
  wakeupReq : Bool := false
  contexts : List ι := []
  wakeUpCb : List κ := []

/-- The queues `ι` and the reactors `ρ`. -/
structure Shared (ι ρ κ α : Type*) where
  queues : ι → Queue ρ κ α
  reactors : ρ → Reactor ι κ := fun _ => {}
  invoked : List (ι × κ) := []

/-- What a handler may call. -/
inductive Op (ι ρ κ α : Type*) where
  | setCallback (q : ι) (cb : Option κ)
  | push (q : ι) (x : α) (last : Bool)
  | pop (q : ι)
  | size (q : ι)
  | hasData (q : ι)
  | setReactor (q : ι) (r : Option ρ) (last : Bool)
  | addReadRdy (r : ρ) (q : ι) (cb : Option κ)
  | removeReadRdy (r : ρ) (q : ι)
  | wakeUp (r : ρ) (cb : Option κ)

namespace Queue

/-- `push`, in its critical section. -/
def push (x : α) (q : Queue ρ κ α) : Queue ρ κ α :=
  match q.capacity with
  | none => { q with items := q.items ++ [x] }
  | some c => { q with items := DropOldest.push c q.items x }

/-- `push` notifies the reactor; a lossy queue only if it has `enqueued`. -/
def enqueues (q : Queue ρ κ α) : Bool := q.capacity ≠ some 0

/-- `pop`: the one queue is emptied, the other loses its oldest element. -/
def pop (q : Queue ρ κ α) : Queue ρ κ α :=
  match q.capacity with
  | none => { q with items := [] }
  | some _ => { q with items := q.items.tail }

end Queue

variable [DecidableEq ι] [DecidableEq ρ]

namespace Shared

def onQueue (q : ι) (f : Queue ρ κ α → Queue ρ κ α) (s : Shared ι ρ κ α) : Shared ι ρ κ α :=
  { s with queues := Function.update s.queues q (f (s.queues q)) }

def onReactor (r : ρ) (f : Reactor ι κ → Reactor ι κ) (s : Shared ι ρ κ α) : Shared ι ρ κ α :=
  { s with reactors := Function.update s.reactors r (f (s.reactors r)) }

end Shared

/-- A thread. -/
abbrev Caller (ι ρ κ α : Type*) := Thread (Mutex ι ρ) (Shared ι ρ κ α)

namespace Caller

/-! ## Calls -/

def setCallback (t : Caller ι ρ κ α) (q : ι) (cb : Option κ) : Option (Caller ι ρ κ α) :=
  t.critical (.callback q) (.onQueue q fun queue => { queue with callback := cb })

/-- A critical section that reads. -/
def reads (t : Caller ι ρ κ α) (m : Mutex ι ρ) : Option (Caller ι ρ κ α) := t.critical m id

/-- `wake_up` up to its request: a callback that is not empty is appended. -/
def append (t : Caller ι ρ κ α) (r : ρ) (cb : Option κ) : Option (Caller ι ρ κ α) :=
  match cb with
  | some k =>
    t.critical (.wakeUpCb r)
      (.onReactor r fun reactor => { reactor with wakeUpCb := reactor.wakeUpCb ++ [k] })
  | none => some t

/-- `wake_up`. -/
def wakeUp (t : Caller ι ρ κ α) (r : ρ) (cb : Option κ) : Option (Caller ι ρ κ α) := do
  let t ← append t r cb
  t.critical (.wakeup r) (.onReactor r fun reactor => { reactor with wakeupReq := true })

/-- `~cv_reactor`, which calls `stop`; if the last owner of the reactor goes. -/
def release (t : Caller ι ρ κ α) (r : Option ρ) (last : Bool) : Option (Caller ι ρ κ α) :=
  match r with
  | some r =>
    if last then
      wakeUp { t with shared := t.shared.onReactor r fun reactor =>
        { reactor with running := false } } r none
    else some t
  | none => some t

/-- `notify_push`: the copy of the wake callback is released after its call. -/
def notifyPush (t : Caller ι ρ κ α) (q : ι) (last : Bool) : Option (Caller ι ρ κ α) := do
  let wakeCallback := (t.shared.queues q).wakeCallback
  let t ← reads t (.binding q)
  match wakeCallback with
  | some r => do
    let t ← wakeUp t r none
    release t (some r) last
  | none => some t

def push (t : Caller ι ρ κ α) (q : ι) (x : α) (last : Bool) : Option (Caller ι ρ κ α) := do
  let enqueued := (t.shared.queues q).enqueues
  let t ← t.critical (.queue q) (.onQueue q (Queue.push x))
  if enqueued then notifyPush t q last else some t

/-- `replace_wake_callback`: the previous one is released outside the critical section. -/
def setReactor (t : Caller ι ρ κ α) (q : ι) (r : Option ρ) (last : Bool) :
    Option (Caller ι ρ κ α) := do
  let retired := (t.shared.queues q).wakeCallback
  let t ← t.critical (.binding q) (.onQueue q fun queue => { queue with wakeCallback := r })
  release t retired last

/-- `add_read_rdy`. -/
def addReadRdy (t : Caller ι ρ κ α) (r : ρ) (q : ι) (cb : Option κ) :
    Option (Caller ι ρ κ α) := do
  let t ← setCallback t q cb
  t.critical (.contexts r) (.onReactor r fun reactor =>
    if q ∈ reactor.contexts then reactor
    else { reactor with contexts := reactor.contexts ++ [q] })

/-- `remove_read_rdy`. -/
def removeReadRdy (t : Caller ι ρ κ α) (r : ρ) (q : ι) : Option (Caller ι ρ κ α) := do
  let t ← setCallback t q none
  t.critical (.contexts r) (.onReactor r fun reactor =>
    { reactor with contexts := reactor.contexts.filter (· ≠ q) })

def perform (t : Caller ι ρ κ α) : Op ι ρ κ α → Option (Caller ι ρ κ α)
  | .setCallback q cb => setCallback t q cb
  | .push q x last => push t q x last
  | .pop q => t.critical (.queue q) (.onQueue q Queue.pop)
  | .size q | .hasData q => reads t (.queue q)
  | .setReactor q r last => setReactor t q r last
  | .addReadRdy r q cb => addReadRdy t r q cb
  | .removeReadRdy r q => removeReadRdy t r q
  | .wakeUp r cb => wakeUp t r cb

/-! ## The callbacks of the loop -/

variable (code : κ → List (Op ι ρ κ α))

/-- A handler is run. -/
def run (t : Caller ι ρ κ α) (k : κ) : Option (Caller ι ρ κ α) := (code k).foldlM perform t

/-- `if (cb) cb()`, in `notify_callback` of a queue. -/
def invoke (t : Caller ι ρ κ α) (q : ι) (cb : Option κ) : Option (Caller ι ρ κ α) :=
  match cb with
  | some k => run code { t with shared :=
      { t.shared with invoked := t.shared.invoked ++ [(q, k)] } } k
  | none => some t

/-- `notify_callback`. The handler of a `reactive_event_queue` is invoked with `cb_mtx` held; that
of a `reactive_circular_lossy_queue` is copied first, and the mutex unlocked. -/
def notifyCallback (t : Caller ι ρ κ α) (q : ι) : Option (Caller ι ρ κ α) := do
  let t ← t.lock (.callback q)
  let cb := (t.shared.queues q).callback
  match (t.shared.queues q).capacity with
  | none => do
    let t ← invoke code t q cb
    some (t.unlock (.callback q))
  | some _ => invoke code (t.unlock (.callback q)) q cb

/-- A queue of the snapshot is notified if it has data. -/
def notifyContext (t : Caller ι ρ κ α) (q : ι) : Option (Caller ι ρ κ α) := do
  let hasData := !(t.shared.queues q).items.isEmpty
  let t ← reads t (.queue q)
  if hasData then notifyCallback code t q else some t

/-- A wake-up that was requested: the queues of the snapshot are notified. -/
def notifyContexts (t : Caller ι ρ κ α) (r : ρ) : Option (Caller ι ρ κ α) := do
  let wakeupReq := (t.shared.reactors r).wakeupReq
  let t ← t.critical (.wakeup r) (.onReactor r fun reactor => { reactor with wakeupReq := false })
  if wakeupReq then do
    let snapshot := (t.shared.reactors r).contexts
    let t ← reads t (.contexts r)
    snapshot.foldlM (notifyContext code) t
  else some t

/-- The wake-up callbacks are taken and run. -/
def runCallbacks (t : Caller ι ρ κ α) (r : ρ) : Option (Caller ι ρ κ α) := do
  let cbl := (t.shared.reactors r).wakeUpCb
  let t ← t.critical (.wakeUpCb r) (.onReactor r fun reactor => { reactor with wakeUpCb := [] })
  cbl.foldlM (run code) t

/-- A pass of `cv_reactor::run` after its wait, up to the timers. -/
def pass (t : Caller ι ρ κ α) (r : ρ) : Option (Caller ι ρ κ α) := do
  let t ← notifyContexts code t r
  runCallbacks code t r

end Caller

/-! ## Runs of the thread -/

/-- What the thread does: a call, `notify_callback`, `set_capacity` of a lossy queue, or a pass of a
reactor's loop. -/
inductive Action (ι ρ κ α : Type*) where
  | call (op : Op ι ρ κ α)
  | notify (q : ι)
  | setCapacity (q : ι) (capacity : Nat)
  | pass (r : ρ)

/-- The step function. -/
def step (code : κ → List (Op ι ρ κ α)) (t : Caller ι ρ κ α) :
    Action ι ρ κ α → Option (Caller ι ρ κ α)
  | .call op => Caller.perform t op
  | .notify q => Caller.notifyCallback code t q
  | .setCapacity q capacity => t.critical (.queue q) (.onQueue q fun queue =>
      { queue with
        capacity := queue.capacity.map fun _ => capacity
        items := if queue.capacity.isSome then DropOldest.keep capacity queue.items
          else queue.items })
  | .pass r => Caller.pass code t r

/-- New queues, some of them lossy, and new reactors. -/
def init (lossy : ι → Bool) : Caller ι ρ κ α where
  shared := { queues := fun q => { capacity := if lossy q then some 0 else none } }

end Bfc.ReadHandler
