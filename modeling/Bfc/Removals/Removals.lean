import Mathlib.Logic.Function.Basic
import Bfc.Lib.Batched
import Bfc.Lib.Transition
import Bfc.PollReactor.Table
import Bfc.EpollReactor.Table

/-!
# Deferred removals

`defer_removal` and `run_removals`, which `poll_reactor` and `epoll_reactor` share word for word:
the two differ in the `rem_read` and `rem_write` that a removal calls, and those are a parameter.

A step is one critical section of a thread, or one action of the reactor thread. `defer_removal` is
two: it appends to `m_removals`, and then posts `run_removals` through `wake_up`. Callbacks may call
`wake_up` and change the registrations at any time, and so may other threads; the byte that wakes
the reactor is not needed here.

Requests are numbered as they are appended, and a posted `run_removals` has the number of its
request. The code has no such numbers, and no step looks at them.
-/

namespace Bfc.Removals

/-- A reactor, as a removal uses it. -/
structure Reactor (R : Type*) where
  remRead : R → Int → R
  remWrite : R → Int → R

/-- `epoll_reactor`. -/
def epollReactor {κ : Type*} : Reactor (EpollReactor.Reactor κ) where
  remRead s fd := (s.remRead fd).1
  remWrite s fd := (s.remWrite fd).1

/-- `pending_removal_s`, with the number of the request. -/
structure Removal (κ : Type*) where
  ticket : Nat
  fd : Int
  write : Bool
  doneCb : Option κ := none
deriving DecidableEq

/-- A wake-up callback: a caller's, or the `run_removals` posted for a request. -/
inductive WakeUpCb (κ : Type*) where
  | given (cb : κ)
  | runRemovals (ticket : Nat)
deriving DecidableEq

/-- What the reactor thread has done for removals. -/
inductive Act (κ : Type*) where
  | removed (removal : Removal κ)
  | done (cb : κ)
deriving DecidableEq

/-- Where the reactor thread is: not at the wake-up callbacks; in the loop over them; in the
`run_removals` posted for a request, before it swaps out `m_removals`; in its loop, with the
removals still to do; and between a removal and its `done_cb`. -/
inductive Pc (κ : Type*) where
  | elsewhere
  | callbacks
  | swap (ticket : Nat)
  | remove (ticket : Nat) (batch : List (Removal κ))
  | done (ticket : Nat) (cb : κ) (batch : List (Removal κ))
deriving DecidableEq

/-- The shared state, where everyone is, and the record of what was appended and done. `τ` are the
threads, `R` the registrations and `κ` the callbacks. -/
structure World (τ R κ : Type*) where
  table : R
  removals : List (Removal κ) := []
  wakeUpCb : Batched (WakeUpCb κ) := {}
  pc : Pc κ := .elsewhere
  posting : τ → Option Nat := fun _ => none
  appended : List (Removal κ) := []
  acts : List (Act κ) := []

/-- An atomic action. -/
inductive Label (τ R κ : Type*) where
  | append (t : τ) (fd : Int) (write : Bool) (doneCb : Option κ)
  | post (t : τ)
  | wakeUp (cb : κ)
  | table (change : R → R)
  | takeCallbacks
  | nextCallback
  | callbacksEnd
  | swap
  | remove
  | runDone
  | removalsEnd

namespace World

variable {τ R κ : Type*} [DecidableEq τ]

/-- The first step of `defer_removal`. -/
def append (w : World τ R κ) (t : τ) (fd : Int) (write : Bool) (doneCb : Option κ) :
    World τ R κ :=
  let removal : Removal κ :=
    { ticket := w.appended.length, fd := fd, write := write, doneCb := doneCb }
  { w with
    removals := w.removals ++ [removal]
    posting := Function.update w.posting t (some removal.ticket)
    appended := w.appended ++ [removal] }

/-- The second step of `defer_removal`. -/
def post (w : World τ R κ) (t : τ) (ticket : Nat) : World τ R κ :=
  { w with
    wakeUpCb := w.wakeUpCb.post (.runRemovals ticket)
    posting := Function.update w.posting t none }

/-- A callback of the batch is called. -/
def call (w : World τ R κ) : WakeUpCb κ → World τ R κ
  | .given _ => { w with wakeUpCb := w.wakeUpCb.next }
  | .runRemovals ticket => { w with wakeUpCb := w.wakeUpCb.next, pc := .swap ticket }

/-- The body of the loop of `run_removals`, up to the call of `done_cb`. -/
def perform (reactor : Reactor R) (w : World τ R κ) (ticket : Nat) (removal : Removal κ)
    (batch : List (Removal κ)) : World τ R κ :=
  { w with
    table := if removal.write then reactor.remWrite w.table removal.fd
      else reactor.remRead w.table removal.fd
    acts := w.acts ++ [.removed removal]
    pc := match removal.doneCb with
      | some cb => .done ticket cb batch
      | none => .remove ticket batch }

/-- The call of `done_cb`. -/
def runDone (w : World τ R κ) (ticket : Nat) (cb : κ) (batch : List (Removal κ)) : World τ R κ :=
  { w with acts := w.acts ++ [.done cb], pc := .remove ticket batch }

/-- The step function; `none` where the action cannot be taken. -/
def step (reactor : Reactor R) (w : World τ R κ) : Label τ R κ → Option (World τ R κ)
  | .append t fd write doneCb =>
    if w.posting t = none then some (w.append t fd write doneCb) else none
  | .post t =>
    match w.posting t with
    | some ticket => some (w.post t ticket)
    | none => none
  | .wakeUp cb => some { w with wakeUpCb := w.wakeUpCb.post (.given cb) }
  | .table change => some { w with table := change w.table }
  | .takeCallbacks =>
    match w.pc with
    | .elsewhere => some { w with wakeUpCb := w.wakeUpCb.take, pc := .callbacks }
    | _ => none
  | .nextCallback =>
    match w.pc, w.wakeUpCb.batch with
    | .callbacks, cb :: _ => some (w.call cb)
    | _, _ => none
  | .callbacksEnd =>
    match w.pc, w.wakeUpCb.batch with
    | .callbacks, [] => some { w with pc := .elsewhere }
    | _, _ => none
  | .swap =>
    match w.pc with
    | .swap ticket => some { w with removals := [], pc := .remove ticket w.removals }
    | _ => none
  | .remove =>
    match w.pc with
    | .remove ticket (removal :: batch) => some (w.perform reactor ticket removal batch)
    | _ => none
  | .runDone =>
    match w.pc with
    | .done ticket cb batch => some (w.runDone ticket cb batch)
    | _ => none
  | .removalsEnd =>
    match w.pc with
    | .remove _ [] => some { w with pc := .callbacks }
    | _ => none

/-- What a step can do. -/
inductive Step (reactor : Reactor R) : World τ R κ → Label τ R κ → World τ R κ → Prop
  | append {w : World τ R κ} {t : τ} (idle : w.posting t = none) (fd : Int) (write : Bool)
      (doneCb : Option κ) :
      Step reactor w (.append t fd write doneCb) (w.append t fd write doneCb)
  | post {w : World τ R κ} {t : τ} {ticket : Nat} (between : w.posting t = some ticket) :
      Step reactor w (.post t) (w.post t ticket)
  | wakeUp {w : World τ R κ} (cb : κ) :
      Step reactor w (.wakeUp cb) { w with wakeUpCb := w.wakeUpCb.post (.given cb) }
  | table {w : World τ R κ} (change : R → R) :
      Step reactor w (.table change) { w with table := change w.table }
  | takeCallbacks {w : World τ R κ} (pc : w.pc = .elsewhere) :
      Step reactor w .takeCallbacks { w with wakeUpCb := w.wakeUpCb.take, pc := .callbacks }
  | given {w : World τ R κ} {cb : κ} {rest : List (WakeUpCb κ)} (pc : w.pc = .callbacks)
      (batch : w.wakeUpCb.batch = .given cb :: rest) :
      Step reactor w .nextCallback { w with wakeUpCb := w.wakeUpCb.next }
  | runRemovals {w : World τ R κ} {ticket : Nat} {rest : List (WakeUpCb κ)}
      (pc : w.pc = .callbacks) (batch : w.wakeUpCb.batch = .runRemovals ticket :: rest) :
      Step reactor w .nextCallback { w with wakeUpCb := w.wakeUpCb.next, pc := .swap ticket }
  | callbacksEnd {w : World τ R κ} (pc : w.pc = .callbacks) (batch : w.wakeUpCb.batch = []) :
      Step reactor w .callbacksEnd { w with pc := .elsewhere }
  | swap {w : World τ R κ} {ticket : Nat} (pc : w.pc = .swap ticket) :
      Step reactor w .swap { w with removals := [], pc := .remove ticket w.removals }
  | remove {w : World τ R κ} {ticket : Nat} {removal : Removal κ} {batch : List (Removal κ)}
      (pc : w.pc = .remove ticket (removal :: batch)) :
      Step reactor w .remove (w.perform reactor ticket removal batch)
  | runDone {w : World τ R κ} {ticket : Nat} {cb : κ} {batch : List (Removal κ)}
      (pc : w.pc = .done ticket cb batch) :
      Step reactor w .runDone (w.runDone ticket cb batch)
  | removalsEnd {w : World τ R κ} {ticket : Nat} (pc : w.pc = .remove ticket []) :
      Step reactor w .removalsEnd { w with pc := .callbacks }

/-- The step function takes these steps. -/
theorem Step.of_step {reactor : Reactor R} {w w' : World τ R κ} {l : Label τ R κ}
    (h : w.step reactor l = some w') : Step reactor w l w' := by
  cases l with
  | append t fd write doneCb =>
    dsimp only [World.step] at h
    split at h
    · rename_i idle
      exact Option.some.inj h ▸ .append idle fd write doneCb
    · cases h
  | post t =>
    dsimp only [World.step] at h
    split at h
    · rename_i ticket between
      exact Option.some.inj h ▸ .post between
    · cases h
  | wakeUp cb => exact Option.some.inj h ▸ .wakeUp cb
  | table change => exact Option.some.inj h ▸ .table change
  | takeCallbacks =>
    dsimp only [World.step] at h
    split at h
    · rename_i pc
      exact Option.some.inj h ▸ .takeCallbacks pc
    · cases h
  | nextCallback =>
    dsimp only [World.step] at h
    split at h
    · rename_i cb rest pc batch
      obtain rfl := Option.some.inj h
      cases cb with
      | given cb => exact .given pc batch
      | runRemovals ticket => exact .runRemovals pc batch
    · cases h
  | callbacksEnd =>
    dsimp only [World.step] at h
    split at h
    · rename_i pc batch
      exact Option.some.inj h ▸ .callbacksEnd pc batch
    · cases h
  | swap =>
    dsimp only [World.step] at h
    split at h
    · rename_i ticket pc
      exact Option.some.inj h ▸ .swap pc
    · cases h
  | remove =>
    dsimp only [World.step] at h
    split at h
    · rename_i ticket removal batch pc
      exact Option.some.inj h ▸ .remove pc
    · cases h
  | runDone =>
    dsimp only [World.step] at h
    split at h
    · rename_i ticket cb batch pc
      exact Option.some.inj h ▸ .runDone pc
    · cases h
  | removalsEnd =>
    dsimp only [World.step] at h
    split at h
    · rename_i pc
      exact Option.some.inj h ▸ .removalsEnd pc
    · cases h

end World

end Bfc.Removals
