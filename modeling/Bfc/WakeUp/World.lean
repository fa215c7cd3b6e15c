import Mathlib.Logic.Function.Basic
import Bfc.Lib.Batched
import Bfc.Lib.DropOldest
import Bfc.Lib.Transition

/-!
# The poll reactor among threads

The part of `poll_reactor` that threads share: the wake-up callbacks, the wake pipe behind
`m_wake_pending`, and the queues of `reactor_queues`. A step is one atomic action. A critical
section is one step, and so is each access to an atomic variable or to the pipe.

A caller is a thread, or the reactor thread itself (`none`) while it runs a callback. Each caller
is in at most one call, and `Call` is where. What a callback does is not fixed: while the reactor
is at a place that runs callbacks, its own caller may make any calls, or none.

The pass is the one of `run`, cut at every action the threads can see. Descriptors, clean-up and
timers do not show here: their callbacks are calls of the reactor's caller.
-/

namespace Bfc.WakeUp

/-- A reactive queue as the reactor and its producers see it: its elements, the bound of a lossy
queue (`none` for `reactive_event_queue`), and whether `m_wake_callback` wakes this reactor. -/
structure Queue (α : Type*) where
  capacity : Option Nat := none
  items : List α := []
  bound : Bool := false

namespace Queue

variable {α : Type*}

/-- `push`, up to its notification. -/
def push (q : Queue α) (x : α) : Queue α :=
  match q.capacity with
  | none => { q with items := q.items ++ [x] }
  | some c => { q with items := DropOldest.push c q.items x }

/-- `push` notifies: only a lossy queue of capacity zero does not. -/
def notifies (q : Queue α) : Bool := q.capacity ≠ some 0

/-- `has_data`. -/
def hasData (q : Queue α) : Bool := !q.items.isEmpty

end Queue

/-- `entry_s` of `reactor_queues`: a registered queue and its callback. -/
structure QueueEntry (ρ κ : Type*) where
  key : ρ
  cb : κ

/-- Where a caller is: outside, before the compare-exchange of `wake_up`, before its write, or in
`push` before `notify_push` reads the queue's wake callback. -/
inductive Call (ρ : Type*) where
  | idle
  | compareExchange
  | write
  | notifyPush (q : ρ)
deriving DecidableEq

/-- Where the reactor thread is: outside `run`, at the loop's test, at `::poll`, in the wake
entry's callback before a read and before the store, at the other callbacks of the dispatch, at
the wake-up callbacks, in `notify` at the next queue and in a queue's callback, and at the end of
the pass. -/
inductive Pc (ρ κ : Type*) where
  | off
  | test
  | poll
  | drain
  | clear
  | dispatch
  | callbacks
  | check (rest : List (QueueEntry ρ κ)) (backlog : Bool)
  | handler (entry : QueueEntry ρ κ) (rest : List (QueueEntry ρ κ)) (backlog : Bool)
  | tail

/-- The reactor thread is at a place that runs callbacks. -/
def Pc.runsCallbacks {ρ κ : Type*} : Pc ρ κ → Bool
  | .dispatch | .callbacks | .handler .. | .tail => true
  | _ => false

/-- What `write` to the pipe answers: one byte, `EINTR`, `EAGAIN`, or another failure. -/
inductive WriteAnswer where
  | one
  | interrupted
  | full
  | failed
deriving DecidableEq

/-- The shared state, and where everyone is. `τ` are the threads, `ρ` the queues, `κ` the
callbacks and `α` the queues' elements. -/
structure World (τ ρ κ α : Type*) where
  running : Bool := false
  wakeUpCb : Batched κ := {}
  wakePending : Bool := false
  pipe : Nat := 0
  queues : ρ → Queue α
  entries : List (QueueEntry ρ κ) := []
  backlog : Bool := false
  pc : Pc ρ κ := .off
  calls : Option τ → Call ρ := fun _ => .idle

/-- An atomic action. -/
inductive Label (τ ρ κ α : Type*) where
  | wakeUp (c : Option τ) (cb : Option κ)
  | stop (c : Option τ)
  | addQueue (c : Option τ) (q : ρ) (cb : κ)
  | push (c : Option τ) (q : ρ) (x : α)
  | notifyPush (c : Option τ)
  | compareExchange (c : Option τ)
  | write (c : Option τ) (answer : WriteAnswer)
  | remQueue (q : ρ)
  | setReactor (q : ρ) (this : Bool)
  | pop (q : ρ) (n : Nat)
  | setCapacity (q : ρ) (capacity : Nat)
  | enter
  | test
  | interrupted
  | pollReturns (wake : Bool)
  | read
  | store
  | takeCallbacks
  | runCallback
  | notify
  | hasData
  | recheck
  | notifyReturns
  | endPass

namespace World

variable {τ ρ κ α : Type*} [DecidableEq τ] [DecidableEq ρ]

/-- A new reactor and new queues, of either kind. -/
def init (lossy : ρ → Bool) : World τ ρ κ α :=
  { queues := fun q => { capacity := if lossy q then some 0 else none } }

/-- A caller can begin a call. -/
def mayCall (s : World τ ρ κ α) (c : Option τ) : Prop :=
  s.calls c = .idle ∧ (c = none → s.pc.runsCallbacks = true)

instance (s : World τ ρ κ α) (c : Option τ) : Decidable (s.mayCall c) :=
  inferInstanceAs (Decidable (_ ∧ (c = none → _)))

/-- The caller goes on to `call`. -/
def goto (s : World τ ρ κ α) (c : Option τ) (call : Call ρ) : World τ ρ κ α :=
  { s with calls := Function.update s.calls c call }

/-- A queue changes. -/
def onQueue (s : World τ ρ κ α) (q : ρ) (f : Queue α → Queue α) : World τ ρ κ α :=
  { s with queues := Function.update s.queues q (f (s.queues q)) }

/-- `reactor_queues::add`: a queue that is registered gets the new callback. -/
def addEntry (entries : List (QueueEntry ρ κ)) (q : ρ) (cb : κ) : List (QueueEntry ρ κ) :=
  if q ∈ entries.map (·.key) then
    entries.map fun e => if e.key = q then { e with cb := cb } else e
  else entries ++ [{ key := q, cb := cb }]

/-- What the kernel may answer to the write of one byte, with room for `room` of them. -/
def mayAnswer (room : Nat) (s : World τ ρ κ α) : WriteAnswer → Bool
  | .one => s.pipe < room
  | .full => room ≤ s.pipe
  | .interrupted | .failed => true

/-- The state after an atomic action, where it can be taken; the pipe has room for `room`
bytes. -/
def step (room : Nat) (s : World τ ρ κ α) : Label τ ρ κ α → Option (World τ ρ κ α)
  -- the calls
  | .wakeUp c cb =>
    if s.mayCall c then
      some ({ s with wakeUpCb := cb.elim s.wakeUpCb s.wakeUpCb.post }.goto c .compareExchange)
    else none
  | .stop c =>
    if s.mayCall c then some ({ s with running := false }.goto c .compareExchange) else none
  | .addQueue c q cb =>
    if s.mayCall c then
      some ({ s with entries := addEntry s.entries q cb }.goto c .compareExchange)
    else none
  | .push c q x =>
    if s.mayCall c then
      some ((s.onQueue q (·.push x)).goto c
        (if (s.queues q).notifies then .notifyPush q else .idle))
    else none
  | .notifyPush c =>
    match s.calls c with
    | .notifyPush q => some (s.goto c (if (s.queues q).bound then .compareExchange else .idle))
    | _ => none
  | .compareExchange c =>
    if s.calls c = .compareExchange then
      if s.wakePending then some (s.goto c .idle)
      else some ({ s with wakePending := true }.goto c .write)
    else none
  | .write c answer =>
    if s.calls c = .write ∧ s.mayAnswer room answer then
      match answer with
      | .one => some ({ s with pipe := s.pipe + 1 }.goto c .idle)
      | .interrupted => some s
      | .full => some (s.goto c .idle)
      | .failed => some ({ s with wakePending := false }.goto c .idle)
    else none
  | .remQueue q => some { s with entries := s.entries.filter (·.key ≠ q) }
  | .setReactor q this => some (s.onQueue q fun queue => { queue with bound := this })
  | .pop q n => some (s.onQueue q fun queue => { queue with items := queue.items.drop n })
  | .setCapacity q c =>
    if (s.queues q).capacity.isSome then
      some (s.onQueue q fun queue =>
        { queue with capacity := some c, items := DropOldest.keep c queue.items })
    else none
  -- the reactor thread
  | .enter =>
    match s.pc with
    | .off => some { s with running := true, pc := .test }
    | _ => none
  | .test =>
    match s.pc with
    | .test => some { s with pc := if s.running then .poll else .off }
    | _ => none
  | .interrupted =>
    match s.pc with
    | .poll => some { s with pc := .test }
    | _ => none
  | .pollReturns wake =>
    match s.pc with
    | .poll =>
      -- the wake entry is the first one, so its callback comes before all others
      if wake then if 0 < s.pipe then some { s with pc := .drain } else none
      else some { s with pc := .dispatch }
    | _ => none
  | .read =>
    match s.pc with
    | .drain =>
      if s.pipe = 0 then some { s with pc := .clear } else some { s with pipe := s.pipe - 64 }
    | _ => none
  | .store =>
    match s.pc with
    | .clear => some { s with wakePending := false, pc := .dispatch }
    | _ => none
  | .takeCallbacks =>
    match s.pc with
    | .dispatch =>
      if s.calls none = .idle then
        some { s with wakeUpCb := s.wakeUpCb.take, pc := .callbacks }
      else none
    | _ => none
  | .runCallback =>
    match s.pc with
    | .callbacks =>
      if s.calls none = .idle ∧ s.wakeUpCb.batch ≠ [] then
        some { s with wakeUpCb := s.wakeUpCb.next }
      else none
    | _ => none
  | .notify =>
    match s.pc with
    | .callbacks =>
      if s.calls none = .idle ∧ s.wakeUpCb.batch = [] then
        if s.entries = [] then some { s with backlog := false, pc := .tail }
        else some { s with pc := .check s.entries false }
      else none
    | _ => none
  | .hasData =>
    match s.pc with
    | .check (e :: rest) backlog =>
      some { s with
        pc := if (s.queues e.key).hasData then .handler e rest backlog else .check rest backlog }
    | _ => none
  | .recheck =>
    match s.pc with
    | .handler e rest backlog =>
      if s.calls none = .idle then
        some { s with pc := .check rest (backlog || (s.queues e.key).hasData) }
      else none
    | _ => none
  | .notifyReturns =>
    match s.pc with
    | .check [] backlog => some { s with backlog := backlog, pc := .tail }
    | _ => none
  | .endPass =>
    match s.pc with
    | .tail => if s.calls none = .idle then some { s with pc := .test } else none
    | _ => none

/-- What an action can do. -/
inductive Step (room : Nat) : World τ ρ κ α → Label τ ρ κ α → World τ ρ κ α → Prop
  | wakeUp {s : World τ ρ κ α} {c : Option τ} (cb : Option κ) (may : s.mayCall c) :
      Step room s (.wakeUp c cb)
        ({ s with wakeUpCb := cb.elim s.wakeUpCb s.wakeUpCb.post }.goto c .compareExchange)
  | stop {s : World τ ρ κ α} {c : Option τ} (may : s.mayCall c) :
      Step room s (.stop c) ({ s with running := false }.goto c .compareExchange)
  | addQueue {s : World τ ρ κ α} {c : Option τ} (q : ρ) (cb : κ) (may : s.mayCall c) :
      Step room s (.addQueue c q cb)
        ({ s with entries := addEntry s.entries q cb }.goto c .compareExchange)
  | push {s : World τ ρ κ α} {c : Option τ} (q : ρ) (x : α) (may : s.mayCall c) :
      Step room s (.push c q x)
        ((s.onQueue q (·.push x)).goto c
          (if (s.queues q).notifies then .notifyPush q else .idle))
  | notifyPush {s : World τ ρ κ α} {c : Option τ} {q : ρ} (call : s.calls c = .notifyPush q) :
      Step room s (.notifyPush c)
        (s.goto c (if (s.queues q).bound then .compareExchange else .idle))
  | pending {s : World τ ρ κ α} {c : Option τ} (call : s.calls c = .compareExchange)
      (on : s.wakePending = true) : Step room s (.compareExchange c) (s.goto c .idle)
  | claim {s : World τ ρ κ α} {c : Option τ} (call : s.calls c = .compareExchange)
      (off : s.wakePending = false) :
      Step room s (.compareExchange c) ({ s with wakePending := true }.goto c .write)
  | write {s : World τ ρ κ α} {c : Option τ} (call : s.calls c = .write)
      (space : s.pipe < room) :
      Step room s (.write c .one) ({ s with pipe := s.pipe + 1 }.goto c .idle)
  | writeInterrupted {s : World τ ρ κ α} {c : Option τ} (call : s.calls c = .write) :
      Step room s (.write c .interrupted) s
  | writeFull {s : World τ ρ κ α} {c : Option τ} (call : s.calls c = .write)
      (noSpace : room ≤ s.pipe) : Step room s (.write c .full) (s.goto c .idle)
  | writeFailed {s : World τ ρ κ α} {c : Option τ} (call : s.calls c = .write) :
      Step room s (.write c .failed) ({ s with wakePending := false }.goto c .idle)
  | remQueue {s : World τ ρ κ α} (q : ρ) :
      Step room s (.remQueue q) { s with entries := s.entries.filter (·.key ≠ q) }
  | setReactor {s : World τ ρ κ α} (q : ρ) (this : Bool) :
      Step room s (.setReactor q this) (s.onQueue q fun queue => { queue with bound := this })
  | pop {s : World τ ρ κ α} (q : ρ) (n : Nat) :
      Step room s (.pop q n)
        (s.onQueue q fun queue => { queue with items := queue.items.drop n })
  | setCapacity {s : World τ ρ κ α} (q : ρ) (c : Nat) :
      Step room s (.setCapacity q c) (s.onQueue q fun queue =>
        { queue with capacity := some c, items := DropOldest.keep c queue.items })
  | enter {s : World τ ρ κ α} (pc : s.pc = .off) :
      Step room s .enter { s with running := true, pc := .test }
  | test {s : World τ ρ κ α} (pc : s.pc = .test) :
      Step room s .test { s with pc := if s.running then .poll else .off }
  | interrupted {s : World τ ρ κ α} (pc : s.pc = .poll) :
      Step room s .interrupted { s with pc := .test }
  | wake {s : World τ ρ κ α} (pc : s.pc = .poll) (pos : 0 < s.pipe) :
      Step room s (.pollReturns true) { s with pc := .drain }
  | arrive {s : World τ ρ κ α} (pc : s.pc = .poll) :
      Step room s (.pollReturns false) { s with pc := .dispatch }
  | drained {s : World τ ρ κ α} (pc : s.pc = .drain) (empty : s.pipe = 0) :
      Step room s .read { s with pc := .clear }
  | drain {s : World τ ρ κ α} (pc : s.pc = .drain) (pos : 0 < s.pipe) :
      Step room s .read { s with pipe := s.pipe - 64 }
  | store {s : World τ ρ κ α} (pc : s.pc = .clear) :
      Step room s .store { s with wakePending := false, pc := .dispatch }
  | takeCallbacks {s : World τ ρ κ α} (pc : s.pc = .dispatch) :
      Step room s .takeCallbacks { s with wakeUpCb := s.wakeUpCb.take, pc := .callbacks }
  | runCallback {s : World τ ρ κ α} (pc : s.pc = .callbacks) :
      Step room s .runCallback { s with wakeUpCb := s.wakeUpCb.next }
  | notifyNone {s : World τ ρ κ α} (pc : s.pc = .callbacks) (unused : s.entries = []) :
      Step room s .notify { s with backlog := false, pc := .tail }
  | notify {s : World τ ρ κ α} (pc : s.pc = .callbacks) :
      Step room s .notify { s with pc := .check s.entries false }
  | hasData {s : World τ ρ κ α} {e : QueueEntry ρ κ} {rest : List (QueueEntry ρ κ)}
      {backlog : Bool} (pc : s.pc = .check (e :: rest) backlog) :
      Step room s .hasData { s with
        pc := if (s.queues e.key).hasData then .handler e rest backlog else .check rest backlog }
  | recheck {s : World τ ρ κ α} {e : QueueEntry ρ κ} {rest : List (QueueEntry ρ κ)}
      {backlog : Bool} (pc : s.pc = .handler e rest backlog) :
      Step room s .recheck { s with
        pc := .check rest (backlog || (s.queues e.key).hasData) }
  | notifyReturns {s : World τ ρ κ α} {backlog : Bool} (pc : s.pc = .check [] backlog) :
      Step room s .notifyReturns { s with backlog := backlog, pc := .tail }
  | endPass {s : World τ ρ κ α} (pc : s.pc = .tail) :
      Step room s .endPass { s with pc := .test }

/-- The step function takes these steps. -/
theorem Step.of_step {room : Nat} {s s' : World τ ρ κ α} {l : Label τ ρ κ α}
    (h : s.step room l = some s') : Step room s l s' := by
  cases l with
  | wakeUp c cb =>
    obtain ⟨may, h⟩ := Option.ite_none_right_eq_some.mp h
    exact Option.some.inj h ▸ .wakeUp cb may
  | stop c =>
    obtain ⟨may, h⟩ := Option.ite_none_right_eq_some.mp h
    exact Option.some.inj h ▸ .stop may
  | addQueue c q cb =>
    obtain ⟨may, h⟩ := Option.ite_none_right_eq_some.mp h
    exact Option.some.inj h ▸ .addQueue q cb may
  | push c q x =>
    obtain ⟨may, h⟩ := Option.ite_none_right_eq_some.mp h
    exact Option.some.inj h ▸ .push q x may
  | notifyPush c =>
    dsimp only [World.step] at h
    split at h
    · rename_i q call
      exact Option.some.inj h ▸ .notifyPush call
    · cases h
  | compareExchange c =>
    obtain ⟨call, h⟩ := Option.ite_none_right_eq_some.mp h
    split at h
    · rename_i on
      exact Option.some.inj h ▸ .pending call on
    · rename_i off
      exact Option.some.inj h ▸ .claim call (eq_false_of_ne_true off)
  | write c answer =>
    obtain ⟨⟨call, may⟩, h⟩ := Option.ite_none_right_eq_some.mp h
    cases answer with
    | one => exact Option.some.inj h ▸ .write call (of_decide_eq_true may)
    | interrupted => exact Option.some.inj h ▸ .writeInterrupted call
    | full => exact Option.some.inj h ▸ .writeFull call (of_decide_eq_true may)
    | failed => exact Option.some.inj h ▸ .writeFailed call
  | remQueue q => exact Option.some.inj h ▸ .remQueue q
  | setReactor q this => exact Option.some.inj h ▸ .setReactor q this
  | pop q n => exact Option.some.inj h ▸ .pop q n
  | setCapacity q c =>
    obtain ⟨-, h⟩ := Option.ite_none_right_eq_some.mp h
    exact Option.some.inj h ▸ .setCapacity q c
  | enter =>
    dsimp only [World.step] at h
    split at h
    · rename_i pc
      exact Option.some.inj h ▸ .enter pc
    · cases h
  | test =>
    dsimp only [World.step] at h
    split at h
    · rename_i pc
      exact Option.some.inj h ▸ .test pc
    · cases h
  | interrupted =>
    dsimp only [World.step] at h
    split at h
    · rename_i pc
      exact Option.some.inj h ▸ .interrupted pc
    · cases h
  | pollReturns wake =>
    dsimp only [World.step] at h
    split at h
    · rename_i pc
      cases wake with
      | true =>
        obtain ⟨pos, h⟩ := Option.ite_none_right_eq_some.mp h
        exact Option.some.inj h ▸ .wake pc pos
      | false => exact Option.some.inj h ▸ .arrive pc
    · cases h
  | read =>
    dsimp only [World.step] at h
    split at h
    · rename_i pc
      split at h
      · rename_i empty
        exact Option.some.inj h ▸ .drained pc empty
      · rename_i nonempty
        exact Option.some.inj h ▸ .drain pc (Nat.pos_of_ne_zero nonempty)
    · cases h
  | store =>
    dsimp only [World.step] at h
    split at h
    · rename_i pc
      exact Option.some.inj h ▸ .store pc
    · cases h
  | takeCallbacks =>
    dsimp only [World.step] at h
    split at h
    · rename_i pc
      obtain ⟨-, h⟩ := Option.ite_none_right_eq_some.mp h
      exact Option.some.inj h ▸ .takeCallbacks pc
    · cases h
  | runCallback =>
    dsimp only [World.step] at h
    split at h
    · rename_i pc
      obtain ⟨-, h⟩ := Option.ite_none_right_eq_some.mp h
      exact Option.some.inj h ▸ .runCallback pc
    · cases h
  | notify =>
    dsimp only [World.step] at h
    split at h
    · rename_i pc
      obtain ⟨-, h⟩ := Option.ite_none_right_eq_some.mp h
      split at h
      · rename_i unused
        exact Option.some.inj h ▸ .notifyNone pc unused
      · exact Option.some.inj h ▸ .notify pc
    · cases h
  | hasData =>
    dsimp only [World.step] at h
    split at h
    · rename_i e rest backlog pc
      exact Option.some.inj h ▸ .hasData pc
    · cases h
  | recheck =>
    dsimp only [World.step] at h
    split at h
    · rename_i e rest backlog pc
      obtain ⟨-, h⟩ := Option.ite_none_right_eq_some.mp h
      exact Option.some.inj h ▸ .recheck pc
    · cases h
  | notifyReturns =>
    dsimp only [World.step] at h
    split at h
    · rename_i backlog pc
      exact Option.some.inj h ▸ .notifyReturns pc
    · cases h
  | endPass =>
    dsimp only [World.step] at h
    split at h
    · rename_i pc
      obtain ⟨-, h⟩ := Option.ite_none_right_eq_some.mp h
      exact Option.some.inj h ▸ .endPass pc
    · cases h

/-- A sequence of atomic actions that can be taken one after the other. -/
abbrev Run (room : Nat) :=
  Lts.Run fun (s : World τ ρ κ α) (l : Label τ ρ κ α) t => s.step room l = some t

end World

end Bfc.WakeUp
