import Bfc.WakeUp.World

/-!
# The epoll reactor among threads

The part of `epoll_reactor` that threads share: the wake-up callbacks, the eventfd, and the queues
of `reactor_queues`. A step is one critical section, one access to an atomic variable, or one system
call. The queues are those of the poll reactor's world, and so is what is left open: a caller is a
thread, or the reactor thread itself (`none`) while it runs a callback, and callbacks may make any
calls.

The wake path is another one. Every `wake_up` writes to the eventfd, a semaphore of which a pass
reads one. The eventfd blocks: a write waits for room, and a signal may interrupt it only while it
waits. Nothing looks at its result.
-/

namespace Bfc.EpollReactor.Threads

open WakeUp (Queue QueueEntry)

/-- Where a caller is: outside, before the write of `wake_up`, or in `push` before `notify_push`
reads the queue's wake callback. -/
inductive Call (ρ : Type*) where
  | idle
  | write
  | notifyPush (q : ρ)
deriving DecidableEq

/-- Where the reactor thread is: outside `run`, at the loop's test, in `wait`, at the events, with
that of the eventfd still to come or not, at the wake-up callbacks, in `notify` at the next queue
and in a queue's callback, and at the end of the pass. -/
inductive Pc (ρ κ : Type*) where
  | off
  | test
  | wait
  | dispatch (wake : Bool)
  | callbacks
  | check (rest : List (QueueEntry ρ κ)) (backlog : Bool)
  | handler (entry : QueueEntry ρ κ) (rest : List (QueueEntry ρ κ)) (backlog : Bool)
  | tail

/-- The reactor thread is at a place that runs callbacks. -/
def Pc.runsCallbacks {ρ κ : Type*} : Pc ρ κ → Bool
  | .dispatch _ | .callbacks | .handler .. | .tail => true
  | _ => false

/-- The shared state, and where everyone is. `eventFd` is the eventfd's counter. -/
structure World (τ ρ κ α : Type*) where
  running : Bool := false
  wakeUpCb : Batched κ := {}
  eventFd : Nat := 0
  queues : ρ → Queue α
  entries : List (QueueEntry ρ κ) := []
  backlog : Bool := false
  pc : Pc ρ κ := .off
  calls : Option τ → Call ρ := fun _ => .idle

/-- An atomic action. -/
inductive Label (τ ρ κ α : Type*) where
  | wakeUp (c : Option τ) (cb : Option κ)
  | stop (c : Option τ)
  | addQueue (c : Option τ) (q : ρ) (cb : κ)
  | push (c : Option τ) (q : ρ) (x : α)
  | notifyPush (c : Option τ)
  | write (c : Option τ)
  | writeInterrupted (c : Option τ)
  | remQueue (q : ρ)
  | setReactor (q : ρ) (this : Bool)
  | pop (q : ρ) (n : Nat)
  | setCapacity (q : ρ) (capacity : Nat)
  | enter
  | test
  | interrupted
  | waitReturns (wake : Bool)
  | read
  | takeCallbacks
  | runCallback
  | notify
  | hasData
  | recheck
  | notifyReturns
  | endPass

namespace World

variable {τ ρ κ α : Type*} [DecidableEq τ] [DecidableEq ρ]

/-- A new reactor and new queues, of either kind. -/
def init (lossy : ρ → Bool) : World τ ρ κ α :=
  { queues := fun q => { capacity := if lossy q then some 0 else none } }

/-- A caller can begin a call. -/
def mayCall (s : World τ ρ κ α) (c : Option τ) : Prop :=
  s.calls c = .idle ∧ (c = none → s.pc.runsCallbacks = true)

instance (s : World τ ρ κ α) (c : Option τ) : Decidable (s.mayCall c) :=
  inferInstanceAs (Decidable (_ ∧ (c = none → _)))

/-- The caller goes on to `call`. -/
def goto (s : World τ ρ κ α) (c : Option τ) (call : Call ρ) : World τ ρ κ α :=
  { s with calls := Function.update s.calls c call }

/-- A queue changes. -/
def onQueue (s : World τ ρ κ α) (q : ρ) (f : Queue α → Queue α) : World τ ρ κ α :=
  { s with queues := Function.update s.queues q (f (s.queues q)) }

/-- The state after an atomic action, where it can be taken; the eventfd counts up to `room`. -/
def step (room : Nat) (s : World τ ρ κ α) : Label τ ρ κ α → Option (World τ ρ κ α)
  -- the calls
  | .wakeUp c cb =>
    if s.mayCall c then
      some ({ s with wakeUpCb := cb.elim s.wakeUpCb s.wakeUpCb.post }.goto c .write)
    else none
  | .stop c => if s.mayCall c then some ({ s with running := false }.goto c .write) else none
  | .addQueue c q cb =>
    if s.mayCall c then
      some ({ s with entries := WakeUp.World.addEntry s.entries q cb }.goto c .write)
    else none
  | .push c q x =>
    if s.mayCall c then
      some ((s.onQueue q (·.push x)).goto c
        (if (s.queues q).notifies then .notifyPush q else .idle))
    else none
  | .notifyPush c =>
    match s.calls c with
    | .notifyPush q => some (s.goto c (if (s.queues q).bound then .write else .idle))
    | _ => none
  | .write c =>
    if s.calls c = .write ∧ s.eventFd < room then
      some ({ s with eventFd := s.eventFd + 1 }.goto c .idle)
    else none
  | .writeInterrupted c =>
    if s.calls c = .write ∧ room ≤ s.eventFd then some (s.goto c .idle) else none
  | .remQueue q => some { s with entries := s.entries.filter (·.key ≠ q) }
  | .setReactor q this => some (s.onQueue q fun queue => { queue with bound := this })
  | .pop q n => some (s.onQueue q fun queue => { queue with items := queue.items.drop n })
  | .setCapacity q c =>
    if (s.queues q).capacity.isSome then
      some (s.onQueue q fun queue =>
        { queue with capacity := some c, items := DropOldest.keep c queue.items })
    else none
  -- the reactor thread
  | .enter =>
    match s.pc with
    | .off => some { s with running := true, pc := .test }
    | _ => none
  | .test =>
    match s.pc with
    | .test => some { s with pc := if s.running then .wait else .off }
    | _ => none
  | .interrupted =>
    match s.pc with
    | .wait => some { s with pc := .test }
    | _ => none
  | .waitReturns wake =>
    match s.pc with
    | .wait => if wake ∧ s.eventFd = 0 then none else some { s with pc := .dispatch wake }
    | _ => none
  | .read =>
    match s.pc with
    | .dispatch true =>
      -- an eventfd of zero would block the read
      if s.calls none = .idle ∧ 0 < s.eventFd then
        some { s with eventFd := s.eventFd - 1, pc := .dispatch false }
      else none
    | _ => none
  | .takeCallbacks =>
    match s.pc with
    | .dispatch false =>
      if s.calls none = .idle then
        some { s with wakeUpCb := s.wakeUpCb.take, pc := .callbacks }
      else none
    | _ => none
  | .runCallback =>
    match s.pc with
    | .callbacks =>
      if s.calls none = .idle ∧ s.wakeUpCb.batch ≠ [] then
        some { s with wakeUpCb := s.wakeUpCb.next }
      else none
    | _ => none
  | .notify =>
    match s.pc with
    | .callbacks =>
      if s.calls none = .idle ∧ s.wakeUpCb.batch = [] then
        if s.entries = [] then some { s with backlog := false, pc := .tail }
        else some { s with pc := .check s.entries false }
      else none
    | _ => none
  | .hasData =>
    match s.pc with
    | .check (e :: rest) backlog =>
      some { s with
        pc := if (s.queues e.key).hasData then .handler e rest backlog else .check rest backlog }
    | _ => none
  | .recheck =>
    match s.pc with
    | .handler e rest backlog =>
      if s.calls none = .idle then
        some { s with pc := .check rest (backlog || (s.queues e.key).hasData) }
      else none
    | _ => none
  | .notifyReturns =>
    match s.pc with
    | .check [] backlog => some { s with backlog := backlog, pc := .tail }
    | _ => none
  | .endPass =>
    match s.pc with
    | .tail => if s.calls none = .idle then some { s with pc := .test } else none
    | _ => none

/-- What an action can do. -/
inductive Step (room : Nat) : World τ ρ κ α → Label τ ρ κ α → World τ ρ κ α → Prop
  | wakeUp {s : World τ ρ κ α} {c : Option τ} (cb : Option κ) (may : s.mayCall c) :
      Step room s (.wakeUp c cb)
        ({ s with wakeUpCb := cb.elim s.wakeUpCb s.wakeUpCb.post }.goto c .write)
  | stop {s : World τ ρ κ α} {c : Option τ} (may : s.mayCall c) :
      Step room s (.stop c) ({ s with running := false }.goto c .write)
  | addQueue {s : World τ ρ κ α} {c : Option τ} (q : ρ) (cb : κ) (may : s.mayCall c) :
      Step room s (.addQueue c q cb)
        ({ s with entries := WakeUp.World.addEntry s.entries q cb }.goto c .write)
  | push {s : World τ ρ κ α} {c : Option τ} (q : ρ) (x : α) (may : s.mayCall c) :
      Step room s (.push c q x)
        ((s.onQueue q (·.push x)).goto c
          (if (s.queues q).notifies then .notifyPush q else .idle))
  | notifyPush {s : World τ ρ κ α} {c : Option τ} {q : ρ} (call : s.calls c = .notifyPush q) :
      Step room s (.notifyPush c) (s.goto c (if (s.queues q).bound then .write else .idle))
  | write {s : World τ ρ κ α} {c : Option τ} (call : s.calls c = .write)
      (space : s.eventFd < room) :
      Step room s (.write c) ({ s with eventFd := s.eventFd + 1 }.goto c .idle)
  | writeInterrupted {s : World τ ρ κ α} {c : Option τ} (call : s.calls c = .write)
      (full : room ≤ s.eventFd) : Step room s (.writeInterrupted c) (s.goto c .idle)
  | remQueue {s : World τ ρ κ α} (q : ρ) :
      Step room s (.remQueue q) { s with entries := s.entries.filter (·.key ≠ q) }
  | setReactor {s : World τ ρ κ α} (q : ρ) (this : Bool) :
      Step room s (.setReactor q this) (s.onQueue q fun queue => { queue with bound := this })
  | pop {s : World τ ρ κ α} (q : ρ) (n : Nat) :
      Step room s (.pop q n)
        (s.onQueue q fun queue => { queue with items := queue.items.drop n })
  | setCapacity {s : World τ ρ κ α} (q : ρ) (c : Nat) :
      Step room s (.setCapacity q c) (s.onQueue q fun queue =>
        { queue with capacity := some c, items := DropOldest.keep c queue.items })
  | enter {s : World τ ρ κ α} (pc : s.pc = .off) :
      Step room s .enter { s with running := true, pc := .test }
  | test {s : World τ ρ κ α} (pc : s.pc = .test) :
      Step room s .test { s with pc := if s.running then .wait else .off }
  | interrupted {s : World τ ρ κ α} (pc : s.pc = .wait) :
      Step room s .interrupted { s with pc := .test }
  | waitReturns {s : World τ ρ κ α} {wake : Bool} (pc : s.pc = .wait)
      (pos : wake = true → 0 < s.eventFd) :
      Step room s (.waitReturns wake) { s with pc := .dispatch wake }
  | read {s : World τ ρ κ α} (pc : s.pc = .dispatch true) :
      Step room s .read { s with eventFd := s.eventFd - 1, pc := .dispatch false }
  | takeCallbacks {s : World τ ρ κ α} (pc : s.pc = .dispatch false) :
      Step room s .takeCallbacks { s with wakeUpCb := s.wakeUpCb.take, pc := .callbacks }
  | runCallback {s : World τ ρ κ α} (pc : s.pc = .callbacks) :
      Step room s .runCallback { s with wakeUpCb := s.wakeUpCb.next }
  | notifyNone {s : World τ ρ κ α} (pc : s.pc = .callbacks) (unused : s.entries = []) :
      Step room s .notify { s with backlog := false, pc := .tail }
  | notify {s : World τ ρ κ α} (pc : s.pc = .callbacks) :
      Step room s .notify { s with pc := .check s.entries false }
  | hasData {s : World τ ρ κ α} {e : QueueEntry ρ κ} {rest : List (QueueEntry ρ κ)}
      {backlog : Bool} (pc : s.pc = .check (e :: rest) backlog) :
      Step room s .hasData { s with
        pc := if (s.queues e.key).hasData then .handler e rest backlog else .check rest backlog }
  | recheck {s : World τ ρ κ α} {e : QueueEntry ρ κ} {rest : List (QueueEntry ρ κ)}
      {backlog : Bool} (pc : s.pc = .handler e rest backlog) :
      Step room s .recheck { s with
        pc := .check rest (backlog || (s.queues e.key).hasData) }
  | notifyReturns {s : World τ ρ κ α} {backlog : Bool} (pc : s.pc = .check [] backlog) :
      Step room s .notifyReturns { s with backlog := backlog, pc := .tail }
  | endPass {s : World τ ρ κ α} (pc : s.pc = .tail) : Step room s .endPass { s with pc := .test }

/-- The step function takes these steps. -/
theorem Step.of_step {room : Nat} {s s' : World τ ρ κ α} {l : Label τ ρ κ α}
    (h : s.step room l = some s') : Step room s l s' := by
  cases l with
  | wakeUp c cb =>
    obtain ⟨may, h⟩ := Option.ite_none_right_eq_some.mp h
    exact Option.some.inj h ▸ .wakeUp cb may
  | stop c =>
    obtain ⟨may, h⟩ := Option.ite_none_right_eq_some.mp h
    exact Option.some.inj h ▸ .stop may
  | addQueue c q cb =>
    obtain ⟨may, h⟩ := Option.ite_none_right_eq_some.mp h
    exact Option.some.inj h ▸ .addQueue q cb may
  | push c q x =>
    obtain ⟨may, h⟩ := Option.ite_none_right_eq_some.mp h
    exact Option.some.inj h ▸ .push q x may
  | notifyPush c =>
    dsimp only [World.step] at h
    split at h
    · rename_i q call
      exact Option.some.inj h ▸ .notifyPush call
    · cases h
  | write c =>
    obtain ⟨⟨call, space⟩, h⟩ := Option.ite_none_right_eq_some.mp h
    exact Option.some.inj h ▸ .write call space
  | writeInterrupted c =>
    obtain ⟨⟨call, full⟩, h⟩ := Option.ite_none_right_eq_some.mp h
    exact Option.some.inj h ▸ .writeInterrupted call full
  | remQueue q => exact Option.some.inj h ▸ .remQueue q
  | setReactor q this => exact Option.some.inj h ▸ .setReactor q this
  | pop q n => exact Option.some.inj h ▸ .pop q n
  | setCapacity q c =>
    obtain ⟨-, h⟩ := Option.ite_none_right_eq_some.mp h
    exact Option.some.inj h ▸ .setCapacity q c
  | enter =>
    dsimp only [World.step] at h
    split at h
    · rename_i pc
      exact Option.some.inj h ▸ .enter pc
    · cases h
  | test =>
    dsimp only [World.step] at h
    split at h
    · rename_i pc
      exact Option.some.inj h ▸ .test pc
    · cases h
  | interrupted =>
    dsimp only [World.step] at h
    split at h
    · rename_i pc
      exact Option.some.inj h ▸ .interrupted pc
    · cases h
  | waitReturns wake =>
    dsimp only [World.step] at h
    split at h
    · rename_i pc
      obtain ⟨blocks, h⟩ := Option.ite_none_left_eq_some.mp h
      refine Option.some.inj h ▸ .waitReturns pc fun woken => Nat.pos_of_ne_zero fun zero => ?_
      exact blocks ⟨woken, zero⟩
    · cases h
  | read =>
    dsimp only [World.step] at h
    split at h
    · rename_i pc
      obtain ⟨-, h⟩ := Option.ite_none_right_eq_some.mp h
      exact Option.some.inj h ▸ .read pc
    · cases h
  | takeCallbacks =>
    dsimp only [World.step] at h
    split at h
    · rename_i pc
      obtain ⟨-, h⟩ := Option.ite_none_right_eq_some.mp h
      exact Option.some.inj h ▸ .takeCallbacks pc
    · cases h
  | runCallback =>
    dsimp only [World.step] at h
    split at h
    · rename_i pc
      obtain ⟨-, h⟩ := Option.ite_none_right_eq_some.mp h
      exact Option.some.inj h ▸ .runCallback pc
    · cases h
  | notify =>
    dsimp only [World.step] at h
    split at h
    · rename_i pc
      obtain ⟨-, h⟩ := Option.ite_none_right_eq_some.mp h
      split at h
      · rename_i unused
        exact Option.some.inj h ▸ .notifyNone pc unused
      · exact Option.some.inj h ▸ .notify pc
    · cases h
  | hasData =>
    dsimp only [World.step] at h
    split at h
    · rename_i e rest backlog pc
      exact Option.some.inj h ▸ .hasData pc
    · cases h
  | recheck =>
    dsimp only [World.step] at h
    split at h
    · rename_i e rest backlog pc
      obtain ⟨-, h⟩ := Option.ite_none_right_eq_some.mp h
      exact Option.some.inj h ▸ .recheck pc
    · cases h
  | notifyReturns =>
    dsimp only [World.step] at h
    split at h
    · rename_i backlog pc
      exact Option.some.inj h ▸ .notifyReturns pc
    · cases h
  | endPass =>
    dsimp only [World.step] at h
    split at h
    · rename_i pc
      obtain ⟨-, h⟩ := Option.ite_none_right_eq_some.mp h
      exact Option.some.inj h ▸ .endPass pc
    · cases h

/-- A run of the system. -/
abbrev Run (room : Nat) := Lts.Run fun (s : World τ ρ κ α) l s' => s.step room l = some s'

end World

end Bfc.EpollReactor.Threads
