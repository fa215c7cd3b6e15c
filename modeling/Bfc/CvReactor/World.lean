import Bfc.WakeUp.World

/-!
# The condition-variable reactor among threads

`cv_reactor` with the queues it serves. A step is one critical section, one access to an atomic
variable, or one move of the condition variable: `m_cv.wait_for` evaluates its predicate and blocks
in one step, and may wake up for no reason or with the timeout. `m_wakeup_mtx` is held from the
wait's return to the branch on `m_wakeup_req`; every other critical section is a single step.

A caller is a thread, or the reactor thread itself (`none`) while it runs a callback: a queue's
handler, a wake-up callback, or a timer's. What callbacks do is not fixed, except that the handlers
of certain queues drain them: they pop until they have seen the queue empty.

For the record a run of `run` has a number, a call of `stop` keeps the number of the run it began
in, and `appended` is what was appended to `m_wake_up_cb`. No step looks at any of that.
-/

namespace Bfc.CvReactor

open WakeUp (Queue)

/-- Where a caller is: outside; in `stop` before `m_running = false`; in `wake_up` before it has
`m_wakeup_mtx`, for the `stop` of a run or for no `stop`; in `push` before `notify_push` reads the
queue's wake callback; and in `add_read_rdy` and `remove_read_rdy` before they have `m_ctx_mtx`. -/
inductive Call (ρ : Type*) where
  | idle
  | stopping (run : Nat)
  | request (stop : Option Nat)
  | notifyPush (q : ρ)
  | addContext (q : ρ)
  | removeContext (q : ρ)
deriving DecidableEq

/-- Where the reactor thread is: outside `run`; in it before `m_running = true`; at the loop's test;
before the wait has `m_wakeup_mtx`, and blocked in it; with the mutex held, before the test of
`m_running` and before the branch on `m_wakeup_req`; before the snapshot; in the loop over it,
before `has_data`, before `notify_callback`, and in a handler, which has seen its queue empty or
not; before it takes the wake-up callbacks, at them, and at the timers. -/
inductive Pc (ρ : Type*) where
  | off
  | entered
  | test
  | wait
  | blocked
  | returned
  | branch
  | snapshot
  | scan (rest : List ρ)
  | notify (q : ρ) (rest : List ρ)
  | handler (q : ρ) (rest : List ρ) (drained : Bool)
  | take
  | callbacks
  | timers
deriving DecidableEq

/-- The reactor thread is at a place that runs callbacks. -/
def Pc.runsCallbacks {ρ : Type*} : Pc ρ → Bool
  | .handler .. | .callbacks | .timers => true
  | _ => false

/-- The reactor thread has `m_wakeup_mtx`. -/
def Pc.holdsMutex {ρ : Type*} : Pc ρ → Bool
  | .returned | .branch => true
  | _ => false

/-- The shared state, where everyone is, and the record. `τ` are the threads, `ρ` the queues, `κ`
the callbacks that are not empty and `α` the queues' elements. -/
structure World (τ ρ κ α : Type*) where
  running : Bool := false
  wakeupReq : Bool := false
  wakeUpCb : Batched κ := {}
  queues : ρ → Queue α
  callback : ρ → Option κ := fun _ => none
  contexts : List ρ := []
  pc : Pc ρ := .off
  calls : Option τ → Call ρ := fun _ => .idle
  runs : Nat := 0
  stopped : List Nat := []
  appended : List κ := []

/-- An atomic action. -/
inductive Label (τ ρ κ α : Type*) where
  | wakeUp (c : Option τ) (cb : Option κ)
  | request (c : Option τ)
  | stop (c : Option τ)
  | clearRunning (c : Option τ)
  | push (c : Option τ) (q : ρ) (x : α)
  | notifyPush (c : Option τ)
  | addReadRdy (c : Option τ) (q : ρ) (cb : κ)
  | addContext (c : Option τ)
  | removeReadRdy (c : Option τ) (q : ρ)
  | removeContext (c : Option τ)
  | setReactor (q : ρ) (this : Bool)
  | setCapacity (q : ρ) (capacity : Nat)
  | pop (q : ρ) (n : Nat)
  | run
  | setRunning
  | test
  | evaluate
  | timeout
  | spurious
  | testRunning
  | branch
  | snapshot
  | hasData
  | notifyCallback
  | handlerReturns
  | scanned
  | takeCallbacks
  | runCallback
  | callbacksEnd
  | endPass

namespace World

variable {τ ρ κ α : Type*} [DecidableEq τ] [DecidableEq ρ]

/-- A new reactor and new queues, of either kind. -/
def init (lossy : ρ → Bool) : World τ ρ κ α :=
  { queues := fun q => { capacity := if lossy q then some 0 else none } }

/-- A caller can begin a call. -/
def mayCall (s : World τ ρ κ α) (c : Option τ) : Prop :=
  s.calls c = .idle ∧ (c = none → s.pc.runsCallbacks = true)

instance (s : World τ ρ κ α) (c : Option τ) : Decidable (s.mayCall c) :=
  inferInstanceAs (Decidable (_ ∧ (c = none → _)))

/-- The caller goes on to `call`. -/
def goto (s : World τ ρ κ α) (c : Option τ) (call : Call ρ) : World τ ρ κ α :=
  { s with calls := Function.update s.calls c call }

/-- A queue changes. -/
def onQueue (s : World τ ρ κ α) (q : ρ) (f : Queue α → Queue α) : World τ ρ κ α :=
  { s with queues := Function.update s.queues q (f (s.queues q)) }

/-- `wake_up` up to its request: a callback that is not empty is appended. -/
def append (s : World τ ρ κ α) : Option κ → World τ ρ κ α
  | some cb => { s with wakeUpCb := s.wakeUpCb.post cb, appended := s.appended ++ [cb] }
  | none => s

/-- `m_cv.notify_one`: the reactor thread wakes if it is blocked. -/
def notified (pc : Pc ρ) : Pc ρ := if pc = .blocked then .wait else pc

/-- A pop from the queue whose handler is running, which leaves it empty, is what a handler that
drains waits for. -/
def popped (q : ρ) (empty : Bool) : Pc ρ → Pc ρ
  | .handler q' rest drained =>
    .handler q' rest (if q' = q ∧ empty then true else drained)
  | pc => pc

/-- The state after an atomic action, where it can be taken; the handlers of `drains` drain. -/
def step (drains : ρ → Bool) (s : World τ ρ κ α) : Label τ ρ κ α → Option (World τ ρ κ α)
  -- the calls
  | .wakeUp c cb =>
    if s.mayCall c then some ((s.append cb).goto c (.request none)) else none
  | .request c =>
    match s.calls c with
    | .request stop =>
      if s.pc.holdsMutex then none
      else some ({ s with
        wakeupReq := true
        pc := notified s.pc
        stopped := s.stopped ++ stop.toList }.goto c .idle)
    | _ => none
  | .stop c => if s.mayCall c then some (s.goto c (.stopping s.runs)) else none
  | .clearRunning c =>
    match s.calls c with
    | .stopping run => some ({ s with running := false }.goto c (.request (some run)))
    | _ => none
  | .push c q x =>
    if s.mayCall c then
      some ((s.onQueue q (·.push x)).goto c
        (if (s.queues q).notifies then .notifyPush q else .idle))
    else none
  | .notifyPush c =>
    match s.calls c with
    | .notifyPush q => some (s.goto c (if (s.queues q).bound then .request none else .idle))
    | _ => none
  | .addReadRdy c q cb =>
    if s.mayCall c then
      some ({ s with callback := Function.update s.callback q (some cb) }.goto c (.addContext q))
    else none
  | .addContext c =>
    match s.calls c with
    | .addContext q =>
      some ({ s with
        contexts := if q ∈ s.contexts then s.contexts else s.contexts ++ [q] }.goto c .idle)
    | _ => none
  | .removeReadRdy c q =>
    if s.mayCall c then
      some ({ s with callback := Function.update s.callback q none }.goto c (.removeContext q))
    else none
  | .removeContext c =>
    match s.calls c with
    | .removeContext q =>
      some ({ s with contexts := s.contexts.filter (· ≠ q) }.goto c .idle)
    | _ => none
  | .setReactor q this => some (s.onQueue q fun queue => { queue with bound := this })
  | .setCapacity q c =>
    if (s.queues q).capacity.isSome then
      some (s.onQueue q fun queue =>
        { queue with capacity := some c, items := DropOldest.keep c queue.items })
    else none
  | .pop q n =>
    some { s.onQueue q fun queue => { queue with items := queue.items.drop n } with
      pc := popped q ((s.queues q).items.drop n).isEmpty s.pc }
  -- the reactor thread
  | .run =>
    match s.pc with
    | .off => some { s with runs := s.runs + 1, pc := .entered }
    | _ => none
  | .setRunning =>
    match s.pc with
    | .entered => some { s with running := true, pc := .test }
    | _ => none
  | .test =>
    match s.pc with
    | .test => some { s with pc := if s.running then .wait else .off }
    | _ => none
  | .evaluate =>
    match s.pc with
    | .wait => some { s with pc := if s.wakeupReq || !s.running then .returned else .blocked }
    | _ => none
  | .timeout =>
    match s.pc with
    | .blocked => some { s with pc := .returned }
    | _ => none
  | .spurious =>
    match s.pc with
    | .blocked => some { s with pc := .wait }
    | _ => none
  | .testRunning =>
    match s.pc with
    | .returned => some { s with pc := if s.running then .branch else .off }
    | _ => none
  | .branch =>
    match s.pc with
    | .branch =>
      if s.wakeupReq then some { s with wakeupReq := false, pc := .snapshot }
      else some { s with pc := .take }
    | _ => none
  | .snapshot =>
    match s.pc with
    | .snapshot => some { s with pc := .scan s.contexts }
    | _ => none
  | .hasData =>
    match s.pc with
    | .scan (q :: rest) =>
      some { s with pc := if (s.queues q).hasData then .notify q rest else .scan rest }
    | _ => none
  | .notifyCallback =>
    match s.pc with
    | .notify q rest =>
      some { s with pc := if (s.callback q).isSome then .handler q rest false else .scan rest }
    | _ => none
  | .handlerReturns =>
    match s.pc with
    | .handler q rest drained =>
      if s.calls none = .idle ∧ (drains q = true → drained = true) then
        some { s with pc := .scan rest }
      else none
    | _ => none
  | .scanned =>
    match s.pc with
    | .scan [] => some { s with pc := .take }
    | _ => none
  | .takeCallbacks =>
    match s.pc with
    | .take => some { s with wakeUpCb := s.wakeUpCb.take, pc := .callbacks }
    | _ => none
  | .runCallback =>
    match s.pc with
    | .callbacks =>
      if s.calls none = .idle ∧ s.wakeUpCb.batch ≠ [] then
        some { s with wakeUpCb := s.wakeUpCb.next }
      else none
    | _ => none
  | .callbacksEnd =>
    match s.pc with
    | .callbacks =>
      if s.calls none = .idle ∧ s.wakeUpCb.batch = [] then some { s with pc := .timers } else none
    | _ => none
  | .endPass =>
    match s.pc with
    | .timers => if s.calls none = .idle then some { s with pc := .test } else none
    | _ => none

/-- A sequence of atomic actions that can be taken one after the other. -/
abbrev Run (drains : ρ → Bool) :=
  Lts.Run fun (s : World τ ρ κ α) (l : Label τ ρ κ α) t => s.step drains l = some t

/-- What an action can do. -/
inductive Step (drains : ρ → Bool) : World τ ρ κ α → Label τ ρ κ α → World τ ρ κ α → Prop
  | wakeUp {s : World τ ρ κ α} {c : Option τ} (cb : Option κ) (may : s.mayCall c) :
      Step drains s (.wakeUp c cb) ((s.append cb).goto c (.request none))
  | request {s : World τ ρ κ α} {c : Option τ} {stop : Option Nat}
      (call : s.calls c = .request stop) (unlocked : s.pc.holdsMutex = false) :
      Step drains s (.request c) ({ s with
        wakeupReq := true
        pc := notified s.pc
        stopped := s.stopped ++ stop.toList }.goto c .idle)
  | stop {s : World τ ρ κ α} {c : Option τ} (may : s.mayCall c) :
      Step drains s (.stop c) (s.goto c (.stopping s.runs))
  | clearRunning {s : World τ ρ κ α} {c : Option τ} {run : Nat} (call : s.calls c = .stopping run) :
      Step drains s (.clearRunning c) ({ s with running := false }.goto c (.request (some run)))
  | push {s : World τ ρ κ α} {c : Option τ} (q : ρ) (x : α) (may : s.mayCall c) :
      Step drains s (.push c q x) ((s.onQueue q (·.push x)).goto c
        (if (s.queues q).notifies then .notifyPush q else .idle))
  | notifyPush {s : World τ ρ κ α} {c : Option τ} {q : ρ} (call : s.calls c = .notifyPush q) :
      Step drains s (.notifyPush c)
        (s.goto c (if (s.queues q).bound then .request none else .idle))
  | addReadRdy {s : World τ ρ κ α} {c : Option τ} (q : ρ) (cb : κ) (may : s.mayCall c) :
      Step drains s (.addReadRdy c q cb)
        ({ s with callback := Function.update s.callback q (some cb) }.goto c (.addContext q))
  | addContext {s : World τ ρ κ α} {c : Option τ} {q : ρ} (call : s.calls c = .addContext q) :
      Step drains s (.addContext c) ({ s with
        contexts := if q ∈ s.contexts then s.contexts else s.contexts ++ [q] }.goto c .idle)
  | removeReadRdy {s : World τ ρ κ α} {c : Option τ} (q : ρ) (may : s.mayCall c) :
      Step drains s (.removeReadRdy c q)
        ({ s with callback := Function.update s.callback q none }.goto c (.removeContext q))
  | removeContext {s : World τ ρ κ α} {c : Option τ} {q : ρ}
      (call : s.calls c = .removeContext q) :
      Step drains s (.removeContext c)
        ({ s with contexts := s.contexts.filter (· ≠ q) }.goto c .idle)
  | setReactor {s : World τ ρ κ α} (q : ρ) (this : Bool) :
      Step drains s (.setReactor q this) (s.onQueue q fun queue => { queue with bound := this })
  | setCapacity {s : World τ ρ κ α} {q : ρ} (c : Nat)
      (lossy : (s.queues q).capacity.isSome = true) :
      Step drains s (.setCapacity q c) (s.onQueue q fun queue =>
        { queue with capacity := some c, items := DropOldest.keep c queue.items })
  | pop {s : World τ ρ κ α} (q : ρ) (n : Nat) :
      Step drains s (.pop q n)
        { s.onQueue q fun queue => { queue with items := queue.items.drop n } with
          pc := popped q ((s.queues q).items.drop n).isEmpty s.pc }
  | run {s : World τ ρ κ α} (pc : s.pc = .off) :
      Step drains s .run { s with runs := s.runs + 1, pc := .entered }
  | setRunning {s : World τ ρ κ α} (pc : s.pc = .entered) :
      Step drains s .setRunning { s with running := true, pc := .test }
  | test {s : World τ ρ κ α} (pc : s.pc = .test) :
      Step drains s .test { s with pc := if s.running then .wait else .off }
  | evaluate {s : World τ ρ κ α} (pc : s.pc = .wait) :
      Step drains s .evaluate
        { s with pc := if s.wakeupReq || !s.running then .returned else .blocked }
  | timeout {s : World τ ρ κ α} (pc : s.pc = .blocked) :
      Step drains s .timeout { s with pc := .returned }
  | spurious {s : World τ ρ κ α} (pc : s.pc = .blocked) :
      Step drains s .spurious { s with pc := .wait }
  | testRunning {s : World τ ρ κ α} (pc : s.pc = .returned) :
      Step drains s .testRunning { s with pc := if s.running then .branch else .off }
  | requested {s : World τ ρ κ α} (pc : s.pc = .branch) (req : s.wakeupReq = true) :
      Step drains s .branch { s with wakeupReq := false, pc := .snapshot }
  | notRequested {s : World τ ρ κ α} (pc : s.pc = .branch) (req : s.wakeupReq = false) :
      Step drains s .branch { s with pc := .take }
  | snapshot {s : World τ ρ κ α} (pc : s.pc = .snapshot) :
      Step drains s .snapshot { s with pc := .scan s.contexts }
  | hasData {s : World τ ρ κ α} {q : ρ} {rest : List ρ} (pc : s.pc = .scan (q :: rest)) :
      Step drains s .hasData
        { s with pc := if (s.queues q).hasData then .notify q rest else .scan rest }
  | notifyCallback {s : World τ ρ κ α} {q : ρ} {rest : List ρ} (pc : s.pc = .notify q rest) :
      Step drains s .notifyCallback
        { s with pc := if (s.callback q).isSome then .handler q rest false else .scan rest }
  | handlerReturns {s : World τ ρ κ α} {q : ρ} {rest : List ρ} {drained : Bool}
      (pc : s.pc = .handler q rest drained) (idle : s.calls none = .idle)
      (seen : drains q = true → drained = true) :
      Step drains s .handlerReturns { s with pc := .scan rest }
  | scanned {s : World τ ρ κ α} (pc : s.pc = .scan []) :
      Step drains s .scanned { s with pc := .take }
  | takeCallbacks {s : World τ ρ κ α} (pc : s.pc = .take) :
      Step drains s .takeCallbacks { s with wakeUpCb := s.wakeUpCb.take, pc := .callbacks }
  | runCallback {s : World τ ρ κ α} (pc : s.pc = .callbacks) (idle : s.calls none = .idle)
      (batch : s.wakeUpCb.batch ≠ []) :
      Step drains s .runCallback { s with wakeUpCb := s.wakeUpCb.next }
  | callbacksEnd {s : World τ ρ κ α} (pc : s.pc = .callbacks) (idle : s.calls none = .idle)
      (batch : s.wakeUpCb.batch = []) : Step drains s .callbacksEnd { s with pc := .timers }
  | endPass {s : World τ ρ κ α} (pc : s.pc = .timers) (idle : s.calls none = .idle) :
      Step drains s .endPass { s with pc := .test }

/-- The step function takes these steps. -/
theorem Step.of_step {drains : ρ → Bool} {s s' : World τ ρ κ α} {l : Label τ ρ κ α}
    (h : s.step drains l = some s') : Step drains s l s' := by
  cases l with
  | wakeUp c cb =>
    obtain ⟨may, h⟩ := Option.ite_none_right_eq_some.mp h
    exact Option.some.inj h ▸ .wakeUp cb may
  | request c =>
    dsimp only [World.step] at h
    split at h
    · rename_i stop call
      obtain ⟨unlocked, h⟩ := Option.ite_none_left_eq_some.mp h
      exact Option.some.inj h ▸ .request call (eq_false_of_ne_true unlocked)
    · cases h
  | stop c =>
    obtain ⟨may, h⟩ := Option.ite_none_right_eq_some.mp h
    exact Option.some.inj h ▸ .stop may
  | clearRunning c =>
    dsimp only [World.step] at h
    split at h
    · rename_i run call
      exact Option.some.inj h ▸ .clearRunning call
    · cases h
  | push c q x =>
    obtain ⟨may, h⟩ := Option.ite_none_right_eq_some.mp h
    exact Option.some.inj h ▸ .push q x may
  | notifyPush c =>
    dsimp only [World.step] at h
    split at h
    · rename_i q call
      exact Option.some.inj h ▸ .notifyPush call
    · cases h
  | addReadRdy c q cb =>
    obtain ⟨may, h⟩ := Option.ite_none_right_eq_some.mp h
    exact Option.some.inj h ▸ .addReadRdy q cb may
  | addContext c =>
    dsimp only [World.step] at h
    split at h
    · rename_i q call
      exact Option.some.inj h ▸ .addContext call
    · cases h
  | removeReadRdy c q =>
    obtain ⟨may, h⟩ := Option.ite_none_right_eq_some.mp h
    exact Option.some.inj h ▸ .removeReadRdy q may
  | removeContext c =>
    dsimp only [World.step] at h
    split at h
    · rename_i q call
      exact Option.some.inj h ▸ .removeContext call
    · cases h
  | setReactor q this => exact Option.some.inj h ▸ .setReactor q this
  | setCapacity q c =>
    obtain ⟨lossy, h⟩ := Option.ite_none_right_eq_some.mp h
    exact Option.some.inj h ▸ .setCapacity c lossy
  | pop q n => exact Option.some.inj h ▸ .pop q n
  | branch =>
    dsimp only [World.step] at h
    split at h
    · rename_i pc
      split at h
      · rename_i req
        exact Option.some.inj h ▸ .requested pc req
      · rename_i req
        exact Option.some.inj h ▸ .notRequested pc (eq_false_of_ne_true req)
    · cases h
  | hasData =>
    dsimp only [World.step] at h
    split at h
    · rename_i q rest pc
      exact Option.some.inj h ▸ .hasData pc
    · cases h
  | notifyCallback =>
    dsimp only [World.step] at h
    split at h
    · rename_i q rest pc
      exact Option.some.inj h ▸ .notifyCallback pc
    · cases h
  | handlerReturns =>
    dsimp only [World.step] at h
    split at h
    · rename_i q rest drained pc
      obtain ⟨⟨idle, seen⟩, h⟩ := Option.ite_none_right_eq_some.mp h
      exact Option.some.inj h ▸ .handlerReturns pc idle seen
    · cases h
  | runCallback =>
    dsimp only [World.step] at h
    split at h
    · rename_i pc
      obtain ⟨⟨idle, batch⟩, h⟩ := Option.ite_none_right_eq_some.mp h
      exact Option.some.inj h ▸ .runCallback pc idle batch
    · cases h
  | callbacksEnd =>
    dsimp only [World.step] at h
    split at h
    · rename_i pc
      obtain ⟨⟨idle, batch⟩, h⟩ := Option.ite_none_right_eq_some.mp h
      exact Option.some.inj h ▸ .callbacksEnd pc idle batch
    · cases h
  | endPass =>
    dsimp only [World.step] at h
    split at h
    · rename_i pc
      obtain ⟨idle, h⟩ := Option.ite_none_right_eq_some.mp h
      exact Option.some.inj h ▸ .endPass pc idle
    · cases h
  | run =>
    dsimp only [World.step] at h
    split at h
    · rename_i pc
      exact Option.some.inj h ▸ .run pc
    · cases h
  | setRunning =>
    dsimp only [World.step] at h
    split at h
    · rename_i pc
      exact Option.some.inj h ▸ .setRunning pc
    · cases h
  | test =>
    dsimp only [World.step] at h
    split at h
    · rename_i pc
      exact Option.some.inj h ▸ .test pc
    · cases h
  | evaluate =>
    dsimp only [World.step] at h
    split at h
    · rename_i pc
      exact Option.some.inj h ▸ .evaluate pc
    · cases h
  | timeout =>
    dsimp only [World.step] at h
    split at h
    · rename_i pc
      exact Option.some.inj h ▸ .timeout pc
    · cases h
  | spurious =>
    dsimp only [World.step] at h
    split at h
    · rename_i pc
      exact Option.some.inj h ▸ .spurious pc
    · cases h
  | testRunning =>
    dsimp only [World.step] at h
    split at h
    · rename_i pc
      exact Option.some.inj h ▸ .testRunning pc
    · cases h
  | snapshot =>
    dsimp only [World.step] at h
    split at h
    · rename_i pc
      exact Option.some.inj h ▸ .snapshot pc
    · cases h
  | scanned =>
    dsimp only [World.step] at h
    split at h
    · rename_i pc
      exact Option.some.inj h ▸ .scanned pc
    · cases h
  | takeCallbacks =>
    dsimp only [World.step] at h
    split at h
    · rename_i pc
      exact Option.some.inj h ▸ .takeCallbacks pc
    · cases h

end World

end Bfc.CvReactor
