import Bfc.WakeUp.World

/-!
# The run loops of the descriptor reactors

`run`, `stop` and `wake_up` of `poll_reactor` and `epoll_reactor`, from the entry into `run` on. The
two differ in the wake signal: a pipe behind `m_wake_pending`, which the reactor empties, and an
eventfd, of which it reads one. A step is one critical section, one access to an atomic variable, or
one system call.

A caller is a thread, or the reactor thread itself (`none`) while it runs a callback: those of the
events, the wake-up callbacks, and the queues' and timers' at the end of the pass. What callbacks do
is not fixed, and neither is what else ends a wait.

For the record a run of `run` has a number, a call of `stop` keeps the number of the run it began
in, and `appended` is what was appended to `m_wake_up_cb`. No step looks at any of that.
-/

namespace Bfc.RunLoop

/-- The reactor. -/
inductive Kind where
  | poll
  | epoll
deriving DecidableEq

/-- Where a caller is: outside; in `stop` before `m_running = false`; and in `wake_up`, for the
`stop` of a run or for no `stop`, before the compare-exchange and before the write. -/
inductive Call where
  | idle
  | stopping (run : Nat)
  | compareExchange (stop : Option Nat)
  | write (stop : Option Nat)
deriving DecidableEq

/-- `wake_up` after its append. -/
def Kind.signal : Kind → Option Nat → Call
  | .poll, stop => .compareExchange stop
  | .epoll, stop => .write stop

/-- Where the reactor thread is: outside `run`; in it before `m_running = true`; at the loop's test;
in its wait; in the wake callback of `poll_reactor`, before a read and before the store; at the
events, with that of the eventfd still to come or not; at the wake-up callbacks; and at the end of
the pass. -/
inductive Pc where
  | off
  | entered
  | test
  | wait
  | drain
  | clear
  | dispatch (wake : Bool)
  | callbacks
  | tail
deriving DecidableEq

/-- The reactor thread is at a place that runs callbacks. -/
def Pc.runsCallbacks : Pc → Bool
  | .dispatch _ | .callbacks | .tail => true
  | _ => false

/-- The shared state, where everyone is, and the record. `signal` are the bytes in the pipe, or the
counter of the eventfd; `τ` are the threads and `κ` the callbacks that are not empty. -/
structure World (τ κ : Type*) where
  running : Bool := false
  wakeUpCb : Batched κ := {}
  wakePending : Bool := false
  signal : Nat := 0
  pc : Pc := .off
  calls : Option τ → Call := fun _ => .idle
  runs : Nat := 0
  stopped : List Nat := []
  appended : List κ := []

/-- An atomic action. -/
inductive Label (τ κ : Type*) where
  | wakeUp (c : Option τ) (cb : Option κ)
  | stop (c : Option τ)
  | clearRunning (c : Option τ)
  | compareExchange (c : Option τ)
  | write (c : Option τ) (answer : WakeUp.WriteAnswer)
  | run
  | setRunning
  | test
  | interrupted
  | waitReturns (wake : Bool)
  | read
  | store
  | takeCallbacks
  | runCallback
  | callbacksEnd
  | endPass

namespace World

variable {τ κ : Type*} [DecidableEq τ]

/-- A caller can begin a call. -/
def mayCall (s : World τ κ) (c : Option τ) : Prop :=
  s.calls c = .idle ∧ (c = none → s.pc.runsCallbacks = true)

instance (s : World τ κ) (c : Option τ) : Decidable (s.mayCall c) :=
  inferInstanceAs (Decidable (_ ∧ (c = none → _)))

/-- The caller goes on to `call`. -/
def goto (s : World τ κ) (c : Option τ) (call : Call) : World τ κ :=
  { s with calls := Function.update s.calls c call }

/-- `wake_up` up to its signal: a callback that is not empty is appended. -/
def append (s : World τ κ) : Option κ → World τ κ
  | some cb => { s with wakeUpCb := s.wakeUpCb.post cb, appended := s.appended ++ [cb] }
  | none => s

/-- A `wake_up` returns, and with it its `stop`. -/
def wakeUpReturns (s : World τ κ) (c : Option τ) (stop : Option Nat) : World τ κ :=
  { s with stopped := s.stopped ++ stop.toList }.goto c .idle

/-- The answer to the write of `wake_up`. `epoll_reactor` does not look at it. -/
def written (kind : Kind) (s : World τ κ) (c : Option τ) (stop : Option Nat) :
    WakeUp.WriteAnswer → World τ κ
  | .one => { s with signal := s.signal + 1 }.wakeUpReturns c stop
  | .interrupted =>
    match kind with
    | .poll => s
    | .epoll => s.wakeUpReturns c stop
  | .full => s.wakeUpReturns c stop
  | .failed =>
    match kind with
    | .poll => { s with wakePending := false }.wakeUpReturns c stop
    | .epoll => s.wakeUpReturns c stop

/-- The state after an atomic action, where it can be taken. -/
def step (kind : Kind) (s : World τ κ) : Label τ κ → Option (World τ κ)
  -- the calls
  | .wakeUp c cb =>
    if s.mayCall c then some ((s.append cb).goto c (kind.signal none)) else none
  | .stop c => if s.mayCall c then some (s.goto c (.stopping s.runs)) else none
  | .clearRunning c =>
    match s.calls c with
    | .stopping run => some ({ s with running := false }.goto c (kind.signal (some run)))
    | _ => none
  | .compareExchange c =>
    match s.calls c with
    | .compareExchange stop =>
      if s.wakePending then some (s.wakeUpReturns c stop)
      else some ({ s with wakePending := true }.goto c (.write stop))
    | _ => none
  | .write c answer =>
    match s.calls c with
    | .write stop => some (s.written kind c stop answer)
    | _ => none
  -- the reactor thread
  | .run =>
    match s.pc with
    | .off => some { s with runs := s.runs + 1, pc := .entered }
    | _ => none
  | .setRunning =>
    match s.pc with
    | .entered => some { s with running := true, pc := .test }
    | _ => none
  | .test =>
    match s.pc with
    | .test => some { s with pc := if s.running then .wait else .off }
    | _ => none
  | .interrupted =>
    match s.pc with
    | .wait => some { s with pc := .test }
    | _ => none
  | .waitReturns wake =>
    match s.pc with
    | .wait =>
      if wake then
        if 0 < s.signal then
          match kind with
          -- the wake entry is the first one, so its callback comes before all others
          | .poll => some { s with pc := .drain }
          | .epoll => some { s with pc := .dispatch true }
        else none
      else some { s with pc := .dispatch false }
    | _ => none
  | .read =>
    match s.pc with
    | .drain =>
      if s.signal = 0 then some { s with pc := .clear } else some { s with signal := s.signal - 64 }
    | .dispatch true =>
      if s.calls none = .idle then
        some { s with signal := s.signal - 1, pc := .dispatch false }
      else none
    | _ => none
  | .store =>
    match s.pc with
    | .clear => some { s with wakePending := false, pc := .dispatch false }
    | _ => none
  | .takeCallbacks =>
    match s.pc with
    | .dispatch false =>
      if s.calls none = .idle then
        some { s with wakeUpCb := s.wakeUpCb.take, pc := .callbacks }
      else none
    | _ => none
  | .runCallback =>
    match s.pc with
    | .callbacks =>
      if s.calls none = .idle ∧ s.wakeUpCb.batch ≠ [] then
        some { s with wakeUpCb := s.wakeUpCb.next }
      else none
    | _ => none
  | .callbacksEnd =>
    match s.pc with
    | .callbacks =>
      if s.calls none = .idle ∧ s.wakeUpCb.batch = [] then some { s with pc := .tail } else none
    | _ => none
  | .endPass =>
    match s.pc with
    | .tail => if s.calls none = .idle then some { s with pc := .test } else none
    | _ => none

/-- What an action can do. -/
inductive Step (kind : Kind) : World τ κ → Label τ κ → World τ κ → Prop
  | wakeUp {s : World τ κ} {c : Option τ} (cb : Option κ) (may : s.mayCall c) :
      Step kind s (.wakeUp c cb) ((s.append cb).goto c (kind.signal none))
  | stop {s : World τ κ} {c : Option τ} (may : s.mayCall c) :
      Step kind s (.stop c) (s.goto c (.stopping s.runs))
  | clearRunning {s : World τ κ} {c : Option τ} {run : Nat} (call : s.calls c = .stopping run) :
      Step kind s (.clearRunning c) ({ s with running := false }.goto c (kind.signal (some run)))
  | pending {s : World τ κ} {c : Option τ} {stop : Option Nat}
      (call : s.calls c = .compareExchange stop) (on : s.wakePending = true) :
      Step kind s (.compareExchange c) (s.wakeUpReturns c stop)
  | claim {s : World τ κ} {c : Option τ} {stop : Option Nat}
      (call : s.calls c = .compareExchange stop) (off : s.wakePending = false) :
      Step kind s (.compareExchange c) ({ s with wakePending := true }.goto c (.write stop))
  | write {s : World τ κ} {c : Option τ} {stop : Option Nat} (answer : WakeUp.WriteAnswer)
      (call : s.calls c = .write stop) :
      Step kind s (.write c answer) (s.written kind c stop answer)
  | run {s : World τ κ} (pc : s.pc = .off) :
      Step kind s .run { s with runs := s.runs + 1, pc := .entered }
  | setRunning {s : World τ κ} (pc : s.pc = .entered) :
      Step kind s .setRunning { s with running := true, pc := .test }
  | test {s : World τ κ} (pc : s.pc = .test) :
      Step kind s .test { s with pc := if s.running then .wait else .off }
  | interrupted {s : World τ κ} (pc : s.pc = .wait) :
      Step kind s .interrupted { s with pc := .test }
  | waitReturns {s : World τ κ} {wake : Bool} (pc : s.pc = .wait) (target : Pc)
      (there : target = .drain ∨ ∃ wake, target = .dispatch wake) :
      Step kind s (.waitReturns wake) { s with pc := target }
  | drained {s : World τ κ} (pc : s.pc = .drain) : Step kind s .read { s with pc := .clear }
  | drain {s : World τ κ} (pc : s.pc = .drain) :
      Step kind s .read { s with signal := s.signal - 64 }
  | readOne {s : World τ κ} (pc : s.pc = .dispatch true) :
      Step kind s .read { s with signal := s.signal - 1, pc := .dispatch false }
  | store {s : World τ κ} (pc : s.pc = .clear) :
      Step kind s .store { s with wakePending := false, pc := .dispatch false }
  | takeCallbacks {s : World τ κ} (pc : s.pc = .dispatch false) :
      Step kind s .takeCallbacks { s with wakeUpCb := s.wakeUpCb.take, pc := .callbacks }
  | runCallback {s : World τ κ} (pc : s.pc = .callbacks) :
      Step kind s .runCallback { s with wakeUpCb := s.wakeUpCb.next }
  | callbacksEnd {s : World τ κ} (pc : s.pc = .callbacks) (batch : s.wakeUpCb.batch = []) :
      Step kind s .callbacksEnd { s with pc := .tail }
  | endPass {s : World τ κ} (pc : s.pc = .tail) : Step kind s .endPass { s with pc := .test }

/-- The step function takes these steps. -/
theorem Step.of_step {kind : Kind} {s s' : World τ κ} {l : Label τ κ}
    (h : s.step kind l = some s') : Step kind s l s' := by
  cases l with
  | wakeUp c cb =>
    obtain ⟨may, h⟩ := Option.ite_none_right_eq_some.mp h
    exact Option.some.inj h ▸ .wakeUp cb may
  | stop c =>
    obtain ⟨may, h⟩ := Option.ite_none_right_eq_some.mp h
    exact Option.some.inj h ▸ .stop may
  | clearRunning c =>
    dsimp only [World.step] at h
    split at h
    · rename_i run call
      exact Option.some.inj h ▸ .clearRunning call
    · cases h
  | compareExchange c =>
    dsimp only [World.step] at h
    split at h
    · rename_i stop call
      split at h
      · rename_i on
        exact Option.some.inj h ▸ .pending call on
      · rename_i off
        exact Option.some.inj h ▸ .claim call (eq_false_of_ne_true off)
    · cases h
  | write c answer =>
    dsimp only [World.step] at h
    split at h
    · rename_i stop call
      exact Option.some.inj h ▸ .write answer call
    · cases h
  | run =>
    dsimp only [World.step] at h
    split at h
    · rename_i pc
      exact Option.some.inj h ▸ .run pc
    · cases h
  | setRunning =>
    dsimp only [World.step] at h
    split at h
    · rename_i pc
      exact Option.some.inj h ▸ .setRunning pc
    · cases h
  | test =>
    dsimp only [World.step] at h
    split at h
    · rename_i pc
      exact Option.some.inj h ▸ .test pc
    · cases h
  | interrupted =>
    dsimp only [World.step] at h
    split at h
    · rename_i pc
      exact Option.some.inj h ▸ .interrupted pc
    · cases h
  | waitReturns wake =>
    dsimp only [World.step] at h
    split at h
    · rename_i pc
      cases wake with
      | false => exact Option.some.inj h ▸ .waitReturns pc _ (.inr ⟨_, rfl⟩)
      | true =>
        obtain ⟨-, h⟩ := Option.ite_none_right_eq_some.mp h
        cases kind with
        | poll => exact Option.some.inj h ▸ .waitReturns pc _ (.inl rfl)
        | epoll => exact Option.some.inj h ▸ .waitReturns pc _ (.inr ⟨_, rfl⟩)
    · cases h
  | read =>
    dsimp only [World.step] at h
    split at h
    · rename_i pc
      split at h
      · exact Option.some.inj h ▸ .drained pc
      · exact Option.some.inj h ▸ .drain pc
    · rename_i pc
      obtain ⟨-, h⟩ := Option.ite_none_right_eq_some.mp h
      exact Option.some.inj h ▸ .readOne pc
    · cases h
  | store =>
    dsimp only [World.step] at h
    split at h
    · rename_i pc
      exact Option.some.inj h ▸ .store pc
    · cases h
  | takeCallbacks =>
    dsimp only [World.step] at h
    split at h
    · rename_i pc
      obtain ⟨-, h⟩ := Option.ite_none_right_eq_some.mp h
      exact Option.some.inj h ▸ .takeCallbacks pc
    · cases h
  | runCallback =>
    dsimp only [World.step] at h
    split at h
    · rename_i pc
      obtain ⟨-, h⟩ := Option.ite_none_right_eq_some.mp h
      exact Option.some.inj h ▸ .runCallback pc
    · cases h
  | callbacksEnd =>
    dsimp only [World.step] at h
    split at h
    · rename_i pc
      obtain ⟨⟨-, batch⟩, h⟩ := Option.ite_none_right_eq_some.mp h
      exact Option.some.inj h ▸ .callbacksEnd pc batch
    · cases h
  | endPass =>
    dsimp only [World.step] at h
    split at h
    · rename_i pc
      obtain ⟨-, h⟩ := Option.ite_none_right_eq_some.mp h
      exact Option.some.inj h ▸ .endPass pc
    · cases h

end World

end Bfc.RunLoop
