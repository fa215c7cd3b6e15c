import Bfc.Timeouts.Bounded

/-!
# The loop around the timer

`run` of each reactor, as far as the timer goes, with a clock: a pass asks for the next deadline,
reads the clock, waits, works, reads the clock again and schedules what is due. Any step of the
timer by anyone else may come between two of these, from a callback of the pass or from another
thread.

Time passes in steps of its own. How much of it is the environment's: `Pace` bounds the time from
the return of one wait to the beginning of the next, and the time by which a wait returns late.

A callback that is empty or throws ends the `schedule` call of the pass, and `run` with it.

`seen` and `unseen` are for the record. A timer that is created after the deadline was asked for and
before the wait is over is not seen until then; every other timer is seen at once.
-/

namespace Bfc.Timeouts.Loop

open Timers

variable {κ : Type*}

/-- How a reactor waits. -/
inductive Waits where
  | poll
  | epollPwait2
  | epollWait
  | cv (timeoutMs : UInt64)
deriving DecidableEq

namespace Waits

/-- The limit of the wait in microseconds; `none` is none. -/
def limitUs (waits : Waits) (timer : Timer κ) (queueBacklog : Bool) (nowUs : Int) : Option Int :=
  match waits with
  | .poll =>
    let timeoutMs := PollReactor.timeoutMs timer queueBacklog nowUs
    if timeoutMs < 0 then none else some (timeoutMs * 1000)
  | .epollPwait2 =>
    (EpollReactor.timeoutPtr timer queueBacklog nowUs).map fun timeout =>
      timeout.tvSec * 1000000 + timeout.tvNsec / 1000
  | .epollWait =>
    let timeoutMs := EpollReactor.timeoutMs (EpollReactor.timeoutPtr timer queueBacklog nowUs)
    if timeoutMs < 0 then none else some (timeoutMs * 1000)
  | .cv timeoutMs => some (CvReactor.timeoutUs timer timeoutMs nowUs)

/-- How long a wait with that limit lasts. `wait_for` reads the clock again, in nanoseconds. -/
def lastsUs (waits : Waits) (startUs limitUs : Int) : Int :=
  match waits with
  | .cv _ => waitForNs limitUs (1000 * startUs) / 1000
  | _ => limitUs

/-- The limit of `cv_reactor` is stored as it is, or at least not as a negative number. -/
def LimitStored : Waits → Prop
  | .cv timeoutMs => 0 ≤ int64 (1000 * timeoutMs.toNat : Nat)
  | _ => True

/-- `minimum_timer_step`, on Linux. -/
def minimumTimerStep : Waits → Nat
  | .poll => 1000
  | .epollPwait2 => 1
  | .epollWait => 1000
  | .cv _ => 1

/-- Whether a signal makes the wait fail with `EINTR`. -/
def interruptible : Waits → Bool
  | .cv _ => false
  | _ => true

end Waits

/-- How much time passes: between a wait and the next one, and after the end of a wait's limit. -/
structure Pace where
  workUs : Nat
  overrunUs : Nat

/-- Where the reactor's thread is. -/
inductive Phase (κ : Type*) where
  | top
  | asked (timer : Timer (Option κ))
  | clocked (nowUs : Int) (limitUs : Option Int)
  | waiting (startUs : Int) (limitUs : Option Int)
  | working
  | stamped (nowUs : Int)
  | calling (c : Nat)
  | returned

namespace Phase

/-- The deadline has been asked for and the wait is not over. -/
def blind : Phase κ → Bool
  | .asked _ => true
  | .clocked _ _ => true
  | .waiting _ _ => true
  | _ => false

/-- The time by which the reactor's thread has gone on. -/
def untilUs (pace : Pace) (sinceUs : Int) : Phase κ → Option Int
  | .waiting startUs limitUs => limitUs.map fun limitUs => startUs + max 0 limitUs + pace.overrunUs
  | .returned => none
  | _ => some (sinceUs + pace.workUs)

/-- A step of the reactor's own `schedule` call. -/
def own : Phase κ → Event κ → Bool
  | .calling c, .callback d => c == d
  | .calling c, .callbackThrows d => c == d
  | .calling c, .scheduleReturns d => c == d
  | _, _ => false

end Phase

/-- The clock, when the last wait ended, and the timer; `interrupted` counts the waits that were
interrupted since `schedule`. -/
structure World (κ : Type*) where
  nowUs : Int
  sinceUs : Int
  phase : Phase κ := .top
  timers : Timers.World κ := {}
  interrupted : Nat := 0
  seen : List (TimerId × Int) := []
  unseen : List TimerId := []

inductive Label (κ : Type*) where
  | tick (us : Nat)
  | timer (e : Event κ)
  | ask
  | clock (queueBacklog : Bool)
  | wait
  | wakes
  | interrupts
  | stamp
  | schedule
  | callback
  | callbackThrows
  | scheduleReturns
  | leave

namespace World

/-- The timer has made a step. -/
def moved (w : World κ) (timers : Timers.World κ) : World κ :=
  let new := timers.created.drop w.timers.created.length
  if w.phase.blind then { w with timers := timers, unseen := w.unseen ++ new }
  else { w with timers := timers, seen := w.seen ++ new.map fun id => (id, w.nowUs) }

/-- The wait is over. -/
def awake (w : World κ) (phase : Phase κ) (interrupted : Nat) : World κ :=
  { w with
    phase := phase
    sinceUs := w.nowUs
    interrupted := interrupted
    seen := w.seen ++ w.unseen.map fun id => (id, w.nowUs)
    unseen := [] }

/-- An exception has left a `schedule` call. -/
def threw (timers : Timers.World κ) (c : Nat) : Bool := (timers.calls[c]?).any Call.threw

/-- The step function. -/
def step (waits : Waits) (pace : Pace) (w : World κ) : Label κ → Option (World κ)
  | .tick us =>
    if ∀ untilUs ∈ w.phase.untilUs pace w.sinceUs, w.nowUs + us ≤ untilUs then
      some { w with nowUs := w.nowUs + us }
    else none
  | .timer e => if w.phase.own e then none else (w.timers.step e).map w.moved
  | .ask =>
    match w.phase with
    | .top => some { w with phase := .asked w.timers.timer }
    | _ => none
  | .clock queueBacklog =>
    match w.phase with
    | .asked timer =>
      some { w with phase := .clocked w.nowUs (waits.limitUs timer queueBacklog w.nowUs) }
    | _ => none
  | .wait =>
    match w.phase with
    | .clocked _ limitUs =>
      some { w with phase := .waiting w.nowUs (limitUs.map (waits.lastsUs w.nowUs)) }
    | _ => none
  | .wakes =>
    match w.phase with
    | .waiting _ _ => some (w.awake .working w.interrupted)
    | _ => none
  | .interrupts =>
    match w.phase with
    | .waiting _ _ =>
      if waits.interruptible then some (w.awake .top (w.interrupted + 1)) else none
    | _ => none
  | .stamp =>
    match w.phase with
    | .working => some { w with phase := .stamped w.nowUs }
    | _ => none
  | .schedule =>
    match w.phase with
    | .stamped nowUs =>
      (w.timers.step (.schedule nowUs)).map fun timers =>
        { w with timers := timers, phase := .calling w.timers.calls.length }
    | _ => none
  | .callback =>
    match w.phase with
    | .calling c =>
      (w.timers.step (.callback c)).map fun timers =>
        { w with timers := timers, phase := if threw timers c then .returned else .calling c }
    | _ => none
  | .callbackThrows =>
    match w.phase with
    | .calling c =>
      (w.timers.step (.callbackThrows c)).map fun timers =>
        { w with timers := timers, phase := .returned }
    | _ => none
  | .scheduleReturns =>
    match w.phase with
    | .calling c =>
      (w.timers.step (.scheduleReturns c)).map fun timers =>
        { w with timers := timers, phase := .top, interrupted := 0 }
    | _ => none
  | .leave =>
    match w.phase with
    | .top => some { w with phase := .returned }
    | .waiting _ _ => if waits.interruptible then none else some { w with phase := .returned }
    | _ => none

/-- A step of the loop. -/
def Step (waits : Waits) (pace : Pace) (w : World κ) (l : Label κ) (w' : World κ) : Prop :=
  w.step waits pace l = some w'

/-- The callback of a timer is yet to be started, by the next `schedule` call or by the one that
has extracted it. -/
def held (w : World κ) (id : TimerId) : Prop :=
  id ∈ w.timers.pending ∨ ∃ c call, w.phase = .calling c ∧ w.timers.calls[c]? = some call ∧
    id ∈ call.left.map Prod.fst

end World

/-- The beginning of `run`: what has been created is seen. -/
def start (nowUs : Int) (timers : Timers.World κ) : World κ :=
  { nowUs := nowUs
    sinceUs := nowUs
    timers := timers
    seen := timers.created.map fun id => (id, nowUs) }

end Bfc.Timeouts.Loop
