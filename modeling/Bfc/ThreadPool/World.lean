import Mathlib.Data.Fintype.Card
import Mathlib.Data.List.FinRange
import Bfc.Lib.Transition

/-!
# The thread pool among threads

`thread_pool` from the end of its constructor on: `m_free`, the entries of `m_pool` with their
mutexes, the workers' loops, the calls of `execute`, and the destructor. A step is one action on
what threads share, or one move of a condition variable: a wait evaluates its predicate with the
mutex held, and then releases the mutex and blocks in one step. Whoever blocks may also wake up for
no reason.

Tasks may call `execute` themselves, so a worker that runs one is a caller too. A task has the
number of its `execute` call, and for the record there is what each call was given, which tasks
were started and finished, and which calls have returned. No step looks at any of that.
-/

namespace Bfc.ThreadPool

/-- A functor, with the number of the `execute` call that was given it. -/
structure Task (κ : Type*) where
  ticket : Nat
  functor : κ
deriving DecidableEq

/-- Who calls `execute`: a thread, or a worker from inside its task. -/
inductive Caller (τ : Type*) (n : Nat) where
  | outside (t : τ)
  | worker (i : Fin n)
deriving DecidableEq

/-- Where a call of `execute` is; `p_functor` is `none` when it is empty. With `m_free_mtx` held: it
evaluates the wait's predicate, and has taken an index; with the entry's mutex held as well: before
the store, and before the notification, after which both are released. -/
inductive Call (κ : Type*) (n : Nat) where
  | idle
  | entering (ticket : Nat) (functor : Option κ)
  | testing (ticket : Nat) (functor : Option κ)
  | waiting (ticket : Nat) (functor : Option κ)
  | took (ticket : Nat) (functor : Option κ) (i : Fin n)
  | storing (ticket : Nat) (functor : Option κ) (i : Fin n)
  | stored (ticket : Nat) (i : Fin n)

/-- Where a worker is. At the top of its loop; with the entry's mutex held: before it tests the
functor, in its task, before `reset`, before it tests `m_is_running`, before it evaluates the wait's
predicate, and before it blocks; blocked; woken, before it has the mutex again; before it gives its
index back, before `m_worker_available_cv.notify_one`, and returned. -/
inductive Worker where
  | top
  | locked
  | running
  | ran
  | testRunning
  | predicate
  | blocking
  | blocked
  | woken
  | returning
  | notifying
  | done
deriving DecidableEq

/-- The worker has the mutex of its entry. -/
def Worker.holdsMutex : Worker → Bool
  | .locked | .running | .ran | .testRunning | .predicate | .blocking => true
  | _ => false

/-- Where the destructor is: not called, before a worker's notification, in its join, or through. -/
inductive Destructor (n : Nat) where
  | uncalled
  | notify (i : Fin n)
  | join (i : Fin n)
  | through
deriving DecidableEq

/-- Who has the mutex of an entry. -/
inductive Owner (τ : Type*) (n : Nat) where
  | worker
  | caller (c : Caller τ n)
deriving DecidableEq

/-- The shared state, where everyone is, and the record. `τ` are the threads and `κ` the functors
that are not empty. -/
structure World (τ κ : Type*) (n : Nat) where
  isRunning : Bool := true
  free : List (Fin n) := List.finRange n
  freeMtx : Option (Caller τ n) := none
  functor : Fin n → Option (Task κ) := fun _ => none
  entryMtx : Fin n → Option (Owner τ n) := fun _ => none
  worker : Fin n → Worker := fun _ => .top
  calls : Caller τ n → Call κ n := fun _ => .idle
  destructor : Destructor n := .uncalled
  given : List (Option κ) := []
  started : List Nat := []
  finished : List Nat := []
  returned : List Nat := []

/-- An action. -/
inductive Label (τ κ : Type*) (n : Nat) where
  | execute (c : Caller τ n) (functor : Option κ)
  | lockFree (c : Caller τ n)
  | take (c : Caller τ n)
  | wakeCaller (c : Caller τ n)
  | lockEntry (c : Caller τ n)
  | store (c : Caller τ n)
  | notifyWorker (c : Caller τ n)
  | lock (i : Fin n)
  | testFunctor (i : Fin n)
  | finish (i : Fin n)
  | reset (i : Fin n)
  | giveBack (i : Fin n)
  | notifyAvailable (i : Fin n) (woken : Option (Caller τ n))
  | testRunning (i : Fin n)
  | predicate (i : Fin n)
  | block (i : Fin n)
  | wakeWorker (i : Fin n)
  | relock (i : Fin n)
  | shutdown
  | notifyStop
  | join

namespace World

variable {τ κ : Type*} {n : Nat} [DecidableEq τ]

/-- The caller goes on to `call`. -/
def goto (w : World τ κ n) (c : Caller τ n) (call : Call κ n) : World τ κ n :=
  { w with calls := Function.update w.calls c call }

/-- The worker goes on to `place`. -/
def move (w : World τ κ n) (i : Fin n) (place : Worker) : World τ κ n :=
  { w with worker := Function.update w.worker i place }

/-- An entry's functor becomes this. -/
def setFunctor (w : World τ κ n) (i : Fin n) (functor : Option (Task κ)) : World τ κ n :=
  { w with functor := Function.update w.functor i functor }

/-- An entry's mutex becomes this. -/
def setMutex (w : World τ κ n) (i : Fin n) (owner : Option (Owner τ n)) : World τ κ n :=
  { w with entryMtx := Function.update w.entryMtx i owner }

/-- `thread_cv.notify_one`: its worker wakes if it is blocked. -/
def notify (w : World τ κ n) (i : Fin n) : World τ κ n :=
  if w.worker i = .blocked then w.move i .woken else w

/-- The destructor's step from one worker on to the next. -/
def nextWorker (i : Fin n) : Destructor n :=
  if h : i.val + 1 < n then .notify ⟨i.val + 1, h⟩ else .through

/-- A caller can begin a call: a worker only from inside its task. -/
def mayCall (w : World τ κ n) : Caller τ n → Bool
  | .outside _ => true
  | .worker i => w.worker i = .running

/-- The state after an action, where it can be taken. -/
def step (w : World τ κ n) : Label τ κ n → Option (World τ κ n)
  -- `execute`
  | .execute c functor =>
    match w.calls c with
    | .idle =>
      if w.mayCall c then
        some ({ w with given := w.given ++ [functor] }.goto c (.entering w.given.length functor))
      else none
    | _ => none
  | .lockFree c =>
    match w.calls c with
    | .entering ticket functor =>
      if w.freeMtx = none then
        some ({ w with freeMtx := some c }.goto c (.testing ticket functor))
      else none
    | _ => none
  | .take c =>
    match w.calls c with
    | .testing ticket functor =>
      match w.free.getLast? with
      | some i => some ({ w with free := w.free.dropLast }.goto c (.took ticket functor i))
      | none => some ({ w with freeMtx := none }.goto c (.waiting ticket functor))
    | _ => none
  | .wakeCaller c =>
    match w.calls c with
    | .waiting ticket functor => some (w.goto c (.entering ticket functor))
    | _ => none
  | .lockEntry c =>
    match w.calls c with
    | .took ticket functor i =>
      if w.entryMtx i = none then
        some ((w.setMutex i (some (.caller c))).goto c (.storing ticket functor i))
      else none
    | _ => none
  | .store c =>
    match w.calls c with
    | .storing ticket functor i =>
      some ((w.setFunctor i (functor.map (⟨ticket, ·⟩))).goto c (.stored ticket i))
    | _ => none
  | .notifyWorker c =>
    match w.calls c with
    | .stored ticket i =>
      some ((({ w with freeMtx := none, returned := w.returned ++ [ticket] }.setMutex i none).notify
        i).goto c .idle)
    | _ => none
  -- a worker
  | .lock i =>
    if w.worker i = .top ∧ w.entryMtx i = none then
      some ((w.setMutex i (some .worker)).move i .locked)
    else none
  | .testFunctor i =>
    if w.worker i = .locked then
      match w.functor i with
      | some task => some ({ w with started := w.started ++ [task.ticket] }.move i .running)
      | none => some (w.move i .testRunning)
    else none
  | .finish i =>
    match w.functor i, w.calls (.worker i) with
    | some task, .idle =>
      if w.worker i = .running then
        some ({ w with finished := w.finished ++ [task.ticket] }.move i .ran)
      else none
    | _, _ => none
  | .reset i =>
    if w.worker i = .ran then
      some (((w.setFunctor i none).setMutex i none).move i .returning)
    else none
  | .giveBack i =>
    if w.worker i = .returning ∧ w.freeMtx = none then
      some ({ w with free := w.free ++ [i] }.move i .notifying)
    else none
  | .notifyAvailable i woken =>
    if w.worker i = .notifying then
      match woken with
      | none => some (w.move i .top)
      | some c =>
        match w.calls c with
        | .waiting ticket functor => some ((w.move i .top).goto c (.entering ticket functor))
        | _ => none
    else none
  | .testRunning i =>
    if w.worker i = .testRunning then
      if w.isRunning then some (w.move i .predicate)
      else some ((w.setMutex i none).move i .done)
    else none
  | .predicate i =>
    if w.worker i = .predicate then
      -- the wait returns with the mutex held, and the loop body's end releases it
      if (w.functor i).isSome ∨ w.isRunning = false then some ((w.setMutex i none).move i .top)
      else some (w.move i .blocking)
    else none
  | .block i =>
    if w.worker i = .blocking then some ((w.setMutex i none).move i .blocked) else none
  | .wakeWorker i => if w.worker i = .blocked then some (w.move i .woken) else none
  | .relock i =>
    if w.worker i = .woken ∧ w.entryMtx i = none then
      some ((w.setMutex i (some .worker)).move i .predicate)
    else none
  -- the destructor
  | .shutdown =>
    if w.destructor = .uncalled then
      some { w with
        isRunning := false
        destructor := if h : 0 < n then .notify ⟨0, h⟩ else .through }
    else none
  | .notifyStop =>
    match w.destructor with
    | .notify i => some { w.notify i with destructor := .join i }
    | _ => none
  | .join =>
    match w.destructor with
    | .join i => if w.worker i = .done then some { w with destructor := nextWorker i } else none
    | _ => none

/-- `count_active`. -/
def countActive (w : World τ κ n) : Nat := n - w.free.length

/-- What a step can do. -/
inductive Step : World τ κ n → Label τ κ n → World τ κ n → Prop
  | execute {w : World τ κ n} {c : Caller τ n} (functor : Option κ) (idle : w.calls c = .idle)
      (may : w.mayCall c = true) :
      Step w (.execute c functor)
        ({ w with given := w.given ++ [functor] }.goto c (.entering w.given.length functor))
  | lockFree {w : World τ κ n} {c : Caller τ n} {ticket : Nat} {functor : Option κ}
      (call : w.calls c = .entering ticket functor) (unlocked : w.freeMtx = none) :
      Step w (.lockFree c) ({ w with freeMtx := some c }.goto c (.testing ticket functor))
  | take {w : World τ κ n} {c : Caller τ n} {ticket : Nat} {functor : Option κ} {i : Fin n}
      (call : w.calls c = .testing ticket functor) (last : w.free.getLast? = some i) :
      Step w (.take c) ({ w with free := w.free.dropLast }.goto c (.took ticket functor i))
  | wait {w : World τ κ n} {c : Caller τ n} {ticket : Nat} {functor : Option κ}
      (call : w.calls c = .testing ticket functor) (last : w.free.getLast? = none) :
      Step w (.take c) ({ w with freeMtx := none }.goto c (.waiting ticket functor))
  | wakeCaller {w : World τ κ n} {c : Caller τ n} {ticket : Nat} {functor : Option κ}
      (call : w.calls c = .waiting ticket functor) :
      Step w (.wakeCaller c) (w.goto c (.entering ticket functor))
  | lockEntry {w : World τ κ n} {c : Caller τ n} {ticket : Nat} {functor : Option κ} {i : Fin n}
      (call : w.calls c = .took ticket functor i) (unlocked : w.entryMtx i = none) :
      Step w (.lockEntry c)
        ((w.setMutex i (some (.caller c))).goto c (.storing ticket functor i))
  | store {w : World τ κ n} {c : Caller τ n} {ticket : Nat} {functor : Option κ} {i : Fin n}
      (call : w.calls c = .storing ticket functor i) :
      Step w (.store c)
        ((w.setFunctor i (functor.map (⟨ticket, ·⟩))).goto c (.stored ticket i))
  | notifyWorker {w : World τ κ n} {c : Caller τ n} {ticket : Nat} {i : Fin n}
      (call : w.calls c = .stored ticket i) :
      Step w (.notifyWorker c)
        ((({ w with freeMtx := none, returned := w.returned ++ [ticket] }.setMutex i none).notify
          i).goto c .idle)
  | lock {w : World τ κ n} {i : Fin n} (place : w.worker i = .top)
      (unlocked : w.entryMtx i = none) :
      Step w (.lock i) ((w.setMutex i (some .worker)).move i .locked)
  | start {w : World τ κ n} {i : Fin n} {task : Task κ} (place : w.worker i = .locked)
      (functor : w.functor i = some task) :
      Step w (.testFunctor i) ({ w with started := w.started ++ [task.ticket] }.move i .running)
  | empty {w : World τ κ n} {i : Fin n} (place : w.worker i = .locked)
      (functor : w.functor i = none) :
      Step w (.testFunctor i) (w.move i .testRunning)
  | finish {w : World τ κ n} {i : Fin n} {task : Task κ} (place : w.worker i = .running)
      (functor : w.functor i = some task) :
      Step w (.finish i) ({ w with finished := w.finished ++ [task.ticket] }.move i .ran)
  | reset {w : World τ κ n} {i : Fin n} (place : w.worker i = .ran) :
      Step w (.reset i) (((w.setFunctor i none).setMutex i none).move i .returning)
  | giveBack {w : World τ κ n} {i : Fin n} (place : w.worker i = .returning)
      (unlocked : w.freeMtx = none) :
      Step w (.giveBack i) ({ w with free := w.free ++ [i] }.move i .notifying)
  | notifyNobody {w : World τ κ n} {i : Fin n} (place : w.worker i = .notifying) :
      Step w (.notifyAvailable i none) (w.move i .top)
  | notifyCaller {w : World τ κ n} {i : Fin n} {c : Caller τ n} {ticket : Nat}
      {functor : Option κ} (place : w.worker i = .notifying)
      (call : w.calls c = .waiting ticket functor) :
      Step w (.notifyAvailable i (some c)) ((w.move i .top).goto c (.entering ticket functor))
  | goOn {w : World τ κ n} {i : Fin n} (place : w.worker i = .testRunning)
      (running : w.isRunning = true) : Step w (.testRunning i) (w.move i .predicate)
  | leave {w : World τ κ n} {i : Fin n} (place : w.worker i = .testRunning)
      (stopped : w.isRunning = false) :
      Step w (.testRunning i) ((w.setMutex i none).move i .done)
  | waitReturns {w : World τ κ n} {i : Fin n} (place : w.worker i = .predicate) :
      Step w (.predicate i) ((w.setMutex i none).move i .top)
  | waits {w : World τ κ n} {i : Fin n} (place : w.worker i = .predicate)
      (functor : w.functor i = none) (running : w.isRunning = true) :
      Step w (.predicate i) (w.move i .blocking)
  | block {w : World τ κ n} {i : Fin n} (place : w.worker i = .blocking) :
      Step w (.block i) ((w.setMutex i none).move i .blocked)
  | wakeWorker {w : World τ κ n} {i : Fin n} (place : w.worker i = .blocked) :
      Step w (.wakeWorker i) (w.move i .woken)
  | relock {w : World τ κ n} {i : Fin n} (place : w.worker i = .woken)
      (unlocked : w.entryMtx i = none) :
      Step w (.relock i) ((w.setMutex i (some .worker)).move i .predicate)
  | shutdown {w : World τ κ n} (destructor : w.destructor = .uncalled) :
      Step w .shutdown { w with
        isRunning := false
        destructor := if h : 0 < n then .notify ⟨0, h⟩ else .through }
  | notifyStop {w : World τ κ n} {i : Fin n} (destructor : w.destructor = .notify i) :
      Step w .notifyStop { w.notify i with destructor := .join i }
  | join {w : World τ κ n} {i : Fin n} (destructor : w.destructor = .join i)
      (place : w.worker i = .done) : Step w .join { w with destructor := nextWorker i }

/-- The step function takes these steps. -/
theorem Step.of_step {w w' : World τ κ n} {l : Label τ κ n} (h : w.step l = some w') :
    Step w l w' := by
  cases l with
  | execute c functor =>
    dsimp only [World.step] at h
    split at h
    · rename_i idle
      obtain ⟨may, h⟩ := Option.ite_none_right_eq_some.mp h
      exact Option.some.inj h ▸ .execute functor idle may
    · cases h
  | lockFree c =>
    dsimp only [World.step] at h
    split at h
    · rename_i ticket functor call
      obtain ⟨unlocked, h⟩ := Option.ite_none_right_eq_some.mp h
      exact Option.some.inj h ▸ .lockFree call unlocked
    · cases h
  | take c =>
    dsimp only [World.step] at h
    split at h
    · rename_i ticket functor call
      split at h
      · rename_i i last
        exact Option.some.inj h ▸ .take call last
      · rename_i last
        exact Option.some.inj h ▸ .wait call last
    · cases h
  | wakeCaller c =>
    dsimp only [World.step] at h
    split at h
    · rename_i ticket functor call
      exact Option.some.inj h ▸ .wakeCaller call
    · cases h
  | lockEntry c =>
    dsimp only [World.step] at h
    split at h
    · rename_i ticket functor i call
      obtain ⟨unlocked, h⟩ := Option.ite_none_right_eq_some.mp h
      exact Option.some.inj h ▸ .lockEntry call unlocked
    · cases h
  | store c =>
    dsimp only [World.step] at h
    split at h
    · rename_i ticket functor i call
      exact Option.some.inj h ▸ .store call
    · cases h
  | notifyWorker c =>
    dsimp only [World.step] at h
    split at h
    · rename_i ticket i call
      exact Option.some.inj h ▸ .notifyWorker call
    · cases h
  | lock i =>
    obtain ⟨⟨place, unlocked⟩, h⟩ := Option.ite_none_right_eq_some.mp h
    exact Option.some.inj h ▸ .lock place unlocked
  | testFunctor i =>
    obtain ⟨place, h⟩ := Option.ite_none_right_eq_some.mp h
    split at h
    · rename_i task functor
      exact Option.some.inj h ▸ .start place functor
    · rename_i functor
      exact Option.some.inj h ▸ .empty place functor
  | finish i =>
    dsimp only [World.step] at h
    split at h
    · rename_i task functor idle
      obtain ⟨place, h⟩ := Option.ite_none_right_eq_some.mp h
      exact Option.some.inj h ▸ .finish place functor
    · cases h
  | reset i =>
    obtain ⟨place, h⟩ := Option.ite_none_right_eq_some.mp h
    exact Option.some.inj h ▸ .reset place
  | giveBack i =>
    obtain ⟨⟨place, unlocked⟩, h⟩ := Option.ite_none_right_eq_some.mp h
    exact Option.some.inj h ▸ .giveBack place unlocked
  | notifyAvailable i woken =>
    obtain ⟨place, h⟩ := Option.ite_none_right_eq_some.mp h
    cases woken with
    | none => exact Option.some.inj h ▸ .notifyNobody place
    | some c =>
      dsimp only at h
      split at h
      · rename_i ticket functor call
        exact Option.some.inj h ▸ .notifyCaller place call
      · cases h
  | testRunning i =>
    obtain ⟨place, h⟩ := Option.ite_none_right_eq_some.mp h
    split at h
    · rename_i running
      exact Option.some.inj h ▸ .goOn place running
    · rename_i stopped
      exact Option.some.inj h ▸ .leave place (Bool.eq_false_of_not_eq_true stopped)
  | predicate i =>
    obtain ⟨place, h⟩ := Option.ite_none_right_eq_some.mp h
    split at h
    · exact Option.some.inj h ▸ .waitReturns place
    · rename_i neither
      rw [not_or, Option.not_isSome_iff_eq_none, Bool.not_eq_false] at neither
      exact Option.some.inj h ▸ .waits place neither.1 neither.2
  | block i =>
    obtain ⟨place, h⟩ := Option.ite_none_right_eq_some.mp h
    exact Option.some.inj h ▸ .block place
  | wakeWorker i =>
    obtain ⟨place, h⟩ := Option.ite_none_right_eq_some.mp h
    exact Option.some.inj h ▸ .wakeWorker place
  | relock i =>
    obtain ⟨⟨place, unlocked⟩, h⟩ := Option.ite_none_right_eq_some.mp h
    exact Option.some.inj h ▸ .relock place unlocked
  | shutdown =>
    obtain ⟨destructor, h⟩ := Option.ite_none_right_eq_some.mp h
    exact Option.some.inj h ▸ .shutdown destructor
  | notifyStop =>
    dsimp only [World.step] at h
    split at h
    · rename_i i destructor
      exact Option.some.inj h ▸ .notifyStop destructor
    · cases h
  | join =>
    dsimp only [World.step] at h
    split at h
    · rename_i i destructor
      obtain ⟨place, h⟩ := Option.ite_none_right_eq_some.mp h
      exact Option.some.inj h ▸ .join destructor place
    · cases h

end World

end Bfc.ThreadPool
