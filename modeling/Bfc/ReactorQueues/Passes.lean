import Bfc.CvReactor.World
import Bfc.EpollReactor.Threads
import Bfc.Lib.Passes
import Bfc.Lib.Simulation

/-!
# The queues a reactor serves

`reactor_queues::notify` of the fd reactors and the loop over `m_ctx_snapshot` of `cv_reactor` take
a copy of the registered queues under a mutex and then serve the copy without it. Meanwhile other
threads, and the callbacks themselves, add and remove queues.

The three worlds are looked at as a table served in passes (`Bfc.Lib.Passes`): an entry is passed
over when `has_data` says no, entered when it says yes, and left when its callback has returned and,
with the fd reactors, `has_data` was asked again. A queue that is removed while a pass is in
progress may still be touched by that pass, so a handler that removes another queue must not destroy
it before the pass is over.
-/

namespace Bfc.ReactorQueues

open Lts
open WakeUp (QueueEntry)
open EpollReactor

variable {τ ρ κ α : Type*} [DecidableEq ρ]

/-- `add`, as a change of the table. -/
theorem addEntry_put (entries : List (QueueEntry ρ κ)) (q : ρ) (cb : κ) :
    WakeUp.World.addEntry entries q cb =
      Passes.put QueueEntry.key entries { key := q, cb := cb } := by
  unfold WakeUp.World.addEntry Passes.put
  split
  · apply List.map_congr_left
    intro e _
    split
    · rename_i same
      rw [← same]
    · rfl
  · rfl

variable [DecidableEq τ]

/-! ## The poll reactor -/

namespace Poll

/-- Where `notify` is. -/
def pass : WakeUp.Pc ρ κ → Option (Option (QueueEntry ρ κ) × List (QueueEntry ρ κ))
  | .check rest _ => some (none, rest)
  | .handler e rest _ => some (some e, rest)
  | _ => none

/-- The registered queues, and the pass in progress. -/
def served (s : WakeUp.World τ ρ κ α) : Passes.Served (QueueEntry ρ κ) where
  table := s.entries
  pass := pass s.pc

/-- What a step shows. -/
def view (s : WakeUp.World τ ρ κ α) :
    WakeUp.Label τ ρ κ α → List (Passes.Action ρ (QueueEntry ρ κ))
  | .addQueue _ q cb => [.put { key := q, cb := cb }]
  | .remQueue q => [.remove q]
  | .notify => if s.entries.isEmpty then [.start, .finish] else [.start]
  | .hasData =>
    match s.pc with
    | .check (e :: _) _ => [Passes.look e (s.queues e.key).hasData]
    | _ => []
  | .recheck =>
    match s.pc with
    | .handler e _ _ => [.leave e]
    | _ => []
  | .notifyReturns => [.finish]
  | _ => []

/-- **What a step shows is a run of the passes.** -/
theorem step_served {room : Nat} {s t : WakeUp.World τ ρ κ α} {l : WakeUp.Label τ ρ κ α}
    (step : s.step room l = some t) :
    Run (Passes.Step QueueEntry.key) (served s) (view s l) (served t) := by
  -- what neither the queues nor `notify` are part of
  have other : view s l = [] → t.entries = s.entries → pass t.pc = pass s.pc →
      Run (Passes.Step QueueEntry.key) (served s) (view s l) (served t) := by
    intro unseen entries same
    exact Passes.quiet_run unseen entries same
  cases l with
  | notify =>
    simp only [WakeUp.World.step] at step
    split at step
    · rename_i pc
      obtain ⟨-, step⟩ := Option.ite_none_right_eq_some.mp step
      have between : (served s).pass = none := by rw [served, pc]; rfl
      split at step
      · rename_i unused
        obtain rfl := Option.some.inj step
        exact Passes.start_run between rfl (if_pos (List.isEmpty_iff.mpr unused)).symm
      · rename_i used
        obtain rfl := Option.some.inj step
        exact Passes.start_run between rfl (if_neg (mt List.isEmpty_iff.mp used)).symm
    · cases step
  | addQueue c q cb =>
    cases WakeUp.World.Step.of_step step with
    | addQueue q cb may =>
      exact Run.single (Passes.Step.to (.put _) (addEntry_put ..) rfl)
  | remQueue q =>
    cases WakeUp.World.Step.of_step step with
    | remQueue q => exact Run.single (.remove q)
  | hasData =>
    cases WakeUp.World.Step.of_step step with
    | @hasData e rest backlog pc =>
      simp only [view, pc]
      have next : (served s).pass = some (none, e :: rest) := by rw [served, pc]; rfl
      refine Run.single (.look next _ rfl ?_)
      simp only [served]
      split <;> rfl
  | recheck =>
    cases WakeUp.World.Step.of_step step with
    | @recheck e rest backlog pc =>
      simp only [view, pc]
      exact Run.single (Passes.Step.to (.leave (by rw [served, pc]; rfl)) rfl rfl)
  | notifyReturns =>
    cases WakeUp.World.Step.of_step step with
    | notifyReturns pc => exact Run.single (.finish (by rw [served, pc]; rfl))
  | wakeUp c cb | stop c | push c q x | notifyPush c | compareExchange c | setReactor q this
  | pop q n | setCapacity q capacity =>
    cases WakeUp.World.Step.of_step step <;> exact other rfl rfl rfl
  | write c answer => cases WakeUp.World.Step.of_step step <;> exact other rfl rfl rfl
  | test =>
    cases WakeUp.World.Step.of_step step with
    | test pc =>
      refine other rfl rfl ?_
      rw [pc]
      dsimp only
      split <;> rfl
  | enter | interrupted | pollReturns wake | read | store | takeCallbacks | runCallback
  | endPass =>
    cases WakeUp.World.Step.of_step step <;> exact other rfl rfl (by simp only [*, pass])

end Poll

/-! ## The epoll reactor -/

namespace Epoll

/-- Where `notify` is. -/
def pass : Threads.Pc ρ κ → Option (Option (QueueEntry ρ κ) × List (QueueEntry ρ κ))
  | .check rest _ => some (none, rest)
  | .handler e rest _ => some (some e, rest)
  | _ => none

/-- The registered queues, and the pass in progress. -/
def served (s : Threads.World τ ρ κ α) : Passes.Served (QueueEntry ρ κ) where
  table := s.entries
  pass := pass s.pc

/-- What a step shows. -/
def view (s : Threads.World τ ρ κ α) :
    Threads.Label τ ρ κ α → List (Passes.Action ρ (QueueEntry ρ κ))
  | .addQueue _ q cb => [.put { key := q, cb := cb }]
  | .remQueue q => [.remove q]
  | .notify => if s.entries.isEmpty then [.start, .finish] else [.start]
  | .hasData =>
    match s.pc with
    | .check (e :: _) _ => [Passes.look e (s.queues e.key).hasData]
    | _ => []
  | .recheck =>
    match s.pc with
    | .handler e _ _ => [.leave e]
    | _ => []
  | .notifyReturns => [.finish]
  | _ => []

/-- **What a step shows is a run of the passes.** -/
theorem step_served {room : Nat} {s t : Threads.World τ ρ κ α} {l : Threads.Label τ ρ κ α}
    (step : s.step room l = some t) :
    Run (Passes.Step QueueEntry.key) (served s) (view s l) (served t) := by
  -- what neither the queues nor `notify` are part of
  have other : view s l = [] → t.entries = s.entries → pass t.pc = pass s.pc →
      Run (Passes.Step QueueEntry.key) (served s) (view s l) (served t) := by
    intro unseen entries same
    exact Passes.quiet_run unseen entries same
  cases l with
  | notify =>
    simp only [Threads.World.step] at step
    split at step
    · rename_i pc
      obtain ⟨-, step⟩ := Option.ite_none_right_eq_some.mp step
      have between : (served s).pass = none := by rw [served, pc]; rfl
      split at step
      · rename_i unused
        obtain rfl := Option.some.inj step
        exact Passes.start_run between rfl (if_pos (List.isEmpty_iff.mpr unused)).symm
      · rename_i used
        obtain rfl := Option.some.inj step
        exact Passes.start_run between rfl (if_neg (mt List.isEmpty_iff.mp used)).symm
    · cases step
  | addQueue c q cb =>
    cases Threads.World.Step.of_step step with
    | addQueue q cb may =>
      exact Run.single (Passes.Step.to (.put _) (addEntry_put ..) rfl)
  | remQueue q =>
    cases Threads.World.Step.of_step step with
    | remQueue q => exact Run.single (.remove q)
  | hasData =>
    cases Threads.World.Step.of_step step with
    | @hasData e rest backlog pc =>
      simp only [view, pc]
      have next : (served s).pass = some (none, e :: rest) := by rw [served, pc]; rfl
      refine Run.single (.look next _ rfl ?_)
      simp only [served]
      split <;> rfl
  | recheck =>
    cases Threads.World.Step.of_step step with
    | @recheck e rest backlog pc =>
      simp only [view, pc]
      exact Run.single (Passes.Step.to (.leave (by rw [served, pc]; rfl)) rfl rfl)
  | notifyReturns =>
    cases Threads.World.Step.of_step step with
    | notifyReturns pc => exact Run.single (.finish (by rw [served, pc]; rfl))
  | wakeUp c cb | stop c | push c q x | notifyPush c | write c | writeInterrupted c
  | setReactor q this | pop q n | setCapacity q capacity =>
    cases Threads.World.Step.of_step step
    exact other rfl rfl rfl
  | test =>
    cases Threads.World.Step.of_step step with
    | test pc =>
      refine other rfl rfl ?_
      rw [pc]
      dsimp only
      split <;> rfl
  | enter | interrupted | waitReturns wake | read | takeCallbacks | runCallback | endPass =>
    cases Threads.World.Step.of_step step
    exact other rfl rfl (by simp only [*, pass])

end Epoll

/-! ## The condition-variable reactor -/

namespace Cv

/-- Where the loop over the snapshot is. -/
def pass : CvReactor.Pc ρ → Option (Option ρ × List ρ)
  | .scan rest => some (none, rest)
  | .notify q rest => some (some q, rest)
  | .handler q rest _ => some (some q, rest)
  | _ => none

/-- The contexts, and the pass in progress. -/
def served (s : CvReactor.World τ ρ κ α) : Passes.Served ρ where
  table := s.contexts
  pass := pass s.pc

/-- What a step shows. A context that has data but no callback any more is left at once. -/
def view (s : CvReactor.World τ ρ κ α) : CvReactor.Label τ ρ κ α → List (Passes.Action ρ ρ)
  | .addContext c =>
    match s.calls c with
    | .addContext q => [.put q]
    | _ => []
  | .removeContext c =>
    match s.calls c with
    | .removeContext q => [.remove q]
    | _ => []
  | .snapshot => [.start]
  | .hasData =>
    match s.pc with
    | .scan (q :: _) => [Passes.look q (s.queues q).hasData]
    | _ => []
  | .notifyCallback =>
    match s.pc with
    | .notify q _ => if (s.callback q).isSome then [] else [.leave q]
    | _ => []
  | .handlerReturns =>
    match s.pc with
    | .handler q _ _ => [.leave q]
    | _ => []
  | .scanned => [.finish]
  | _ => []

/-- `m_contexts.push_back`, as a change of the table. -/
theorem contexts_put (contexts : List ρ) (q : ρ) :
    (if q ∈ contexts then contexts else contexts ++ [q]) = Passes.put id contexts q := by
  unfold Passes.put
  rw [List.map_id, id]
  split
  · refine (List.map_id contexts).symm.trans (List.map_congr_left fun q' _ => ?_)
    rw [id]
    split
    · rename_i same
      exact same
    · rfl
  · rfl

/-- **What a step shows is a run of the passes.** -/
theorem step_served {drains : ρ → Bool} {s t : CvReactor.World τ ρ κ α}
    {l : CvReactor.Label τ ρ κ α} (step : s.step drains l = some t) :
    Run (Passes.Step id) (served s) (view s l) (served t) := by
  -- what neither the contexts nor the loop are part of
  have other : view s l = [] → t.contexts = s.contexts → pass t.pc = pass s.pc →
      Run (Passes.Step id) (served s) (view s l) (served t) := by
    intro unseen contexts same
    exact Passes.quiet_run unseen contexts same
  cases CvReactor.World.Step.of_step step with
  | @addContext c q call =>
    simp only [view, call]
    exact Run.single (Passes.Step.to (.put q) (contexts_put ..) rfl)
  | @removeContext c q call =>
    simp only [view, call]
    exact Run.single (.remove q)
  | snapshot pc => exact Run.single (.start (by rw [served, pc]; rfl))
  | @hasData q rest pc =>
    simp only [view, pc]
    have next : (served s).pass = some (none, q :: rest) := by rw [served, pc]; rfl
    refine Run.single (.look next _ rfl ?_)
    simp only [served]
    split <;> rfl
  | @notifyCallback q rest pc =>
    have inside : (served s).pass = some (some q, rest) := by rw [served, pc]; rfl
    by_cases callback : (s.callback q).isSome = true
    · apply other
      · simp only [view, pc, callback, if_true]
      · rfl
      · simp only [callback, if_true, pc, pass]
    · simp only [view, pc, callback]
      exact Run.single (Passes.Step.to (.leave inside) rfl rfl)
  | @handlerReturns q rest drained pc idle seen =>
    simp only [view, pc]
    exact Run.single (Passes.Step.to (.leave (by rw [served, pc]; rfl)) rfl rfl)
  | scanned pc => exact Run.single (.finish (by rw [served, pc]; rfl))
  | wakeUp cb may =>
    refine other rfl ?_ ?_
    · cases cb <;> rfl
    · cases cb <;> rfl
  | request call unlocked =>
    refine other rfl rfl ?_
    dsimp only [CvReactor.World.goto]
    unfold CvReactor.World.notified
    split
    · rename_i blocked
      rw [blocked]
      rfl
    · rfl
  | pop q n =>
    refine other rfl rfl ?_
    dsimp only
    cases s.pc <;> rfl
  | stop may => exact other rfl rfl rfl
  | clearRunning call => exact other rfl rfl rfl
  | push q x may => exact other rfl rfl rfl
  | notifyPush call => exact other rfl rfl rfl
  | addReadRdy q cb may => exact other rfl rfl rfl
  | removeReadRdy q may => exact other rfl rfl rfl
  | setReactor q this => exact other rfl rfl rfl
  | setCapacity c lossy => exact other rfl rfl rfl
  | test pc | evaluate pc | testRunning pc =>
    refine other rfl rfl ?_
    rw [pc]
    dsimp only
    split <;> rfl
  | run pc | setRunning pc | timeout pc | spurious pc | requested pc req | notRequested pc req
  | takeCallbacks pc | callbacksEnd pc idle batch | endPass pc idle =>
    exact other rfl rfl (by rw [pc]; rfl)
  | runCallback pc idle batch => exact other rfl rfl rfl

end Cv

/-! ## Runs -/

/-- **Queue passes are exact**, under each of the three reactors and in every interleaving. No queue
is registered twice. A pass serves each queue that was registered when it began once, in the order
of registration, and runs no two callbacks at a time. Whatever is touched was registered when the
pass began, and a queue that was removed and not added again is touched by the pass in progress at
most. -/
theorem queue_passes_exact (lossy : ρ → Bool) :
    (∀ (room : Nat) (labels : List (WakeUp.Label τ ρ κ α)) (s : WakeUp.World τ ρ κ α),
      labels.foldlM (WakeUp.World.step room) (.init lossy) = some s →
      ∀ shown, shown = shows (WakeUp.World.step room) Poll.view (.init lossy) labels →
      s.entries = Passes.tableBy QueueEntry.key shown ∧ Passes.Exact QueueEntry.key shown) ∧
    (∀ (room : Nat) (labels : List (Threads.Label τ ρ κ α)) (s : Threads.World τ ρ κ α),
      labels.foldlM (Threads.World.step room) (.init lossy) = some s →
      ∀ shown, shown = shows (Threads.World.step room) Epoll.view (.init lossy) labels →
      s.entries = Passes.tableBy QueueEntry.key shown ∧ Passes.Exact QueueEntry.key shown) ∧
    ∀ (drains : ρ → Bool) (labels : List (CvReactor.Label τ ρ κ α))
      (s : CvReactor.World τ ρ κ α),
      labels.foldlM (CvReactor.World.step drains) (.init lossy) = some s →
      ∀ shown, shown = shows (CvReactor.World.step drains) Cv.view (.init lossy) labels →
      s.contexts = Passes.tableBy id shown ∧ Passes.Exact id shown := by
  refine ⟨?_, ?_, ?_⟩
  · rintro room labels s run shown rfl
    exact Passes.exact_of_run (simulation_steps Poll.served Poll.step_served run)
  · rintro room labels s run shown rfl
    exact Passes.exact_of_run (simulation_steps Epoll.served Epoll.step_served run)
  · rintro drains labels s run shown rfl
    exact Passes.exact_of_run (simulation_steps Cv.served Cv.step_served run)

/-- A queue whose registration the callback of another one removes, under each reactor: the pass in
progress still comes to it. -/
theorem queue_passes_exact_removed :
    ∃ (s : WakeUp.World Nat Nat Nat Nat) (t : Threads.World Nat Nat Nat Nat)
      (u : CvReactor.World Nat Nat Nat Nat) (queue : Nat → QueueEntry Nat Nat),
      (s.entries = [queue 1] ∧ Passes.Exact QueueEntry.key [.put (queue 1), .put (queue 2), .start,
        .enter (queue 1), .remove 2, .leave (queue 1), .enter (queue 2), .leave (queue 2),
        .finish]) ∧
      (t.entries = [queue 1] ∧ Passes.Exact QueueEntry.key [.put (queue 1), .put (queue 2), .start,
        .enter (queue 1), .remove 2, .leave (queue 1), .enter (queue 2), .leave (queue 2),
        .finish]) ∧
      u.contexts = [1] ∧ Passes.Exact id [.put 1, .put 2, .start, .enter 1, .remove 2, .leave 1,
        .enter 2, .leave 2, .finish] := by
  obtain ⟨poll, epoll, cv⟩ := queue_passes_exact (τ := Nat) (κ := Nat) (α := Nat)
    fun _ : Nat => false
  have polled := poll 16 [.addQueue (some 0) 1 10, .compareExchange (some 0),
    .write (some 0) .one, .addQueue (some 0) 2 20, .compareExchange (some 0), .push (some 0) 1 5,
    .notifyPush (some 0), .push (some 0) 2 6, .enter, .test, .pollReturns false, .takeCallbacks,
    .notify, .hasData, .remQueue 2, .recheck, .hasData, .recheck, .notifyReturns] _ rfl _ rfl
  have epolled := epoll 16 [.addQueue (some 0) 1 10, .write (some 0), .addQueue (some 0) 2 20,
    .write (some 0), .push (some 0) 1 5, .notifyPush (some 0), .push (some 0) 2 6, .enter, .test,
    .waitReturns false, .takeCallbacks, .notify, .hasData, .remQueue 2, .recheck, .hasData,
    .recheck, .notifyReturns] _ rfl _ rfl
  have waited := cv (fun _ => false) [.addReadRdy (some 0) 1 10, .addContext (some 0),
    .addReadRdy (some 0) 2 20, .addContext (some 0), .push (some 0) 1 5, .notifyPush (some 0),
    .push (some 0) 2 6, .notifyPush (some 0), .wakeUp (some 0) none, .request (some 0), .run,
    .setRunning, .test, .evaluate, .testRunning, .branch, .snapshot, .hasData, .notifyCallback,
    .removeReadRdy none 2, .removeContext none, .handlerReturns, .hasData, .notifyCallback,
    .scanned] _ rfl _ rfl
  exact ⟨_, _, _, fun q => { key := q, cb := 10 * q }, ⟨polled.1.trans rfl, polled.2⟩,
    ⟨epolled.1.trans rfl, epolled.2⟩, waited.1.trans rfl, waited.2⟩

end Bfc.ReactorQueues
