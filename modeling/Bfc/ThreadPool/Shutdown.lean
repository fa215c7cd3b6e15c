import Bfc.ThreadPool.Ownership

/-!
# The destructor and workers that fall asleep

The destructor clears `m_is_running` without an entry's mutex, and notifies. A worker that has
evaluated its wait's predicate before, and blocks after, sleeps through both, and is joined.
`shutdown_iff` says that nothing else puts a worker to sleep that the destructor has notified.
-/

namespace Bfc.ThreadPool

open World

variable {τ κ : Type*} {n : Nat}

/-- The destructor has notified a worker: it is in its join, or past it. -/
def Destructor.notified : Destructor n → Fin n → Prop
  | .uncalled, _ => False
  | .notify j, i => i < j
  | .join j, i => i ≤ j
  | .through, _ => True

/-- No worker that the destructor has notified is blocked. -/
def World.NoneAsleep (w : World τ κ n) : Prop :=
  ∀ i, w.destructor.notified i → w.worker i ≠ .blocked

/-- No worker that the destructor has notified is blocked or has found nothing that would keep it
from it. -/
def World.NoneDozing (w : World τ κ n) : Prop :=
  ∀ i, w.destructor.notified i → w.worker i ≠ .blocked ∧ w.worker i ≠ .blocking

/-- A worker is not notified between the evaluation of its wait's predicate and its blocking. -/
def NotifiesInTime (w : World τ κ n) (l : Label τ κ n) : Prop :=
  ∀ i, l = .notifyStop → w.destructor = .notify i → w.worker i ≠ .blocking

/-- What the destructor has done so far. -/
structure Stopping (w : World τ κ n) : Prop where
  stopped : w.destructor ≠ .uncalled → w.isRunning = false
  joined : ∀ i, w.destructor.notified i → w.destructor ≠ .join i → w.worker i = .done

variable {w w' : World τ κ n}

/-- The workers before the next one are those up to this one. -/
theorem notified_nextWorker (i j : Fin n) : (nextWorker i).notified j ↔ j ≤ i := by
  unfold nextWorker
  split
  · exact Nat.lt_succ_iff
  · rename_i last
    refine iff_of_true trivial (Fin.le_def.mpr ?_)
    omega

/-- The destructor's first worker has none before it. -/
theorem notified_first (i : Fin n) :
    ¬ (if h : 0 < n then Destructor.notify ⟨0, h⟩ else .through).notified i := by
  rw [dif_pos i.pos]
  exact Nat.not_lt_zero _

/-! ## What the destructor has done -/

/-- A worker that is not done goes on. -/
theorem Stopping.move (h : Stopping w) {i : Fin n} {target : Worker}
    (same : w'.isRunning = w.isRunning ∧ w'.destructor = w.destructor)
    (worker : w'.worker = (w.move i target).worker) (place : w.worker i ≠ .done) : Stopping w' := by
  refine ⟨fun called => ?_, fun j notified before => ?_⟩
  · rw [same.1]
    exact h.stopped (same.2 ▸ called)
  · rw [same.2] at notified before
    have done := h.joined j notified before
    rw [worker]
    rcases w.move_worker i target j with ⟨rfl, -⟩ | ⟨-, now⟩
    · exact absurd done place
    · rw [now]
      exact done

/-- An action that is neither a worker's nor the destructor's. -/
theorem Stopping.of_same (h : Stopping w) (running : w'.isRunning = w.isRunning)
    (destructor : w'.destructor = w.destructor)
    (worker : ∀ i, w.worker i = .done → w'.worker i = .done) : Stopping w' := by
  refine ⟨fun called => ?_, fun i notified before => ?_⟩
  · rw [running]
    exact h.stopped (destructor ▸ called)
  · rw [destructor] at notified before
    exact worker i (h.joined i notified before)

/-- A notification does not wake a worker that is done. -/
theorem World.notify_done {i j : Fin n} (done : w.worker j = .done) :
    (w.notify i).worker j = .done := by
  rcases w.notify_worker i j with ⟨rfl, blocked, -⟩ | ⟨-, now⟩
  · rw [done] at blocked
    cases blocked
  · rw [now]
    exact done

variable [DecidableEq τ]

/-- **Every action keeps what the destructor has done.** -/
theorem Stopping.step (h : Stopping w) {l : Label τ κ n} (step : Step w l w') : Stopping w' := by
  cases step with
  | execute _ _ _ | lockFree _ _ | take _ _ | wait _ _ | wakeCaller _ | lockEntry _ _ | store _ =>
    exact h.of_same rfl rfl fun _ => id
  | @notifyWorker c ticket i call =>
    rw [notify_eq]
    exact h.of_same rfl rfl fun j done => notify_done (j := j) done
  | lock place _ | start place _ | empty place _ | finish place _ | reset place
  | giveBack place _ | notifyNobody place | notifyCaller place _ | goOn place _ | leave place _
  | waitReturns place | waits place _ _ | block place | wakeWorker place | relock place _ =>
    exact h.move ⟨rfl, rfl⟩ rfl (by rw [place]; decide)
  | shutdown _ => exact ⟨fun _ => rfl, fun i notified => absurd notified (notified_first i)⟩
  | @notifyStop i destructor =>
    refine ⟨fun _ => ?_, fun j notified before => ?_⟩
    · rw [notify_eq]
      exact h.stopped (by rw [destructor]; exact fun hc => by cases hc)
    · have earlier : j < i := lt_of_le_of_ne notified fun same => before (same ▸ rfl)
      refine notify_done (h.joined j (by rw [destructor]; exact earlier) ?_)
      rw [destructor]
      exact fun hc => by cases hc
  | @join i destructor place =>
    refine ⟨fun _ => h.stopped (by rw [destructor]; exact fun hc => by cases hc),
      fun j notified _ => ?_⟩
    by_cases same : j = i
    · exact same ▸ place
    · refine h.joined j ?_ ?_
      · rw [destructor]
        exact (notified_nextWorker i j).mp notified
      · rw [destructor]
        exact fun hc => same (Destructor.join.inj hc).symm

/-! ## Asleep -/

omit [DecidableEq τ] in
/-- A worker goes on, and not to sleep if it was notified. -/
theorem World.NoneDozing.move (h : w.NoneDozing) {i : Fin n} {target : Worker}
    (destructor : w'.destructor = w.destructor) (worker : w'.worker = (w.move i target).worker)
    (asleep : target = .blocked ∨ target = .blocking → ¬ w.destructor.notified i) :
    w'.NoneDozing := by
  intro j notified
  rw [destructor] at notified
  rw [worker]
  rcases w.move_worker i target j with ⟨rfl, now⟩ | ⟨-, now⟩
  · rw [now]
    exact ⟨fun there => asleep (.inl there) notified, fun there => asleep (.inr there) notified⟩
  · rw [now]
    exact h j notified

omit [DecidableEq τ] in
/-- A notification puts nobody to sleep. -/
theorem World.NoneDozing.notify (h : w.NoneDozing) (destructor : w'.destructor = w.destructor)
    (worker : ∀ i, w'.worker i = .woken ∨ w'.worker i = w.worker i) : w'.NoneDozing := by
  intro i notified
  rw [destructor] at notified
  rcases worker i with woken | now
  · rw [woken]
    exact ⟨by decide, by decide⟩
  · rw [now]
    exact h i notified

/-- A step from a state where nobody dozes leads to one exactly if it notifies in time. -/
theorem World.NoneDozing.step_iff (h : w.NoneDozing) (stopping : Stopping w) {l : Label τ κ n}
    (step : Step w l w') : w'.NoneDozing ↔ NotifiesInTime w l := by
  have inTime : l ≠ .notifyStop → w'.NoneDozing → (w'.NoneDozing ↔ NotifiesInTime w l) :=
    fun other dozing => iff_of_true dozing fun _ is => absurd is other
  have awake : ∀ {target : Worker} {i}, target ≠ .blocked → target ≠ .blocking →
      target = .blocked ∨ target = .blocking → ¬ w.destructor.notified i :=
    fun notBlocked notBlocking is _ => is.elim notBlocked notBlocking
  cases step with
  | execute _ _ _ | lockFree _ _ | take _ _ | wait _ _ | wakeCaller _ | lockEntry _ _ | store _ =>
    exact inTime (fun hc => by cases hc) h
  | @notifyWorker c ticket i call =>
    refine inTime (fun hc => by cases hc) ?_
    rw [notify_eq]
    refine h.notify rfl fun j => ?_
    rcases notify_worker _ i j with ⟨-, -, woken⟩ | ⟨-, now⟩
    · exact .inl woken
    · exact .inr now
  | lock _ _ | start _ _ | empty _ _ | finish _ _ | reset _ | giveBack _ _ | notifyNobody _
  | notifyCaller _ _ | goOn _ _ | leave _ _ | waitReturns _ | wakeWorker _ | relock _ _ =>
    exact inTime (fun hc => by cases hc) (h.move rfl rfl (awake (by decide) (by decide)))
  | @waits i place functor running =>
    refine inTime (fun hc => by cases hc) (h.move rfl rfl fun _ notified => ?_)
    -- the destructor is not called yet
    have stopped := stopping.stopped fun uncalled => by
      rw [uncalled] at notified
      exact notified
    rw [running] at stopped
    cases stopped
  | @block i place =>
    exact inTime (fun hc => by cases hc)
      (h.move rfl rfl fun _ notified => (h i notified).2 place)
  | shutdown _ =>
    exact inTime (fun hc => by cases hc) fun i notified => absurd notified (notified_first i)
  | @notifyStop i destructor =>
    constructor
    · rintro dozing j - notify blocking
      rw [destructor] at notify
      obtain rfl := Destructor.notify.inj notify
      refine (dozing i (le_refl i)).2 ?_
      show (w.notify i).worker i = _
      rcases w.notify_worker i i with ⟨-, blocked, -⟩ | ⟨-, now⟩
      · rw [blocking] at blocked
        cases blocked
      · rw [now]
        exact blocking
    · intro condition j notified
      show (w.notify i).worker j ≠ _ ∧ (w.notify i).worker j ≠ _
      rcases w.notify_worker i j with ⟨rfl, -, woken⟩ | ⟨notBlocked, now⟩
      · rw [woken]
        exact ⟨by decide, by decide⟩
      · rw [now]
        by_cases same : j = i
        · subst same
          exact ⟨fun blocked => notBlocked blocked rfl, condition j rfl destructor⟩
        · exact h j (by rw [destructor]; exact lt_of_le_of_ne notified same)
  | @join i destructor place =>
    refine inTime (fun hc => by cases hc) fun j notified => h j ?_
    rw [destructor]
    exact (notified_nextWorker i j).mp notified

/-- Nobody dozes exactly when nobody is asleep, nor is after a worker blocks that was about to. -/
theorem noneDozing_iff : w.NoneDozing ↔
    w.NoneAsleep ∧ ∀ i w', w.step (.block i) = some w' → w'.NoneAsleep := by
  constructor
  · intro h
    refine ⟨fun i notified => (h i notified).1, fun i w' step j notified => ?_⟩
    obtain ⟨place, step⟩ := Option.ite_none_right_eq_some.mp step
    obtain rfl := Option.some.inj step
    rcases move_worker (w.setMutex i none) i .blocked j with ⟨rfl, -⟩ | ⟨-, now⟩
    · exact absurd place (h j notified).2
    · rw [now]
      exact (h j notified).1
  · rintro ⟨asleep, next⟩ i notified
    refine ⟨asleep i notified, fun blocking => ?_⟩
    refine next i ((w.setMutex i none).move i .blocked) (if_pos blocking) i notified ?_
    exact Function.update_self _ _ _

/-- **The shutdown loses no wake-up, and no worker is about to miss it, exactly as long as no worker
is notified between its predicate's evaluation and its blocking.** -/
theorem shutdown_iff (ls : List (Label τ κ n)) :
    Lts.AllStates World.step (fun w => w.NoneAsleep ∧
        ∀ i w', w.step (.block i) = some w' → w'.NoneAsleep) ({} : World τ κ n) ls ↔
      Lts.AllSteps World.step NotifiesInTime ({} : World τ κ n) ls := by
  refine Lts.allStates_iff_allSteps (I := Stopping) ?_ ?_ ls ?_ (noneDozing_iff.mp ?_)
  · intro w l w' stopping step
    exact stopping.step (Step.of_step step)
  · intro w l w' stopping good step
    rw [← noneDozing_iff]
    exact (noneDozing_iff.mpr good).step_iff stopping (Step.of_step step)
  · exact ⟨fun called => absurd rfl called, fun i notified => notified.elim⟩
  · exact fun i notified => notified.elim

/-- The one worker of a pool, asleep while the destructor joins it. -/
theorem shutdown_unnoticed :
    ¬ ∀ ls : List (Label Unit Unit 1),
      Lts.AllStates World.step NoneAsleep ({} : World Unit Unit 1) ls := by
  intro h
  have asleep := (h [.lock 0, .testFunctor 0, .testRunning 0, .predicate 0, .shutdown, .notifyStop,
    .block 0]).last rfl
  exact asleep 0 (le_refl _) rfl

end Bfc.ThreadPool
