import Bfc.ThreadPool.Leaks
import Bfc.ThreadPool.Tasks

/-!
# When the pool comes to rest

A call of `execute` that finds no free worker waits, and a worker that has given its index back
notifies one of the calls that wait. `Attended` counts: while calls wait, there are no more indices
in `m_free` than workers about to notify and calls about to look. So no call is left waiting beside
a free worker, and where nothing goes on by itself, either no call is in progress, or every worker
is in a task that waits in `execute` itself. From there no task is ever finished.
-/

namespace Bfc.ThreadPool

open World

variable {τ κ : Type*} {n : Nat}

/-- The call has not looked into `m_free` yet, or looks again. -/
def Call.active : Call κ n → Bool
  | .entering _ _ | .testing _ _ => true
  | _ => false

/-- The call has `m_free_mtx`. -/
def Call.inCritical : Call κ n → Bool
  | .testing _ _ | .took _ _ _ | .storing _ _ _ | .stored _ _ => true
  | _ => false

/-- A new call, a wake-up for no reason, or the call of the destructor. -/
def Label.outer : Label τ κ n → Bool
  | .execute _ _ | .wakeCaller _ | .wakeWorker _ | .shutdown => true
  | _ => false

namespace World

/-- A call waits for a free worker. -/
def Waits (w : World τ κ n) : Prop := ∃ c k f, w.calls c = .waiting k f

/-- While calls wait, no more workers are free than notifications and calls are on their way. -/
def Attended (w : World τ κ n) : Prop :=
  w.Waits → ∃ looking : List (Caller τ n), looking.Nodup ∧
    (∀ c ∈ looking, (w.calls c).active = true) ∧
    w.free.length ≤ (Finset.univ.filter fun i => w.worker i = .notifying).card + looking.length

/-- Who has `m_free_mtx`. -/
def Critical (w : World τ κ n) : Prop :=
  ∀ c, w.freeMtx = some c → (w.calls c).inCritical = true

variable [DecidableEq τ]

/-- A step in which `m_worker_available_cv.notify_one` wakes a call that waits, if there is one. -/
def NotifyingStep (w : World τ κ n) (l : Label τ κ n) (w' : World τ κ n) : Prop :=
  w.step l = some w' ∧ ((∃ i, l = .notifyAvailable i none) → ¬w.Waits)

/-- Nothing goes on by itself. -/
def Resting (w : World τ κ n) : Prop := ∀ l w', w.NotifyingStep l w' → l.outer = true

end World

/-- No call is in progress, and every worker sleeps and is free. -/
structure Idle (w : World τ κ n) : Prop where
  calls : ∀ c, w.calls c = .idle
  workers : ∀ i, w.worker i = .blocked ∧ w.functor i = none ∧ i ∈ w.free

/-- Every worker is in a task that waits for a free worker, or looks for one again, and none is. -/
structure Nested (w : World τ κ n) : Prop where
  noneFree : w.free = []
  workers : ∀ i, w.worker i = .running ∧
    ((w.calls (.worker i)).active = true ∨ ∃ k f, w.calls (.worker i) = .waiting k f)

variable {w w' : World τ κ n}

/-! ## The calls that wait -/

/-- What attends the calls that wait stays. -/
theorem World.Attended.of_same (h : w.Attended) (free : w'.free = w.free)
    (notifying : ∀ i, w.worker i = .notifying → w'.worker i = .notifying)
    (waits : w'.Waits → w.Waits)
    (active : ∀ c, (w.calls c).active = true → (w'.calls c).active = true) : w'.Attended := by
  intro somebody
  obtain ⟨looking, nodup, looks, enough⟩ := h (waits somebody)
  refine ⟨looking, nodup, fun c mem => active c (looks c mem), ?_⟩
  rw [free]
  refine Nat.le_trans enough (Nat.add_le_add_right (Finset.card_le_card fun i mem => ?_) _)
  rw [Finset.mem_filter] at mem ⊢
  exact ⟨mem.1, notifying i mem.2⟩

/-- A worker that is not about to notify goes on. -/
theorem World.Attended.move (h : w.Attended) {i : Fin n} {target : Worker}
    (same : w'.free = w.free ∧ w'.calls = w.calls) (worker : w'.worker = (w.move i target).worker)
    (place : w.worker i ≠ .notifying) : w'.Attended := by
  refine h.of_same same.1 (fun j there => ?_) (fun ⟨c, k, f, hc⟩ => ⟨c, k, f, same.2 ▸ hc⟩)
    fun c => by rw [same.2]; exact id
  rw [worker]
  rcases w.move_worker i target j with ⟨rfl, -⟩ | ⟨-, now⟩
  · exact absurd there place
  · rw [now, there]

/-- A notification of a worker takes no notification from the calls. -/
theorem notify_notifying {i j : Fin n} (there : w.worker j = .notifying) :
    (w.notify i).worker j = .notifying := by
  rcases w.notify_worker i j with ⟨rfl, blocked, -⟩ | ⟨-, now⟩
  · rw [blocked] at there
    cases there
  · rw [now, there]

variable [DecidableEq τ]

/-- A call goes on, and not to wait; if it was about to look it still is. -/
theorem World.Attended.goto (h : w.Attended) {c : Caller τ n} {call : Call κ n}
    (free : w'.free = w.free) (notifying : ∀ i, w.worker i = .notifying → w'.worker i = .notifying)
    (calls : w'.calls = (w.goto c call).calls) (notWaiting : ∀ k f, call ≠ .waiting k f)
    (active : (w.calls c).active = true → call.active = true) : w'.Attended := by
  refine h.of_same free notifying ?_ fun c' looks => ?_
  · rintro ⟨c', k, f, hc⟩
    rw [calls] at hc
    rcases w.goto_calls c call c' with ⟨rfl, there⟩ | ⟨-, there⟩
    · exact absurd (there.symm.trans hc) (notWaiting k f)
    · exact ⟨c', k, f, there.symm.trans hc⟩
  · rw [calls]
    rcases w.goto_calls c call c' with ⟨rfl, there⟩ | ⟨-, there⟩
    · rw [there]
      exact active looks
    · rw [there]
      exact looks

/-- A call that takes an index was about to look. -/
theorem World.Attended.take (h : w.Attended) {c : Caller τ n} {ticket : Nat} {functor : Option κ}
    {i : Fin n} (call : w.calls c = .testing ticket functor) :
    ({ w with free := w.free.dropLast }.goto c (.took ticket functor i)).Attended := by
  rintro ⟨c', k, f, hc⟩
  have before : w.Waits := by
    rcases w.goto_calls c (.took ticket functor i) c' with ⟨rfl, there⟩ | ⟨-, there⟩
    · exact absurd (there.symm.trans hc) (fun hc => by cases hc)
    · exact ⟨c', k, f, there.symm.trans hc⟩
  obtain ⟨looking, nodup, looks, enough⟩ := h before
  refine ⟨looking.erase c, nodup.erase c, fun d mem => ?_, ?_⟩
  · have other : d ≠ c := fun same => (List.Nodup.not_mem_erase nodup) (same ▸ mem)
    rcases w.goto_calls c (.took ticket functor i) d with ⟨same, -⟩ | ⟨-, there⟩
    · exact absurd same other
    · exact (congrArg Call.active there).trans (looks d (List.mem_of_mem_erase mem))
  · have fewer : w.free.dropLast.length = w.free.length - 1 := List.length_dropLast
    have erased : looking.length - 1 ≤ (looking.erase c).length := by
      rw [List.length_erase]
      split <;> omega
    show w.free.dropLast.length ≤ (Finset.univ.filter fun i => w.worker i = .notifying).card + _
    omega

/-- A call begins to wait where no index is free. -/
theorem World.Attended.wait {c : Caller τ n} {ticket : Nat} {functor : Option κ}
    (last : w.free.getLast? = none) :
    ({ w with freeMtx := none }.goto c (.waiting ticket functor)).Attended := by
  intro _
  refine ⟨[], List.nodup_nil, fun d mem => absurd mem List.not_mem_nil, ?_⟩
  show w.free.length ≤ _
  rw [List.getLast?_eq_none_iff.mp last]
  exact Nat.zero_le _

omit [DecidableEq τ] in
/-- An index that is given back comes with a notification. -/
theorem World.Attended.giveBack (h : w.Attended) {i : Fin n} (place : w.worker i = .returning) :
    ({ w with free := w.free ++ [i] }.move i .notifying).Attended := by
  intro waits
  obtain ⟨looking, nodup, looks, enough⟩ := h waits
  refine ⟨looking, nodup, looks, ?_⟩
  have more : (Finset.univ.filter fun j => (w.move i .notifying).worker j = .notifying) =
      insert i (Finset.univ.filter fun j => w.worker j = .notifying) := by
    ext j
    rw [Finset.mem_insert, Finset.mem_filter, Finset.mem_filter]
    rcases w.move_worker i .notifying j with ⟨same, now⟩ | ⟨other, now⟩
    · exact iff_of_true ⟨Finset.mem_univ j, now⟩ (.inl same)
    · rw [now, or_iff_right other]
  have new : i ∉ Finset.univ.filter fun j => w.worker j = .notifying := by
    rw [Finset.mem_filter, place]
    exact fun hc => by cases hc.2
  show (w.free ++ [i]).length ≤
    (Finset.univ.filter fun j => (w.move i .notifying).worker j = .notifying).card + _
  rw [more, Finset.card_insert_of_notMem new, List.length_append, List.length_singleton]
  omega

/-- A worker that notifies leaves a call that is about to look. -/
theorem World.Attended.notifyCaller (h : w.Attended) {i : Fin n} {c : Caller τ n} {ticket : Nat}
    {functor : Option κ} (place : w.worker i = .notifying)
    (call : w.calls c = .waiting ticket functor) :
    ((w.move i .top).goto c (.entering ticket functor)).Attended := by
  intro _
  obtain ⟨looking, nodup, looks, enough⟩ := h ⟨c, ticket, functor, call⟩
  have new : c ∉ looking := by
    intro mem
    have := looks c mem
    rw [call] at this
    cases this
  refine ⟨c :: looking, List.nodup_cons.mpr ⟨new, nodup⟩, fun d mem => ?_, ?_⟩
  · rcases w.goto_calls c (.entering ticket functor) d with ⟨-, there⟩ | ⟨other, there⟩
    · exact congrArg Call.active there
    · rcases List.mem_cons.mp mem with same | mem
      · exact absurd same other
      · exact (congrArg Call.active there).trans (looks d mem)
  · have fewer : (Finset.univ.filter fun j => w.worker j = .notifying) =
        insert i (Finset.univ.filter fun j => (w.move i .top).worker j = .notifying) := by
      ext j
      rw [Finset.mem_insert, Finset.mem_filter, Finset.mem_filter]
      rcases w.move_worker i .top j with ⟨rfl, -⟩ | ⟨other, now⟩
      · exact iff_of_true ⟨Finset.mem_univ _, place⟩ (.inl rfl)
      · rw [now, or_iff_right other]
    rw [fewer] at enough
    have card := Finset.card_insert_le i
      (Finset.univ.filter fun j => (w.move i .top).worker j = .notifying)
    show w.free.length ≤
      (Finset.univ.filter fun j => (w.move i .top).worker j = .notifying).card + _
    rw [List.length_cons]
    omega

/-- **Every step keeps the calls that wait attended.** -/
theorem World.Attended.step (h : w.Attended) {l : Label τ κ n} (step : Step w l w')
    (notifies : (∃ i, l = .notifyAvailable i none) → ¬w.Waits) : w'.Attended := by
  cases step with
  | execute functor idle may =>
    exact h.goto rfl (fun _ => id) rfl (fun _ _ hc => by cases hc) fun _ => rfl
  | lockFree call unlocked =>
    exact h.goto rfl (fun _ => id) rfl (fun _ _ hc => by cases hc) fun _ => rfl
  | take call last => exact h.take call
  | wait call last => exact Attended.wait last
  | wakeCaller call =>
    exact h.goto rfl (fun _ => id) rfl (fun _ _ hc => by cases hc) fun _ => rfl
  | lockEntry call unlocked =>
    exact h.goto rfl (fun _ => id) rfl (fun _ _ hc => by cases hc)
      fun looks => by rw [call] at looks; cases looks
  | store call =>
    exact h.goto rfl (fun _ => id) rfl (fun _ _ hc => by cases hc)
      fun looks => by rw [call] at looks; cases looks
  | @notifyWorker c ticket i call =>
    rw [notify_eq]
    refine h.goto rfl (fun j there => ?_) rfl (fun _ _ hc => by cases hc)
      fun looks => by rw [call] at looks; cases looks
    have worker := notify_congr w
      ({ w with freeMtx := none, returned := w.returned ++ [ticket] }.setMutex i none) rfl i
    exact (congrFun worker j).trans (notify_notifying there)
  | giveBack place unlocked => exact h.giveBack place
  | notifyNobody place =>
    intro waits
    exact absurd waits (notifies ⟨_, rfl⟩)
  | notifyCaller place call => exact h.notifyCaller place call
  | lock place _ | start place _ | empty place _ | finish place _ | reset place | goOn place _
  | leave place _ | waitReturns place | waits place _ _ | block place | wakeWorker place
  | relock place _ => exact h.move ⟨rfl, rfl⟩ rfl (by rw [place]; decide)
  | shutdown destructor => exact h
  | notifyStop destructor =>
    rw [notify_eq]
    exact h.of_same rfl (fun j there => notify_notifying there) id fun _ => id
  | join destructor place => exact h

/-! ## `m_free_mtx` -/

/-- A call goes on, and what it has of the mutex with it. -/
theorem World.Critical.goto (h : w.Critical) {c : Caller τ n} {call : Call κ n}
    (mtx : w'.freeMtx = w.freeMtx) (calls : w'.calls = (w.goto c call).calls)
    (same : call.inCritical = (w.calls c).inCritical) : w'.Critical := by
  intro d has
  rw [mtx] at has
  rw [calls]
  rcases w.goto_calls c call d with ⟨rfl, there⟩ | ⟨-, there⟩
  · rw [there, same]
    exact h d has
  · rw [there]
    exact h d has

/-- **Every step keeps the mutex with a call that is in its critical section.** -/
theorem World.Critical.step (h : w.Critical) {l : Label τ κ n} (step : Step w l w') :
    w'.Critical := by
  cases step with
  | execute functor idle may => exact h.goto rfl rfl (by rw [idle]; rfl)
  | @lockFree c ticket functor call unlocked =>
    intro d has
    obtain rfl := Option.some.inj has
    rw [goto_self]
    rfl
  | take call last => exact h.goto rfl rfl (by rw [call]; rfl)
  | wait call last => exact fun d has => by cases has
  | wakeCaller call => exact h.goto rfl rfl (by rw [call]; rfl)
  | lockEntry call unlocked => exact h.goto rfl rfl (by rw [call]; rfl)
  | store call => exact h.goto rfl rfl (by rw [call]; rfl)
  | @notifyWorker c ticket i call =>
    rw [notify_eq]
    exact fun d has => by cases has
  | notifyCaller place call => exact h.goto rfl rfl (by rw [call]; rfl)
  | notifyStop destructor =>
    rw [notify_eq]
    exact h
  | lock place _ | start place _ | empty place _ | finish place _ | reset place | giveBack place _
  | notifyNobody place | goOn place _ | leave place _ | waitReturns place | waits place _ _
  | block place | wakeWorker place | relock place _ | shutdown destructor | join destructor place =>
    exact h

/-! ## The invariant -/

/-- What is known of a pool whose calls were all given functors. -/
structure Sound (w : World τ κ n) : Prop where
  placed : ∃ place, Placed w place ∧ ∀ i, place i ≠ .lost
  finds : Finds w
  filled : ∀ c k, (w.calls c).pending ≠ some (k, none)
  critical : w.Critical
  attended : w.Attended

/-- A call that goes on keeps its functor. -/
theorem filled_goto (h : ∀ c k, (w.calls c).pending ≠ some (k, none)) {c : Caller τ n}
    {call : Call κ n} (calls : w'.calls = (w.goto c call).calls)
    (new : ∀ k, call.pending ≠ some (k, none)) (d : Caller τ n) (k : Nat) :
    (w'.calls d).pending ≠ some (k, none) := by
  rw [calls]
  rcases w.goto_calls c call d with ⟨-, there⟩ | ⟨-, there⟩
  · rw [there]
    exact new k
  · rw [there]
    exact h d k

theorem filled_step (h : ∀ c k, (w.calls c).pending ≠ some (k, none)) {l : Label τ κ n}
    (step : Step w l w') (given : ∀ c, l ≠ .execute c none) (d : Caller τ n) (k : Nat) :
    (w'.calls d).pending ≠ some (k, none) := by
  have stays : ∀ {c : Caller τ n} {call : Call κ n}, call.pending = (w.calls c).pending →
      ∀ k, call.pending ≠ some (k, none) := fun same k => same ▸ h _ k
  cases step with
  | @execute c functor idle may =>
    refine filled_goto h rfl (fun k hc => given c ?_) d k
    rw [(Prod.mk.inj (Option.some.inj hc)).2]
  | lockFree call unlocked => exact filled_goto h rfl (stays (by rw [call]; rfl)) d k
  | take call last => exact filled_goto h rfl (stays (by rw [call]; rfl)) d k
  | wait call last => exact filled_goto h rfl (stays (by rw [call]; rfl)) d k
  | wakeCaller call => exact filled_goto h rfl (stays (by rw [call]; rfl)) d k
  | lockEntry call unlocked => exact filled_goto h rfl (stays (by rw [call]; rfl)) d k
  | store call => exact filled_goto h rfl (fun _ hc => by cases hc) d k
  | notifyWorker call =>
    rw [notify_eq]
    exact filled_goto h rfl (fun _ hc => by cases hc) d k
  | notifyCaller place call => exact filled_goto h rfl (stays (by rw [call]; rfl)) d k
  | notifyStop destructor =>
    rw [notify_eq]
    exact h d k
  | lock place _ | start place _ | empty place _ | finish place _ | reset place | giveBack place _
  | notifyNobody place | goOn place _ | leave place _ | waitReturns place | waits place _ _
  | block place | wakeWorker place | relock place _ | shutdown destructor | join destructor place =>
    exact h d k

theorem Sound.step (h : Sound w) {l : Label τ κ n} (step : w.NotifyingStep l w')
    (given : ∀ c, l ≠ .execute c none) : Sound w' := by
  have taken := Step.of_step step.1
  obtain ⟨place, placed, kept⟩ := h.placed
  obtain ⟨place', placed', lost⟩ := placed.step taken
  refine ⟨⟨place', placed', fun i there => ?_⟩, h.finds.step taken,
    filled_step h.filled taken given, h.critical.step taken, h.attended.step taken step.2⟩
  rcases (lost i).mp there with old | ⟨c, k, -, call⟩
  · exact kept i old
  · exact h.filled c k (by rw [call]; rfl)

omit [DecidableEq τ] in
theorem Sound.start : Sound ({} : World τ κ n) where
  placed := ⟨_, Placed.start, fun i hc => by cases hc⟩
  finds := Finds.start
  filled c k hc := by cases hc
  critical c has := by cases has
  attended := by
    rintro ⟨c, k, f, hc⟩
    cases hc

/-! ## At rest -/

namespace World.Resting

/-- Where nothing goes on, a step that would is not there. -/
theorem disabled (rest : w.Resting) {l : Label τ κ n} (inner : l.outer = false)
    (notifies : (∃ i, l = .notifyAvailable i none) → ¬w.Waits) : w.step l = none := by
  cases step : w.step l with
  | none => rfl
  | some w' =>
    have outer := rest l w' ⟨step, notifies⟩
    rw [inner] at outer
    cases outer

/-- Nor is one that is no notification. -/
theorem stuck (rest : w.Resting) {l : Label τ κ n} (inner : l.outer = false)
    (other : ∀ i, l ≠ .notifyAvailable i none) : w.step l = none :=
  rest.disabled inner fun ⟨i, same⟩ => absurd same (other i)

/-- Calls are not in progress, or blocked in one of three places. -/
theorem call (rest : w.Resting) (c : Caller τ n) :
    w.calls c = .idle ∨ (∃ k f, w.calls c = .entering k f) ∨ (∃ k f, w.calls c = .waiting k f) ∨
      ∃ k f i, w.calls c = .took k f i := by
  cases call : w.calls c with
  | idle => exact .inl rfl
  | entering k f => exact .inr (.inl ⟨k, f, rfl⟩)
  | waiting k f => exact .inr (.inr (.inl ⟨k, f, rfl⟩))
  | took k f i => exact .inr (.inr (.inr ⟨k, f, i, rfl⟩))
  | testing k f =>
    have stuck := rest.stuck (l := .take c) rfl fun _ hc => by cases hc
    simp only [World.step, call] at stuck
    split at stuck <;> cases stuck
  | storing k f i =>
    have stuck := rest.stuck (l := .store c) rfl fun _ hc => by cases hc
    simp only [World.step, call] at stuck
    cases stuck
  | stored k i =>
    have stuck := rest.stuck (l := .notifyWorker c) rfl fun _ hc => by cases hc
    simp only [World.step, call] at stuck
    cases stuck

/-- Workers are in their tasks, or blocked. -/
theorem worker (rest : w.Resting) (i : Fin n) :
    w.worker i = .top ∨ w.worker i = .running ∨ w.worker i = .blocked ∨ w.worker i = .woken ∨
      w.worker i = .returning ∨ w.worker i = .done := by
  cases place : w.worker i with
  | top | running | blocked | woken | returning | done => simp only [reduceCtorEq, or_true, true_or]
  | locked =>
    have stuck := rest.stuck (l := .testFunctor i) rfl fun _ hc => by cases hc
    simp only [World.step, place, if_true] at stuck
    split at stuck <;> cases stuck
  | ran =>
    have stuck := rest.stuck (l := .reset i) rfl fun _ hc => by cases hc
    simp only [World.step, place, if_true] at stuck
    cases stuck
  | testRunning =>
    have stuck := rest.stuck (l := .testRunning i) rfl fun _ hc => by cases hc
    simp only [World.step, place, if_true] at stuck
    split at stuck <;> cases stuck
  | predicate =>
    have stuck := rest.stuck (l := .predicate i) rfl fun _ hc => by cases hc
    simp only [World.step, place, if_true] at stuck
    split at stuck <;> cases stuck
  | blocking =>
    have stuck := rest.stuck (l := .block i) rfl fun _ hc => by cases hc
    simp only [World.step, place, if_true] at stuck
    cases stuck
  | notifying =>
    by_cases waits : w.Waits
    · obtain ⟨c, k, f, call⟩ := waits
      have stuck := rest.stuck (l := .notifyAvailable i (some c)) rfl fun _ hc => by cases hc
      simp only [World.step, place, if_true, call] at stuck
      cases stuck
    · have stuck := rest.disabled (l := .notifyAvailable i none) rfl fun _ => waits
      simp only [World.step, place, if_true] at stuck
      cases stuck

/-- The mutex of an entry is free, but while its task runs. -/
theorem entryMtx (rest : w.Resting) (mutexes : Mutexes w) {i : Fin n}
    (place : w.worker i ≠ .running) : w.entryMtx i = none := by
  cases owner : w.entryMtx i with
  | none => rfl
  | some who =>
    cases who with
    | worker =>
      have holds := (mutexes.worker i).mpr owner
      rcases rest.worker i with worker | worker | worker | worker | worker | worker
      · rw [worker] at holds; cases holds
      · exact absurd worker place
      · rw [worker] at holds; cases holds
      · rw [worker] at holds; cases holds
      · rw [worker] at holds; cases holds
      · rw [worker] at holds; cases holds
    | caller c =>
      have inEntry := (mutexes.caller c i).mpr owner
      rcases rest.call c with call | ⟨k, f, call⟩ | ⟨k, f, call⟩ | ⟨k, f, j, call⟩ <;>
        (rw [call] at inEntry; cases inEntry)

/-- No call is between taking an index and its worker. -/
theorem not_took (rest : w.Resting) (sound : Sound w) (c : Caller τ n) (k : Nat) (f : Option κ)
    (i : Fin n) : w.calls c ≠ .took k f i := by
  intro took
  obtain ⟨place, placed, -⟩ := sound.placed
  have held : place i = .held c := (placed.held c i).mp (by rw [took]; rfl)
  have notRunning : w.worker i ≠ .running := by
    intro running
    have assigned := placed.busy i (by rw [running]; rfl)
    rw [held] at assigned
    cases assigned
  have stuck := rest.stuck (l := .lockEntry c) rfl fun _ hc => by cases hc
  simp only [World.step, took, rest.entryMtx sound.finds.mutexes notRunning, if_true] at stuck
  cases stuck

theorem freeMtx (rest : w.Resting) (sound : Sound w) : w.freeMtx = none := by
  cases owner : w.freeMtx with
  | none => rfl
  | some c =>
    have critical := sound.critical c owner
    rcases rest.call c with call | ⟨k, f, call⟩ | ⟨k, f, call⟩ | ⟨k, f, i, call⟩
    · rw [call] at critical; cases critical
    · rw [call] at critical; cases critical
    · rw [call] at critical; cases critical
    · exact absurd call (rest.not_took sound c k f i)

/-- So a call is not in progress, or waits. -/
theorem idle_or_waiting (rest : w.Resting) (sound : Sound w) (c : Caller τ n) :
    w.calls c = .idle ∨ ∃ k f, w.calls c = .waiting k f := by
  rcases rest.call c with idle | ⟨k, f, entering⟩ | waiting | ⟨k, f, i, took⟩
  · exact .inl idle
  · have stuck := rest.stuck (l := .lockFree c) rfl fun _ hc => by cases hc
    simp only [World.step, entering, rest.freeMtx sound, if_true] at stuck
    cases stuck
  · exact .inr waiting
  · exact absurd took (rest.not_took sound c k f i)

/-- And a worker sleeps, or its task waits. -/
theorem blocked_or_running (rest : w.Resting) (sound : Sound w) (running : w.isRunning = true)
    (i : Fin n) : w.worker i = .blocked ∨
      w.worker i = .running ∧ ∃ k f, w.calls (.worker i) = .waiting k f := by
  rcases rest.worker i with worker | worker | worker | worker | worker | worker
  · have stuck := rest.stuck (l := .lock i) rfl fun _ hc => by cases hc
    simp only [World.step, worker,
      rest.entryMtx sound.finds.mutexes (i := i) (by rw [worker]; decide), and_self,
      if_true] at stuck
    cases stuck
  · refine .inr ⟨worker, (rest.idle_or_waiting sound (.worker i)).resolve_left fun idle => ?_⟩
    obtain ⟨place, placed, -⟩ := sound.placed
    have assigned := (placed.assigned i).mpr (placed.busy i (by rw [worker]; rfl))
    obtain ⟨task, functor⟩ := Option.isSome_iff_exists.mp assigned
    have stuck := rest.stuck (l := .finish i) rfl fun _ hc => by cases hc
    simp only [World.step, functor, idle, worker, if_true] at stuck
    cases stuck
  · exact .inl worker
  · have stuck := rest.stuck (l := .relock i) rfl fun _ hc => by cases hc
    simp only [World.step, worker,
      rest.entryMtx sound.finds.mutexes (i := i) (by rw [worker]; decide), and_self,
      if_true] at stuck
    cases stuck
  · have stuck := rest.stuck (l := .giveBack i) rfl fun _ hc => by cases hc
    simp only [World.step, worker, rest.freeMtx sound, and_self, if_true] at stuck
    cases stuck
  · have stopped := sound.finds.done i worker
    rw [running] at stopped
    cases stopped

end World.Resting

omit [DecidableEq τ] in
/-- No call waits beside a free worker, without a notification or a call on its way. -/
theorem World.Attended.somebody (h : w.Attended) (waits : w.Waits) (free : w.free ≠ []) :
    (∃ i, w.worker i = .notifying) ∨ ∃ c, (w.calls c).active = true := by
  obtain ⟨looking, -, looks, enough⟩ := h waits
  cases looking with
  | cons c rest => exact .inr ⟨c, looks c List.mem_cons_self⟩
  | nil =>
    have available := List.length_pos_iff.mpr free
    rw [List.length_nil, Nat.add_zero] at enough
    obtain ⟨i, mem⟩ := Finset.card_pos.mp (Nat.lt_of_lt_of_le available enough)
    exact .inl ⟨i, (Finset.mem_filter.mp mem).2⟩

/-- A pool at rest is idle, or all its workers wait for each other. -/
theorem Sound.rest (h : Sound w) (running : w.isRunning = true) (rest : w.Resting) :
    Idle w ∨ Nested w := by
  obtain ⟨place, placed, kept⟩ := h.placed
  have notStored : ∀ c k i, w.calls c ≠ .stored k i := by
    intro c k i stored
    rcases rest.idle_or_waiting h c with call | ⟨k, f, call⟩ <;> (rw [stored] at call; cases call)
  -- a worker that sleeps has nothing in its entry
  have empty : ∀ i, w.worker i = .blocked → w.functor i = none := by
    intro i blocked
    rw [← Option.not_isSome_iff_eq_none]
    intro assigned
    obtain ⟨c, k, stored⟩ := (h.finds.finds running i assigned).blocked blocked
    exact notStored c k i stored
  -- and the index of every other place is nowhere else
  have free_or_assigned : ∀ i, i ∈ w.free ∨ (w.functor i).isSome = true := by
    intro i
    cases lies : place i with
    | free => exact .inl ((placed.free i).mpr lies)
    | assigned => exact .inr ((placed.assigned i).mpr lies)
    | lost => exact absurd lies (kept i)
    | held c =>
      have holds := (placed.held c i).mpr lies
      rcases rest.idle_or_waiting h c with idle | ⟨k, f, waiting⟩
      · rw [idle] at holds; cases holds
      · rw [waiting] at holds; cases holds
    | returning =>
      have returning := (placed.returning i).mpr lies
      rcases rest.blocked_or_running h running i with blocked | ⟨runs, -⟩
      · rw [returning] at blocked; cases blocked
      · rw [returning] at runs; cases runs
  by_cases waits : w.Waits
  · right
    have noneFree : w.free = [] := by
      by_contra available
      rcases h.attended.somebody waits available with ⟨i, notifying⟩ | ⟨c, active⟩
      · rcases rest.blocked_or_running h running i with worker | ⟨worker, -⟩ <;>
          (rw [notifying] at worker; cases worker)
      · rcases rest.idle_or_waiting h c with call | ⟨k, f, call⟩ <;>
          (rw [call] at active; cases active)
    refine ⟨noneFree, fun i => ?_⟩
    rcases rest.blocked_or_running h running i with blocked | ⟨runs, waiting⟩
    · rcases free_or_assigned i with free | assigned
      · rw [noneFree] at free
        cases free
      · rw [empty i blocked] at assigned
        cases assigned
    · exact ⟨runs, .inr waiting⟩
  · left
    have idle : ∀ c, w.calls c = .idle := fun c =>
      (rest.idle_or_waiting h c).resolve_right fun ⟨k, f, waiting⟩ => waits ⟨c, k, f, waiting⟩
    refine ⟨idle, fun i => ?_⟩
    rcases rest.blocked_or_running h running i with blocked | ⟨-, k, f, waiting⟩
    · have unassigned := empty i blocked
      refine ⟨blocked, unassigned, (free_or_assigned i).resolve_right fun assigned => ?_⟩
      rw [unassigned] at assigned
      cases assigned
    · exact absurd ⟨_, k, f, waiting⟩ waits

/-! ## Workers that wait for each other -/

/-- A call of someone else's goes on, or a call that waits. -/
theorem Nested.goto (h : Nested w) {c : Caller τ n} {call : Call κ n} (free : w'.free = [])
    (worker : w'.worker = w.worker) (calls : w'.calls = (w.goto c call).calls)
    (keeps : ((w.calls c).active = true ∨ ∃ k f, w.calls c = .waiting k f) →
      call.active = true ∨ ∃ k f, call = .waiting k f) : Nested w' := by
  refine ⟨free, fun i => ⟨worker ▸ (h.workers i).1, ?_⟩⟩
  rw [calls]
  rcases w.goto_calls c call (.worker i) with ⟨rfl, there⟩ | ⟨-, there⟩
  · rw [there]
    exact keeps (h.workers i).2
  · rw [there]
    exact (h.workers i).2

/-- Nobody's step ends it, and no task is started or finished. -/
theorem Nested.step (h : Nested w) {l : Label τ κ n} (step : w.step l = some w') :
    Nested w' ∧ w'.started = w.started ∧ w'.finished = w.finished := by
  have runs : ∀ {i place}, w.worker i = place → place ≠ .running → False :=
    fun parked other => other (parked.symm.trans (h.workers _).1)
  have awake : ∀ i, (w.notify i).worker = w.worker := by
    intro i
    funext j
    rcases w.notify_worker i j with ⟨-, blocked, -⟩ | ⟨-, now⟩
    · exact (runs blocked (by decide)).elim
    · exact now
  have notDone : ∀ {i}, w.calls (.worker i) ≠ .idle := by
    intro i idle
    rcases (h.workers i).2 with call | ⟨k, f, call⟩ <;> (rw [idle] at call; cases call)
  have taken := Step.of_step step
  cases taken with
  | execute functor idle may => exact ⟨h.goto h.noneFree rfl rfl fun _ => .inl rfl, rfl, rfl⟩
  | lockFree call unlocked => exact ⟨h.goto h.noneFree rfl rfl fun _ => .inl rfl, rfl, rfl⟩
  | take call last =>
    rw [h.noneFree] at last
    cases last
  | wait call last => exact ⟨h.goto h.noneFree rfl rfl fun _ => .inr ⟨_, _, rfl⟩, rfl, rfl⟩
  | wakeCaller call => exact ⟨h.goto h.noneFree rfl rfl fun _ => .inl rfl, rfl, rfl⟩
  | lockEntry call unlocked =>
    refine ⟨h.goto h.noneFree rfl rfl fun nested => ?_, rfl, rfl⟩
    rw [call] at nested
    rcases nested with nested | ⟨_, _, nested⟩ <;> cases nested
  | store call =>
    refine ⟨h.goto h.noneFree rfl rfl fun nested => ?_, rfl, rfl⟩
    rw [call] at nested
    rcases nested with nested | ⟨_, _, nested⟩ <;> cases nested
  | @notifyWorker c ticket i call =>
    rw [notify_eq]
    have worker := (notify_congr w ({ w with
      freeMtx := none
      returned := w.returned ++ [ticket] }.setMutex i none) rfl i).trans (awake i)
    refine ⟨h.goto h.noneFree worker rfl fun nested => ?_, rfl, rfl⟩
    rw [call] at nested
    rcases nested with nested | ⟨_, _, nested⟩ <;> cases nested
  | @finish i task place functor =>
    dsimp only [World.step] at step
    split at step
    · rename_i idle
      exact absurd idle notDone
    · cases step
  | lock place _ | empty place _ | reset place | giveBack place _ | notifyNobody place
  | notifyCaller place _ | goOn place _ | leave place _ | waitReturns place | waits place _ _
  | block place | wakeWorker place | relock place _ | start place _ | join _ place =>
    exact (runs place (by decide)).elim
  | shutdown destructor => exact ⟨⟨h.noneFree, h.workers⟩, rfl, rfl⟩
  | @notifyStop i destructor =>
    rw [notify_eq]
    refine ⟨⟨h.noneFree, fun j => ?_⟩, rfl, rfl⟩
    exact ⟨(congrFun (awake i) j).trans (h.workers j).1, (h.workers j).2⟩

/-- **When the pool comes to rest.** With calls that were all given functors, and in every order of
steps: no call waits beside a free worker, unless a notification or another call is on its way.
Where nothing goes on by itself before the destructor is called, either no call is in progress and
all workers sleep and are free, or every worker is in a task that waits in `execute`. And once all
of them are, no task is ever started or finished again, whatever is called and whoever wakes up. -/
theorem at_rest {ls : List (Label τ κ n)} (run : Lts.Run NotifyingStep {} ls w)
    (given : ∀ c, Label.execute c none ∉ ls) :
    (w.Waits → w.free ≠ [] →
      (∃ i, w.worker i = .notifying) ∨ ∃ c, (w.calls c).active = true) ∧
    (w.isRunning = true → w.Resting → Idle w ∨ Nested w) ∧
    (Nested w → ∀ ms w', Lts.Run (fun w l w' => w.step l = some w') w ms w' →
      Nested w' ∧ w'.started = w.started ∧ w'.finished = w.finished) := by
  have sound : Sound w := run.invariant_of_mem Sound.start fun mem sound step =>
    sound.step step fun c same => given c (same ▸ mem)
  refine ⟨sound.attended.somebody, fun running rest => sound.rest running rest, ?_⟩
  intro nested ms w' more
  refine more.invariant (P := fun u => Nested u ∧ u.started = w.started ∧ u.finished = w.finished)
    ⟨nested, rfl, rfl⟩ ?_
  rintro a l b ⟨nested, started, finished⟩ step
  obtain ⟨next, same, same'⟩ := nested.step step
  exact ⟨next, same.trans started, same'.trans finished⟩

/-- A run without notifications that could wake a call. -/
theorem notifying_of_run {ls : List (Label τ κ n)} {w₀ : World τ κ n}
    (run : Lts.Run (fun w l w' => w.step l = some w') w₀ ls w)
    (others : ∀ i, Label.notifyAvailable i none ∉ ls) : Lts.Run NotifyingStep w₀ ls w := by
  induction run with
  | nil => exact .nil
  | snoc _ last ih =>
    refine .snoc (ih fun i mem => others i (List.mem_append_left _ mem)) ⟨last, ?_⟩
    rintro ⟨i, rfl⟩
    exact absurd (List.mem_append_right _ (List.mem_singleton_self _)) (others i)

/-- The one worker's task calls `execute`. -/
def nestedCalls : List (Label Unit Nat 1) :=
  [.execute (.outside ()) (some 0), .lockFree (.outside ()), .take (.outside ()),
    .lockEntry (.outside ()), .store (.outside ()), .notifyWorker (.outside ()), .lock 0,
    .testFunctor 0, .execute (.worker 0) (some 1), .lockFree (.worker 0), .take (.worker 0)]

/-- It waits for itself, for ever. -/
theorem at_rest_nested :
    ∃ w : World Unit Nat 1, nestedCalls.foldlM World.step {} = some w ∧ Nested w ∧
      ∀ ms w', Lts.Run (fun w l w' => w.step l = some w') w ms w' →
        Nested w' ∧ w'.started = w.started ∧ w'.finished = w.finished := by
  have evaluated : (nestedCalls.foldlM World.step ({} : World Unit Nat 1)).map
      (fun w => (w.free, w.worker 0, w.calls (.worker 0))) =
        some ([], .running, .waiting 1 (some 1)) := rfl
  obtain ⟨w, reached, facts⟩ := Option.map_eq_some_iff.mp evaluated
  obtain ⟨free, facts⟩ := Prod.mk.inj facts
  obtain ⟨worker, call⟩ := Prod.mk.inj facts
  have nested : Nested w := by
    refine ⟨free, fun i => ?_⟩
    obtain rfl := Subsingleton.elim 0 i
    exact ⟨worker, .inr ⟨1, some 1, call⟩⟩
  refine ⟨w, reached, nested,
    (at_rest (notifying_of_run (Lts.run_of_foldlM reached) ?_) ?_).2.2 nested⟩
  · intro i mem
    simp only [nestedCalls, List.mem_cons, List.not_mem_nil, reduceCtorEq, or_self] at mem
  · intro c mem
    simp only [nestedCalls, List.mem_cons, List.not_mem_nil, reduceCtorEq, or_self,
      Label.execute.injEq, and_false] at mem

end Bfc.ThreadPool
