import Bfc.ThreadPool.Ownership

/-!
# Which workers leak

Whoever stores in an entry has its mutex, and so has a worker from its test of the functor to the
end of its loop's body or to its wait; so a worker that a functor is stored for is not past the
tests. It finds every functor that is there. What it takes an empty functor for is no functor: the
index it was stored for comes back to `m_free` never. `no_leak_iff` says that this is the only way
to lose one.
-/

namespace Bfc.ThreadPool

open World

variable {τ κ : Type*} {n : Nat}

/-- The entry whose mutex a call has. -/
def Call.inEntry : Call κ n → Option (Fin n)
  | .storing _ _ i | .stored _ i => some i
  | _ => none

/-- Who has the mutexes of the entries. -/
structure Mutexes (w : World τ κ n) : Prop where
  worker : ∀ i, (w.worker i).holdsMutex = true ↔ w.entryMtx i = some .worker
  caller : ∀ c i, (w.calls c).inEntry = some i ↔ w.entryMtx i = some (.caller c)

/-- A worker is not past its tests, nor asleep, unless a call is about to wake it. -/
structure World.WillFind (w : World τ κ n) (i : Fin n) : Prop where
  testRunning : w.worker i ≠ .testRunning
  blocking : w.worker i ≠ .blocking
  done : w.worker i ≠ .done
  blocked : w.worker i = .blocked → ∃ c k, w.calls c = .stored k i

/-- As long as the destructor is not called, workers find what is in their entries. -/
structure Finds (w : World τ κ n) : Prop where
  mutexes : Mutexes w
  done : ∀ i, w.worker i = .done → w.isRunning = false
  finds : w.isRunning = true → ∀ i, (w.functor i).isSome = true → w.WillFind i

/-! ## The mutexes -/

variable {w w' : World τ κ n}

/-- Nobody takes or releases a mutex. -/
theorem Mutexes.of_same (h : Mutexes w) (mtx : w'.entryMtx = w.entryMtx)
    (worker : ∀ i, (w'.worker i).holdsMutex = (w.worker i).holdsMutex)
    (calls : ∀ c, (w'.calls c).inEntry = (w.calls c).inEntry) : Mutexes w' where
  worker i := by rw [worker, mtx]; exact h.worker i
  caller c i := by rw [calls, mtx]; exact h.caller c i

/-- A worker that goes on, with the mutex or without. -/
theorem Mutexes.move (h : Mutexes w) {i : Fin n} (target : Worker)
    (mtx : w'.entryMtx = w.entryMtx) (worker : w'.worker = (w.move i target).worker)
    (calls : w'.calls = w.calls) (holds : target.holdsMutex = (w.worker i).holdsMutex) :
    Mutexes w' := by
  refine h.of_same mtx (fun j => ?_) fun c => by rw [calls]
  rw [worker]
  rcases w.move_worker i target j with ⟨rfl, there⟩ | ⟨-, there⟩
  · rw [there, holds]
  · rw [there]

/-- A worker takes or releases the mutex of its entry. -/
theorem Mutexes.setWorker (h : Mutexes w) {i : Fin n} (target : Worker) {owner : Option (Owner τ n)}
    (before : w.entryMtx i = none ∨ w.entryMtx i = some .worker)
    (after : owner = none ∧ target.holdsMutex = false ∨
      owner = some .worker ∧ target.holdsMutex = true)
    (mtx : w'.entryMtx = (w.setMutex i owner).entryMtx)
    (worker : w'.worker = (w.move i target).worker) (calls : w'.calls = w.calls) : Mutexes w' := by
  have noCaller : ∀ c, w.entryMtx i ≠ some (.caller c) ∧ owner ≠ some (.caller c) := by
    intro c
    constructor
    · rcases before with before | before <;> rw [before] <;> exact fun hc => by cases hc
    · rcases after with ⟨rfl, -⟩ | ⟨rfl, -⟩ <;> exact fun hc => by cases hc
  refine ⟨fun j => ?_, fun c j => ?_⟩
  · rw [worker, mtx]
    show _ ↔ Function.update w.entryMtx i owner j = _
    rcases w.move_worker i target j with ⟨rfl, there⟩ | ⟨other, there⟩
    · rw [there, Function.update_self]
      rcases after with ⟨rfl, holds⟩ | ⟨rfl, holds⟩
      · rw [holds]
        exact iff_of_false (fun hc => by cases hc) (fun hc => by cases hc)
      · exact iff_of_true holds rfl
    · rw [there, Function.update_of_ne other]
      exact h.worker j
  · rw [calls, mtx]
    show _ ↔ Function.update w.entryMtx i owner j = _
    by_cases same : j = i
    · subst same
      rw [Function.update_self]
      exact iff_of_false (fun hc => (noCaller c).1 ((h.caller c j).mp hc)) (noCaller c).2
    · rw [Function.update_of_ne same]
      exact h.caller c j

variable [DecidableEq τ]

/-- A call takes or releases the mutex of an entry. -/
theorem Mutexes.setCaller (h : Mutexes w) {c : Caller τ n} (call : Call κ n) {i : Fin n}
    {owner : Option (Owner τ n)}
    (before : w.entryMtx i = none ∧ (w.calls c).inEntry = none ∨
      (w.calls c).inEntry = some i)
    (after : owner = none ∧ call.inEntry = none ∨
      owner = some (.caller c) ∧ call.inEntry = some i)
    (mtx : w'.entryMtx = (w.setMutex i owner).entryMtx)
    (worker : ∀ j, (w'.worker j).holdsMutex = (w.worker j).holdsMutex)
    (calls : w'.calls = (w.goto c call).calls) : Mutexes w' := by
  have own : ∀ who, w.entryMtx i = some who → who = .caller c := by
    intro who has
    rcases before with ⟨free, -⟩ | inEntry
    · rw [free] at has
      cases has
    · rw [(h.caller c i).mp inEntry] at has
      exact (Option.some.inj has).symm
  refine ⟨fun j => ?_, fun c' j => ?_⟩
  · rw [worker, mtx]
    show _ ↔ Function.update w.entryMtx i owner j = _
    by_cases same : j = i
    · subst same
      rw [Function.update_self]
      refine iff_of_false (fun hc => ?_) ?_
      · cases own _ ((h.worker j).mp hc)
      · rcases after with ⟨rfl, -⟩ | ⟨rfl, -⟩ <;> exact fun hc => by cases hc
    · rw [Function.update_of_ne same]
      exact h.worker j
  · rw [calls, mtx]
    show _ ↔ Function.update w.entryMtx i owner j = _
    rcases w.goto_calls c call c' with ⟨rfl, there⟩ | ⟨other, there⟩
    · rw [there]
      by_cases same : j = i
      · subst same
        rw [Function.update_self]
        rcases after with ⟨rfl, inEntry⟩ | ⟨rfl, inEntry⟩
        · rw [inEntry]
          exact iff_of_false (fun hc => by cases hc) (fun hc => by cases hc)
        · exact iff_of_true inEntry rfl
      · rw [Function.update_of_ne same]
        refine iff_of_false (fun hc => ?_) fun hc => ?_
        · rcases after with ⟨-, inEntry⟩ | ⟨-, inEntry⟩
          · rw [inEntry] at hc
            cases hc
          · rw [inEntry] at hc
            exact same (Option.some.inj hc).symm
        · have held := (h.caller c' j).mpr hc
          rcases before with ⟨-, inEntry⟩ | inEntry
          · rw [inEntry] at held
            cases held
          · rw [inEntry] at held
            exact same (Option.some.inj held).symm
    · rw [there]
      by_cases same : j = i
      · subst same
        rw [Function.update_self]
        refine iff_of_false (fun hc => ?_) ?_
        · exact other (Owner.caller.inj (own _ ((h.caller c' j).mp hc)))
        · rcases after with ⟨rfl, -⟩ | ⟨rfl, -⟩
          · exact fun hc => by cases hc
          · exact fun hc => other (Owner.caller.inj (Option.some.inj hc)).symm
      · rw [Function.update_of_ne same]
        exact h.caller c' j

/-- A call that goes on, with a mutex or without. -/
theorem Mutexes.goto (h : Mutexes w) {c : Caller τ n} (call : Call κ n)
    (mtx : w'.entryMtx = w.entryMtx)
    (worker : ∀ i, (w'.worker i).holdsMutex = (w.worker i).holdsMutex)
    (calls : w'.calls = (w.goto c call).calls) (inEntry : call.inEntry = (w.calls c).inEntry) :
    Mutexes w' := by
  refine h.of_same mtx worker fun c' => ?_
  rw [calls]
  rcases w.goto_calls c call c' with ⟨rfl, there⟩ | ⟨-, there⟩
  · rw [there, inEntry]
  · rw [there]

omit [DecidableEq τ] in
/-- A notification takes no mutex away and gives none. -/
theorem World.notify_holdsMutex (w : World τ κ n) (i j : Fin n) :
    ((w.notify i).worker j).holdsMutex = (w.worker j).holdsMutex := by
  rcases w.notify_worker i j with ⟨rfl, blocked, there⟩ | ⟨-, there⟩
  · rw [there, blocked]
    rfl
  · rw [there]

/-- **Every action keeps the mutexes with those who have them.** -/
theorem Mutexes.step (h : Mutexes w) {l : Label τ κ n} (step : Step w l w') : Mutexes w' := by
  have held : ∀ {i}, (w.worker i).holdsMutex = true → w.entryMtx i = none ∨
      w.entryMtx i = some .worker := fun holds => .inr ((h.worker _).mp holds)
  cases step with
  | @execute c functor idle may =>
    exact h.goto (.entering w.given.length functor) rfl (fun _ => rfl) rfl
      (by rw [idle]; rfl)
  | @lockFree c ticket functor call unlocked =>
    exact h.goto (.testing ticket functor) rfl (fun _ => rfl) rfl (by rw [call]; rfl)
  | @take c ticket functor i call last =>
    exact h.goto (.took ticket functor i) rfl (fun _ => rfl) rfl (by rw [call]; rfl)
  | @wait c ticket functor call last =>
    exact h.goto (.waiting ticket functor) rfl (fun _ => rfl) rfl (by rw [call]; rfl)
  | @wakeCaller c ticket functor call =>
    exact h.goto (.entering ticket functor) rfl (fun _ => rfl) rfl (by rw [call]; rfl)
  | @lockEntry c ticket functor i call unlocked =>
    exact h.setCaller (.storing ticket functor i) (.inl ⟨unlocked, by rw [call]; rfl⟩)
      (.inr ⟨rfl, rfl⟩) rfl (fun _ => rfl) rfl
  | @store c ticket functor i call =>
    exact h.goto (.stored ticket i) rfl (fun _ => rfl) rfl (by rw [call]; rfl)
  | @notifyWorker c ticket i call =>
    rw [notify_eq]
    exact h.setCaller .idle (.inr (by rw [call]; rfl)) (.inl ⟨rfl, rfl⟩) rfl
      (notify_holdsMutex _ i) rfl
  | @lock i place unlocked =>
    exact h.setWorker .locked (.inl unlocked) (.inr ⟨rfl, rfl⟩) rfl rfl rfl
  | @start i task place functor =>
    exact h.move .running rfl rfl rfl (by rw [place]; rfl)
  | @empty i place functor =>
    exact h.move .testRunning rfl rfl rfl (by rw [place]; rfl)
  | @finish i task place functor => exact h.move .ran rfl rfl rfl (by rw [place]; rfl)
  | @reset i place =>
    exact h.setWorker .returning (held (by rw [place]; rfl)) (.inl ⟨rfl, rfl⟩) rfl rfl rfl
  | @giveBack i place unlocked =>
    exact h.move .notifying rfl rfl rfl (by rw [place]; rfl)
  | @notifyNobody i place => exact h.move .top rfl rfl rfl (by rw [place]; rfl)
  | @notifyCaller i c ticket functor place call =>
    have moved : Mutexes (w.move i .top) := h.move .top rfl rfl rfl (by rw [place]; rfl)
    refine moved.goto (.entering ticket functor) rfl (fun _ => rfl) rfl ?_
    rw [show (w.move i .top).calls c = _ from call]
    rfl
  | @goOn i place running => exact h.move .predicate rfl rfl rfl (by rw [place]; rfl)
  | @leave i place stopped =>
    exact h.setWorker .done (held (by rw [place]; rfl)) (.inl ⟨rfl, rfl⟩) rfl rfl rfl
  | @waitReturns i place =>
    exact h.setWorker .top (held (by rw [place]; rfl)) (.inl ⟨rfl, rfl⟩) rfl rfl rfl
  | @waits i place functor running =>
    exact h.move .blocking rfl rfl rfl (by rw [place]; rfl)
  | @block i place =>
    exact h.setWorker .blocked (held (by rw [place]; rfl)) (.inl ⟨rfl, rfl⟩) rfl rfl rfl
  | @wakeWorker i place => exact h.move .woken rfl rfl rfl (by rw [place]; rfl)
  | @relock i place unlocked =>
    exact h.setWorker .predicate (.inl unlocked) (.inr ⟨rfl, rfl⟩) rfl rfl rfl
  | @shutdown destructor | @join i destructor place =>
    exact h.of_same rfl (fun _ => rfl) fun _ => rfl
  | @notifyStop i destructor =>
    rw [notify_eq]
    exact h.of_same rfl (w.notify_holdsMutex i) fun _ => rfl

/-! ## What workers find -/

omit [DecidableEq τ] in
/-- A worker goes on: past its tests only with an empty entry or without one to run. -/
theorem Finds.move (h : Finds w) {i : Fin n} {target : Worker} (mutexes : Mutexes w')
    (running : w'.isRunning = w.isRunning)
    (functor : ∀ j, (w'.functor j).isSome = true → (w.functor j).isSome = true)
    (worker : w'.worker = (w.move i target).worker) (calls : w'.calls = w.calls)
    (past : target = .testRunning ∨ target = .blocking ∨ target = .blocked →
      w.isRunning = true → (w.functor i).isSome = false)
    (done : target = .done → w.isRunning = false) : Finds w' := by
  refine ⟨mutexes, fun j there => ?_, fun run j assigned => ?_⟩
  · rw [worker] at there
    rw [running]
    rcases w.move_worker i target j with ⟨rfl, now⟩ | ⟨-, now⟩
    · exact done (now ▸ there)
    · exact h.done j (now ▸ there)
  · rw [running] at run
    have before := functor j assigned
    rcases w.move_worker i target j with ⟨rfl, now⟩ | ⟨-, now⟩
    · have notPast : ∀ {p}, target = p →
          (p = .testRunning ∨ p = .blocking ∨ p = .blocked) → False := by
        rintro p rfl is
        rw [past is run] at before
        cases before
      refine ⟨?_, ?_, ?_, ?_⟩ <;> rw [worker, now] <;> intro there
      · exact notPast there (.inl rfl)
      · exact notPast there (.inr (.inl rfl))
      · rw [done there] at run
        cases run
      · exact (notPast there (.inr (.inr rfl))).elim
    · have found := h.finds run j before
      refine ⟨?_, ?_, ?_, ?_⟩ <;> rw [worker, now]
      · exact found.testRunning
      · exact found.blocking
      · exact found.done
      · rw [calls]
        exact found.blocked

/-- A call goes on that was not about to notify a worker. -/
theorem Finds.goto (h : Finds w) {c : Caller τ n} {call : Call κ n} (mutexes : Mutexes w')
    (running : w'.isRunning = w.isRunning) (functor : w'.functor = w.functor)
    (worker : w'.worker = w.worker) (calls : w'.calls = (w.goto c call).calls)
    (before : ∀ k i, w.calls c ≠ .stored k i) : Finds w' := by
  refine ⟨mutexes, fun j there => ?_, fun run j assigned => ?_⟩
  · rw [worker] at there
    rw [running]
    exact h.done j there
  · rw [running] at run
    rw [functor] at assigned
    have found := h.finds run j assigned
    refine ⟨?_, ?_, ?_, ?_⟩ <;> rw [worker]
    · exact found.testRunning
    · exact found.blocking
    · exact found.done
    · intro blocked
      obtain ⟨c', k, stored⟩ := found.blocked blocked
      refine ⟨c', k, ?_⟩
      rw [calls]
      rcases w.goto_calls c call c' with ⟨rfl, -⟩ | ⟨-, now⟩
      · exact absurd stored (before k j)
      · rw [now]
        exact stored

/-- A store is noticed: the worker is not past its tests, since the call has its mutex, and if it is
asleep the call wakes it. -/
theorem Finds.store (h : Finds w) {c : Caller τ n} {k : Nat} {functor : Option κ} {i : Fin n}
    (mutexes : Mutexes w') (call : w.calls c = .storing k functor i)
    (running : w'.isRunning = w.isRunning)
    (functors : w'.functor = (w.setFunctor i (functor.map (⟨k, ·⟩))).functor)
    (worker : w'.worker = w.worker) (calls : w'.calls = (w.goto c (.stored k i)).calls) :
    Finds w' := by
  refine ⟨mutexes, fun j there => ?_, fun run j assigned => ?_⟩
  · rw [worker] at there
    rw [running]
    exact h.done j there
  · rw [running] at run
    have noMutex : (w.worker i).holdsMutex ≠ true := by
      intro holds
      have theirs := (h.mutexes.worker i).mp holds
      rw [(h.mutexes.caller c i).mp (by rw [call]; rfl)] at theirs
      cases theirs
    have new : w'.calls c = .stored k i := by
      rw [calls]
      exact w.goto_self c _
    by_cases same : j = i
    · subst same
      refine ⟨?_, ?_, ?_, ?_⟩ <;> rw [worker] <;> intro there
      · exact noMutex (by rw [there]; rfl)
      · exact noMutex (by rw [there]; rfl)
      · rw [h.done j there] at run
        cases run
      · exact ⟨c, k, new⟩
    · have found := h.finds run j <| by
        rcases w.setFunctor_functor i (functor.map (⟨k, ·⟩)) j with ⟨rfl, -⟩ | ⟨-, now⟩
        · exact absurd rfl same
        · rw [functors, now] at assigned
          exact assigned
      refine ⟨?_, ?_, ?_, ?_⟩ <;> rw [worker]
      · exact found.testRunning
      · exact found.blocking
      · exact found.done
      · intro blocked
        obtain ⟨c', k', stored⟩ := found.blocked blocked
        refine ⟨c', k', ?_⟩
        rw [calls]
        rcases w.goto_calls c (.stored k i) c' with ⟨rfl, -⟩ | ⟨-, now⟩
        · rw [call] at stored
          cases stored
        · rw [now]
          exact stored

omit [DecidableEq τ] in
/-- A worker is notified: it is not asleep any more, so that the call is not needed. -/
theorem Finds.notify (h : Finds w) {i : Fin n} (mutexes : Mutexes w')
    (running : w'.isRunning = w.isRunning) (functor : w'.functor = w.functor)
    (worker : w'.worker = (w.notify i).worker)
    (calls : ∀ c k j, j ≠ i → w.calls c = .stored k j → w'.calls c = .stored k j) : Finds w' := by
  have place : ∀ j p, p ≠ .woken → w'.worker j = p → w.worker j = p := by
    intro j p other there
    rw [worker] at there
    rcases w.notify_worker i j with ⟨-, -, woken⟩ | ⟨-, now⟩
    · rw [woken] at there
      exact absurd there.symm other
    · exact now ▸ there
  refine ⟨mutexes, fun j there => ?_, fun run j assigned => ?_⟩
  · rw [running]
    exact h.done j (place j _ (fun hc => by cases hc) there)
  · rw [running] at run
    rw [functor] at assigned
    have found := h.finds run j assigned
    refine ⟨fun there => ?_, fun there => ?_, fun there => ?_, fun there => ?_⟩
    · exact found.testRunning (place j _ (fun hc => by cases hc) there)
    · exact found.blocking (place j _ (fun hc => by cases hc) there)
    · exact found.done (place j _ (fun hc => by cases hc) there)
    · have before := place j _ (fun hc => by cases hc) there
      obtain ⟨c, k, stored⟩ := found.blocked before
      refine ⟨c, k, calls c k j ?_ stored⟩
      rintro rfl
      rw [worker] at there
      rcases w.notify_worker j j with ⟨-, -, woken⟩ | ⟨notBlocked, -⟩
      · rw [woken] at there
        cases there
      · exact notBlocked before rfl

/-- **Every action keeps what workers find.** -/
theorem Finds.step (h : Finds w) {l : Label τ κ n} (step : Step w l w') : Finds w' := by
  have mutexes := h.mutexes.step step
  cases step with
  | @execute c functor idle may =>
    exact h.goto mutexes rfl rfl rfl rfl fun _ _ hc => by rw [idle] at hc; cases hc
  | lockFree call | take call | wait call | wakeCaller call | lockEntry call =>
    exact h.goto mutexes rfl rfl rfl rfl fun _ _ hc => by rw [call] at hc; cases hc
  | @store c ticket functor i call => exact h.store mutexes call rfl rfl rfl rfl
  | @notifyWorker c ticket i call =>
    obtain ⟨v, hv⟩ : ∃ v, v = ({ w with
        freeMtx := none
        returned := w.returned ++ [ticket] } : World τ κ n).setMutex i none := ⟨_, rfl⟩
    have same : v.isRunning = w.isRunning ∧ v.functor = w.functor ∧ v.worker = w.worker ∧
        v.calls = w.calls := by
      rw [hv]
      exact ⟨rfl, rfl, rfl, rfl⟩
    rw [← hv, notify_eq] at mutexes ⊢
    refine h.notify mutexes same.1 same.2.1 (notify_congr w v same.2.2.1 i)
      fun c' k j other stored => ?_
    rcases goto_calls { v with worker := (v.notify i).worker } c .idle c' with
      ⟨rfl, -⟩ | ⟨-, now⟩
    · rw [call] at stored
      exact absurd (Call.stored.inj stored).2.symm other
    · refine now.trans (Eq.trans ?_ stored)
      rw [← same.2.2.2]
  | lock | start | finish | giveBack | notifyNobody | goOn | waitReturns | wakeWorker | relock =>
    exact h.move mutexes rfl (fun _ => id) rfl rfl (by rintro (hc | hc | hc) <;> cases hc)
      (fun hc => by cases hc)
  | @empty i place functor | @waits i place functor running =>
    exact h.move mutexes rfl (fun _ => id) rfl rfl (fun _ _ => by rw [functor]; rfl)
      (fun hc => by cases hc)
  | @reset i place =>
    refine h.move (i := i) mutexes rfl (fun j assigned => ?_) rfl rfl
      (by rintro (hc | hc | hc) <;> cases hc) (fun hc => by cases hc)
    rcases w.setFunctor_functor i none j with ⟨rfl, now⟩ | ⟨-, now⟩
    · have reset : (w.setFunctor j none).functor j = _ := now
      rw [show (((w.setFunctor j none).setMutex j none).move j .returning).functor j = _ from reset]
        at assigned
      cases assigned
    · exact now ▸ assigned
  | @notifyCaller i c ticket functor place call =>
    have before : Mutexes (w.move i .top) := h.mutexes.step (.notifyNobody place)
    have moved : Finds (w.move i .top) :=
      h.move before rfl (fun _ => id) rfl rfl (by rintro (hc | hc | hc) <;> cases hc)
        (fun hc => by cases hc)
    exact moved.goto mutexes rfl rfl rfl rfl fun k j hc => by
      rw [show (w.move i .top).calls c = _ from call] at hc
      cases hc
  | @leave i place stopped =>
    exact h.move mutexes rfl (fun _ => id) rfl rfl (by rintro (hc | hc | hc) <;> cases hc)
      (fun _ => stopped)
  | @block i place =>
    refine h.move mutexes rfl (fun _ => id) rfl rfl (fun _ run => ?_) (fun hc => by cases hc)
    apply Bool.eq_false_of_not_eq_true
    exact fun assigned => (h.finds run i assigned).blocking place
  | @shutdown destructor => exact ⟨mutexes, fun _ _ => rfl, fun hc => by cases hc⟩
  | @notifyStop i destructor =>
    rw [notify_eq] at mutexes ⊢
    exact h.notify mutexes rfl rfl rfl fun _ _ _ _ => id
  | @join i destructor place => exact ⟨mutexes, h.done, fun run i assigned => by
      have found := h.finds run i assigned
      exact ⟨found.testRunning, found.blocking, found.done, found.blocked⟩⟩

omit [DecidableEq τ] in
/-- At first all workers are at the top of their loops. -/
theorem Finds.start : Finds ({} : World τ κ n) where
  mutexes :=
    ⟨fun i => iff_of_false (fun hc => by cases hc) (fun hc => by cases hc),
      fun c i => iff_of_false (fun hc => by cases hc) (fun hc => by cases hc)⟩
  done i hc := by cases hc
  finds _ i hc := by cases hc

/-! ## No leak -/

/-- Each index is in `m_free`, or its entry holds a functor, which its worker will find, or its
worker is about to give it back, or a call has it and has not stored its functor yet; so when no
call is in progress and all entries are empty, none is active. -/
structure NoLeak (w : World τ κ n) : Prop where
  index : ∀ i, i ∈ w.free ∨ (w.functor i).isSome = true ∨ w.worker i = .returning ∨
    ∃ c, (w.calls c).holds = some i
  finds : w.isRunning = true → ∀ i, (w.functor i).isSome = true → w.WillFind i
  idle : (∀ c, w.calls c = .idle) →
    (∀ i, w.functor i = none ∧ w.worker i ≠ .returning) → w.countActive = 0

/-- What an action stores is not empty. -/
def StoresFunctor (w : World τ κ n) (l : Label τ κ n) : Prop := ∀ i, ¬ Loses w l i

omit [DecidableEq τ] in
/-- A state leaks no worker when no index is lost. -/
theorem noLeak_iff {place : Fin n → Place τ n} (placed : Placed w place) (finds : Finds w) :
    NoLeak w ↔ ∀ i, place i ≠ .lost := by
  constructor
  · intro h i lost
    rcases h.index i with free | assigned | returning | ⟨c, holds⟩
    · rw [(placed.free i).mp free] at lost
      cases lost
    · rw [(placed.assigned i).mp assigned] at lost
      cases lost
    · rw [(placed.returning i).mp returning] at lost
      cases lost
    · rw [(placed.held c i).mp holds] at lost
      cases lost
  · intro h
    have index : ∀ i, i ∈ w.free ∨ (w.functor i).isSome = true ∨ w.worker i = .returning ∨
        ∃ c, (w.calls c).holds = some i := by
      intro i
      cases lies : place i with
      | free => exact .inl ((placed.free i).mpr lies)
      | held c => exact .inr (.inr (.inr ⟨c, (placed.held c i).mpr lies⟩))
      | assigned => exact .inr (.inl ((placed.assigned i).mpr lies))
      | returning => exact .inr (.inr (.inl ((placed.returning i).mpr lies)))
      | lost => exact absurd lies (h i)
    refine ⟨index, finds.finds, fun calls entries => ?_⟩
    rw [placed.countActive_eq.2, Finset.card_eq_zero, Finset.filter_eq_empty_iff]
    rintro i -
    apply not_not_intro
    rcases index i with free | assigned | returning | ⟨c, holds⟩
    · exact free
    · rw [(entries i).1] at assigned
      cases assigned
    · exact absurd returning (entries i).2
    · rw [calls c] at holds
      cases holds

/-- **No worker is leaked exactly as long as no call stores an empty functor.** -/
theorem no_leak_iff (ls : List (Label τ κ n)) :
    Lts.AllStates World.step NoLeak ({} : World τ κ n) ls ↔
      Lts.AllSteps World.step StoresFunctor ({} : World τ κ n) ls := by
  refine Lts.allStates_iff_allSteps (I := fun w => (∃ place, Placed w place) ∧ Finds w) ?_ ?_ ls
    ⟨⟨_, Placed.start⟩, Finds.start⟩ ((noLeak_iff Placed.start Finds.start).mpr ?_)
  · rintro w l w' ⟨⟨place, placed⟩, finds⟩ step
    obtain ⟨place', placed', -⟩ := placed.step (Step.of_step step)
    exact ⟨⟨place', placed'⟩, finds.step (Step.of_step step)⟩
  · rintro w l w' ⟨⟨place, placed⟩, finds⟩ good step
    obtain ⟨place', placed', lost⟩ := placed.step (Step.of_step step)
    rw [noLeak_iff placed' (finds.step (Step.of_step step))]
    have before := (noLeak_iff placed finds).mp good
    constructor
    · intro h i loses
      exact h i ((lost i).mpr (.inr loses))
    · intro h i there
      rcases (lost i).mp there with old | loses
      · exact before i old
      · exact h i loses
  · exact fun i hc => by cases hc

/-- The one worker of a pool, lost: a thread has called `execute` with an empty functor. -/
theorem execute_empty_leaks :
    ¬ ∀ ls : List (Label Unit Unit 1),
      Lts.AllStates World.step NoLeak ({} : World Unit Unit 1) ls := by
  intro h
  have leak := (h [.execute (.outside ()) none, .lockFree (.outside ()), .take (.outside ()),
    .lockEntry (.outside ()), .store (.outside ()), .notifyWorker (.outside ())]).last rfl
  have active := leak.idle (fun c => by cases c <;> rfl) fun i => by
    obtain rfl := Subsingleton.elim 0 i
    exact ⟨rfl, fun hc => by cases hc⟩
  cases active

end Bfc.ThreadPool
