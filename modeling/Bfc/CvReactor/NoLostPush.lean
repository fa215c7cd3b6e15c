import Bfc.CvReactor.World

/-!
# No push and no wake-up is lost

Data in a queue that the reactor serves waits only while a request is made or about to be, a
producer has not notified yet, or the pass comes to the queue (`World.Attended`); a callback waits
only while a request is made or about to be, or the pass comes to the callbacks (`World.Posted`).
The reactor clears the request before it takes its snapshot, so whatever it cleared the request of
is in the pass. When it blocks without a request, nothing is left.
-/

namespace Bfc.CvReactor

open World

variable {τ ρ κ α : Type*} [DecidableEq τ] [DecidableEq ρ]

/-- The reactor serves a queue: it is bound to it and registered, with a handler, nobody is about to
deregister it, and it does not discard what is pushed. -/
structure World.Serves (s : World τ ρ κ α) (q : ρ) : Prop where
  bound : (s.queues q).bound = true
  notifies : (s.queues q).notifies = true
  callback : (s.callback q).isSome = true
  registered : q ∈ s.contexts
  kept : ∀ c, s.calls c ≠ .removeContext q

/-- A `push` or a `wake_up` is in progress. -/
def Call.wakes : Call ρ → Bool
  | .request _ | .notifyPush _ => true
  | _ => false

/-- An action that begins to take a queue away from the reactor, or its capacity from the queue. -/
def Label.undoes (q : ρ) : Label τ ρ κ α → Prop
  | .setReactor q' this => q' = q ∧ this = false
  | .removeReadRdy _ q' => q' = q
  | .setCapacity q' c => q' = q ∧ c = 0
  | _ => False

/-- The pass comes to a queue, or its handler has not seen it empty yet. -/
def Pc.scans : Pc ρ → ρ → Prop
  | .snapshot, _ => True
  | .scan rest, q => q ∈ rest
  | .notify q' rest, q => q = q' ∨ q ∈ rest
  | .handler q' rest drained, q => q = q' ∧ drained = false ∨ q ∈ rest
  | _, _ => False

/-- The pass has cleared the request and comes to the wake-up callbacks. -/
def Pc.takes : Pc ρ → Prop
  | .snapshot | .scan _ | .notify _ _ | .handler _ _ _ | .take => True
  | _ => False

namespace World

/-- A request is made, or a caller is about to make one. -/
def Requested (s : World τ ρ κ α) : Prop :=
  s.wakeupReq = true ∨ ∃ c stop, s.calls c = .request stop

/-- The queue's data will be seen. -/
def Attended (s : World τ ρ κ α) (q : ρ) : Prop :=
  s.Requested ∨ (∃ c, s.calls c = .notifyPush q) ∨ s.pc.scans q

/-- A callback that waits will be seen. -/
def Posted (s : World τ ρ κ α) : Prop :=
  s.wakeUpCb.waiting ≠ [] → s.Requested ∨ s.pc.takes

end World

/-! ## Callers that go on -/

variable {s s' : World τ ρ κ α}

omit [DecidableEq ρ] in
theorem goto_calls (s : World τ ρ κ α) (c : Option τ) (call : Call ρ) (c' : Option τ) :
    c' = c ∧ (s.goto c call).calls c' = call ∨
      c' ≠ c ∧ (s.goto c call).calls c' = s.calls c' := by
  by_cases same : c' = c
  · subst same
    exact .inl ⟨rfl, by simp only [World.goto, Function.update_self]⟩
  · exact .inr ⟨same, by simp only [World.goto, Function.update_of_ne same]⟩

omit [DecidableEq ρ] in
/-- A caller that goes on to a request. -/
theorem requested_goto (s : World τ ρ κ α) (c : Option τ) (stop : Option Nat) :
    (s.goto c (.request stop)).Requested :=
  .inr ⟨c, stop, by simp only [World.goto, Function.update_self]⟩

omit [DecidableEq ρ] in
/-- Requests last over the move of a caller that was not about to make one. -/
theorem World.Requested.goto (h : s.Requested) {c : Option τ} {call : Call ρ}
    (other : ∀ stop, s.calls c ≠ .request stop) (req : s'.wakeupReq = s.wakeupReq)
    (calls : s'.calls = (s.goto c call).calls) : s'.Requested := by
  rcases h with made | ⟨c', stop, about⟩
  · exact .inl (req.trans made)
  · refine .inr ⟨c', stop, ?_⟩
    rw [calls]
    rcases goto_calls s c call c' with ⟨rfl, -⟩ | ⟨-, now⟩
    · exact absurd about (other stop)
    · rw [now]
      exact about

/-- **A request lasts** until the reactor clears it, and then the pass is before its snapshot. -/
theorem World.Requested.step {drains : ρ → Bool} {l : Label τ ρ κ α} (h : s.Requested)
    (step : World.Step drains s l s') : s'.Requested ∨ s'.pc = .snapshot := by
  cases step with
  | @wakeUp c cb may => exact .inl (requested_goto _ c none)
  | request call unlocked => exact .inl (.inl rfl)
  | stop may | push q x may | addReadRdy q cb may | removeReadRdy q may =>
    exact .inl (h.goto (fun _ hc => by rw [may.1] at hc; cases hc) rfl rfl)
  | @clearRunning c run call => exact .inl (requested_goto _ c (some run))
  | notifyPush call | addContext call | removeContext call =>
    exact .inl (h.goto (fun _ hc => by rw [call] at hc; cases hc) rfl rfl)
  | requested pc req => exact .inr rfl
  | _ => exact .inl h

omit [DecidableEq ρ] in
/-- A producer that has not notified yet stays so when another caller goes on. -/
theorem goto_notifying {q : ρ} (h : ∃ c, s.calls c = .notifyPush q) {c : Option τ} {call : Call ρ}
    (other : s.calls c ≠ .notifyPush q) : ∃ c', (s.goto c call).calls c' = .notifyPush q := by
  obtain ⟨c', about⟩ := h
  refine ⟨c', ?_⟩
  rcases goto_calls s c call c' with ⟨rfl, -⟩ | ⟨-, now⟩
  · exact absurd about other
  · rw [now]
    exact about

/-! ## The queues -/

omit [DecidableEq τ] in
/-- A change of some queue shows in that queue alone. -/
theorem onQueue_queues (s : World τ ρ κ α) (q' : ρ) (f : WakeUp.Queue α → WakeUp.Queue α) (q : ρ) :
    q = q' ∧ (s.onQueue q' f).queues q = f (s.queues q) ∨
      q ≠ q' ∧ (s.onQueue q' f).queues q = s.queues q := by
  by_cases same : q = q'
  · subst same
    exact .inl ⟨rfl, by simp only [World.onQueue, Function.update_self]⟩
  · exact .inr ⟨same, by simp only [World.onQueue, Function.update_of_ne same]⟩

/-- A queue has no data when its elements are a part of none. -/
theorem hasData_of_sublist {q q' : WakeUp.Queue α} (h : q'.items.Sublist q.items)
    (data : q'.hasData = true) : q.hasData = true := by
  unfold WakeUp.Queue.hasData at *
  cases there : q.items with
  | nil =>
    rw [there, List.sublist_nil] at h
    rw [h] at data
    cases data
  | cons x rest => rfl

/-- A push changes neither the binding nor the capacity. -/
theorem push_bound (q : WakeUp.Queue α) (x : α) :
    (q.push x).bound = q.bound ∧ (q.push x).capacity = q.capacity := by
  unfold WakeUp.Queue.push
  split <;> exact ⟨rfl, rfl⟩

/-! ## What the reactor serves -/

omit [DecidableEq ρ] in
/-- A caller that goes on, and not to the removal of a queue's context. -/
theorem goto_kept {q : ρ} (h : ∀ c, s.calls c ≠ .removeContext q) {c : Option τ} {call : Call ρ}
    (other : call ≠ .removeContext q) (c' : Option τ) :
    (s.goto c call).calls c' ≠ .removeContext q := by
  rcases goto_calls s c call c' with ⟨-, now⟩ | ⟨-, now⟩
  · rw [now]
    exact other
  · rw [now]
    exact h c'

/-- **The reactor goes on serving a queue** until something is done against it. -/
theorem World.Serves.step {drains : ρ → Bool} {l : Label τ ρ κ α} {q : ρ} (h : s.Serves q)
    (step : World.Step drains s l s') (keeps : ¬ l.undoes q) : s'.Serves q := by
  obtain ⟨bound, notifies, callback, registered, kept⟩ := h
  cases step with
  | @wakeUp c cb may =>
    cases cb with
    | none => exact ⟨bound, notifies, callback, registered, goto_kept kept (fun hc => by cases hc)⟩
    | some cb =>
      exact ⟨bound, notifies, callback, registered,
        goto_kept (s := s.append (some cb)) kept (fun hc => by cases hc)⟩
  | @request c stop call unlocked =>
    exact ⟨bound, notifies, callback, registered,
      goto_kept (s := { s with
        wakeupReq := true
        pc := notified s.pc
        stopped := s.stopped ++ stop.toList }) kept (fun hc => by cases hc)⟩
  | stop may =>
    exact ⟨bound, notifies, callback, registered, goto_kept kept (fun hc => by cases hc)⟩
  | clearRunning call =>
    exact ⟨bound, notifies, callback, registered,
      goto_kept (s := { s with running := false }) kept (fun hc => by cases hc)⟩
  | @push c q' x may =>
    have same : ((s.onQueue q' (·.push x)).queues q).bound = (s.queues q).bound ∧
        ((s.onQueue q' (·.push x)).queues q).capacity = (s.queues q).capacity := by
      rcases onQueue_queues s q' (·.push x) q with ⟨-, now⟩ | ⟨-, now⟩
      · rw [now]
        exact push_bound _ x
      · rw [now]
        exact ⟨rfl, rfl⟩
    refine ⟨same.1.trans bound, ?_, callback, registered,
      goto_kept (s := s.onQueue q' (·.push x)) kept ?_⟩
    · unfold WakeUp.Queue.notifies at *
      rw [show (((s.onQueue q' (·.push x)).goto c _).queues q).capacity = _ from same.2]
      exact notifies
    · split <;> exact fun hc => by cases hc
  | notifyPush call =>
    refine ⟨bound, notifies, callback, registered, goto_kept kept ?_⟩
    split <;> exact fun hc => by cases hc
  | @addReadRdy c q' cb may =>
    refine ⟨bound, notifies, ?_, registered, goto_kept
      (s := { s with callback := Function.update s.callback q' (some cb) }) kept
      (fun hc => by cases hc)⟩
    show (Function.update s.callback q' (some cb) q).isSome = true
    by_cases same : q = q'
    · subst same
      rw [Function.update_self]
      rfl
    · rw [Function.update_of_ne same]
      exact callback
  | @addContext c q' call =>
    refine ⟨bound, notifies, callback, ?_, goto_kept (s := { s with
      contexts := if q' ∈ s.contexts then s.contexts else s.contexts ++ [q'] }) kept
      (fun hc => by cases hc)⟩
    show q ∈ if q' ∈ s.contexts then s.contexts else s.contexts ++ [q']
    split
    · exact registered
    · exact List.mem_append_left _ registered
  | @removeReadRdy c q' may =>
    have other : q' ≠ q := keeps
    refine ⟨bound, notifies, ?_, registered, goto_kept
      (s := { s with callback := Function.update s.callback q' none }) kept
      (fun hc => other (Call.removeContext.inj hc))⟩
    show (Function.update s.callback q' none q).isSome = true
    rw [Function.update_of_ne (Ne.symm other)]
    exact callback
  | @removeContext c q' call =>
    have other : q ≠ q' := by
      rintro rfl
      exact kept c call
    refine ⟨bound, notifies, callback, List.mem_filter.mpr ⟨registered, decide_eq_true other⟩,
      goto_kept (s := { s with contexts := s.contexts.filter (· ≠ q') }) kept
      (fun hc => by cases hc)⟩
  | setReactor q' this =>
    rcases onQueue_queues s q' (fun queue => { queue with bound := this }) q with
      ⟨rfl, now⟩ | ⟨-, now⟩
    · cases this with
      | true => exact ⟨congrArg _ now, (congrArg _ now).trans notifies, callback, registered, kept⟩
      | false => exact absurd ⟨rfl, rfl⟩ keeps
    · exact ⟨(congrArg _ now).trans bound, (congrArg _ now).trans notifies, callback, registered,
        kept⟩
  | @setCapacity q' c lossy =>
    rcases onQueue_queues s q' (fun queue =>
        { queue with capacity := some c, items := DropOldest.keep c queue.items }) q with
      ⟨rfl, now⟩ | ⟨-, now⟩
    · refine ⟨(congrArg _ now).trans bound, (congrArg _ now).trans ?_, callback, registered, kept⟩
      have positive : c ≠ 0 := fun zero => keeps ⟨rfl, zero⟩
      exact decide_eq_true fun hc => positive (Option.some.inj hc)
    · exact ⟨(congrArg _ now).trans bound, (congrArg _ now).trans notifies, callback, registered,
        kept⟩
  | pop q' n =>
    rcases onQueue_queues s q' (fun queue => { queue with items := queue.items.drop n }) q with
      ⟨rfl, now⟩ | ⟨-, now⟩
    · exact ⟨(congrArg _ now).trans bound, (congrArg _ now).trans notifies, callback, registered,
        kept⟩
    · exact ⟨(congrArg _ now).trans bound, (congrArg _ now).trans notifies, callback, registered,
        kept⟩
  | _ => exact ⟨bound, notifies, callback, registered, kept⟩

/-! ## Data and callbacks -/

/-- A producer that has not notified yet does so: the reactor is requested then. -/
theorem notifying_step {drains : ρ → Bool} {l : Label τ ρ κ α} {q : ρ} (serves : s.Serves q)
    (h : ∃ c, s.calls c = .notifyPush q) (step : World.Step drains s l s') :
    s'.Requested ∨ ∃ c, s'.calls c = .notifyPush q := by
  cases step with
  | @wakeUp c cb may => exact .inl (requested_goto _ c none)
  | request call unlocked => exact .inl (.inl rfl)
  | stop may | addReadRdy q' cb may | removeReadRdy q' may =>
    exact .inr (goto_notifying h fun hc => by rw [may.1] at hc; cases hc)
  | @clearRunning c run call => exact .inl (requested_goto _ c (some run))
  | @push c q' x may =>
    exact .inr (goto_notifying (s := s.onQueue q' (·.push x)) h fun hc => by
      rw [show (s.onQueue q' (·.push x)).calls c = _ from may.1] at hc
      cases hc)
  | @notifyPush c q' call =>
    by_cases same : q' = q
    · subst same
      rw [if_pos serves.bound]
      exact .inl (requested_goto s c none)
    · exact .inr (goto_notifying h fun hc => by
        rw [call] at hc
        exact same (Call.notifyPush.inj hc))
  | addContext call | removeContext call =>
    exact .inr (goto_notifying h fun hc => by rw [call] at hc; cases hc)
  | _ => exact .inr h

omit [DecidableEq τ] [DecidableEq ρ] in
/-- A notification shows in the wait alone. -/
theorem notified_scans [DecidableEq ρ] (pc : Pc ρ) (q : ρ) :
    ((notified pc).scans q ↔ pc.scans q) ∧ ((notified pc).takes ↔ pc.takes) := by
  unfold notified
  split
  · rename_i blocked
    rw [blocked]
    exact ⟨Iff.rfl, Iff.rfl⟩
  · exact ⟨Iff.rfl, Iff.rfl⟩

/-- A pass that comes to a queue goes on to it, finds its data and runs its handler until the queue
is empty. -/
theorem scans_step {drains : ρ → Bool} {l : Label τ ρ κ α} {q : ρ} (serves : s.Serves q)
    (draining : drains q = true) (h : s.pc.scans q) (step : World.Step drains s l s')
    (data : (s'.queues q).hasData = true) : s'.pc.scans q := by
  cases step with
  | @wakeUp c cb may => cases cb <;> exact h
  | request call unlocked => exact ((notified_scans s.pc q).1).mpr h
  | @pop q' n =>
    show (popped q' _ s.pc).scans q
    cases pc : s.pc with
    | handler q'' rest drained =>
      rw [pc] at h
      rcases h with ⟨rfl, rfl⟩ | later
      · refine .inl ⟨rfl, ?_⟩
        by_cases empty : q = q' ∧ ((s.queues q').items.drop n).isEmpty = true
        · -- the handler has seen its queue empty
          obtain ⟨rfl, empty⟩ := empty
          have now : (Function.update s.queues q
            { s.queues q with items := (s.queues q).items.drop n } q).hasData = true := data
          rw [Function.update_self, WakeUp.Queue.hasData, empty] at now
          cases now
        · exact if_neg empty
      · exact .inr later
    | _ =>
      rw [pc] at h
      exact h
  | run pc | setRunning pc | test pc | evaluate pc | timeout pc | spurious pc | testRunning pc
  | requested pc _ | notRequested pc _ | takeCallbacks pc | callbacksEnd pc _ _ | endPass pc _ =>
    rw [pc] at h
    exact h.elim
  | snapshot pc => exact serves.registered
  | @hasData q' rest pc =>
    rw [pc] at h
    rcases List.mem_cons.mp h with rfl | later
    · show Pc.scans (if (s.queues q).hasData then _ else _) q
      rw [show (s.queues q).hasData = true from data]
      exact .inl rfl
    · show Pc.scans (if (s.queues q').hasData then _ else _) q
      split
      · exact .inr later
      · exact later
  | @notifyCallback q' rest pc =>
    rw [pc] at h
    rcases h with rfl | later
    · show Pc.scans (if (s.callback q).isSome then _ else _) q
      rw [serves.callback]
      exact .inl ⟨rfl, rfl⟩
    · show Pc.scans (if (s.callback q').isSome then _ else _) q
      split
      · exact .inr later
      · exact later
  | @handlerReturns q' rest drained pc idle seen =>
    rw [pc] at h
    rcases h with ⟨rfl, unseen⟩ | later
    · rw [seen draining] at unseen
      cases unseen
    · exact later
  | scanned pc =>
    rw [pc] at h
    cases h
  | _ => exact h

/-- Data comes to a queue by a push, which notifies. -/
theorem new_data {drains : ρ → Bool} {l : Label τ ρ κ α} {q : ρ} (serves : s.Serves q)
    (before : (s.queues q).hasData ≠ true) (step : World.Step drains s l s')
    (data : (s'.queues q).hasData = true) : ∃ c, s'.calls c = .notifyPush q := by
  cases step with
  | @wakeUp c cb may => cases cb <;> exact absurd data before
  | @push c q' x may =>
    rcases onQueue_queues s q' (·.push x) q with ⟨rfl, -⟩ | ⟨-, now⟩
    · refine ⟨c, ?_⟩
      rw [if_pos serves.notifies]
      simp only [World.goto, Function.update_self]
    · exact absurd (now ▸ data) before
  | setReactor q' this =>
    rcases onQueue_queues s q' (fun queue => { queue with bound := this }) q with
      ⟨rfl, now⟩ | ⟨-, now⟩
    · exact absurd ((congrArg WakeUp.Queue.hasData now).symm.trans data) before
    · exact absurd (now ▸ data) before
  | @setCapacity q' c lossy =>
    rcases onQueue_queues s q' (fun queue =>
        { queue with capacity := some c, items := DropOldest.keep c queue.items }) q with
      ⟨rfl, now⟩ | ⟨-, now⟩
    · exact absurd (hasData_of_sublist (List.drop_sublist ..) (now ▸ data)) before
    · exact absurd (now ▸ data) before
  | pop q' n =>
    rcases onQueue_queues s q' (fun queue => { queue with items := queue.items.drop n }) q with
      ⟨rfl, now⟩ | ⟨-, now⟩
    · exact absurd (hasData_of_sublist (List.drop_sublist ..) (now ▸ data)) before
    · exact absurd (now ▸ data) before
  | _ => exact absurd data before

/-- **Data in a queue that is served stays attended.** -/
theorem World.Attended.step {drains : ρ → Bool} {l : Label τ ρ κ α} {q : ρ} (serves : s.Serves q)
    (draining : drains q = true) (h : (s.queues q).hasData = true → s.Attended q)
    (step : World.Step drains s l s') (data : (s'.queues q).hasData = true) : s'.Attended q := by
  by_cases before : (s.queues q).hasData = true
  · rcases h before with requested | notifying | scans
    · rcases requested.step step with still | cleared
      · exact .inl still
      · refine .inr (.inr ?_)
        rw [cleared]
        exact trivial
    · rcases notifying_step serves notifying step with requested | still
      · exact .inl requested
      · exact .inr (.inl still)
    · exact .inr (.inr (scans_step serves draining scans step data))
  · exact .inr (.inl (new_data serves before step data))

/-- A pass that comes to the callbacks goes on to them, and takes all that wait. -/
theorem takes_step {drains : ρ → Bool} {l : Label τ ρ κ α} (h : s.pc.takes)
    (step : World.Step drains s l s') : s'.pc.takes ∨ s'.wakeUpCb.waiting = [] := by
  cases step with
  | @wakeUp c cb may => cases cb <;> exact .inl h
  | request call unlocked =>
    refine .inl ?_
    show (notified s.pc).takes
    unfold notified
    split
    · rename_i blocked
      rw [blocked] at h
      exact h.elim
    · exact h
  | @pop q' n =>
    refine .inl ?_
    show (popped q' _ s.pc).takes
    cases pc : s.pc with
    | handler q'' rest drained => exact trivial
    | _ =>
      rw [pc] at h
      exact h
  | run pc | setRunning pc | test pc | evaluate pc | timeout pc | spurious pc | testRunning pc
  | requested pc _ | notRequested pc _ | callbacksEnd pc _ _ | endPass pc _ =>
    rw [pc] at h
    exact h.elim
  | @hasData q' rest pc =>
    refine .inl ?_
    show Pc.takes (if (s.queues q').hasData then _ else _)
    split <;> exact trivial
  | @notifyCallback q' rest pc =>
    refine .inl ?_
    show Pc.takes (if (s.callback q').isSome then _ else _)
    split <;> exact trivial
  | snapshot pc | handlerReturns pc _ _ | scanned pc => exact .inl trivial
  | takeCallbacks pc => exact .inr rfl
  | runCallback pc _ _ =>
    rw [pc] at h
    exact h.elim
  | _ => exact .inl h

/-- **A callback that waits stays attended.** -/
theorem World.Posted.step {drains : ρ → Bool} {l : Label τ ρ κ α} (h : s.Posted)
    (step : World.Step drains s l s') : s'.Posted := by
  intro waits
  by_cases before : s.wakeUpCb.waiting = []
  · cases step with
    | @wakeUp c cb may => exact .inl (requested_goto _ c none)
    | takeCallbacks pc => exact absurd rfl waits
    | _ => exact absurd before waits
  · rcases h before with requested | takes
    · rcases requested.step step with still | cleared
      · exact .inl still
      · refine .inr ?_
        rw [cleared]
        exact trivial
    · rcases takes_step takes step with still | taken
      · exact .inr still
      · exact absurd taken waits

/-! ## The result -/

/-- A queue that was not pushed to is empty. -/
theorem empty_step {drains : ρ → Bool} {l : Label τ ρ κ α} {q : ρ}
    (step : World.Step drains s l s') (quiet : ∀ c x, l ≠ .push c q x)
    (empty : (s.queues q).hasData = false) : (s'.queues q).hasData = false := by
  apply eq_false_of_ne_true
  intro data
  have before : (s.queues q).hasData ≠ true := by
    rw [empty]
    decide
  cases step with
  | @wakeUp c cb may => cases cb <;> exact before data
  | @push c q' x may =>
    rcases onQueue_queues s q' (·.push x) q with ⟨rfl, -⟩ | ⟨-, now⟩
    · exact quiet c x rfl
    · exact before (now ▸ data)
  | setReactor q' this =>
    rcases onQueue_queues s q' (fun queue => { queue with bound := this }) q with
      ⟨rfl, now⟩ | ⟨-, now⟩
    · exact before ((congrArg WakeUp.Queue.hasData now).symm.trans data)
    · exact before (now ▸ data)
  | @setCapacity q' c lossy =>
    rcases onQueue_queues s q' (fun queue =>
        { queue with capacity := some c, items := DropOldest.keep c queue.items }) q with
      ⟨rfl, now⟩ | ⟨-, now⟩
    · exact before (hasData_of_sublist (List.drop_sublist ..) (now ▸ data))
    · exact before (now ▸ data)
  | pop q' n =>
    rcases onQueue_queues s q' (fun queue => { queue with items := queue.items.drop n }) q with
      ⟨rfl, now⟩ | ⟨-, now⟩
    · exact before (hasData_of_sublist (List.drop_sublist ..) (now ▸ data))
    · exact before (now ▸ data)
  | _ => exact before data

/-- The reactor has served a queue since before its first push: in a run from the start, from some
state on, before which nothing was pushed and after which nothing is done against it. -/
def ServedThroughout (drains : ρ → Bool) (lossy : ρ → Bool) (s : World τ ρ κ α) (q : ρ)
    (ls : List (Label τ ρ κ α)) : Prop :=
  ∃ pre post t, ls = pre ++ post ∧ World.Run drains (World.init lossy) pre t ∧
    World.Run drains t post s ∧ t.Serves q ∧ (∀ c x, .push c q x ∉ pre) ∧
      ∀ l ∈ post, ¬ l.undoes q

/-- A queue that has been served throughout is attended when it has data. -/
theorem served_attended {drains lossy : ρ → Bool} {ls : List (Label τ ρ κ α)} {q : ρ}
    (draining : drains q = true) (served : ServedThroughout drains lossy s q ls) :
    (s.queues q).hasData = true → s.Attended q := by
  obtain ⟨pre, post, t, -, before, after, serves, unpushed, keeps⟩ := served
  have empty : (t.queues q).hasData = false :=
    before.invariant_of_mem (P := fun t => (t.queues q).hasData = false) rfl
      fun mem empty step =>
        empty_step (Step.of_step step) (fun c x same => unpushed c x (same ▸ mem)) empty
  have kept := after.invariant_of_mem
    (P := fun t => t.Serves q ∧ ((t.queues q).hasData = true → t.Attended q)) ⟨serves, ?_⟩ ?_
  · exact kept.2
  · intro data
    rw [empty] at data
    cases data
  · rintro a l b mem ⟨serves, attended⟩ step
    exact ⟨serves.step (Step.of_step step) (keeps l mem), fun data =>
      World.Attended.step serves draining attended (Step.of_step step) data⟩

/-- **No push and no wake-up is lost.** Any threads and callbacks, any interleaving: when the
reactor thread is blocked without a request and no `push` or `wake_up` is in progress, no wake-up
callback waits, and every queue that the reactor has served since before its first push, with
handlers that drain it, is empty. -/
theorem no_push_lost {drains lossy : ρ → Bool} {ls : List (Label τ ρ κ α)}
    {s : World τ ρ κ α} (run : World.Run drains (World.init lossy) ls s) (pc : s.pc = .blocked)
    (req : s.wakeupReq = false) (quiet : ∀ c, (s.calls c).wakes = false) :
    s.wakeUpCb.waiting = [] ∧
      ∀ q, drains q = true → ServedThroughout drains lossy s q ls → (s.queues q).items = [] := by
  have notRequested : ¬ s.Requested := by
    rintro (made | ⟨c, stop, about⟩)
    · rw [req] at made
      cases made
    · have notAbout := quiet c
      rw [about] at notAbout
      cases notAbout
  constructor
  · by_contra waits
    have posted := run.invariant (P := World.Posted) (fun hc => absurd rfl hc)
      fun posted step => posted.step (Step.of_step step)
    rcases posted waits with requested | takes
    · exact notRequested requested
    · rw [pc] at takes
      exact takes
  · intro q draining served
    by_contra nonempty
    have data : (s.queues q).hasData = true := by
      rw [WakeUp.Queue.hasData, Bool.not_eq_true', List.isEmpty_eq_false_iff]
      exact nonempty
    rcases served_attended draining served data with requested | ⟨c, about⟩ | scans
    · exact notRequested requested
    · have notAbout := quiet c
      rw [about] at notAbout
      cases notAbout
    · rw [pc] at scans
      exact scans

/-- A lossy queue of one slot is bound and registered. -/
def registering : List (Label Bool Unit String Nat) :=
  [.setReactor () true, .setCapacity () 1, .addReadRdy (some false) () "handler",
    .addContext (some false)]

/-- Two threads push to it: the second one while the handler is done and has not returned, and it
notifies in the pass. The reactor blocks when it has served that push as well. -/
def pushedAgain : List (Label Bool Unit String Nat) :=
  [.run, .setRunning, .test, .evaluate, .push (some false) () 1, .notifyPush (some false),
    .request (some false), .evaluate, .testRunning, .branch, .snapshot, .hasData, .notifyCallback,
    .pop () 1, .push (some true) () 2, .handlerReturns, .notifyPush (some true),
    .request (some true), .scanned, .takeCallbacks, .callbacksEnd, .endPass, .test, .evaluate,
    .testRunning, .branch, .snapshot, .hasData, .notifyCallback, .pop () 1, .handlerReturns,
    .scanned, .takeCallbacks, .callbacksEnd, .endPass, .test, .evaluate]

/-- The state they reach is one the result is about. -/
theorem no_push_lost_again :
    ∃ s : World Bool Unit String Nat,
      World.Run (fun _ => true) (World.init fun _ => true) (registering ++ pushedAgain) s ∧
        s.pc = .blocked ∧ s.wakeUpCb.waiting = [] ∧ (s.queues ()).items = [] := by
  let step := World.step (τ := Bool) (ρ := Unit) (κ := String) (α := Nat) fun _ => true
  obtain ⟨t, ht, serves⟩ : ∃ t, registering.foldlM step (World.init fun _ => true) = some t ∧
      t.Serves () := by
    refine ⟨_, rfl, rfl, rfl, rfl, List.mem_singleton_self _, fun c => ?_⟩
    match c with
    | none | some false | some true => exact fun hc => by cases hc
  have seen : (registering.foldlM step (World.init fun _ => true)).bind (fun t =>
      (pushedAgain.foldlM step t).map fun s =>
        (s.pc, s.wakeupReq, s.calls none, s.calls (some false), s.calls (some true))) =
      some (.blocked, false, .idle, .idle, .idle) := rfl
  rw [ht] at seen
  obtain ⟨s, hs, fields⟩ := Option.map_eq_some_iff.mp seen
  simp only [Prod.mk.injEq] at fields
  obtain ⟨pc, req, own, first, second⟩ := fields
  have run : World.Run (fun _ => true) (World.init fun _ => true) (registering ++ pushedAgain) s :=
    (Lts.run_of_foldlM ht).trans (Lts.run_of_foldlM hs)
  have quiet : ∀ c, (s.calls c).wakes = false := by
    intro c
    match c with
    | none => exact congrArg Call.wakes own
    | some false => exact congrArg Call.wakes first
    | some true => exact congrArg Call.wakes second
  obtain ⟨callbacks, queues⟩ := no_push_lost run pc req quiet
  refine ⟨s, run, pc, callbacks, queues () rfl ⟨registering, pushedAgain, t, rfl,
    Lts.run_of_foldlM ht, Lts.run_of_foldlM hs, serves, ?_, ?_⟩⟩
  · simp [registering]
  · simp [pushedAgain, Label.undoes]

end Bfc.CvReactor
