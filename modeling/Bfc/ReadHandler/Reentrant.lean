import Bfc.ReadHandler.World

/-!
# Read handlers that re-register their queue

A call locks one mutex after the other and none inside another's critical section, so whatever a
thread holds beforehand is all that can be in its way: `perform_passes`. The handler of a
`reactive_circular_lossy_queue` is invoked with nothing held, and every handler completes. That of a
`reactive_event_queue` is invoked with `cb_mtx` of its queue held, and a handler completes exactly
if it does not set the callback of that queue, by itself or through a reactor.
-/

namespace Bfc.ReadHandler

open Mutexes

variable {ι ρ κ α : Type*} [DecidableEq ι] [DecidableEq ρ]

/-- The callback that a call sets for a queue, if it does. -/
def Op.installs (q : ι) : Op ι ρ κ α → Option (Option κ)
  | .setCallback x cb | .addReadRdy _ x cb => if x = q then some cb else none
  | .removeReadRdy _ x => if x = q then some none else none
  | .push .. | .pop _ | .size _ | .hasData _ | .setReactor .. | .wakeUp .. => none

/-- The callback of a queue after a call. -/
def installed (q : ι) (cb : Option κ) (op : Op ι ρ κ α) : Option κ := (op.installs q).getD cb

/-- A queue's callback, and the record. -/
structure Has (q : ι) (log : List (ι × κ)) (cb : Option κ) (s : Shared ι ρ κ α) : Prop where
  callback : (s.queues q).callback = cb
  invoked : s.invoked = log

/-- `cb_mtx` of some queue. -/
def Mutex.isCallback : Mutex ι ρ → Bool
  | .callback _ => true
  | .queue _ | .binding _ | .contexts _ | .wakeUpCb _ | .wakeup _ => false

/-- What a thread holds are mutexes that guard the callbacks of certain queues. -/
def Guards (held : List (Mutex ι ρ)) (p : ι → Prop) : Prop := ∀ m ∈ held, ∃ x, m = .callback x ∧ p x

variable {held : List (Mutex ι ρ)} {p : ι → Prop} {q : ι} {r : ρ} {log : List (ι × κ)}
  {cb : Option κ} {s : Shared ι ρ κ α}

/-! ## Parts of calls -/

omit [DecidableEq ρ] in
/-- A queue changes in something else than its callback. -/
theorem Has.onQueue (h : Has q log cb s) (x : ι) {f : Queue ρ κ α → Queue ρ κ α}
    (same : ∀ queue, (f queue).callback = queue.callback) : Has q log cb (s.onQueue x f) where
  callback := by
    show (Function.update s.queues x (f (s.queues x)) q).callback = cb
    by_cases own : q = x
    · subst own
      rw [Function.update_self, same, h.callback]
    · rw [Function.update_of_ne own, h.callback]
  invoked := h.invoked

omit [DecidableEq ι] in
theorem Has.onReactor (h : Has q log cb s) (r : ρ) (f : Reactor ι κ → Reactor ι κ) :
    Has q log cb (s.onReactor r f) where
  callback := h.callback
  invoked := h.invoked

omit [DecidableEq ι] [DecidableEq ρ] in
/-- A mutex that guards no callback is free. -/
theorem Guards.free (h : Guards held p) {m : Mutex ι ρ} (other : m.isCallback = false) :
    m ∉ held := by
  intro mem
  obtain ⟨x, rfl, -⟩ := h m mem
  cases other

namespace Caller

theorem append_passes (guards : Guards held p) (h : Has q log cb s) (r : ρ) (k : Option κ) :
    Passes (append { held := held, shared := s } r k) held (Has q log cb) := by
  cases k with
  | none => exact .here h
  | some k => exact .critical (guards.free rfl) (h.onReactor r _)

theorem wakeUp_passes (guards : Guards held p) (h : Has q log cb s) (r : ρ) (k : Option κ) :
    Passes (wakeUp { held := held, shared := s } r k) held (Has q log cb) :=
  (append_passes guards h r k).bind fun _ h =>
    .critical (guards.free rfl) (h.onReactor r _)

theorem release_passes (guards : Guards held p) (h : Has q log cb s) (r : Option ρ) (last : Bool) :
    Passes (release { held := held, shared := s } r last) held (Has q log cb) := by
  cases r with
  | none => exact .here h
  | some r =>
    cases last with
    | false => exact .here h
    | true => exact wakeUp_passes guards (h.onReactor r _) r none

theorem notifyPush_passes (guards : Guards held p) (h : Has q log cb s) (x : ι) (last : Bool) :
    Passes (notifyPush { held := held, shared := s } x last) held (Has q log cb) := by
  have read : Passes (reads { held := held, shared := s } (.binding x)) held (Has q log cb) :=
    .critical (guards.free rfl) h
  refine read.bind fun s h => ?_
  split
  · rename_i r _
    exact (wakeUp_passes guards h r none).bind fun s h => release_passes guards h (some r) last
  · exact .here h

theorem push_passes (guards : Guards held p) (h : Has q log cb s) (x : ι) (a : α) (last : Bool) :
    Passes (push { held := held, shared := s } x a last) held (Has q log cb) := by
  have same : ∀ queue : Queue ρ κ α, (queue.push a).callback = queue.callback := by
    intro queue
    unfold Queue.push
    split
    · rfl
    · rfl
  have pushed : Passes (Thread.critical { held := held, shared := s } (.queue x)
      (.onQueue x (Queue.push a))) held (Has q log cb) :=
    .critical (guards.free rfl) (h.onQueue x same)
  refine pushed.bind fun s h => ?_
  split
  · exact notifyPush_passes guards h x last
  · exact .here h

theorem pop_passes (guards : Guards held p) (h : Has q log cb s) (x : ι) :
    Passes (Thread.critical { held := held, shared := s } (.queue x) (.onQueue x Queue.pop)) held
      (Has q log cb) := by
  refine .critical (guards.free rfl) (h.onQueue x fun queue => ?_)
  unfold Queue.pop
  split
  · rfl
  · rfl

theorem setReactor_passes (guards : Guards held p) (h : Has q log cb s) (x : ι) (r : Option ρ)
    (last : Bool) :
    Passes (setReactor { held := held, shared := s } x r last) held (Has q log cb) := by
  have bound : Passes (Thread.critical { held := held, shared := s } (.binding x)
      (.onQueue x fun queue => { queue with wakeCallback := r })) held (Has q log cb) :=
    .critical (guards.free rfl) (h.onQueue x fun _ => rfl)
  exact bound.bind fun s h => release_passes guards h _ last

theorem setCallback_passes {x : ι} (free : .callback x ∉ held) (h : Has q log cb s)
    (k : Option κ) :
    Passes (setCallback { held := held, shared := s } x k) held
      (Has q log ((if x = q then some k else none).getD cb)) := by
  refine .critical free ⟨?_, h.invoked⟩
  show (Function.update s.queues x { s.queues x with callback := k } q).callback = _
  by_cases own : x = q
  · subst own
    rw [Function.update_self, if_pos rfl, Option.getD_some]
  · rw [Function.update_of_ne (Ne.symm own), if_neg own, h.callback, Option.getD_none]

/-! ## Calls -/

/-- **A call passes** if it sets no callback that is guarded by what the thread holds. -/
theorem perform_passes {op : Op ι ρ κ α} (guards : Guards held fun x => op.installs x = none)
    (h : Has q log cb s) :
    Passes (perform { held := held, shared := s } op) held (Has q log (installed q cb op)) := by
  -- the mutex of a callback that the call does set is not among them
  have free : ∀ {x : ι} {k : Option κ}, op.installs x = some k → .callback x ∉ held := by
    intro x k sets mem
    obtain ⟨y, same, kept⟩ := guards _ mem
    obtain rfl := Mutex.callback.inj same
    rw [sets] at kept
    cases kept
  cases op with
  | setCallback x k => exact setCallback_passes (free (if_pos rfl)) h k
  | push x a last => exact push_passes guards h x a last
  | pop x => exact pop_passes guards h x
  | size x => exact .critical (guards.free rfl) h
  | hasData x => exact .critical (guards.free rfl) h
  | setReactor x r last => exact setReactor_passes guards h x r last
  | addReadRdy r x k =>
    exact (setCallback_passes (free (if_pos rfl)) h k).bind fun s h =>
      .critical (guards.free rfl) (h.onReactor r _)
  | removeReadRdy r x =>
    exact (setCallback_passes (free (if_pos rfl)) h none).bind fun s h =>
      .critical (guards.free rfl) (h.onReactor r _)
  | wakeUp r k => exact wakeUp_passes guards h r k

/-- A call that sets the callback of a queue goes no further if the thread holds its mutex. -/
theorem perform_blocks {t : Caller ι ρ κ α} {op : Op ι ρ κ α} (held : .callback q ∈ t.held)
    (sets : op.installs q ≠ none) : perform t op = none := by
  have blocked : ∀ {x k}, x = q → setCallback t x k = none := by
    rintro x k rfl
    exact critical_of_held held _
  cases op with
  | setCallback x k =>
    by_cases own : x = q
    · exact blocked own
    · exact absurd (if_neg own) sets
  | addReadRdy r x k =>
    by_cases own : x = q
    · show (setCallback t x k).bind _ = none
      rw [blocked own, Option.bind_none]
    · exact absurd (if_neg own) sets
  | removeReadRdy r x =>
    by_cases own : x = q
    · show (setCallback t x none).bind _ = none
      rw [blocked own, Option.bind_none]
    · exact absurd (if_neg own) sets
  | push | pop | size | hasData | setReactor | wakeUp => exact absurd rfl sets

/-! ## Handlers -/

variable {code : κ → List (Op ι ρ κ α)} {k : κ}

theorem run_passes (guards : Guards held fun x => ∀ op ∈ code k, op.installs x = none)
    (h : Has q log cb s) :
    Passes (run code { held := held, shared := s } k) held
      (Has q log ((code k).foldl (installed q) cb)) := by
  refine Passes.foldlM (I := fun cb s => Has q log cb s) h fun op mem cb s h => ?_
  refine perform_passes (fun m hm => ?_) h
  obtain ⟨x, hx, installsNone⟩ := guards m hm
  exact ⟨x, hx, installsNone op mem⟩

/-- Some call of a handler sets the callback whose mutex the thread holds: it is the first such call
that goes no further, and all before it pass. -/
theorem run_blocks (s : Shared ι ρ κ α) {op : Op ι ρ κ α} (mem : op ∈ code k)
    (sets : op.installs q ≠ none) :
    run code { held := [.callback q], shared := s } k = none := by
  unfold run
  generalize code k = ops at mem
  induction ops generalizing s with
  | nil => cases mem
  | cons first rest ih =>
    rw [List.foldlM_cons]
    by_cases kept : first.installs q = none
    · have guards : Guards ([.callback q] : List (Mutex ι ρ)) fun x => first.installs x = none := by
        intro m hm
        exact ⟨q, List.mem_singleton.mp hm, kept⟩
      obtain ⟨s', passed, -⟩ := perform_passes guards ⟨rfl, rfl⟩ (s := s) (q := q)
      rw [passed]
      refine ih s' ?_
      rcases List.mem_cons.mp mem with rfl | later
      · exact absurd kept sets
      · exact later
    · rw [perform_blocks (List.mem_singleton_self _) kept]
      rfl

/-! ## Notifications -/

/-- The handlers that a queue has: none, or one. -/
def handlers (t : Caller ι ρ κ α) (q : ι) : List κ := (t.shared.queues q).callback.toList

/-- **`notify_callback` does what it should.** It gets to the end, with every mutex released; it has
invoked the queue's handler and no other; and the queue has the last callback that this has set, if
it has set one. -/
def Completes (code : κ → List (Op ι ρ κ α)) (t : Caller ι ρ κ α) (q : ι) : Prop :=
  Passes (notifyCallback code t q) []
    (Has q (t.shared.invoked ++ (handlers t q).map fun k => (q, k))
      (((handlers t q).flatMap code).foldl (installed q) (t.shared.queues q).callback))

theorem invoke_passes (guards : Guards held fun x => ∀ k, cb = some k → ∀ op ∈ code k,
    op.installs x = none) (h : Has q log cb s) :
    Passes (invoke code { held := held, shared := s } q cb) held
      (Has q (log ++ cb.toList.map fun k => (q, k))
        ((cb.toList.flatMap code).foldl (installed q) cb)) := by
  cases cb with
  | none =>
    refine .here ⟨h.callback, ?_⟩
    rw [h.invoked, Option.toList_none, List.map_nil, List.append_nil]
  | some k =>
    have ready : Has q (log ++ [(q, k)]) (some k)
        { s with invoked := s.invoked ++ [(q, k)] } := ⟨h.callback, by rw [h.invoked]⟩
    rw [Option.toList_some, List.flatMap_singleton]
    exact run_passes (fun m hm => (guards m hm).imp fun x ⟨hx, kept⟩ => ⟨hx, kept k rfl⟩) ready

theorem notifyCallback_lossy (code : κ → List (Op ι ρ κ α)) {capacity : Nat}
    (lossy : (s.queues q).capacity = some capacity) :
    notifyCallback code { held := [], shared := s } q =
      invoke code { held := [], shared := s } q (s.queues q).callback := by
  simp only [notifyCallback, Thread.lock, List.not_mem_nil, if_false, Option.bind_eq_bind,
    Option.bind_some, lossy, Thread.unlock, List.erase_cons_head]

theorem notifyCallback_reactive (code : κ → List (Op ι ρ κ α))
    (reactive : (s.queues q).capacity = none) :
    notifyCallback code { held := [], shared := s } q =
      (invoke code { held := [.callback q], shared := s } q (s.queues q).callback).map
        (·.unlock (.callback q)) := by
  simp only [notifyCallback, Thread.lock, List.not_mem_nil, if_false, Option.bind_eq_bind,
    Option.bind_some, reactive]
  exact Option.map_eq_bind.symm

/-- The handler of a `reactive_circular_lossy_queue`, whatever it does. -/
theorem notify_lossy {capacity : Nat} (lossy : (s.queues q).capacity = some capacity) :
    Completes code { held := [], shared := s } q := by
  unfold Completes
  rw [notifyCallback_lossy code lossy]
  exact invoke_passes (fun _ hm => by cases hm) ⟨rfl, rfl⟩

/-- A handler of a `reactive_event_queue` that does not set the callback of its queue. -/
theorem notify_reactive (reactive : (s.queues q).capacity = none)
    (keeps : ∀ k, (s.queues q).callback = some k → ∀ op ∈ code k, op.installs q = none) :
    Completes code { held := [], shared := s } q := by
  unfold Completes
  rw [notifyCallback_reactive code reactive]
  have guards : Guards ([.callback q] : List (Mutex ι ρ)) fun x => ∀ k,
      (s.queues q).callback = some k → ∀ op ∈ code k, op.installs x = none := by
    intro m hm
    exact ⟨q, List.mem_singleton.mp hm, keeps⟩
  have has_callback : Has q s.invoked (s.queues q).callback s := ⟨rfl, rfl⟩
  obtain ⟨s', invoked, has⟩ := invoke_passes guards has_callback
  rw [invoked]
  refine ⟨s', ?_, has⟩
  rw [Option.map_some, Thread.unlock, List.erase_cons_head]

/-- A handler of a `reactive_event_queue` that does. -/
theorem notify_blocks (reactive : (s.queues q).capacity = none) {k : κ}
    (callback : (s.queues q).callback = some k) {op : Op ι ρ κ α} (mem : op ∈ code k)
    (sets : op.installs q ≠ none) : notifyCallback code { held := [], shared := s } q = none := by
  rw [notifyCallback_reactive code reactive, callback]
  show Option.map _ (run code _ k) = none
  rw [run_blocks _ mem sets, Option.map_none]

/-- **When a notification completes.** -/
theorem completes_iff (s : Shared ι ρ κ α) (q : ι) :
    Completes code { held := [], shared := s } q ↔
      (s.queues q).capacity.isSome = true ∨
        ∀ k, (s.queues q).callback = some k → ∀ op ∈ code k, op.installs q = none := by
  cases kind : (s.queues q).capacity with
  | some capacity => exact iff_of_true (notify_lossy kind) (.inl rfl)
  | none =>
    rw [Option.isSome_none, or_iff_right Bool.false_ne_true]
    refine ⟨fun completes k callback op mem => ?_, notify_reactive kind⟩
    by_contra sets
    obtain ⟨s', done, -⟩ := completes
    rw [notify_blocks kind callback mem sets] at done
    cases done

/-! ## The thread between its calls -/

/-- A notification that gets to the end leaves nothing locked. -/
theorem notify_restores (s : Shared ι ρ κ α) (q : ι) :
    Restores (notifyCallback code { held := [], shared := s } q) [] := by
  by_cases completes : Completes code { held := [], shared := s } q
  · exact completes.restores
  · intro t notified
    rw [completes_iff, not_or, Option.not_isSome_iff_eq_none] at completes
    obtain ⟨reactive, sets⟩ := completes
    simp only [not_forall] at sets
    obtain ⟨k, callback, op, mem, sets⟩ := sets
    rw [notify_blocks reactive callback mem sets] at notified
    cases notified

omit [DecidableEq ι] [DecidableEq ρ] in
theorem guards_nil (p : ι → Prop) : Guards ([] : List (Mutex ι ρ)) p := fun _ hm => by cases hm

theorem critical_restores (s : Shared ι ρ κ α) (m : Mutex ι ρ)
    (f : Shared ι ρ κ α → Shared ι ρ κ α) :
    Restores (Thread.critical { held := [], shared := s } m f) [] :=
  (Passes.critical (Q := fun _ => True) List.not_mem_nil trivial).restores

theorem perform_restores (q : ι) (s : Shared ι ρ κ α) (op : Op ι ρ κ α) :
    Restores (perform { held := [], shared := s } op) [] :=
  (perform_passes (q := q) (guards_nil _) ⟨rfl, rfl⟩).restores

theorem run_restores (q : ι) (s : Shared ι ρ κ α) (k : κ) :
    Restores (run code { held := [], shared := s } k) [] :=
  .foldlM (perform_restores q) (code k) s

theorem notifyContext_restores (s : Shared ι ρ κ α) (q : ι) :
    Restores (notifyContext code { held := [], shared := s } q) [] := by
  refine (critical_restores s (.queue q) id).bind fun s => ?_
  split
  · exact notify_restores s q
  · exact (Passes.here (Q := fun _ => True) trivial).restores

theorem notifyContexts_restores (s : Shared ι ρ κ α) (r : ρ) :
    Restores (notifyContexts code { held := [], shared := s } r) [] := by
  refine (critical_restores s (.wakeup r) _).bind fun s => ?_
  split
  · exact (critical_restores s (.contexts r) id).bind fun s => .foldlM notifyContext_restores _ s
  · exact (Passes.here (Q := fun _ => True) trivial).restores

theorem pass_restores (q : ι) (s : Shared ι ρ κ α) (r : ρ) :
    Restores (pass code { held := [], shared := s } r) [] :=
  (notifyContexts_restores s r).bind fun s =>
    (critical_restores s (.wakeUpCb r) _).bind fun s => .foldlM (run_restores q) _ s

end Caller

open Caller

/-- Between its calls the thread holds nothing. -/
theorem run_idle {lossy : ι → Bool} {code : κ → List (Op ι ρ κ α)} (q : ι)
    {actions : List (Action ι ρ κ α)} {t : Caller ι ρ κ α}
    (run : actions.foldlM (step code) (init lossy) = some t) : t.held = [] := by
  refine Restores.foldlM (fun s action => ?_) actions _ t run
  cases action with
  | call op => exact perform_restores q s op
  | notify q => exact notify_restores s q
  | setCapacity q capacity => exact critical_restores s (.queue q) _
  | pass r => exact pass_restores q s r

/-- **When a read handler may re-register its queue.** Wherever the thread is between its calls,
`notify_callback` of a queue completes, and leaves the queue with the callback that its handler has
set last, if and only if the queue is a lossy one, or no call of its handler sets the queue's own
callback. -/
theorem handler_completes_iff {lossy : ι → Bool} {code : κ → List (Op ι ρ κ α)}
    {actions : List (Action ι ρ κ α)} {t : Caller ι ρ κ α}
    (run : actions.foldlM (step code) (init lossy) = some t) (q : ι) :
    Completes code t q ↔
      (t.shared.queues q).capacity.isSome = true ∨
        ∀ k, (t.shared.queues q).callback = some k → ∀ op ∈ code k, op.installs q = none := by
  obtain ⟨held, s⟩ := t
  obtain rfl : held = [] := run_idle q run
  exact completes_iff s q

/-! ## A handler that replaces itself -/

/-- The handler `false` sets the handler `true` in its place, which does nothing. -/
def replacing : Bool → List (Op Unit Unit Bool Unit)
  | false => [.setCallback () (some true)]
  | true => []

/-- A queue has been given the first of them. -/
def registered (lossy : Bool) : Caller Unit Unit Bool Unit where
  shared := (init fun _ => lossy).shared.onQueue () fun queue =>
    { queue with callback := some false }

/-- A lossy queue has it, and a notification of the queue completes. -/
theorem handler_completes_iff_lossy :
    [.call (.setCallback () (some false))].foldlM (step replacing) (init fun _ => true) =
        some (registered true) ∧
      (Completes replacing (registered true) () ↔
        ((registered true).shared.queues ()).capacity.isSome = true ∨
          ∀ k, ((registered true).shared.queues ()).callback = some k →
            ∀ op ∈ replacing k, op.installs () = none) ∧
      ((registered true).shared.queues ()).capacity.isSome = true := by
  have run : [.call (.setCallback () (some false))].foldlM (step replacing) (init fun _ => true) =
      some (registered true) := rfl
  exact ⟨run, handler_completes_iff run (), rfl⟩

/-- **A handler of a `reactive_event_queue` cannot replace itself.** It waits for the mutex with
which it was invoked. -/
theorem handler_relocks :
    ¬∀ (lossy : Unit → Bool) (code : Bool → List (Op Unit Unit Bool Unit))
      (actions : List (Action Unit Unit Bool Unit)) (t : Caller Unit Unit Bool Unit),
      actions.foldlM (step code) (init lossy) = some t → ∀ q, Completes code t q := by
  intro completes
  obtain ⟨s, done, -⟩ := completes (fun _ => false) replacing
    [.call (.setCallback () (some false))] (registered false) rfl ()
  have blocks : notifyCallback replacing (registered false) () = none := rfl
  rw [blocks] at done
  cases done

end Bfc.ReadHandler
