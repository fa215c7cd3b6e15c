import Bfc.Lib.ConditionVariable
import Bfc.Lib.Transition

/-!
# Event queues

`event_queue` among any number of producers and consumers. A step is a critical section of
`m_queue_mtx`, a `wake_up` from outside, which takes no lock, or a move of the condition variable. A
`pop` that finds a blocking queue empty ends its critical section in the wait, once and not in a
loop, and takes what there is in the one after it, which may be nothing.

No element is lost, doubled or overtaken, since a critical section takes all of them. And no
consumer sleeps beside data: each push notifies, and a consumer that has been notified leaves no
data behind when it returns.
-/

namespace Bfc.EventQueue

variable {τ α : Type*} [DecidableEq τ]

/-- The queue with its condition variable; for the record, what the calls of `pop` have returned, in
the order of the critical sections that took it. -/
structure World (τ α : Type*) where
  blocking : Bool
  queue : List α := []
  cv : ConditionVariable τ := {}
  returned : List (List α) := []

/-- A step. A notification comes with the thread that it chooses. -/
inductive Label (τ α : Type*) where
  | push (x : α) (chosen : Option τ)
  | pop (t : τ)
  | resume (t : τ)
  | spurious (t : τ)
  | wakeUp (chosen : Option τ)
  | size

namespace World

/-- `wake_up`. -/
def wakeUp (w : World τ α) (chosen : Option τ) : Option (World τ α) :=
  if w.blocking then (w.cv.notifyOne chosen).map fun cv => { w with cv := cv } else some w

/-- `push`, with the size it answers. -/
def push (w : World τ α) (x : α) (chosen : Option τ) : Option (World τ α × Nat) :=
  let w := { w with queue := w.queue ++ [x] }
  (w.wakeUp chosen).map fun w => (w, w.queue.length)

/-- The end of `pop`, `return std::move(m_queue)`. -/
def take (w : World τ α) : World τ α :=
  { w with queue := [], returned := w.returned ++ [w.queue] }

/-- `pop`, up to its wait if it has one. -/
def pop (w : World τ α) (t : τ) : World τ α :=
  if w.blocking ∧ w.queue = [] then { w with cv := w.cv.block t } else w.take

/-- `pop`, after its wait. -/
def resume (w : World τ α) (t : τ) : Option (World τ α) :=
  (w.cv.resume t).map fun cv => { w with cv := cv }.take

/-- `size`. -/
def size (w : World τ α) : Nat := w.queue.length

/-- The state after a step, where it can be taken. A consumer is in one `pop` at a time. -/
def step (w : World τ α) : Label τ α → Option (World τ α)
  | .push x chosen => (w.push x chosen).map Prod.fst
  | .pop t => if w.cv.Waits t then none else some (w.pop t)
  | .resume t => w.resume t
  | .spurious t => (w.cv.spurious t).map fun cv => { w with cv := cv }
  | .wakeUp chosen => w.wakeUp chosen
  | .size => some w

/-- A sequence of steps that can be taken one after the other. -/
abbrev Run := Lts.Run fun (w : World τ α) (l : Label τ α) w' => w.step l = some w'

end World

/-- The elements pushed, in order. -/
def pushed (ls : List (Label τ α)) : List α :=
  ls.filterMap fun
    | .push x _ => some x
    | _ => none

omit [DecidableEq τ] in
theorem pushed_append (ls : List (Label τ α)) (l : Label τ α) :
    pushed (ls ++ [l]) = pushed ls ++ pushed [l] := List.filterMap_append

open World

/-! ## What a step can do -/

/-- What a step does. -/
inductive Step : World τ α → Label τ α → World τ α → Prop
  | push {w : World τ α} {chosen : Option τ} {cv : ConditionVariable τ} (x : α)
      (woke : if w.blocking then w.cv.notifyOne chosen = some cv else cv = w.cv) :
      Step w (.push x chosen) { w with queue := w.queue ++ [x], cv := cv }
  | block {w : World τ α} (t : τ) (blocking : w.blocking = true) (empty : w.queue = []) :
      Step w (.pop t) { w with cv := w.cv.block t }
  | take {w : World τ α} (t : τ) : Step w (.pop t) w.take
  | resume {w : World τ α} {t : τ} {cv : ConditionVariable τ} (back : w.cv.resume t = some cv) :
      Step w (.resume t) { w with cv := cv }.take
  | spurious {w : World τ α} {t : τ} {cv : ConditionVariable τ} (woke : w.cv.spurious t = some cv) :
      Step w (.spurious t) { w with cv := cv }
  | wakeUp {w : World τ α} {chosen : Option τ} {cv : ConditionVariable τ}
      (woke : if w.blocking then w.cv.notifyOne chosen = some cv else cv = w.cv) :
      Step w (.wakeUp chosen) { w with cv := cv }
  | size {w : World τ α} : Step w .size w

/-- `wake_up` changes the condition variable alone. -/
theorem wakeUp_cases {w w' : World τ α} {chosen : Option τ} (h : w.wakeUp chosen = some w') :
    ∃ cv, (if w.blocking then w.cv.notifyOne chosen = some cv else cv = w.cv) ∧
      w' = { w with cv := cv } := by
  unfold World.wakeUp at h
  by_cases blocking : w.blocking = true
  · rw [if_pos blocking] at h
    obtain ⟨cv, woke, rfl⟩ := Option.map_eq_some_iff.mp h
    exact ⟨cv, by rwa [if_pos blocking], rfl⟩
  · rw [if_neg blocking] at h
    obtain rfl := Option.some.inj h
    exact ⟨w.cv, by rw [if_neg blocking], rfl⟩

theorem Step.of_step {w w' : World τ α} {l : Label τ α} (h : w.step l = some w') : Step w l w' := by
  cases l with
  | push x chosen =>
    obtain ⟨r, pushes, rfl⟩ := Option.map_eq_some_iff.mp h
    obtain ⟨u, wakes, rfl⟩ := Option.map_eq_some_iff.mp pushes
    obtain ⟨cv, woke, rfl⟩ := wakeUp_cases wakes
    exact .push x woke
  | pop t =>
    obtain ⟨-, same⟩ := Option.ite_none_left_eq_some.mp h
    obtain rfl := Option.some.inj same
    unfold World.pop
    split
    · rename_i waits
      exact .block t waits.1 waits.2
    · exact .take t
  | resume t =>
    obtain ⟨cv, back, rfl⟩ := Option.map_eq_some_iff.mp h
    exact .resume back
  | spurious t =>
    obtain ⟨cv, woke, rfl⟩ := Option.map_eq_some_iff.mp h
    exact .spurious woke
  | wakeUp chosen =>
    obtain ⟨cv, woke, rfl⟩ := wakeUp_cases h
    exact .wakeUp woke
  | size => exact Option.some.inj h ▸ .size

/-! ## The invariant -/

/-- Elements are delivered in order, nobody blocks at a queue that does not block, and beside data
the waiters are served. -/
structure Delivers (ls : List (Label τ α)) (w : World τ α) : Prop where
  inOrder : w.returned.flatten ++ w.queue = pushed ls
  unblocked : w.blocking = false → w.cv.blocked = []
  served : w.queue ≠ [] → w.cv.Served

/-- A notification keeps nobody at a queue that does not block, and serves the others. -/
theorem served_wakeUp {w : World τ α} {chosen : Option τ} {cv : ConditionVariable τ}
    (unblocked : w.blocking = false → w.cv.blocked = [])
    (woke : if w.blocking then w.cv.notifyOne chosen = some cv else cv = w.cv) :
    (w.blocking = false → cv.blocked = []) ∧ cv.Served := by
  by_cases blocking : w.blocking = true
  · rw [if_pos blocking] at woke
    refine ⟨fun notBlocking => ?_, ConditionVariable.served_notifyOne woke⟩
    rw [blocking] at notBlocking
    cases notBlocking
  · rw [if_neg blocking] at woke
    have nobody := unblocked (Bool.not_eq_true _ ▸ blocking)
    subst woke
    exact ⟨fun _ => nobody, fun waiters => absurd nobody waiters⟩

omit [DecidableEq τ] in
/-- A taking leaves no data, and puts it at the end of what was returned. -/
theorem take_delivers {w : World τ α} {elements : List α}
    (inOrder : w.returned.flatten ++ w.queue = elements) :
    w.take.returned.flatten ++ w.take.queue = elements := by
  unfold World.take
  rw [List.append_nil, List.flatten_append, List.flatten_singleton]
  exact inOrder

theorem Delivers.step {ls : List (Label τ α)} {l : Label τ α} {w w' : World τ α}
    (h : Delivers ls w) (step : Step w l w') : Delivers (ls ++ [l]) w' := by
  cases step with
  | push x woke =>
    obtain ⟨unblocked, served⟩ := served_wakeUp h.unblocked woke
    refine ⟨?_, unblocked, fun _ => served⟩
    rw [pushed_append, ← h.inOrder, List.append_assoc]
    rfl
  | block t blocking empty =>
    refine ⟨?_, fun notBlocking => ?_, fun waiters => absurd empty waiters⟩
    · rw [pushed_append]
      exact h.inOrder.trans (List.append_nil _).symm
    · rw [blocking] at notBlocking
      cases notBlocking
  | take t =>
    refine ⟨?_, h.unblocked, fun waiters => absurd rfl waiters⟩
    rw [pushed_append, take_delivers h.inOrder]
    exact (List.append_nil _).symm
  | @resume t cv back =>
    have blocked : cv.blocked = w.cv.blocked := ConditionVariable.blocked_resume back
    refine ⟨?_, fun notBlocking => blocked.trans (h.unblocked notBlocking),
      fun waiters => absurd rfl waiters⟩
    rw [pushed_append, take_delivers (w := { w with cv := cv }) h.inOrder]
    exact (List.append_nil _).symm
  | @spurious t cv woke =>
    refine ⟨?_, fun notBlocking => ?_, fun waiters => ((h.served waiters).spurious woke).2⟩
    · rw [pushed_append]
      exact h.inOrder.trans (List.append_nil _).symm
    · -- nobody is blocked that could wake up
      obtain ⟨mem, -⟩ := Option.ite_none_right_eq_some.mp woke
      rw [h.unblocked notBlocking] at mem
      cases mem
  | wakeUp woke =>
    obtain ⟨unblocked, served⟩ := served_wakeUp h.unblocked woke
    refine ⟨?_, unblocked, fun _ => served⟩
    rw [pushed_append]
    exact h.inOrder.trans (List.append_nil _).symm
  | size =>
    refine ⟨?_, h.unblocked, h.served⟩
    rw [pushed_append]
    exact h.inOrder.trans (List.append_nil _).symm

/-- **Every element is delivered once, in order, and no consumer sleeps beside data**: after any
interleaving, what the calls of `pop` have returned and what is in the queue are the elements
pushed, and if the queue is not empty while a consumer is blocked, another has been notified and has
not returned from its wait. -/
theorem delivered_in_order {blocking : Bool} {ls : List (Label τ α)} {w : World τ α}
    (run : Run { blocking := blocking } ls w) :
    w.returned.flatten ++ w.queue = pushed ls ∧
      (w.queue ≠ [] → w.cv.blocked ≠ [] → ∃ t ∈ w.cv.notified, (w.step (.resume t)).isSome) := by
  have delivers : Delivers ls w := run.history ⟨rfl, fun _ => rfl, fun listed => absurd rfl listed⟩
    fun h step => h.step (.of_step step)
  refine ⟨delivers.inOrder, fun data asleep => ?_⟩
  obtain ⟨t, rest, listed⟩ := List.exists_cons_of_ne_nil (delivers.served data asleep)
  have mem : t ∈ w.cv.notified := listed ▸ List.mem_cons_self
  refine ⟨t, mem, ?_⟩
  show ((w.cv.resume t).map _).isSome = true
  rw [Option.isSome_map]
  exact ConditionVariable.resume_isSome mem

/-- Two consumers block, and a push wakes the first: the second is blocked beside the element. -/
theorem delivered_in_order_two :
    ∃ w : World Nat Nat, ([.pop 1, .pop 2, .push 7 (some 1)] : List (Label Nat Nat)).foldlM
        World.step { blocking := true } = some w ∧
      (w.returned.flatten ++ w.queue = [7] ∧
        (w.queue ≠ [] → w.cv.blocked ≠ [] →
          ∃ t ∈ w.cv.notified, (w.step (.resume t)).isSome)) ∧
      w.queue ≠ [] ∧ w.cv.blocked = [2] := by
  obtain ⟨w, reached, queue, blocked⟩ :
      ∃ w : World Nat Nat, ([.pop 1, .pop 2, .push 7 (some 1)] : List (Label Nat Nat)).foldlM
        World.step { blocking := true } = some w ∧ w.queue ≠ [] ∧ w.cv.blocked = [2] :=
    ⟨_, rfl, by decide, rfl⟩
  exact ⟨w, reached, delivered_in_order (Lts.run_of_foldlM reached), queue, blocked⟩

end Bfc.EventQueue
