import Bfc.EpollReactor.Threads
import Bfc.Lib.CountedSignal
import Bfc.WakeUp.NoLostWakeUp

/-!
# The epoll reactor loses no wake-up

The eventfd is a counted signal (`signal_step`): what was written to it is what has been read and
what it holds, and the reactor, which reads only when its wait told it to, is never blocked by its
read. So a posted callback waits only while the reactor owes a pass (`posted_step`), and data in a
queue that is registered and bound waits only while it owes one, while a producer has not notified
yet, or while `notify` will still come to the queue or tell the next pass not to block
(`attended_step`).
-/

namespace Bfc.EpollReactor.Threads

open WakeUp (Queue QueueEntry hasData_of_sublist)

variable {τ ρ κ α : Type*} [DecidableEq τ] [DecidableEq ρ]

/-! ## The eventfd as a counted signal -/

/-- A caller's place, as the wake path sees it. -/
def Call.phase : Call ρ → CountedSignal.Phase
  | .write => .writing
  | .idle | .notifyPush _ => .away

/-- The reactor's place, as the wake path sees it: ready once only its pass is left between it and
the wake-up callbacks. -/
def Pc.server : Pc ρ κ → CountedSignal.Server
  | .dispatch true => .reading
  | .dispatch false => .ready
  | _ => .away

/-- The wake path. -/
def World.signal (s : World τ ρ κ α) : CountedSignal.State (Option τ) :=
  { counter := s.eventFd, callers := fun c => (s.calls c).phase, server := s.pc.server }

/-- What an action does to the eventfd. -/
def Label.effect : Label τ ρ κ α → CountedSignal.Effect
  | .write _ => .written
  | .read => .read
  | _ => .silent

omit [DecidableEq ρ] in
/-- A caller's move, as the wake path sees it. -/
theorem signal_goto (s : World τ ρ κ α) (c : Option τ) (call : Call ρ) :
    (s.goto c call).signal = s.signal.goto c call.phase := by
  simp only [World.signal, World.goto, CountedSignal.State.goto, CountedSignal.State.mk.injEq,
    true_and, and_true]
  funext c'
  by_cases hc : c' = c
  · subst hc
    simp only [Function.update_self]
  · simp only [Function.update_of_ne hc]

omit [DecidableEq ρ] in
/-- The wake path over a call's move from outside `wake_up`. -/
theorem signal_goto_away {room : Nat} (s : World τ ρ κ α) {c : Option τ} (call : Call ρ)
    (outside : (s.calls c).phase = .away) :
    (s.goto c call).signal = s.signal ∨
      CountedSignal.Step room s.signal .silent (s.goto c call).signal := by
  rw [signal_goto]
  cases hp : call.phase with
  | away =>
    refine .inl ?_
    simp only [CountedSignal.State.goto]
    rw [Function.update_eq_iff.mpr ⟨outside.symm, fun _ _ => rfl⟩]
  | writing => exact .inr (.request c outside)

/-- **The world simulates the signal**: an action is a step of the wake path or does not show in it;
taking the callbacks starts the reactor's round. -/
theorem signal_step {room : Nat} {s s' : World τ ρ κ α} {l : Label τ ρ κ α}
    (step : World.Step room s l s') :
    (s'.signal = s.signal ∧ l.effect = .silent ∨
        CountedSignal.Step room s.signal l.effect s'.signal) ∧ l ≠ .takeCallbacks ∨
      l = .takeCallbacks ∧ CountedSignal.Serve s.signal s'.signal := by
  have move : ∀ {t : World τ ρ κ α} {c : Option τ} {call : Call ρ} {e : CountedSignal.Effect},
      (t.calls c).phase = .away → e = .silent → (t.goto c call).signal = t.signal ∧ e = .silent ∨
        CountedSignal.Step room t.signal e (t.goto c call).signal := by
    rintro t c call e outside rfl
    exact (signal_goto_away t call outside).imp_left fun same => ⟨same, rfl⟩
  cases step with
  | takeCallbacks pc => exact .inr ⟨rfl, by rw [World.signal, pc]; rfl, rfl⟩
  | wakeUp cb may | stop may | addQueue q cb may =>
    exact .inl ⟨move (congrArg Call.phase may.1) rfl, by simp⟩
  | push q x may => exact .inl ⟨move (congrArg Call.phase may.1) rfl, by simp⟩
  | notifyPush call => exact .inl ⟨move (congrArg Call.phase call) rfl, by simp⟩
  | @write c call space =>
    rw [signal_goto]
    exact .inl ⟨.inr (.write c (congrArg Call.phase call) space), by simp⟩
  | @writeInterrupted c call full =>
    rw [signal_goto]
    exact .inl ⟨.inr (.giveUp c (congrArg Call.phase call) full), by simp⟩
  | @waitReturns wake pc pos =>
    refine .inl ⟨.inr ?_, by simp⟩
    have away : s.signal.server = .away := by rw [World.signal, pc]; rfl
    cases wake with
    | true => exact .wake away (pos rfl)
    | false => exact .arrive away
  | read pc => exact .inl ⟨.inr (.read (by rw [World.signal, pc]; rfl)), by simp⟩
  | remQueue | setReactor | pop | setCapacity =>
    exact .inl ⟨.inl ⟨rfl, rfl⟩, by simp⟩
  | enter pc | interrupted pc | endPass pc | recheck pc | notifyReturns pc | notifyNone pc _
  | notify pc | runCallback pc =>
    exact .inl ⟨.inl ⟨by simp only [World.signal, pc, Pc.server], rfl⟩, by simp⟩
  | test pc =>
    refine .inl ⟨.inl ⟨?_, rfl⟩, by simp⟩
    cases hr : s.running <;> simp [World.signal, pc, Pc.server]
  | @hasData e rest backlog pc =>
    refine .inl ⟨.inl ⟨?_, rfl⟩, by simp⟩
    cases hd : (s.queues e.key).hasData <;> simp [World.signal, pc, Pc.server]

/-- The writes and the reads of a run. -/
def writes (ls : List (Label τ ρ κ α)) : Nat := ls.countP (·.effect = .written)

def reads (ls : List (Label τ ρ κ α)) : Nat := ls.countP (·.effect = .read)

/-- The wake path over a whole run: the reactor's read finds something, and what was written has
been read or is in the eventfd. -/
theorem run_signal {room : Nat} {s s' : World τ ρ κ α} {ls : List (Label τ ρ κ α)}
    (run : World.Run room s ls s') (readable : CountedSignal.Readable s.signal) :
    CountedSignal.Readable s'.signal ∧ s'.eventFd + reads ls = s.eventFd + writes ls := by
  induction run with
  | nil => exact ⟨readable, rfl⟩
  | @snoc t u ls l before last ih =>
    obtain ⟨readable, balance⟩ := ih
    rcases signal_step (World.Step.of_step last) with ⟨⟨same, silent⟩ | moved, -⟩ | ⟨rfl, serve⟩
    · refine ⟨same ▸ readable, ?_⟩
      have counter : u.eventFd = t.eventFd := congrArg CountedSignal.State.counter same
      simpa [reads, writes, silent, counter] using balance
    · refine ⟨CountedSignal.readable_step readable moved, ?_⟩
      have step : u.eventFd + _ = t.eventFd + _ := CountedSignal.balance_step readable moved
      simp only [reads, writes, List.countP_append, List.countP_singleton,
        decide_eq_true_eq] at balance ⊢
      omega
    · refine ⟨CountedSignal.readable_serve serve, ?_⟩
      have counter : u.eventFd = t.eventFd := congrArg CountedSignal.State.counter serve.2
      simpa [reads, writes, Label.effect, counter] using balance

/-! ## Posted callbacks -/

/-- A posted callback waits only while the reactor owes a pass. -/
def World.Posted (s : World τ ρ κ α) : Prop :=
  s.wakeUpCb.waiting ≠ [] → CountedSignal.Owed s.signal

/-- The posted callbacks change by `wake_up`, and by the pass that takes them all. -/
theorem waiting_step {room : Nat} {s s' : World τ ρ κ α} {l : Label τ ρ κ α}
    (step : World.Step room s l s') :
    (∃ c, s'.calls c = .write) ∨ s'.wakeUpCb.waiting = [] ∨
      s'.wakeUpCb.waiting = s.wakeUpCb.waiting := by
  cases step with
  | @wakeUp c cb may => exact .inl ⟨c, by simp only [World.goto, Function.update_self]⟩
  | takeCallbacks pc => exact .inr (.inl rfl)
  | _ => exact .inr (.inr rfl)

theorem posted_step {room : Nat} {s s' : World τ ρ κ α} {l : Label τ ρ κ α} (pos : 0 < room)
    (posted : s.Posted) (step : World.Step room s l s') : s'.Posted := by
  intro waits
  rcases waiting_step step with ⟨c, hc⟩ | awake | same
  · exact .inr (.inl ⟨c, by simp [World.signal, hc, Call.phase]⟩)
  · exact absurd awake waits
  · rcases signal_step step with ⟨⟨quiet, -⟩ | moved, -⟩ | ⟨rfl, -⟩
    · exact quiet ▸ posted (same ▸ waits)
    · exact CountedSignal.step_owed moved pos
    · cases step with
      | takeCallbacks => exact absurd rfl waits

/-! ## Data in a queue -/

/-- The queues that are registered. -/
def World.keys (s : World τ ρ κ α) : List ρ := s.entries.map (·.key)

/-- The pass will come to the queue yet, or tells the next one not to block. -/
def World.scans (s : World τ ρ κ α) (q : ρ) : Prop :=
  match s.pc with
  | .dispatch _ | .callbacks => True
  | .check rest backlog => q ∈ rest.map (·.key) ∨ backlog = true
  | .handler e rest backlog => e.key = q ∨ q ∈ rest.map (·.key) ∨ backlog = true
  | .off | .test | .wait | .tail => s.backlog = true

/-- A queue has work for the reactor. -/
def World.Needs (s : World τ ρ κ α) (q : ρ) : Prop :=
  (s.queues q).hasData = true ∧ q ∈ s.keys

/-- The queue's data will be seen: the reactor owes a pass, a producer has not notified yet, or the
pass comes to the queue. -/
def World.Attended (s : World τ ρ κ α) (q : ρ) : Prop :=
  CountedSignal.Owed s.signal ∨ (∃ c, s.calls c = .notifyPush q) ∨ s.scans q

omit [DecidableEq τ] [DecidableEq ρ] in
/-- Attention lasts over an action that does not show in the wake path, takes no producer out of its
notification and leaves the pass on its way to the queue. -/
theorem World.Attended.congr {s s' : World τ ρ κ α} {q : ρ} (h : s.Attended q)
    (signal : s'.signal = s.signal)
    (producers : ∀ c, s.calls c = .notifyPush q → s'.calls c = .notifyPush q)
    (scans : s.scans q → s'.scans q) : s'.Attended q :=
  h.imp (fun owed => signal ▸ owed) (Or.imp (fun ⟨c, hc⟩ => ⟨c, producers c hc⟩) scans)

omit [DecidableEq ρ] in
/-- A caller's move takes no other producer out of its notification. -/
theorem goto_producers (s : World τ ρ κ α) {c : Option τ} {q : ρ} (call : Call ρ)
    (other : s.calls c ≠ .notifyPush q) (c' : Option τ) (h : s.calls c' = .notifyPush q) :
    (s.goto c call).calls c' = .notifyPush q := by
  have hne : c' ≠ c := fun hc => other (hc ▸ h)
  simpa only [World.goto, Function.update_of_ne hne] using h

omit [DecidableEq τ] in
/-- A change of some queue that brings no data brings none to any. -/
theorem onQueue_hasData (s : World τ ρ κ α) (q' q : ρ) {f : Queue α → Queue α}
    (brings : (f (s.queues q')).hasData = true → (s.queues q').hasData = true)
    (h : ((s.onQueue q' f).queues q).hasData = true) : (s.queues q).hasData = true := by
  by_cases hq : q = q'
  · subst hq
    exact brings (by simpa only [World.onQueue, Function.update_self] using h)
  · simpa only [World.onQueue, Function.update_of_ne hq] using h

/-- **Data in a bound queue stays attended**, whatever happens next. -/
theorem attended_step {room : Nat} {s s' : World τ ρ κ α} {l : Label τ ρ κ α} {q : ρ}
    (pos : 0 < room) (bound : (s.queues q).bound = true) (h : s.Needs q → s.Attended q)
    (step : World.Step room s l s') : s'.Needs q → s'.Attended q := by
  rintro ⟨data, registered⟩
  rcases signal_step step with ⟨⟨quiet, -⟩ | moved, stays⟩ | ⟨rfl, -⟩
  · cases step with
    | @wakeUp c cb may | @stop c may | @addQueue c q' cb may =>
      -- `add_queue` wakes the reactor for the data that is there already
      refine .inl ?_
      rw [signal_goto]
      exact CountedSignal.owed_goto _ c
    | @push c q' x may =>
      have others := goto_producers s (c := c) (q := q)
        (if (s.queues q').notifies then .notifyPush q' else .idle) (by rw [may.1]; simp)
      by_cases hq : q' = q
      · subst hq
        by_cases notifies : (s.queues q').notifies = true
        · refine .inr (.inl ⟨c, ?_⟩)
          simp only [World.goto, Function.update_self, if_pos notifies]
        · -- the element was discarded
          have zero : (s.queues q').capacity = some 0 := by
            simpa [Queue.notifies] using notifies
          refine World.Attended.congr (h ⟨?_, registered⟩) quiet others id
          refine onQueue_hasData s q' q' (f := (·.push x)) ?_ data
          simp only [Queue.push, zero, DropOldest.push_zero, Queue.hasData, imp_self]
      · refine World.Attended.congr (h ⟨?_, registered⟩) quiet others id
        have := data
        simpa only [World.goto, World.onQueue, Function.update_of_ne (Ne.symm hq)] using this
    | @notifyPush c q' call =>
      by_cases hq : q' = q
      · subst hq
        refine .inl ?_
        rw [signal_goto, if_pos bound]
        exact CountedSignal.owed_goto _ c
      · exact World.Attended.congr (h ⟨data, registered⟩) quiet
          (goto_producers s _ (by rw [call]; simpa using hq)) id
    | write call | writeInterrupted call =>
      exact World.Attended.congr (h ⟨data, registered⟩) quiet
        (goto_producers s _ (by rw [call]; simp)) id
    | remQueue q' =>
      have before : q ∈ s.keys := by
        obtain ⟨e, he, hkey⟩ := List.mem_map.mp registered
        exact List.mem_map.mpr ⟨e, (List.mem_filter.mp he).1, hkey⟩
      exact World.Attended.congr (h ⟨data, before⟩) quiet (fun _ => id) id
    | setReactor q' this =>
      exact World.Attended.congr (h ⟨onQueue_hasData s q' q id data, registered⟩) quiet
        (fun _ => id) id
    | pop q' n | setCapacity q' n =>
      exact World.Attended.congr (h ⟨onQueue_hasData s q' q
        (hasData_of_sublist (List.drop_sublist ..)) data, registered⟩) quiet (fun _ => id) id
    | waitReturns | read => exact .inr (.inr trivial)
    | runCallback pc => exact .inr (.inr (by simp only [World.scans, pc]))
    | enter pc | interrupted pc | endPass pc =>
      refine World.Attended.congr (h ⟨data, registered⟩) quiet (fun _ => id) fun scans => ?_
      simpa only [World.scans, pc] using scans
    | test pc =>
      refine World.Attended.congr (h ⟨data, registered⟩) quiet (fun _ => id) fun scans => ?_
      cases hr : s.running <;> simpa [World.scans, pc] using scans
    | takeCallbacks => exact absurd rfl stays
    | notifyNone pc unused =>
      rw [World.keys, unused] at registered
      cases registered
    | notify pc => exact .inr (.inr (.inl registered))
    | @hasData e rest backlog pc =>
      refine World.Attended.congr (h ⟨data, registered⟩) quiet (fun _ => id) fun scans => ?_
      simp only [World.scans, pc, List.map_cons, List.mem_cons] at scans ⊢
      cases here : (s.queues e.key).hasData with
      | true => exact or_assoc.mp (scans.imp_left (Or.imp_left Eq.symm))
      | false =>
        -- an empty queue is passed over, and this one is not empty
        refine scans.imp_left fun mem => mem.resolve_left ?_
        rintro rfl
        exact absurd (show (s.queues e.key).hasData = true from data) (by rw [here]; decide)
    | @recheck e rest backlog pc =>
      refine World.Attended.congr (h ⟨data, registered⟩) quiet (fun _ => id) fun scans => ?_
      simp only [World.scans, pc] at scans ⊢
      rcases scans with rfl | mem | on
      · exact .inr (by rw [show (s.queues e.key).hasData = true from data, Bool.or_true])
      · exact .inl mem
      · exact .inr (by rw [on, Bool.true_or])
    | notifyReturns pc =>
      refine World.Attended.congr (h ⟨data, registered⟩) quiet (fun _ => id) fun scans => ?_
      simpa only [World.scans, pc, List.map_nil, List.not_mem_nil, false_or] using scans
  · exact .inl (CountedSignal.step_owed moved pos)
  · refine .inr (.inr ?_)
    cases step with
    | takeCallbacks pc => trivial

/-! ## From the binding on -/

/-- The queue has been bound to the reactor since before its first push. -/
def BoundThroughout (ls : List (Label τ ρ κ α)) (q : ρ) : Prop :=
  ∃ pre post, ls = pre ++ .setReactor q true :: post ∧ (∀ c x, .push c q x ∉ pre) ∧
    .setReactor q false ∉ post

/-- What an action does to a queue, if it is one on a queue. -/
def Label.change : Label τ ρ κ α → Option (ρ × (Queue α → Queue α))
  | .push _ q x => some (q, (·.push x))
  | .setReactor q this => some (q, fun queue => { queue with bound := this })
  | .pop q n => some (q, fun queue => { queue with items := queue.items.drop n })
  | .setCapacity q c =>
    some (q, fun queue =>
      { queue with capacity := some c, items := DropOldest.keep c queue.items })
  | _ => none

/-- The queues change by the actions on them. -/
theorem queues_step {room : Nat} {s s' : World τ ρ κ α} {l : Label τ ρ κ α}
    (step : World.Step room s l s') :
    s'.queues = l.change.elim s.queues
      fun ch => Function.update s.queues ch.1 (ch.2 (s.queues ch.1)) := by
  cases step <;> rfl

/-- What holds of a queue and is kept by every action on it holds after every action. -/
theorem queue_step {room : Nat} {s s' : World τ ρ κ α} {l : Label τ ρ κ α} {q : ρ}
    {P : Queue α → Prop} (step : World.Step room s l s') (before : P (s.queues q))
    (keeps : ∀ f, l.change = some (q, f) → P (f (s.queues q))) : P (s'.queues q) := by
  rw [queues_step step]
  cases hc : l.change with
  | none => exact before
  | some ch =>
    obtain ⟨q', f⟩ := ch
    by_cases hq : q = q'
    · subst hq
      simpa only [Option.elim, Function.update_self] using keeps f hc
    · simpa only [Option.elim, Function.update_of_ne hq] using before

/-- A queue that was never pushed to is empty. -/
theorem empty_step {room : Nat} {s s' : World τ ρ κ α} {l : Label τ ρ κ α} {q : ρ}
    (step : World.Step room s l s') (quiet : ∀ c x, l ≠ .push c q x)
    (empty : (s.queues q).items = []) : (s'.queues q).items = [] := by
  refine queue_step (P := fun queue => queue.items = []) step empty fun f hf => ?_
  cases l with
  | push c q' x =>
    obtain ⟨rfl, -⟩ := Prod.mk.inj (Option.some.inj hf)
    exact absurd rfl (quiet c x)
  | setReactor q' this | pop q' n | setCapacity q' n =>
    obtain ⟨-, rfl⟩ := Prod.mk.inj (Option.some.inj hf)
    simp [empty, DropOldest.keep_nil]
  | _ => cases hf

omit [DecidableEq τ] [DecidableEq ρ] in
theorem push_bound (queue : Queue α) (x : α) : (queue.push x).bound = queue.bound := by
  unfold Queue.push
  split <;> rfl

/-- A queue stays bound until it is bound to something else. -/
theorem bound_step {room : Nat} {s s' : World τ ρ κ α} {l : Label τ ρ κ α} {q : ρ}
    (step : World.Step room s l s') (stays : l ≠ .setReactor q false)
    (bound : (s.queues q).bound = true) : (s'.queues q).bound = true := by
  refine queue_step (P := fun queue => queue.bound = true) step bound fun f hf => ?_
  cases l with
  | setReactor q' this =>
    obtain ⟨rfl, rfl⟩ := Prod.mk.inj (Option.some.inj hf)
    cases this with
    | true => rfl
    | false => exact absurd rfl stays
  | push c q' x =>
    obtain ⟨-, rfl⟩ := Prod.mk.inj (Option.some.inj hf)
    exact (push_bound _ x).trans bound
  | pop q' n | setCapacity q' n =>
    obtain ⟨-, rfl⟩ := Prod.mk.inj (Option.some.inj hf)
    exact bound
  | _ => cases hf

/-- A queue that has been bound throughout is attended whenever it needs to be. -/
theorem bound_attended {room : Nat} (pos : 0 < room) {lossy : ρ → Bool}
    {ls : List (Label τ ρ κ α)} {s : World τ ρ κ α} (run : World.Run room (World.init lossy) ls s)
    {q : ρ} (bound : BoundThroughout ls q) : s.Needs q → s.Attended q := by
  obtain ⟨pre, post, rfl, unpushed, stays⟩ := bound
  obtain ⟨t, before, rest⟩ := Lts.Run.split pre (.setReactor q true :: post) run
  obtain ⟨u, binding, after⟩ := Lts.Run.split [.setReactor q true] post rest
  have empty : (t.queues q).items = [] :=
    before.invariant_of_mem (P := fun t => (t.queues q).items = []) rfl fun hl empty step =>
      empty_step (World.Step.of_step step) (fun c x hp => unpushed c x (hp ▸ hl)) empty
  have start : (u.queues q).bound = true ∧ (u.Needs q → u.Attended q) := by
    obtain rfl := Option.some.inj binding.of_single
    refine ⟨by simp only [World.onQueue, Function.update_self], fun needs => ?_⟩
    have data := needs.1
    simp only [World.onQueue, Function.update_self, Queue.hasData, empty] at data
    cases data
  exact (after.invariant_of_mem (P := fun t => (t.queues q).bound = true ∧
    (t.Needs q → t.Attended q)) start fun hl h step =>
      ⟨bound_step (World.Step.of_step step) (fun hu => stays (hu ▸ hl)) h.1,
        attended_step pos h.1 h.2 (World.Step.of_step step)⟩).2

/-- **Every wake-up counts.** Any threads, any interleaving: what was written to the eventfd has
been read or is in it, and the reactor's read is never blocked. And when the reactor is about to
block, with the eventfd at zero and no call in progress, no callback is posted, and every queue that
is registered and has been bound since before its first push is empty. The eventfd counts to one at
least. -/
theorem every_wake_up_counts {room : Nat} (pos : 0 < room) {lossy : ρ → Bool}
    {ls : List (Label τ ρ κ α)} {s : World τ ρ κ α}
    (run : World.Run room (World.init lossy) ls s) :
    s.eventFd + reads ls = writes ls ∧ (s.pc = .dispatch true → 0 < s.eventFd) ∧
      (s.pc = .wait → s.backlog = false → s.eventFd = 0 → (∀ c, s.calls c = .idle) →
        s.wakeUpCb.waiting = [] ∧
          ∀ q, q ∈ s.keys → BoundThroughout ls q → (s.queues q).items = []) := by
  obtain ⟨readable, balance⟩ := run_signal run fun reading => by cases reading
  refine ⟨balance.trans (Nat.zero_add _), fun hpc => ?_, fun hpc hbacklog hfd hcalls => ?_⟩
  · exact readable (by rw [World.signal, hpc]; rfl)
  have settled : ¬CountedSignal.Owed s.signal := by
    rintro (owed | ⟨c, owed⟩ | owed)
    · exact absurd hfd (Nat.ne_of_gt owed)
    · exact owed (by simp only [World.signal, hcalls, Call.phase])
    · exact owed (by simp only [World.signal, hpc, Pc.server])
  have posted : s.Posted := run.invariant (P := World.Posted) (fun waits => absurd rfl waits)
    fun posted step => posted_step pos posted (World.Step.of_step step)
  refine ⟨by_contra fun waits => settled (posted waits), fun q registered bound => ?_⟩
  by_contra nonempty
  have data : (s.queues q).hasData = true := by
    rw [Queue.hasData, Bool.not_eq_true', List.isEmpty_eq_false_iff]
    exact nonempty
  rcases bound_attended pos run bound ⟨data, registered⟩ with owed | ⟨c, hc⟩ | scans
  · exact settled owed
  · rw [hcalls] at hc
    cases hc
  · simp only [World.scans, hpc, hbacklog] at scans
    cases scans

/-- Two pushes are two wake-ups, of which the reactor has read one when it serves both elements: the
other one costs it a pass with nothing to do. -/
def twoPushesRun : List (Label Bool Unit String Nat) :=
  [.setReactor () true, .addQueue (some false) () "queue", .write (some false), .enter, .test,
    .waitReturns true, .push (some true) () 1, .push (some false) () 2, .notifyPush (some true),
    .write (some true), .read, .takeCallbacks, .notify, .hasData, .pop () 2,
    .notifyPush (some false), .recheck, .write (some false), .notifyReturns, .endPass, .test,
    .waitReturns true, .read, .takeCallbacks, .notify, .hasData, .notifyReturns, .endPass, .test,
    .waitReturns true, .read, .takeCallbacks, .notify, .hasData, .notifyReturns, .endPass, .test]

/-- The state `twoPushesRun` reaches is one the result is about. -/
theorem every_wake_up_counts_two :
    ∃ s : World Bool Unit String Nat,
      World.Run 18446744073709551614 (World.init fun _ => false) twoPushesRun s ∧ s.pc = .wait ∧
        writes twoPushesRun = 3 ∧ s.eventFd + reads twoPushesRun = 3 ∧
        s.keys = [()] ∧ (s.queues ()).items = [] := by
  let reached : Option (World Bool Unit String Nat) :=
    twoPushesRun.foldlM (World.step 18446744073709551614) (World.init fun _ => false)
  have seen : reached.map (fun s => (s.pc, s.backlog, s.eventFd, s.keys)) =
      some (.wait, false, 0, [()]) := rfl
  have idle : reached.map (fun s => [none, some false, some true].map s.calls) =
      some [.idle, .idle, .idle] := rfl
  obtain ⟨s, hs⟩ : ∃ s, reached = some s := ⟨_, rfl⟩
  rw [hs] at seen idle
  simp only [Option.map_some, Option.some.injEq, Prod.mk.injEq] at seen
  simp only [Option.map_some, Option.some.injEq, List.map_cons, List.map_nil, List.cons.injEq]
    at idle
  obtain ⟨hpc, backlog, eventFd, keys⟩ := seen
  have run := Lts.run_of_foldlM hs
  obtain ⟨balance, -, quiet⟩ := every_wake_up_counts (by decide) run
  have calls : ∀ c, s.calls c = .idle := by
    rintro (_ | _ | _)
    · exact idle.1
    · exact idle.2.1
    · exact idle.2.2.1
  refine ⟨s, run, hpc, rfl, balance, keys, ?_⟩
  refine (quiet hpc backlog eventFd calls).2 () (by rw [keys]; exact List.mem_singleton_self ()) ?_
  exact ⟨[], _, rfl, by simp, by simp⟩

end Bfc.EpollReactor.Threads
