import Bfc.Lib.SharedSections

/-!
# Queues and the reactors they are bound to

`set_reactor` and `notify_push` of `reactive_event_queue_base`, as functions over shared objects:
the objects are the reactors, the slot of a queue is its `m_wake_callback`, an owner of the reactor
it wakes, and `m_reactor_mtx` is its mutex. The previous binding goes with the local variable of
`replace_wake_callback`, and the copy in `notify_push` with the end of the call. Then a reactor may
have its last owner gone, and its destructor is run by whoever called.

`wake_up` and destructors are any code, with any calls of their own.
-/

namespace Bfc.EventQueue.Bindings

open SharedObjects

/-- A call on a queue: of `set_reactor`, with the reactor as its variable or with none, and of
`notify_push`. -/
inductive Call (ι : Type*) where
  | setReactor (q : ι)
  | notifyPush (q : ι)

variable {ι ω : Type*}

/-- `replace_wake_callback`: the binding is exchanged, and the previous one released outside the
mutex. `notify_push`: the binding is copied, and invoked outside the mutex. -/
def code : Program (Call ι) ι ι ω
  | .setReactor q, _ => some [.lock q, .exchange q, .unlock]
  | .notifyPush q, none => some [.lock q, .load q, .unlock, .call]
  | .notifyPush _, some _ => none

/-- Queues, reactors and threads. -/
abbrev World (ι ω : Type*) := SharedObjects.World ι ι ω

variable [DecidableEq ι] [DecidableEq ω]

/-- A run of the system. -/
abbrev Run := SharedObjects.World.Run (code (ι := ι) (ω := ω))

omit [DecidableEq ω] in
theorem code_orderly : SharedObjects.World.Orderly id (code (ι := ι) (ω := ω)) := by
  intro call arg body h
  cases call with
  | setReactor q =>
    obtain rfl := Option.some.inj h
    simp [SharedObjects.World.safe]
  | notifyPush q =>
    cases arg with
    | some r => cases h
    | none =>
      obtain rfl := Option.some.inj h
      simp [SharedObjects.World.safe]

omit [DecidableEq ι] [DecidableEq ω] in
theorem code_quiet : SharedObjects.World.Quiet (code (ι := ι) (ω := ω)) := by
  intro call arg body h
  cases call with
  | setReactor q =>
    obtain rfl := Option.some.inj h
    simp
  | notifyPush q =>
    cases arg with
    | some r => cases h
    | none =>
      obtain rfl := Option.some.inj h
      simp

/-- **Bindings keep their reactors, and only them.** Any threads, any interleaving of `set_reactor`
and pushes, whatever `wake_up` and the destructors of reactors do: a reactor is there exactly while
the program, a queue or a call in progress owns it, so a push in progress wakes one that is there,
and it is destroyed once. Code of a reactor never runs with a queue's mutex held, and every call
goes on, at once or after steps of one other thread alone. -/
theorem bound_reactors_live {n : Nat} {ls : List (SharedObjects.Label (Call ι) ι ω)} {s : World ι ω}
    (run : Run (SharedObjects.World.init n) ls s) :
    s.destroyed.Nodup ∧ (∀ r, r ∈ s.owners ↔ r ∈ s.made ∧ r ∉ s.destroyed) ∧
      (∀ t stack, s.threads[t]? = some stack →
        (∀ guard rest r, .code guard rest (some r) ∈ stack → r ∈ s.made ∧ r ∉ s.destroyed) ∧
        (free stack = true → ∀ q, s.owner q ≠ some t)) ∧
      ∀ t guard rest reg below, s.threads[t]? = some (.code guard rest reg :: below) →
        ∃ t', t' ≠ t ∧ ∃ (more : List (SharedObjects.Label (Call ι) ι ω)) (s' : World ι ω),
          Run s more s' ∧ (∀ l ∈ more, l = .next t' ∨ l = .ret t') ∧
            (s'.step code (.next t)).isSome = true := by
  have accounted := SharedObjects.World.accounted_run run
  have guarded := SharedObjects.World.guarded_run code_orderly run
  have calm := SharedObjects.World.calm_run code_orderly code_quiet run
  refine ⟨accounted.once, accounted.live, fun t stack top => ⟨?_, ?_⟩, ?_⟩
  · exact fun guard rest r mem => accounted.owned top mem rfl
  · intro may q mine
    have held := (guarded.mine top q).mp mine
    rw [calm.free_holds_none top may] at held
    cases held
  · exact fun t guard rest reg below top =>
      SharedObjects.World.goes_on code_orderly guarded calm.apart top

/-- The binding is cleared while a push wakes its reactor, which the program has let go of. -/
def clearedRun : List (SharedObjects.Label (Call Unit) Unit Nat) :=
  [.make 0 7, .enter 0 (.setReactor ()) (some 7), .next 0, .next 0, .next 0, .next 0,
    .enter 1 (.notifyPush ()) none, .next 1, .next 1, .next 1, .next 1,
    .enter 0 (.setReactor ()) none, .next 0, .next 0, .next 0, .next 0]

/-- Only the push in progress keeps the reactor, and it does. -/
theorem bound_reactors_live_cleared :
    ∃ s : World Unit Nat, Run (SharedObjects.World.init 2) clearedRun s ∧ s.handles = [] ∧
      s.slots.lookup () = none ∧ s.threads = [[], [.callee, .code none [] (some 7)]] ∧
      7 ∈ s.made ∧ 7 ∉ s.destroyed ∧ s.owner () ≠ some 1 := by
  let reached : Option (World Unit Nat) :=
    clearedRun.foldlM (SharedObjects.World.step code) (SharedObjects.World.init 2)
  have seen : reached.map (fun s => (s.handles, s.slots.lookup (), s.threads)) =
      some ([], none, [[], [.callee, .code none [] (some 7)]]) := by decide +kernel
  obtain ⟨s, hs⟩ : ∃ s, reached = some s := ⟨_, rfl⟩
  rw [hs] at seen
  simp only [Option.map_some, Option.some.injEq, Prod.mk.injEq] at seen
  obtain ⟨handles, slot, threads⟩ := seen
  have run := Lts.run_of_foldlM hs
  have waking := (bound_reactors_live run).2.2.1 1 _ (by rw [threads]; rfl)
  have there := waking.1 none [] 7 (by simp)
  exact ⟨s, run, handles, slot, threads, there.1, there.2, waking.2 rfl ()⟩

end Bfc.EventQueue.Bindings
