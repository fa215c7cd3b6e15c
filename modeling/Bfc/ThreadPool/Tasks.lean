import Bfc.ThreadPool.Ownership

/-!
# Every accepted task is run once

A task goes from its call of `execute` to an entry, where it waits, runs and has run, and is over
with the entry's `reset`. `Tracked` ties where each ticket is to the state and to the record of what
was started and finished, and `Tracked.step` follows the tickets through every action. With the
places of the indices (`Placed`) it says that no store overwrites a functor, and so that the tasks
are run exactly once.
-/

namespace Bfc.ThreadPool

open World

variable {τ κ : Type*} {n : Nat}

/-- The ticket and the functor of a call that has not stored it yet. -/
def Call.pending : Call κ n → Option (Nat × Option κ)
  | .entering ticket functor | .testing ticket functor | .waiting ticket functor
  | .took ticket functor _ | .storing ticket functor _ => some (ticket, functor)
  | .idle | .stored _ _ => none

/-- What a functor in an entry is to its worker: to be run, running, or run and not reset yet. -/
inductive Phase where
  | waits
  | runs
  | hasRun

/-- The phase of the functor in the entry of a worker that is there. -/
def Worker.phase : Worker → Phase
  | .running => .runs
  | .ran => .hasRun
  | _ => .waits

/-- Where a ticket is: not given out, with a call, with a functor in an entry, over, or dropped with
an empty functor. -/
inductive TaskPlace (τ : Type*) (n : Nat) where
  | coming
  | pending (c : Caller τ n)
  | entry (i : Fin n) (phase : Phase)
  | ended
  | dropped

/-- How often the task of a ticket was started. -/
def TaskPlace.started : TaskPlace τ n → Nat
  | .entry _ .runs | .entry _ .hasRun | .ended => 1
  | _ => 0

/-- How often the task of a ticket was finished. -/
def TaskPlace.finished : TaskPlace τ n → Nat
  | .entry _ .hasRun | .ended => 1
  | _ => 0

/-- The ticket's functor has been stored. -/
def TaskPlace.accepted : TaskPlace τ n → Prop
  | .coming | .pending _ => False
  | _ => True

/-- An entry's functor is the one of the ticket. -/
def World.Has (w : World τ κ n) (i : Fin n) (k : Nat) : Prop :=
  ∃ f, w.functor i = some ⟨k, f⟩

/-- The places of all tickets, in a state. -/
structure Tracked (w : World τ κ n) (taskAt : Nat → TaskPlace τ n) : Prop where
  coming : ∀ k, w.given.length ≤ k ↔ taskAt k = .coming
  pending : ∀ c k, (∃ f, (w.calls c).pending = some (k, f)) ↔ taskAt k = .pending c
  entry : ∀ i phase k, w.Has i k ∧ (w.worker i).phase = phase ↔ taskAt k = .entry i phase
  dropped : ∀ k, taskAt k = .dropped → w.given[k]? = some none
  given : ∀ c k f, (w.calls c).pending = some (k, f) → w.given[k]? = some f
  task : ∀ i k f, w.functor i = some ⟨k, f⟩ → w.given[k]? = some (some f)
  started : ∀ k, w.started.count k = (taskAt k).started
  finished : ∀ k, w.finished.count k = (taskAt k).finished
  stored : ∀ c k i, w.calls c = .stored k i → (taskAt k).accepted
  returned : ∀ k ∈ w.returned, (taskAt k).accepted

/-! ## Actions that move no task -/

variable {w w' : World τ κ n} {taskAt : Nat → TaskPlace τ n}

/-- The places stay when what they are read off from does. -/
theorem Tracked.of_same (h : Tracked w taskAt) (given : w'.given = w.given)
    (pending : ∀ c, (w'.calls c).pending = (w.calls c).pending) (functor : w'.functor = w.functor)
    (phase : ∀ i, (w'.worker i).phase = (w.worker i).phase)
    (record : w'.started = w.started ∧ w'.finished = w.finished)
    (stored : ∀ c k i, w'.calls c = .stored k i → w.calls c = .stored k i)
    (returned : ∀ k ∈ w'.returned, k ∈ w.returned ∨ ∃ c i, w.calls c = .stored k i) :
    Tracked w' taskAt where
  coming k := by rw [given]; exact h.coming k
  pending c k := by rw [pending]; exact h.pending c k
  entry i p k := by
    have has : w'.Has i k ↔ w.Has i k := by unfold World.Has; rw [functor]
    rw [has, phase]
    exact h.entry i p k
  dropped k there := by rw [given]; exact h.dropped k there
  given c k f there := by
    rw [pending] at there
    rw [given]
    exact h.given c k f there
  task i k f there := by
    rw [functor] at there
    rw [given]
    exact h.task i k f there
  started k := by rw [record.1]; exact h.started k
  finished k := by rw [record.2]; exact h.finished k
  stored c k i there := h.stored c k i (stored c k i there)
  returned k mem := by
    rcases returned k mem with before | ⟨c, i, call⟩
    · exact h.returned k before
    · exact h.stored c k i call

/-- A worker that goes on in the same phase. -/
theorem Tracked.move (h : Tracked w taskAt) {i : Fin n} {target : Worker}
    (same : w'.given = w.given ∧ w'.calls = w.calls ∧ w'.functor = w.functor ∧
      w'.started = w.started ∧ w'.finished = w.finished ∧ w'.returned = w.returned)
    (worker : w'.worker = (w.move i target).worker) (phase : target.phase = (w.worker i).phase) :
    Tracked w' taskAt := by
  obtain ⟨given, calls, functor, started, finished, returned⟩ := same
  refine h.of_same given (fun c => by rw [calls]) functor (fun j => ?_) ⟨started, finished⟩
    (fun c k i there => calls ▸ there) fun k mem => .inl (returned ▸ mem)
  rw [worker]
  rcases w.move_worker i target j with ⟨rfl, there⟩ | ⟨-, there⟩
  · rw [there, phase]
  · rw [there]

/-- A notification moves no task. -/
theorem World.notify_phase (w : World τ κ n) (i j : Fin n) :
    ((w.notify i).worker j).phase = (w.worker j).phase := by
  rcases w.notify_worker i j with ⟨rfl, blocked, there⟩ | ⟨-, there⟩
  · rw [there, blocked]
    rfl
  · rw [there]

variable [DecidableEq τ]

/-- A call that goes on before its store. -/
theorem Tracked.goto (h : Tracked w taskAt) {c : Caller τ n} (call : Call κ n) {k : Nat}
    {f : Option κ} (before : (w.calls c).pending = some (k, f)) (after : call.pending = some (k, f))
    (same : w'.given = w.given ∧ w'.functor = w.functor ∧ w'.worker = w.worker ∧
      w'.started = w.started ∧ w'.finished = w.finished ∧ w'.returned = w.returned)
    (calls : w'.calls = (w.goto c call).calls) : Tracked w' taskAt := by
  obtain ⟨given, functor, worker, started, finished, returned⟩ := same
  refine h.of_same given (fun c' => ?_) functor (fun j => by rw [worker]) ⟨started, finished⟩
    (fun c' k' i there => ?_) fun k mem => .inl (returned ▸ mem)
  · rw [calls]
    rcases w.goto_calls c call c' with ⟨rfl, there⟩ | ⟨-, there⟩
    · rw [there, before, after]
    · rw [there]
  · rw [calls] at there
    rcases w.goto_calls c call c' with ⟨rfl, now⟩ | ⟨-, now⟩
    · rw [now] at there
      rw [there] at after
      cases after
    · exact now ▸ there

/-! ## Actions that move a task -/

omit [DecidableEq τ] in
/-- A record that gets a ticket more counts one more of it. -/
theorem count_update {record : List Nat} {count : TaskPlace τ n → Nat} {k : Nat}
    {next : TaskPlace τ n} (before : ∀ j, record.count j = count (taskAt j))
    (old : count (taskAt k) = 0) (new : count next = 1) (j : Nat) :
    (record ++ [k]).count j = count (Function.update taskAt k next j) := by
  rw [List.count_append, before j]
  by_cases same : j = k
  · subst same
    rw [Function.update_self, old, new, List.count_singleton_self]
  · rw [Function.update_of_ne same, List.count_singleton, if_neg (by simpa using Ne.symm same)]
    rfl

omit [DecidableEq τ] in
/-- A record that stays counts the same. -/
theorem count_same {record : List Nat} {count : TaskPlace τ n → Nat} {k : Nat}
    {next : TaskPlace τ n} (before : ∀ j, record.count j = count (taskAt j))
    (same : count next = count (taskAt k)) (j : Nat) :
    record.count j = count (Function.update taskAt k next j) := by
  rw [before j]
  by_cases own : j = k
  · subst own
    rw [Function.update_self, same]
  · rw [Function.update_of_ne own]

omit [DecidableEq τ] in
/-- Accepted tickets stay accepted where one ticket moves, if it is not given back. -/
theorem accepted_update {k : Nat} {next : TaskPlace τ n}
    (kept : (taskAt k).accepted → next.accepted) (j : Nat) (there : (taskAt j).accepted) :
    (Function.update taskAt k next j).accepted := by
  by_cases own : j = k
  · subst own
    rw [Function.update_self]
    exact kept there
  · rw [Function.update_of_ne own]
    exact there

/-- A new call has a new ticket. -/
theorem Tracked.execute (h : Tracked w taskAt) {c : Caller τ n} (idle : w.calls c = .idle)
    (functor : Option κ) :
    Tracked ({ w with given := w.given ++ [functor] }.goto c (.entering w.given.length functor))
      (Function.update taskAt w.given.length (.pending c)) := by
  have coming : taskAt w.given.length = .coming := (h.coming _).mp (Nat.le_refl _)
  have elsewhere : ∀ q, q ≠ TaskPlace.coming → q ≠ .pending c → ∀ k,
      Function.update taskAt w.given.length (.pending c) k = q ↔ taskAt k = q :=
    fun q before after k => update_place (by rw [coming]; exact Ne.symm before) (Ne.symm after)
  have accepted : ∀ k, (taskAt k).accepted →
      (Function.update taskAt w.given.length (.pending c) k).accepted :=
    accepted_update fun there => by rw [coming] at there; exact there
  have old : ∀ {k : Nat} {f : Option κ}, w.given[k]? = some f →
      (w.given ++ [functor])[k]? = some f := by
    intro k f there
    obtain ⟨lt, -⟩ := List.getElem?_eq_some_iff.mp there
    rw [List.getElem?_append_left lt]
    exact there
  have calls := goto_calls { w with given := w.given ++ [functor] } c
    (.entering w.given.length functor)
  refine ⟨fun k => ?_, fun c' k => ?_, fun i p k => ?_, fun k there => ?_, fun c' k f there => ?_,
    fun i k f there => ?_, fun k => ?_, fun k => ?_, fun c' k i there => ?_, fun k mem => ?_⟩
  · show (w.given ++ [functor]).length ≤ k ↔ _
    rw [List.length_append, List.length_singleton]
    by_cases same : k = w.given.length
    · subst same
      rw [Function.update_self]
      exact iff_of_false (Nat.not_succ_le_self _) (fun hc => by cases hc)
    · rw [Function.update_of_ne same, ← h.coming k]
      omega
  · rcases calls c' with ⟨rfl, now⟩ | ⟨other, now⟩
    · rw [now]
      by_cases same : k = w.given.length
      · subst same
        rw [Function.update_self]
        exact iff_of_true ⟨functor, rfl⟩ rfl
      · rw [Function.update_of_ne same, ← h.pending c' k, idle]
        refine iff_of_false ?_ ?_
        · rintro ⟨f, hc⟩
          exact same (Prod.mk.inj (Option.some.inj hc)).1.symm
        · rintro ⟨f, hc⟩
          cases hc
    · rw [now, elsewhere (.pending c') (fun hc => by cases hc)
        (fun hc => other (TaskPlace.pending.inj hc))]
      exact h.pending c' k
  · rw [elsewhere (.entry i p) (fun hc => by cases hc) (fun hc => by cases hc)]
    exact h.entry i p k
  · rw [elsewhere .dropped (fun hc => by cases hc) (fun hc => by cases hc)] at there
    exact old (h.dropped k there)
  · rcases calls c' with ⟨rfl, now⟩ | ⟨-, now⟩
    · rw [now] at there
      obtain ⟨rfl, rfl⟩ := Prod.mk.inj (Option.some.inj there)
      exact List.getElem?_concat_length
    · rw [now] at there
      exact old (h.given c' k f there)
  · exact old (h.task i k f there)
  · exact count_same h.started (by rw [coming]; rfl) k
  · exact count_same h.finished (by rw [coming]; rfl) k
  · rcases calls c' with ⟨rfl, now⟩ | ⟨-, now⟩
    · rw [now] at there
      cases there
    · rw [now] at there
      exact accepted k (h.stored c' k i there)
  · exact accepted k (h.returned k mem)

/-- A store hands the ticket's functor to the entry it finds empty; an empty functor is dropped. -/
theorem Tracked.store (h : Tracked w taskAt) {c : Caller τ n} {k : Nat} {functor : Option κ}
    {i : Fin n} (call : w.calls c = .storing k functor i) (empty : w.functor i = none)
    (waits : (w.worker i).phase = .waits) :
    Tracked ((w.setFunctor i (functor.map (⟨k, ·⟩))).goto c (.stored k i))
      (Function.update taskAt k (if functor.isSome then .entry i .waits else .dropped)) := by
  have pending : taskAt k = .pending c := (h.pending c k).mp ⟨functor, by rw [call]; rfl⟩
  have given : w.given[k]? = some functor := h.given c k functor (by rw [call]; rfl)
  have calls := goto_calls (w.setFunctor i (functor.map (⟨k, ·⟩))) c (.stored k i)
  have entries := w.setFunctor_functor i (functor.map (⟨k, ·⟩))
  obtain ⟨next, hnext⟩ : ∃ next : TaskPlace τ n,
      (if functor.isSome then .entry i .waits else .dropped) = next := ⟨_, rfl⟩
  have new : next = .entry i .waits ∧ functor.isSome = true ∨ next = .dropped ∧ functor = none := by
    rw [← hnext]
    cases functor with
    | none => exact .inr ⟨rfl, rfl⟩
    | some f => exact .inl ⟨rfl, rfl⟩
  have accepted' : next.accepted := by
    rcases new with ⟨rfl, -⟩ | ⟨rfl, -⟩ <;> exact trivial
  have accepted : ∀ j, (taskAt j).accepted → (Function.update taskAt k next j).accepted :=
    accepted_update fun _ => accepted'
  rw [hnext]
  refine ⟨fun j => ?_, fun c' j => ?_, fun i' p j => ?_, fun j there => ?_, fun c' j f there => ?_,
    fun i' j f there => ?_, fun j => ?_, fun j => ?_, fun c' j i' there => ?_, fun j mem => ?_⟩
  · rw [update_place]
    · exact h.coming j
    · rw [pending]
      exact fun hc => by cases hc
    · rcases new with ⟨rfl, -⟩ | ⟨rfl, -⟩ <;> exact fun hc => by cases hc
  · rcases calls c' with ⟨rfl, now⟩ | ⟨other, now⟩
    · rw [now]
      by_cases same : j = k
      · subst same
        rw [Function.update_self]
        refine iff_of_false (fun hc => by obtain ⟨f, hc⟩ := hc; cases hc) ?_
        rcases new with ⟨rfl, -⟩ | ⟨rfl, -⟩ <;> exact fun hc => by cases hc
      · rw [Function.update_of_ne same, ← h.pending c' j, call]
        refine iff_of_false (fun hc => by obtain ⟨f, hc⟩ := hc; cases hc) ?_
        rintro ⟨f, hc⟩
        exact same (Prod.mk.inj (Option.some.inj hc)).1.symm
    · rw [now, update_place]
      · exact h.pending c' j
      · rw [pending]
        exact fun hc => other (TaskPlace.pending.inj hc).symm
      · rcases new with ⟨rfl, -⟩ | ⟨rfl, -⟩ <;> exact fun hc => by cases hc
  · rcases entries i' with ⟨rfl, now⟩ | ⟨other, now⟩
    · -- the entry stored in held nothing before
      have nothing : ∀ p, taskAt j ≠ .entry i' p := by
        intro p there
        obtain ⟨⟨f, holds⟩, -⟩ := (h.entry i' p j).mpr there
        rw [empty] at holds
        cases holds
      by_cases same : j = k
      · subst same
        rw [Function.update_self]
        rcases new with ⟨rfl, isTask⟩ | ⟨rfl, rfl⟩
        · obtain ⟨f, rfl⟩ := Option.isSome_iff_exists.mp isTask
          constructor
          · rintro ⟨-, phase⟩
            rw [← phase]
            exact congrArg (TaskPlace.entry i') waits.symm
          · intro same
            exact ⟨⟨f, now⟩, waits.trans (TaskPlace.entry.inj same).2⟩
        · refine iff_of_false ?_ (fun hc => by cases hc)
          rintro ⟨⟨f, holds⟩, -⟩
          rw [show ((w.setFunctor i' _).goto c _).functor i' = _ from now] at holds
          cases holds
      · rw [Function.update_of_ne same]
        refine iff_of_false ?_ (nothing p)
        rintro ⟨⟨f, holds⟩, -⟩
        rw [show ((w.setFunctor i' _).goto c _).functor i' = _ from now] at holds
        obtain ⟨f', -, same'⟩ := Option.map_eq_some_iff.mp holds
        exact same (Task.mk.inj same').1.symm
    · have has : ((w.setFunctor i (functor.map (⟨k, ·⟩))).goto c (.stored k i)).Has i' j ↔
          w.Has i' j := by
        unfold World.Has
        rw [show ((w.setFunctor i _).goto c _).functor i' = _ from now]
      rw [has, update_place]
      · exact h.entry i' p j
      · rw [pending]
        exact fun hc => by cases hc
      · rcases new with ⟨rfl, -⟩ | ⟨rfl, -⟩
        · exact fun hc => other (TaskPlace.entry.inj hc).1.symm
        · exact fun hc => by cases hc
  · by_cases same : j = k
    · subst same
      rw [Function.update_self] at there
      rcases new with ⟨rfl, -⟩ | ⟨-, rfl⟩
      · cases there
      · exact given
    · rw [Function.update_of_ne same] at there
      exact h.dropped j there
  · rcases calls c' with ⟨rfl, now⟩ | ⟨-, now⟩
    · rw [now] at there
      cases there
    · rw [now] at there
      exact h.given c' j f there
  · rcases entries i' with ⟨rfl, now⟩ | ⟨-, now⟩
    · rw [show ((w.setFunctor i' _).goto c _).functor i' = _ from now] at there
      obtain ⟨f', rfl, same⟩ := Option.map_eq_some_iff.mp there
      obtain ⟨rfl, rfl⟩ := Task.mk.inj same
      exact given
    · rw [show ((w.setFunctor i _).goto c _).functor i' = _ from now] at there
      exact h.task i' j f there
  · apply count_same h.started
    rw [pending]
    rcases new with ⟨rfl, -⟩ | ⟨rfl, -⟩ <;> rfl
  · apply count_same h.finished
    rw [pending]
    rcases new with ⟨rfl, -⟩ | ⟨rfl, -⟩ <;> rfl
  · rcases calls c' with ⟨rfl, now⟩ | ⟨-, now⟩
    · rw [now] at there
      obtain ⟨rfl, -⟩ := Call.stored.inj there
      rw [Function.update_self]
      exact accepted'
    · rw [now] at there
      exact accepted j (h.stored c' j i' there)
  · exact accepted j (h.returned j mem)

omit [DecidableEq τ] in
/-- A worker goes on with its task: the ticket's place changes with the entry's phase, or is over
when the entry is reset. -/
theorem Tracked.advance (h : Tracked w taskAt) {i : Fin n} {k : Nat} {f : κ} {p : Phase}
    (next : TaskPlace τ n) (functor : w.functor i = some ⟨k, f⟩)
    (phase : (w.worker i).phase = p)
    (same : w'.given = w.given ∧ w'.calls = w.calls ∧ w'.returned = w.returned)
    (others : ∀ j, j ≠ i →
      w'.functor j = w.functor j ∧ (w'.worker j).phase = (w.worker j).phase)
    (own : w'.functor i = w.functor i ∧ next = .entry i (w'.worker i).phase ∨
      w'.functor i = none ∧ next = .ended)
    (started : ∀ j, w'.started.count j = (Function.update taskAt k next j).started)
    (finished : ∀ j, w'.finished.count j = (Function.update taskAt k next j).finished) :
    Tracked w' (Function.update taskAt k next) := by
  obtain ⟨given, calls, returned⟩ := same
  have before : taskAt k = .entry i p := (h.entry i p k).mp ⟨⟨f, functor⟩, phase⟩
  have elsewhere : ∀ q, q ≠ TaskPlace.entry i p → next ≠ q → ∀ j,
      Function.update taskAt k next j = q ↔ taskAt j = q :=
    fun q out into j => update_place (by rw [before]; exact Ne.symm out) into
  have accepted : ∀ j, (taskAt j).accepted → (Function.update taskAt k next j).accepted :=
    accepted_update fun _ => by rcases own with ⟨-, rfl⟩ | ⟨-, rfl⟩ <;> exact trivial
  have functors : ∀ j task, w'.functor j = some task → w.functor j = some task := by
    intro j task holds
    by_cases same : j = i
    · subst same
      rcases own with ⟨now, -⟩ | ⟨now, -⟩
      · exact now ▸ holds
      · rw [now] at holds
        cases holds
    · exact (others j same).1 ▸ holds
  refine ⟨fun j => ?_, fun c j => ?_, fun i' q j => ?_, fun j there => ?_, fun c j f there => ?_,
    fun i' j f there => ?_, started, finished, fun c j i' there => ?_, fun j mem => ?_⟩
  · rw [given, elsewhere .coming (fun hc => by cases hc)]
    · exact h.coming j
    · rcases own with ⟨-, rfl⟩ | ⟨-, rfl⟩ <;> exact fun hc => by cases hc
  · rw [calls, elsewhere (.pending c) (fun hc => by cases hc)]
    · exact h.pending c j
    · rcases own with ⟨-, rfl⟩ | ⟨-, rfl⟩ <;> exact fun hc => by cases hc
  · by_cases other : i' = i
    · subst other
      -- no other ticket is in the worker's entry
      have only : w'.Has i' j → j = k := by
        rintro ⟨f', holds⟩
        have old := functors i' _ holds
        rw [functor] at old
        exact (Task.mk.inj (Option.some.inj old)).1.symm
      by_cases same : j = k
      · subst same
        rw [Function.update_self]
        rcases own with ⟨now, rfl⟩ | ⟨now, rfl⟩
        · refine ⟨fun there => congrArg _ there.2, fun there => ⟨⟨f, now.trans functor⟩, ?_⟩⟩
          exact (TaskPlace.entry.inj there).2
        · refine iff_of_false ?_ (fun hc => by cases hc)
          rintro ⟨⟨f', holds⟩, -⟩
          rw [now] at holds
          cases holds
      · rw [Function.update_of_ne same]
        refine iff_of_false (fun there => same (only there.1)) ?_
        intro there
        obtain ⟨⟨f', holds⟩, -⟩ := (h.entry i' q j).mpr there
        rw [functor] at holds
        exact same (Task.mk.inj (Option.some.inj holds)).1.symm
    · have has : w'.Has i' j ↔ w.Has i' j := by
        unfold World.Has
        rw [(others i' other).1]
      rw [has, (others i' other).2, elsewhere (.entry i' q)]
      · exact h.entry i' q j
      · exact fun hc => other (TaskPlace.entry.inj hc).1
      · rcases own with ⟨-, rfl⟩ | ⟨-, rfl⟩
        · exact fun hc => other (TaskPlace.entry.inj hc).1.symm
        · exact fun hc => by cases hc
  · rw [elsewhere .dropped (fun hc => by cases hc)] at there
    · rw [given]
      exact h.dropped j there
    · rcases own with ⟨-, rfl⟩ | ⟨-, rfl⟩ <;> exact fun hc => by cases hc
  · rw [calls] at there
    rw [given]
    exact h.given c j f there
  · rw [given]
    exact h.task i' j f (functors i' _ there)
  · rw [calls] at there
    exact accepted j (h.stored c j i' there)
  · rw [returned] at mem
    exact accepted j (h.returned j mem)

/-! ## Every action -/

omit [DecidableEq τ] in
/-- Whoever holds an index holds one of an empty entry. -/
theorem Placed.held_empty {place : Fin n → Place τ n} (placed : Placed w place) {c : Caller τ n}
    {i : Fin n} (holds : (w.calls c).holds = some i) :
    w.functor i = none ∧ (w.worker i).phase = .waits := by
  have held : place i = .held c := (placed.held c i).mp holds
  have notAssigned : place i ≠ .assigned := by rw [held]; exact fun hc => by cases hc
  constructor
  · apply Option.not_isSome_iff_eq_none.mp
    exact fun assigned => notAssigned ((placed.assigned i).mp assigned)
  · have idle : (w.worker i).busy ≠ true := fun busy => notAssigned (placed.busy i busy)
    cases worker : w.worker i with
    | running | ran =>
      rw [worker] at idle
      exact absurd rfl idle
    | _ => rfl

/-- **Every action keeps track of the tickets.** -/
theorem Tracked.step {place : Fin n → Place τ n} (h : Tracked w taskAt) (placed : Placed w place)
    {l : Label τ κ n} (step : Step w l w') : ∃ at', Tracked w' at' := by
  cases step with
  | @execute c functor idle may => exact ⟨_, h.execute idle functor⟩
  | @lockFree c ticket functor call unlocked =>
    exact ⟨taskAt, h.goto (.testing ticket functor) (by rw [call]; rfl) rfl
      ⟨rfl, rfl, rfl, rfl, rfl, rfl⟩ rfl⟩
  | @take c ticket functor i call last =>
    exact ⟨taskAt, h.goto (.took ticket functor i) (by rw [call]; rfl) rfl
      ⟨rfl, rfl, rfl, rfl, rfl, rfl⟩ rfl⟩
  | @wait c ticket functor call last =>
    exact ⟨taskAt, h.goto (.waiting ticket functor) (by rw [call]; rfl) rfl
      ⟨rfl, rfl, rfl, rfl, rfl, rfl⟩ rfl⟩
  | @wakeCaller c ticket functor call =>
    exact ⟨taskAt, h.goto (.entering ticket functor) (by rw [call]; rfl) rfl
      ⟨rfl, rfl, rfl, rfl, rfl, rfl⟩ rfl⟩
  | @lockEntry c ticket functor i call unlocked =>
    exact ⟨taskAt, h.goto (.storing ticket functor i) (by rw [call]; rfl) rfl
      ⟨rfl, rfl, rfl, rfl, rfl, rfl⟩ rfl⟩
  | @store c ticket functor i call =>
    obtain ⟨empty, waits⟩ := placed.held_empty (c := c) (i := i) (by rw [call]; rfl)
    exact ⟨_, h.store call empty waits⟩
  | @notifyWorker c ticket i call =>
    obtain ⟨v, hv⟩ : ∃ v, v = ({ w with
        freeMtx := none
        returned := w.returned ++ [ticket] } : World τ κ n).setMutex i none := ⟨_, rfl⟩
    have same : v.calls = w.calls ∧ v.worker = w.worker ∧ v.returned = w.returned ++ [ticket] := by
      rw [hv]
      exact ⟨rfl, rfl, rfl⟩
    rw [← hv]
    have calls : ∀ c', (((v.notify i).goto c .idle).calls c').pending = (w.calls c').pending ∧
        ∀ k i', ((v.notify i).goto c .idle).calls c' = .stored k i' →
          w.calls c' = .stored k i' := by
      intro c'
      rcases goto_calls (v.notify i) c .idle c' with ⟨rfl, now⟩ | ⟨-, now⟩
      · rw [now, call]
        exact ⟨rfl, fun _ _ hc => by cases hc⟩
      · rw [now, notify_eq]
        show (v.calls c').pending = _ ∧ ∀ k i', v.calls c' = _ → _
        rw [same.1]
        exact ⟨rfl, fun _ _ => id⟩
    refine ⟨taskAt, h.of_same ?_ (fun c' => (calls c').1) ?_ (fun j => ?_) ?_
      (fun c' => (calls c').2) fun k mem => ?_⟩
    · rw [notify_eq, hv]
      rfl
    · rw [notify_eq, hv]
      rfl
    · refine (v.notify_phase i j).trans ?_
      rw [same.2.1]
    · rw [notify_eq, hv]
      exact ⟨rfl, rfl⟩
    · rw [notify_eq] at mem
      rcases List.mem_append.mp (same.2.2 ▸ mem : k ∈ w.returned ++ [ticket]) with old | new
      · exact .inl old
      · obtain rfl := List.mem_singleton.mp new
        exact .inr ⟨c, i, call⟩
  | @start i task there functor =>
    obtain ⟨k, f⟩ := task
    have phase : (w.worker i).phase = .waits := by rw [there]; rfl
    have before : taskAt k = .entry i .waits := (h.entry i _ k).mp ⟨⟨f, functor⟩, phase⟩
    refine ⟨_, h.advance (.entry i .runs) functor phase ⟨rfl, rfl, rfl⟩
      (fun j other => ⟨rfl, ?_⟩) (.inl ⟨rfl, ?_⟩) (count_update h.started ?_ rfl)
      (count_same h.finished ?_)⟩
    · exact congrArg Worker.phase (Function.update_of_ne other _ _)
    · show _ = TaskPlace.entry i (Function.update w.worker i .running i).phase
      rw [Function.update_self]
      rfl
    · rw [before]
      rfl
    · rw [before]
      rfl
  | @finish i task there functor =>
    obtain ⟨k, f⟩ := task
    have phase : (w.worker i).phase = .runs := by rw [there]; rfl
    have before : taskAt k = .entry i .runs := (h.entry i _ k).mp ⟨⟨f, functor⟩, phase⟩
    refine ⟨_, h.advance (.entry i .hasRun) functor phase ⟨rfl, rfl, rfl⟩
      (fun j other => ⟨rfl, ?_⟩) (.inl ⟨rfl, ?_⟩) (count_same h.started ?_)
      (count_update h.finished ?_ rfl)⟩
    · exact congrArg Worker.phase (Function.update_of_ne other _ _)
    · show _ = TaskPlace.entry i (Function.update w.worker i .ran i).phase
      rw [Function.update_self]
      rfl
    · rw [before]
      rfl
    · rw [before]
      rfl
  | @reset i there =>
    have phase : (w.worker i).phase = .hasRun := by rw [there]; rfl
    obtain ⟨⟨k, f⟩, functor⟩ : ∃ task, w.functor i = some task := by
      apply Option.isSome_iff_exists.mp
      exact (placed.assigned i).mpr (placed.busy i (by rw [there]; rfl))
    have before : taskAt k = .entry i .hasRun := (h.entry i _ k).mp ⟨⟨f, functor⟩, phase⟩
    refine ⟨_, h.advance .ended functor phase ⟨rfl, rfl, rfl⟩
      (fun j other => ⟨?_, ?_⟩) (.inr ⟨?_, rfl⟩) (count_same h.started ?_)
      (count_same h.finished ?_)⟩
    · exact Function.update_of_ne other _ _
    · exact congrArg Worker.phase (Function.update_of_ne other _ _)
    · exact Function.update_self _ _ _
    · rw [before]
      rfl
    · rw [before]
      rfl
  | @notifyCaller i c ticket functor there call =>
    have moved : Tracked (w.move i .top) taskAt :=
      h.move ⟨rfl, rfl, rfl, rfl, rfl, rfl⟩ rfl (by rw [there]; rfl)
    have waiting : ((w.move i .top).calls c).pending = some (ticket, functor) := by
      rw [show (w.move i .top).calls c = _ from call]
      rfl
    exact ⟨taskAt, moved.goto (.entering ticket functor) waiting rfl
      ⟨rfl, rfl, rfl, rfl, rfl, rfl⟩ rfl⟩
  | @notifyStop i destructor =>
    refine ⟨taskAt, h.of_same ?_ (fun c => ?_) ?_ (w.notify_phase i) ?_ (fun c k i' there => ?_)
      fun k mem => .inl ?_⟩
    · rw [notify_eq]
    · rw [notify_eq]
    · rw [notify_eq]
    · rw [notify_eq]
      exact ⟨rfl, rfl⟩
    · rw [notify_eq] at there
      exact there
    · rw [notify_eq] at mem
      exact mem
  | shutdown | join =>
    exact ⟨taskAt, h.of_same rfl (fun _ => rfl) rfl (fun _ => rfl) ⟨rfl, rfl⟩ (fun _ _ _ => id)
      fun _ => .inl⟩
  | lock there | empty there | giveBack there | notifyNobody there | goOn there | leave there
  | waitReturns there | waits there | block there | wakeWorker there | relock there =>
    exact ⟨taskAt, h.move ⟨rfl, rfl, rfl, rfl, rfl, rfl⟩ rfl (by rw [there]; rfl)⟩

omit [DecidableEq τ] in
/-- At first no ticket is given out. -/
theorem Tracked.start : Tracked ({} : World τ κ n) fun _ => .coming where
  coming k := iff_of_true (Nat.zero_le k) rfl
  pending c k := iff_of_false (fun hc => by obtain ⟨f, hc⟩ := hc; cases hc) (fun hc => by cases hc)
  entry i p k := iff_of_false (fun hc => by obtain ⟨⟨f, hc⟩, -⟩ := hc; cases hc)
    (fun hc => by cases hc)
  dropped k hc := by cases hc
  given c k f hc := by cases hc
  task i k f hc := by cases hc
  started k := rfl
  finished k := rfl
  stored c k i hc := by cases hc
  returned k hc := by cases hc

/-! ## Exactly once -/

/-- Where a task that was accepted is: in exactly one entry and not started, run by exactly that
entry's worker, or run, and in no entry that a worker would start it from. -/
inductive Once (w : World τ κ n) (k : Nat) (f : κ) : Prop
  | waits (i : Fin n) (stored : w.functor i = some ⟨k, f⟩) (only : ∀ j, w.Has j k → j = i)
      (idle : (w.worker i).busy = false) (started : w.started.count k = 0)
  | runs (i : Fin n) (stored : w.functor i = some ⟨k, f⟩) (only : ∀ j, w.Has j k → j = i)
      (running : w.worker i = .running) (started : w.started.count k = 1)
      (finished : w.finished.count k = 0)
  | hasRun (ended : ∀ j, w.Has j k → w.worker j = .ran) (started : w.started.count k = 1)
      (finished : w.finished.count k = 1)

/-- What the pool promises of a state: a free index is there once, and its entry is empty; each task
whose call has returned is run once; a store finds the entry empty; and `count_active` counts. -/
structure ExactlyOnce (w : World τ κ n) : Prop where
  nodup : w.free.Nodup
  empty : ∀ i ∈ w.free, w.functor i = none
  once : ∀ k ∈ w.returned, ∀ f, w.given[k]? = some (some f) → Once w k f
  store : ∀ c k f i, w.calls c = .storing k f i → w.functor i = none
  active : w.free.length ≤ n ∧ w.countActive = (Finset.univ.filter fun i => i ∉ w.free).card

omit [DecidableEq τ] in
/-- A ticket in an entry is in no other, with the functor that its call was given. -/
theorem Tracked.only (h : Tracked w taskAt) {i : Fin n} {p : Phase} {k : Nat} {f : κ}
    (there : taskAt k = .entry i p) (given : w.given[k]? = some (some f)) :
    w.functor i = some ⟨k, f⟩ ∧ (w.worker i).phase = p ∧ ∀ j, w.Has j k → j = i := by
  obtain ⟨⟨f', functor⟩, phase⟩ := (h.entry i p k).mpr there
  have same := h.task i k f' functor
  rw [given] at same
  obtain rfl := Option.some.inj (Option.some.inj same)
  refine ⟨functor, phase, fun j has => ?_⟩
  have other := (h.entry j _ k).mp ⟨has, rfl⟩
  rw [there] at other
  exact (TaskPlace.entry.inj other).1.symm

omit [DecidableEq τ] in
/-- A task that was accepted is somewhere. -/
theorem Tracked.once (h : Tracked w taskAt) {k : Nat} {f : κ} (accepted : (taskAt k).accepted)
    (given : w.given[k]? = some (some f)) : Once w k f := by
  have started := h.started k
  have finished := h.finished k
  cases there : taskAt k with
  | coming | pending c =>
    rw [there] at accepted
    exact accepted.elim
  | entry i p =>
    obtain ⟨functor, phase, only⟩ := h.only there given
    rw [there] at started finished
    cases p with
    | waits =>
      refine .waits i functor only ?_ started
      cases worker : w.worker i with
      | running | ran =>
        rw [worker] at phase
        cases phase
      | _ => rfl
    | runs =>
      refine .runs i functor only ?_ started finished
      cases worker : w.worker i with
      | running => rfl
      | _ =>
        rw [worker] at phase
        cases phase
    | hasRun =>
      refine .hasRun (fun j has => ?_) started finished
      obtain rfl := only j has
      cases worker : w.worker j with
      | ran => rfl
      | _ =>
        rw [worker] at phase
        cases phase
  | ended =>
    rw [there] at started finished
    refine .hasRun (fun j has => ?_) started finished
    have entry := (h.entry j _ k).mp ⟨has, rfl⟩
    rw [there] at entry
    cases entry
  | dropped =>
    have empty := h.dropped k there
    rw [given] at empty
    cases Option.some.inj empty

/-- **Every accepted task is run exactly once**, in every state of every run: any number of threads
and of workers inside their tasks call `execute`, with any functors, in any interleaving. -/
theorem tasks_run_once (ls : List (Label τ κ n)) :
    Lts.AllStates World.step ExactlyOnce ({} : World τ κ n) ls := by
  refine Lts.allStates_of_invariant
    (I := fun w => (∃ place, Placed w place) ∧ ∃ taskAt, Tracked w taskAt) ?_ ?_ ls
    ⟨⟨_, Placed.start⟩, _, Tracked.start⟩
  · rintro w l w' ⟨⟨place, placed⟩, taskAt, tracked⟩ step
    obtain ⟨place', placed', -⟩ := placed.step (Step.of_step step)
    exact ⟨⟨place', placed'⟩, tracked.step placed (Step.of_step step)⟩
  · rintro w ⟨⟨place, placed⟩, taskAt, tracked⟩
    refine ⟨placed.nodup, fun i free => ?_, fun k returned f given => ?_, fun c k f i call => ?_,
      placed.countActive_eq⟩
    · apply Option.not_isSome_iff_eq_none.mp
      intro assigned
      have assigned := (placed.assigned i).mp assigned
      rw [(placed.free i).mp free] at assigned
      cases assigned
    · exact tracked.once (tracked.returned k returned) given
    · exact (placed.held_empty (c := c) (by rw [call]; rfl)).1

end Bfc.ThreadPool
