import Bfc.ThreadPool.World

/-!
# Who has a worker's index

Each index has one place: in `m_free`, with the `execute` call that took it, with its worker as long
as the entry's functor is there, with the worker that is about to give it back, or nowhere. `Placed`
ties the places to the state, and `Placed.step` follows them through every action: an index goes
round from `m_free` to a caller, to the worker and back, and gets lost only where an empty functor
is stored for it.
-/

namespace Bfc.ThreadPool

variable {τ κ : Type*} {n : Nat}

/-- The index that a call has taken and not handed to its worker yet. -/
def Call.holds : Call κ n → Option (Fin n)
  | .took _ _ i | .storing _ _ i => some i
  | _ => none

/-- The worker is in its task or has just finished it: the functor is there. -/
def Worker.busy : Worker → Bool
  | .running | .ran => true
  | _ => false

/-- Where an index is. -/
inductive Place (τ : Type*) (n : Nat) where
  | free
  | held (c : Caller τ n)
  | assigned
  | returning
  | lost

/-- The places of all indices, in a state. -/
structure Placed (w : World τ κ n) (place : Fin n → Place τ n) : Prop where
  nodup : w.free.Nodup
  free : ∀ i, i ∈ w.free ↔ place i = .free
  held : ∀ c i, (w.calls c).holds = some i ↔ place i = .held c
  assigned : ∀ i, (w.functor i).isSome = true ↔ place i = .assigned
  busy : ∀ i, (w.worker i).busy = true → place i = .assigned
  returning : ∀ i, w.worker i = .returning ↔ place i = .returning

namespace World

variable [DecidableEq τ]

theorem goto_calls (w : World τ κ n) (c : Caller τ n) (call : Call κ n) (c' : Caller τ n) :
    c' = c ∧ (w.goto c call).calls c' = call ∨
      c' ≠ c ∧ (w.goto c call).calls c' = w.calls c' := by
  by_cases same : c' = c
  · subst same
    exact .inl ⟨rfl, by simp only [goto, Function.update_self]⟩
  · exact .inr ⟨same, by simp only [goto, Function.update_of_ne same]⟩

theorem goto_self (w : World τ κ n) (c : Caller τ n) (call : Call κ n) :
    (w.goto c call).calls c = call := by
  simp only [goto, Function.update_self]

omit [DecidableEq τ] in
theorem move_worker (w : World τ κ n) (i : Fin n) (place : Worker) (j : Fin n) :
    j = i ∧ (w.move i place).worker j = place ∨
      j ≠ i ∧ (w.move i place).worker j = w.worker j := by
  by_cases same : j = i
  · subst same
    exact .inl ⟨rfl, by simp only [move, Function.update_self]⟩
  · exact .inr ⟨same, by simp only [move, Function.update_of_ne same]⟩

omit [DecidableEq τ] in
theorem setFunctor_functor (w : World τ κ n) (i : Fin n) (functor : Option (Task κ)) (j : Fin n) :
    j = i ∧ (w.setFunctor i functor).functor j = functor ∨
      j ≠ i ∧ (w.setFunctor i functor).functor j = w.functor j := by
  by_cases same : j = i
  · subst same
    exact .inl ⟨rfl, by simp only [setFunctor, Function.update_self]⟩
  · exact .inr ⟨same, by simp only [setFunctor, Function.update_of_ne same]⟩

omit [DecidableEq τ] in
/-- A notification wakes the worker if it is blocked, and does nothing else. -/
theorem notify_worker (w : World τ κ n) (i j : Fin n) :
    (j = i ∧ w.worker i = .blocked ∧ (w.notify i).worker j = .woken) ∨
      (w.worker i = .blocked → j ≠ i) ∧ (w.notify i).worker j = w.worker j := by
  unfold notify
  split
  · rename_i blocked
    rcases w.move_worker i .woken j with ⟨same, there⟩ | ⟨other, there⟩
    · exact .inl ⟨same, blocked, there⟩
    · exact .inr ⟨fun _ => other, there⟩
  · rename_i elsewhere
    exact .inr ⟨fun blocked => absurd blocked elsewhere, rfl⟩

omit [DecidableEq τ] in
/-- Whom a notification wakes depends on where the workers are alone. -/
theorem notify_congr (w w' : World τ κ n) (same : w'.worker = w.worker) (i : Fin n) :
    (w'.notify i).worker = (w.notify i).worker := by
  unfold notify
  rw [congrFun same i]
  split
  · exact congrArg (Function.update · i .woken) same
  · exact same

omit [DecidableEq τ] in
/-- A notification is about the workers alone. -/
theorem notify_eq (w : World τ κ n) (i : Fin n) :
    w.notify i = { w with worker := (w.notify i).worker } := by
  unfold notify
  split <;> rfl

/-- A call that goes on keeps what it holds. -/
theorem goto_holds (w : World τ κ n) {c : Caller τ n} {call : Call κ n}
    (same : call.holds = (w.calls c).holds) (c' : Caller τ n) :
    ((w.goto c call).calls c').holds = (w.calls c').holds := by
  rcases w.goto_calls c call c' with ⟨rfl, there⟩ | ⟨-, there⟩
  · rw [there, same]
  · rw [there]

end World

open World

/-! ## Actions that move no index -/

variable {w w' : World τ κ n} {place : Fin n → Place τ n}

/-- The places stay when what they are read off from does. -/
theorem Placed.of_same (h : Placed w place) (free : w'.free = w.free)
    (holds : ∀ c, (w'.calls c).holds = (w.calls c).holds) (functor : w'.functor = w.functor)
    (busy : ∀ i, (w'.worker i).busy = true →
      (w.worker i).busy = true ∨ (w.functor i).isSome = true)
    (returning : ∀ i, w'.worker i = .returning ↔ w.worker i = .returning) : Placed w' place where
  nodup := by rw [free]; exact h.nodup
  free i := by rw [free]; exact h.free i
  held c i := by rw [holds]; exact h.held c i
  assigned i := by rw [functor]; exact h.assigned i
  busy i there := by
    rcases busy i there with before | assigned
    · exact h.busy i before
    · exact (h.assigned i).mp assigned
  returning i := (returning i).trans (h.returning i)

/-- A worker that goes on, neither from giving its index back nor to it. -/
theorem Placed.move (h : Placed w place) {i : Fin n} {target : Worker}
    (same : w'.free = w.free ∧ w'.calls = w.calls ∧ w'.functor = w.functor)
    (worker : w'.worker = (w.move i target).worker)
    (busy : target.busy = true → (w.worker i).busy = true ∨ (w.functor i).isSome = true)
    (before : w.worker i ≠ .returning) (after : target ≠ .returning) : Placed w' place := by
  obtain ⟨free, calls, functor⟩ := same
  refine h.of_same free (fun c => by rw [calls]) functor (fun j there => ?_) fun j => ?_
  · rw [worker] at there
    rcases w.move_worker i target j with ⟨rfl, worker⟩ | ⟨-, worker⟩
    · exact busy (worker ▸ there)
    · exact .inl (worker ▸ there)
  · rw [worker]
    rcases w.move_worker i target j with ⟨rfl, worker⟩ | ⟨-, worker⟩
    · rw [worker]
      exact iff_of_false after before
    · rw [worker]

/-- A notification moves no index. -/
theorem Placed.notify (h : Placed w place) (i : Fin n)
    (same : w'.free = w.free ∧ (∀ c, (w'.calls c).holds = (w.calls c).holds) ∧
      w'.functor = w.functor)
    (worker : w'.worker = (w.notify i).worker) : Placed w' place := by
  obtain ⟨free, holds, functor⟩ := same
  refine h.of_same free holds functor (fun j there => .inl ?_) fun j => ?_
  · rw [worker] at there
    rcases w.notify_worker i j with ⟨rfl, -, woken⟩ | ⟨-, worker⟩
    · rw [woken] at there
      cases there
    · exact worker ▸ there
  · rw [worker]
    rcases w.notify_worker i j with ⟨rfl, blocked, woken⟩ | ⟨-, worker⟩
    · rw [woken, blocked]
      exact iff_of_false (by decide) (by decide)
    · rw [worker]

variable [DecidableEq τ]

/-- A call that goes on with what it holds. -/
theorem Placed.goto (h : Placed w place) {c : Caller τ n} (call : Call κ n)
    (holds : call.holds = (w.calls c).holds)
    (same : w'.free = w.free ∧ w'.functor = w.functor ∧ w'.worker = w.worker)
    (calls : w'.calls = (w.goto c call).calls) : Placed w' place := by
  obtain ⟨free, functor, worker⟩ := same
  refine h.of_same free (fun c' => ?_) functor (fun i there => .inl (worker ▸ there)) fun i => ?_
  · rw [calls]
    exact w.goto_holds holds c'
  · rw [worker]

/-! ## Actions that move an index -/

omit [DecidableEq τ] in
/-- The places, with one thing somewhere else: where it was not before and does not come. -/
theorem update_place {ι ρ : Type*} [DecidableEq ι] {place : ι → ρ} {i j : ι} {p q : ρ}
    (before : place i ≠ q) (after : p ≠ q) : Function.update place i p j = q ↔ place j = q := by
  by_cases same : j = i
  · subst same
    rw [Function.update_self]
    exact iff_of_false after before
  · rw [Function.update_of_ne same]

/-- A call takes the last index of `m_free`. -/
theorem Placed.take (h : Placed w place) {c : Caller τ n} {ticket : Nat} {functor : Option κ}
    {i : Fin n} (call : w.calls c = .testing ticket functor) (last : w.free.getLast? = some i) :
    Placed ({ w with free := w.free.dropLast }.goto c (.took ticket functor i))
      (Function.update place i (.held c)) := by
  have split := List.dropLast_append_getLast? i last
  have nodup := h.nodup
  rw [← split, List.nodup_append] at nodup
  obtain ⟨nodup, -, apart⟩ := nodup
  have free : place i = .free := (h.free i).mp (split ▸ List.mem_append_right _ (.head _))
  refine ⟨nodup, fun j => ?_, fun c' j => ?_, fun j => ?_, fun j there => ?_, fun j => ?_⟩
  · show j ∈ w.free.dropLast ↔ _
    by_cases same : j = i
    · subst same
      rw [Function.update_self]
      exact iff_of_false (fun mem => apart j mem j (.head _) rfl) (fun hc => by cases hc)
    · rw [Function.update_of_ne same, ← h.free j, ← split, List.mem_append, List.mem_singleton,
        or_iff_left same, split]
  · by_cases same : j = i
    · subst same
      rw [Function.update_self]
      rcases goto_calls { w with free := w.free.dropLast } c (.took ticket functor j) c' with
        ⟨rfl, there⟩ | ⟨other, there⟩
      · rw [there]
        exact iff_of_true rfl rfl
      · rw [there]
        refine iff_of_false (fun holds => ?_) fun hc => other (Place.held.inj hc).symm
        have held := (h.held c' j).mp holds
        rw [free] at held
        cases held
    · rw [Function.update_of_ne same]
      rcases goto_calls { w with free := w.free.dropLast } c (.took ticket functor i) c' with
        ⟨rfl, there⟩ | ⟨-, there⟩
      · rw [there, ← h.held c' j, call]
        exact iff_of_false (fun hc => same (Option.some.inj hc).symm) (fun hc => by cases hc)
      · rw [there]
        exact h.held c' j
  · rw [update_place (by rw [free]; intro hc; cases hc) (by intro hc; cases hc)]
    exact h.assigned j
  · rw [update_place (by rw [free]; intro hc; cases hc) (by intro hc; cases hc)]
    exact h.busy j there
  · rw [update_place (by rw [free]; intro hc; cases hc) (by intro hc; cases hc)]
    exact h.returning j

/-- What a call holds is stored in the entry, and the index is its worker's; with an empty functor
it is nobody's. -/
theorem Placed.store (h : Placed w place) {c : Caller τ n} {ticket : Nat} {functor : Option κ}
    {i : Fin n} (call : w.calls c = .storing ticket functor i) :
    Placed ((w.setFunctor i (functor.map (⟨ticket, ·⟩))).goto c (.stored ticket i))
      (Function.update place i (if functor.isSome then .assigned else .lost)) := by
  have held : place i = .held c := (h.held c i).mp (by rw [call]; rfl)
  obtain ⟨next, hnext⟩ : ∃ next : Place τ n, (if functor.isSome then .assigned else .lost) = next :=
    ⟨_, rfl⟩
  have elsewhere : ∀ q, q ≠ Place.held c → q ≠ .assigned → q ≠ .lost → ∀ j,
      Function.update place i next j = q ↔ place j = q := by
    intro q notHeld notAssigned notLost j
    refine update_place (by rw [held]; exact Ne.symm notHeld) ?_
    rw [← hnext]
    split
    · exact Ne.symm notAssigned
    · exact Ne.symm notLost
  rw [hnext]
  refine ⟨h.nodup, fun j => ?_, fun c' j => ?_, fun j => ?_, fun j there => ?_, fun j => ?_⟩
  · rw [elsewhere .free (by intro hc; cases hc) (by intro hc; cases hc) (by intro hc; cases hc)]
    exact h.free j
  · by_cases same : j = i
    · subst same
      rw [Function.update_self]
      have notHeld : next ≠ .held c' := by
        rw [← hnext]
        split <;> exact fun hc => by cases hc
      refine iff_of_false (fun holds => ?_) notHeld
      rcases goto_calls (w.setFunctor j _) c (.stored ticket j) c' with
        ⟨rfl, there⟩ | ⟨other, there⟩
      · rw [there] at holds
        cases holds
      · rw [there] at holds
        have held' := (h.held c' j).mp holds
        rw [held] at held'
        exact other (Place.held.inj held').symm
    · rw [Function.update_of_ne same]
      rcases goto_calls (w.setFunctor i _) c (.stored ticket i) c' with ⟨rfl, there⟩ | ⟨-, there⟩
      · rw [there, ← h.held c' j, call]
        exact iff_of_false (fun hc => by cases hc) (fun hc => same (Option.some.inj hc).symm)
      · rw [there]
        exact h.held c' j
  · rcases w.setFunctor_functor i (functor.map (⟨ticket, ·⟩)) j with ⟨rfl, there⟩ | ⟨other, there⟩
    · rw [show ((w.setFunctor j _).goto c _).functor j = _ from there, Function.update_self,
        ← hnext]
      cases functor with
      | none => exact iff_of_false (fun hc => by cases hc) (fun hc => by cases hc)
      | some f => exact iff_of_true rfl rfl
    · rw [show ((w.setFunctor i _).goto c _).functor j = _ from there, Function.update_of_ne other]
      exact h.assigned j
  · -- the worker of a held index is not busy
    have busy := h.busy j there
    rw [Function.update_of_ne]
    · exact busy
    · rintro rfl
      rw [held] at busy
      cases busy
  · rw [elsewhere .returning (by intro hc; cases hc) (by intro hc; cases hc)
      (by intro hc; cases hc)]
    exact h.returning j

omit [DecidableEq τ] in
/-- A worker that has finished its task resets the functor. -/
theorem Placed.reset (h : Placed w place) {i : Fin n} (ran : w.worker i = .ran) :
    Placed (((w.setFunctor i none).setMutex i none).move i .returning)
      (Function.update place i .returning) := by
  have assigned : place i = .assigned := h.busy i (by rw [ran]; rfl)
  have elsewhere : ∀ q, q ≠ Place.assigned → q ≠ .returning → ∀ j,
      Function.update place i .returning j = q ↔ place j = q :=
    fun q before after j => update_place (by rw [assigned]; exact Ne.symm before) (Ne.symm after)
  refine ⟨h.nodup, fun j => ?_, fun c j => ?_, fun j => ?_, fun j there => ?_, fun j => ?_⟩
  · rw [elsewhere .free (by intro hc; cases hc) (by intro hc; cases hc)]
    exact h.free j
  · rw [elsewhere (.held c) (by intro hc; cases hc) (by intro hc; cases hc)]
    exact h.held c j
  · rcases w.setFunctor_functor i none j with ⟨rfl, there⟩ | ⟨other, there⟩
    · rw [show (((w.setFunctor j none).setMutex j none).move j .returning).functor j = _ from there,
        Function.update_self]
      exact iff_of_false (fun hc => by cases hc) (fun hc => by cases hc)
    · rw [show (((w.setFunctor i none).setMutex i none).move i .returning).functor j = _ from there,
        Function.update_of_ne other]
      exact h.assigned j
  · rcases move_worker ((w.setFunctor i none).setMutex i none) i .returning j with
      ⟨rfl, worker⟩ | ⟨other, worker⟩
    · rw [worker] at there
      cases there
    · rw [worker] at there
      rw [Function.update_of_ne other]
      exact h.busy j there
  · rcases move_worker ((w.setFunctor i none).setMutex i none) i .returning j with
      ⟨rfl, worker⟩ | ⟨other, worker⟩
    · rw [worker, Function.update_self]
      exact iff_of_true rfl rfl
    · rw [worker, Function.update_of_ne other]
      exact h.returning j

omit [DecidableEq τ] in
/-- A worker gives its index back. -/
theorem Placed.giveBack (h : Placed w place) {i : Fin n} (worker : w.worker i = .returning) :
    Placed ({ w with free := w.free ++ [i] }.move i .notifying)
      (Function.update place i .free) := by
  have returning : place i = .returning := (h.returning i).mp worker
  have elsewhere : ∀ q, q ≠ Place.returning → q ≠ .free → ∀ j,
      Function.update place i .free j = q ↔ place j = q :=
    fun q before after j => update_place (by rw [returning]; exact Ne.symm before) (Ne.symm after)
  have new : i ∉ w.free := by
    intro mem
    have free := (h.free i).mp mem
    rw [returning] at free
    cases free
  refine ⟨?_, fun j => ?_, fun c j => ?_, fun j => ?_, fun j there => ?_, fun j => ?_⟩
  · show (w.free ++ [i]).Nodup
    rw [List.nodup_append]
    refine ⟨h.nodup, List.nodup_singleton i, fun j mem k hk => ?_⟩
    rintro rfl
    exact new (List.mem_singleton.mp hk ▸ mem)
  · show j ∈ w.free ++ [i] ↔ _
    rw [List.mem_append, List.mem_singleton]
    by_cases same : j = i
    · subst same
      rw [Function.update_self]
      exact iff_of_true (.inr rfl) rfl
    · rw [Function.update_of_ne same, or_iff_left same]
      exact h.free j
  · rw [elsewhere (.held c) (by intro hc; cases hc) (by intro hc; cases hc)]
    exact h.held c j
  · rw [elsewhere .assigned (by intro hc; cases hc) (by intro hc; cases hc)]
    exact h.assigned j
  · rw [elsewhere .assigned (by intro hc; cases hc) (by intro hc; cases hc)]
    rcases move_worker { w with free := w.free ++ [i] } i .notifying j with ⟨rfl, at'⟩ | ⟨-, at'⟩
    · rw [at'] at there
      cases there
    · rw [at'] at there
      exact h.busy j there
  · rcases move_worker { w with free := w.free ++ [i] } i .notifying j with
      ⟨rfl, at'⟩ | ⟨other, at'⟩
    · rw [at', Function.update_self]
      exact iff_of_false (fun hc => by cases hc) (fun hc => by cases hc)
    · rw [at', Function.update_of_ne other]
      exact h.returning j

/-! ## Every action -/

/-- The action stores an empty functor for an index. -/
def Loses (w : World τ κ n) (l : Label τ κ n) (i : Fin n) : Prop :=
  ∃ c ticket, l = .store c ∧ w.calls c = .storing ticket none i

/-- **Every action keeps track of the indices**, and loses one only where an empty functor is
stored for it. -/
theorem Placed.step (h : Placed w place) {l : Label τ κ n} (step : Step w l w') :
    ∃ place', Placed w' place' ∧ ∀ i, place' i = .lost ↔ place i = .lost ∨ Loses w l i := by
  have stays : ∀ {l : Label τ κ n}, (∀ c, l ≠ .store c) → Placed w' place →
      ∃ place', Placed w' place' ∧ ∀ i, place' i = .lost ↔ place i = .lost ∨ Loses w l i := by
    intro l other placed
    refine ⟨place, placed, fun i => ⟨.inl, ?_⟩⟩
    rintro (lost | ⟨c, ticket, store, -⟩)
    · exact lost
    · exact absurd store (other c)
  have moves : ∀ {l : Label τ κ n} {i : Fin n} {p : Place τ n}, (∀ c, l ≠ .store c) →
      place i ≠ .lost → p ≠ .lost → Placed w' (Function.update place i p) →
      ∃ place', Placed w' place' ∧ ∀ i, place' i = .lost ↔ place i = .lost ∨ Loses w l i := by
    intro l i p other before after placed
    refine ⟨_, placed, fun j => ?_⟩
    rw [update_place before after]
    refine ⟨.inl, ?_⟩
    rintro (lost | ⟨c, ticket, store, -⟩)
    · exact lost
    · exact absurd store (other c)
  cases step with
  | @execute c functor idle may =>
    exact stays (fun _ hc => by cases hc)
      (h.goto (.entering w.given.length functor) (by rw [idle]; rfl) ⟨rfl, rfl, rfl⟩ rfl)
  | @lockFree c ticket functor call unlocked =>
    exact stays (fun _ hc => by cases hc)
      (h.goto (.testing ticket functor) (by rw [call]; rfl) ⟨rfl, rfl, rfl⟩ rfl)
  | @take c ticket functor i call last =>
    refine moves (fun _ hc => by cases hc) ?_ (fun hc => by cases hc) (h.take call last)
    rw [(h.free i).mp (List.mem_of_getLast? last)]
    exact fun hc => by cases hc
  | @wait c ticket functor call last =>
    exact stays (fun _ hc => by cases hc)
      (h.goto (.waiting ticket functor) (by rw [call]; rfl) ⟨rfl, rfl, rfl⟩ rfl)
  | @wakeCaller c ticket functor call =>
    exact stays (fun _ hc => by cases hc)
      (h.goto (.entering ticket functor) (by rw [call]; rfl) ⟨rfl, rfl, rfl⟩ rfl)
  | @lockEntry c ticket functor i call unlocked =>
    exact stays (fun _ hc => by cases hc)
      (h.goto (.storing ticket functor i) (by rw [call]; rfl) ⟨rfl, rfl, rfl⟩ rfl)
  | @store c ticket functor i call =>
    have held : place i = .held c := (h.held c i).mp (by rw [call]; rfl)
    refine ⟨_, h.store call, fun j => ?_⟩
    by_cases same : j = i
    · subst same
      rw [Function.update_self, held]
      cases functor with
      | none => exact iff_of_true rfl (.inr ⟨c, ticket, rfl, call⟩)
      | some f =>
        refine iff_of_false (fun hc => by cases hc) ?_
        rintro (lost | ⟨c', ticket', same, stores⟩)
        · cases lost
        · obtain rfl := Label.store.inj same
          rw [call] at stores
          cases stores
    · rw [Function.update_of_ne same]
      refine ⟨.inl, ?_⟩
      rintro (lost | ⟨c', ticket', same', stores⟩)
      · exact lost
      · obtain rfl := Label.store.inj same'
        rw [call] at stores
        exact absurd (Call.storing.inj stores).2.2.symm same
  | @notifyWorker c ticket i call =>
    obtain ⟨v, hv⟩ : ∃ v, v = ({ w with
        freeMtx := none
        returned := w.returned ++ [ticket] } : World τ κ n).setMutex i none := ⟨_, rfl⟩
    have same : v.calls = w.calls ∧ v.worker = w.worker := by
      rw [hv]
      exact ⟨rfl, rfl⟩
    refine stays (fun _ hc => by cases hc) ?_
    rw [← hv, notify_eq]
    refine h.notify i ⟨?_, fun c' => ?_, ?_⟩ ?_
    · rw [hv]
      rfl
    · refine (goto_holds { v with worker := (v.notify i).worker } ?_ c').trans ?_
      · show Call.holds .idle = (v.calls c).holds
        rw [same.1, call]
        rfl
      · rw [← same.1]
    · rw [hv]
      rfl
    · exact notify_congr w v same.2 i
  | @start i task worker functor =>
    exact stays (fun _ hc => by cases hc) (h.move ⟨rfl, rfl, rfl⟩ rfl
      (fun _ => .inr (by rw [functor]; rfl)) (by rw [worker]; decide) (by decide))
  | @finish i task worker functor =>
    exact stays (fun _ hc => by cases hc) (h.move ⟨rfl, rfl, rfl⟩ rfl
      (fun _ => .inl (by rw [worker]; rfl)) (by rw [worker]; decide) (by decide))
  | @reset i worker =>
    refine moves (fun _ hc => by cases hc) ?_ (fun hc => by cases hc) (h.reset worker)
    rw [h.busy i (by rw [worker]; rfl)]
    exact fun hc => by cases hc
  | @giveBack i worker unlocked =>
    refine moves (fun _ hc => by cases hc) ?_ (fun hc => by cases hc) (h.giveBack worker)
    rw [(h.returning i).mp worker]
    exact fun hc => by cases hc
  | @notifyCaller i c ticket functor worker call =>
    have moved : Placed (w.move i .top) place :=
      h.move ⟨rfl, rfl, rfl⟩ rfl (fun hc => by cases hc) (by rw [worker]; decide) (by decide)
    exact stays (fun _ hc => by cases hc) (moved.goto (.entering ticket functor)
      (by rw [show (w.move i .top).calls c = _ from call]; rfl) ⟨rfl, rfl, rfl⟩ rfl)
  | @notifyStop i destructor =>
    refine stays (fun _ hc => by cases hc) ?_
    rw [notify_eq]
    exact h.notify i ⟨rfl, fun _ => rfl, rfl⟩ rfl
  | shutdown | join =>
    exact stays (fun _ hc => by cases hc)
      (h.of_same rfl (fun _ => rfl) rfl (fun _ => .inl) fun _ => Iff.rfl)
  | lock worker | empty worker | notifyNobody worker | goOn worker | leave worker
  | waitReturns worker | waits worker | block worker | wakeWorker worker | relock worker =>
    exact stays (fun _ hc => by cases hc)
      (h.move ⟨rfl, rfl, rfl⟩ rfl (fun hc => by cases hc) (by rw [worker]; decide) (by decide))

omit [DecidableEq τ] in
/-- At first all indices are in `m_free`. -/
theorem Placed.start : Placed ({} : World τ κ n) fun _ => .free where
  nodup := List.nodup_finRange n
  free i := iff_of_true (List.mem_finRange i) rfl
  held c i := iff_of_false (fun hc => by cases hc) (fun hc => by cases hc)
  assigned i := iff_of_false (fun hc => by cases hc) (fun hc => by cases hc)
  busy i hc := by cases hc
  returning i := iff_of_false (fun hc => by cases hc) (fun hc => by cases hc)

omit [DecidableEq τ] in
/-- **The subtraction in `count_active` does not underflow**, and counts the workers that are not in
`m_free`. -/
theorem Placed.countActive_eq (h : Placed w place) : w.free.length ≤ n ∧
    w.countActive = (Finset.univ.filter fun i => i ∉ w.free).card := by
  have free : (Finset.univ.filter fun i => i ∈ w.free).card = w.free.length := by
    rw [← List.toFinset_card_of_nodup h.nodup]
    apply congrArg
    apply Finset.ext
    intro i
    rw [Finset.mem_filter, List.mem_toFinset, and_iff_right (Finset.mem_univ i)]
  have total := Finset.card_filter_add_card_filter_not (s := Finset.univ) fun i => i ∈ w.free
  rw [free, Finset.card_univ, Fintype.card_fin] at total
  unfold World.countActive
  omega

end Bfc.ThreadPool
