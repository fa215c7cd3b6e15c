import Mathlib.Data.List.Basic
import Bfc.Lib.Transition

/-!
# Queues that are served in batches

Work is posted to a waiting list; the server takes the whole list as its batch and starts the
items of the batch one by one, while further posts go to the waiting list again. Whatever the
order of posts and service, the items are started in the order they were posted, each once:
`Batched.all`, the started items followed by the rest of the batch and the waiting ones, only ever
grows at its end, by the posts.

The second part is about systems with such a service in their states. `Service.inOrder` derives what
their users rely on from what a single action does to the service.
-/

/-- A waiting list, the unstarted rest of the batch being served, and the items started so far. -/
structure Batched (α : Type*) where
  waiting : List α := []
  batch : List α := []
  started : List α := []

namespace Batched

variable {α : Type*}

/-- An item is posted. -/
def post (b : Batched α) (x : α) : Batched α := { b with waiting := b.waiting ++ [x] }

/-- The server takes the waiting list as its batch. It does so when it has none. -/
def take (b : Batched α) : Batched α := { b with waiting := [], batch := b.waiting }

/-- The server starts the first item of its batch. -/
def next (b : Batched α) : Batched α :=
  { b with batch := b.batch.tail, started := b.started ++ b.batch.head?.toList }

/-- Everything posted, in the order of service. -/
def all (b : Batched α) : List α := b.started ++ b.batch ++ b.waiting

/-- A post goes to the end. -/
theorem all_post (b : Batched α) (x : α) : (b.post x).all = b.all ++ [x] := by
  simp only [all, post, List.append_assoc]

/-- Taking a batch when there is none changes no order. -/
theorem all_take {b : Batched α} (h : b.batch = []) : b.take.all = b.all := by
  simp only [all, take, h, List.append_nil]

/-- Starting an item changes no order. -/
theorem all_next (b : Batched α) : b.next.all = b.all := by
  unfold all next
  cases b.batch with
  | nil => simp only [List.tail_nil, List.head?_nil, Option.toList_none, List.append_nil]
  | cons x rest =>
    simp only [List.tail_cons, List.head?_cons, Option.toList_some, List.append_assoc,
      List.cons_append, List.nil_append]

/-- What an action may do to the service and to the record of the posts: nothing, a post, the taking
of a batch when there is none, for which the action `takes`, and the start of an item. -/
def Moves (takes : Prop) (b b' : Batched α) (posted posted' : List α) : Prop :=
  (b' = b ∧ posted' = posted) ∨ (∃ x, b' = b.post x ∧ posted' = posted ++ [x]) ∨
    (takes ∧ b.batch = [] ∧ b' = b.take ∧ posted' = posted) ∨ (b' = b.next ∧ posted' = posted)

/-- Whatever an action does, the items in the order of service are those posted. -/
theorem Moves.all {takes : Prop} {b b' : Batched α} {posted posted' : List α}
    (h : Moves takes b b' posted posted') (before : b.all = posted) : b'.all = posted' := by
  rcases h with ⟨rfl, rfl⟩ | ⟨x, rfl, rfl⟩ | ⟨-, noBatch, rfl, rfl⟩ | ⟨rfl, rfl⟩
  · exact before
  · rw [all_post, before]
  · rw [all_take noBatch, before]
  · rw [all_next, before]

/-- The posts are on record in their order. -/
theorem Moves.posted {takes : Prop} {b b' : Batched α} {posted posted' : List α}
    (h : Moves takes b b' posted posted') : ∃ new, posted' = posted ++ new := by
  rcases h with ⟨-, rfl⟩ | ⟨x, -, rfl⟩ | ⟨-, -, -, rfl⟩ | ⟨-, rfl⟩
  · exact ⟨[], (List.append_nil _).symm⟩
  · exact ⟨[x], rfl⟩
  · exact ⟨[], (List.append_nil _).symm⟩
  · exact ⟨[], (List.append_nil _).symm⟩

/-- An action that takes no batch adds nothing to the one being served. -/
theorem Moves.served {takes : Prop} {b b' : Batched α} {posted posted' : List α}
    (h : Moves takes b b' posted posted') (noTake : ¬ takes) :
    b'.started ++ b'.batch = b.started ++ b.batch := by
  rcases h with ⟨rfl, -⟩ | ⟨x, rfl, -⟩ | ⟨takes, -⟩ | ⟨rfl, -⟩
  · rfl
  · rfl
  · exact absurd takes noTake
  · unfold next
    cases b.batch with
    | nil => simp only [List.head?_nil, Option.toList_none, List.append_nil, List.tail_nil]
    | cons x rest =>
      simp only [List.head?_cons, Option.toList_some, List.append_assoc, List.tail_cons,
        List.singleton_append]

end Batched

/-! ## Systems that serve in batches -/

/-- A system, the service in its states, the record of its posts, the actions that take a batch, and
the states in which it is out of service. -/
structure Service (σ ι α : Type*) where
  step : σ → ι → Option σ
  service : σ → Batched α
  posted : σ → List α
  takes : ι → Prop
  out : σ → Prop

namespace Service

variable {σ ι α : Type*} (S : Service σ ι α)

/-- In every run from a state: what was started, the unstarted rest of the batch, and what waits are
together what was posted, in order; what is started until the next batch is taken is in this batch
already; and what is left over when the system goes out of service is served first. -/
def InOrder (s₀ : σ) : Prop :=
  ∀ ls s, Lts.Run (fun s l t => S.step s l = some t) s₀ ls s →
    (S.service s).started ++ (S.service s).batch ++ (S.service s).waiting = S.posted s ∧
      ∀ ms t, Lts.Run (fun s l t => S.step s l = some t) s ms t →
        ((∀ l ∈ ms, ¬ S.takes l) → (S.service t).started ++ (S.service t).batch =
          (S.service s).started ++ (S.service s).batch) ∧
        (S.out s → ∃ new, (S.service t).started ++ (S.service t).batch ++ (S.service t).waiting =
          (S.service s).started ++ (S.service s).waiting ++ new)

/-- **The rule for services**: it is enough what each single action does. -/
theorem inOrder {s₀ : σ} (I : σ → Prop) (inv : I s₀)
    (keeps : ∀ {s l t}, I s → S.step s l = some t → I t)
    (moves : ∀ {s l t}, I s → S.step s l = some t →
      Batched.Moves (S.takes l) (S.service s) (S.service t) (S.posted s) (S.posted t))
    (out : ∀ {s}, I s → S.out s → (S.service s).batch = [])
    (start : (S.service s₀).all = S.posted s₀) : S.InOrder s₀ := by
  intro ls s run
  obtain ⟨inv, order⟩ := run.invariant (P := fun s => I s ∧ (S.service s).all = S.posted s)
    ⟨inv, start⟩ fun before step => ⟨keeps before.1 step, (moves before.1 step).all before.2⟩
  refine ⟨order, fun ms t next => ⟨fun quiet => ?_, fun closed => ?_⟩⟩
  · have served := next.invariant_of_mem
      (P := fun t => I t ∧ (S.service t).started ++ (S.service t).batch =
        (S.service s).started ++ (S.service s).batch) ⟨inv, rfl⟩
      fun mem before step =>
        ⟨keeps before.1 step, ((moves before.1 step).served (quiet _ mem)).trans before.2⟩
    exact served.2
  · obtain ⟨-, after, new, grown⟩ := next.invariant
      (P := fun t => I t ∧ (S.service t).all = S.posted t ∧ ∃ new, S.posted t = S.posted s ++ new)
      ⟨inv, order, [], (List.append_nil _).symm⟩ fun before step => by
        obtain ⟨inv, order, new, grown⟩ := before
        obtain ⟨more, again⟩ := (moves inv step).posted
        exact ⟨keeps inv step, (moves inv step).all order, new ++ more, by
          rw [again, grown, List.append_assoc]⟩
    refine ⟨new, ?_⟩
    have left := order
    unfold Batched.all at left after
    rw [out inv closed, List.append_nil] at left
    rw [after, grown, left]

end Service
