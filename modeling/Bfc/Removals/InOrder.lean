import Mathlib.Data.List.Range
import Bfc.Removals.Removals

/-!
# Removals are performed in order

The requests are in three places, one behind the other: those performed, the batch that
`run_removals` is working on, and `m_removals`. Together they are what was appended, in order, and a
step only moves the borders. What was done is the removals performed, each with its `done_cb`.
-/

namespace Bfc.Removals

open Lts

variable {τ R κ : Type*}

/-- The removals that `run_removals` has swapped out and not yet performed. -/
def Pc.batch : Pc κ → List (Removal κ)
  | .remove _ batch | .done _ _ batch => batch
  | _ => []

/-- The `done_cb` of a removal that has just been performed. -/
def Pc.owed : Pc κ → List (Act κ)
  | .done _ cb _ => [.done cb]
  | _ => []

/-- The removal that was performed. -/
def Act.removal : Act κ → Option (Removal κ)
  | .removed removal => some removal
  | .done _ => none

/-- A removal, and its `done_cb` if it has one. -/
def Removal.acts (removal : Removal κ) : List (Act κ) :=
  .removed removal :: removal.doneCb.toList.map .done

namespace World

/-- The removals performed, in order. -/
def performed (w : World τ R κ) : List (Removal κ) := w.acts.filterMap Act.removal

/-- The requests and what was done for them, in order. -/
structure InOrder (w : World τ R κ) : Prop where
  order : w.performed ++ w.pc.batch ++ w.removals = w.appended
  acts : w.acts ++ w.pc.owed = w.performed.flatMap Removal.acts
  tickets : w.appended.map Removal.ticket = List.range w.appended.length

variable {reactor : Reactor R} {w w' : World τ R κ}

/-- Performing the first removal of a batch moves it over. -/
theorem InOrder.perform (h : InOrder w) {ticket : Nat} {removal : Removal κ}
    {batch : List (Removal κ)} (pc : w.pc = .remove ticket (removal :: batch)) :
    InOrder (w.perform reactor ticket removal batch) := by
  obtain ⟨order, acts, tickets⟩ := h
  rw [pc] at order acts
  have performed : (w.perform reactor ticket removal batch).performed =
      w.performed ++ [removal] := List.filterMap_append
  have rest : (w.perform reactor ticket removal batch).pc.batch = batch := by
    unfold World.perform
    cases removal.doneCb <;> rfl
  have owed : (w.perform reactor ticket removal batch).pc.owed =
      removal.doneCb.toList.map .done := by
    unfold World.perform
    cases removal.doneCb <;> rfl
  refine ⟨?_, ?_, tickets⟩
  · rw [performed, rest, List.append_assoc w.performed]
    exact order
  · have before : w.acts = w.performed.flatMap Removal.acts := by
      rw [← acts]
      exact (List.append_nil _).symm
    rw [performed, owed, List.flatMap_append, List.flatMap_singleton, ← before]
    show w.acts ++ [.removed removal] ++ _ = _
    rw [List.append_assoc]
    rfl

/-- What the order is about: steps that change nothing of it keep it. -/
theorem InOrder.same (h : InOrder w) (acts : w'.acts = w.acts) (batch : w'.pc.batch = w.pc.batch)
    (owed : w'.pc.owed = w.pc.owed) (removals : w'.removals = w.removals)
    (appended : w'.appended = w.appended) : InOrder w' := by
  have performed : w'.performed = w.performed := congrArg (List.filterMap Act.removal) acts
  refine ⟨?_, ?_, ?_⟩
  · rw [performed, batch, removals, appended]
    exact h.order
  · rw [performed, acts, owed]
    exact h.acts
  · rw [appended]
    exact h.tickets

/-- Every step keeps the order. -/
theorem InOrder.step [DecidableEq τ] (h : InOrder w) {l : Label τ R κ}
    (step : Step reactor w l w') : InOrder w' := by
  cases step with
  | append idle fd write doneCb =>
    refine ⟨?_, h.acts, ?_⟩
    · show w.performed ++ w.pc.batch ++ (w.removals ++ [_]) = w.appended ++ [_]
      rw [← List.append_assoc, h.order]
    · show (w.appended ++ [_]).map _ = List.range (w.appended ++ [_]).length
      rw [List.map_append, h.tickets, List.length_append, List.length_singleton, List.range_succ]
      rfl
  | post between => exact h.same rfl rfl rfl rfl rfl
  | wakeUp cb => exact h.same rfl rfl rfl rfl rfl
  | table change => exact h.same rfl rfl rfl rfl rfl
  | takeCallbacks pc | runRemovals pc batch | callbacksEnd pc batch | removalsEnd pc =>
    exact h.same rfl (by rw [pc]; rfl) (by rw [pc]; rfl) rfl rfl
  | given pc batch => exact h.same rfl rfl rfl rfl rfl
  | swap pc =>
    obtain ⟨order, acts, tickets⟩ := h
    rw [pc] at order acts
    refine ⟨?_, acts, tickets⟩
    rw [← order]
    show w.performed ++ w.removals ++ [] = w.performed ++ [] ++ w.removals
    rw [List.append_nil, List.append_nil]
  | remove pc => exact h.perform pc
  | @runDone _ cb _ pc =>
    obtain ⟨order, acts, tickets⟩ := h
    rw [pc] at order acts
    have performed : (w.acts ++ [Act.done cb]).filterMap Act.removal = w.performed := by
      rw [List.filterMap_append]
      exact List.append_nil _
    refine ⟨?_, ?_, tickets⟩
    · show (w.acts ++ [Act.done cb]).filterMap Act.removal ++ _ ++ _ = _
      rw [performed]
      exact order
    · show w.acts ++ [Act.done cb] ++ [] =
        ((w.acts ++ [Act.done cb]).filterMap Act.removal).flatMap _
      rw [performed, List.append_nil]
      exact acts

end World

end Bfc.Removals
