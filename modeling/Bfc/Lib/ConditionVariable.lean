import Mathlib.Data.List.Basic

/-!
# Condition variables

The threads at a condition variable: those blocked in a wait, those that a notification has chosen,
and those that have woken up for no reason; the latter two have still to get the mutex before their
wait returns. A notification chooses any one of the blocked threads, if there is one.

`Served` says that no thread is blocked unless another has been notified. It is what a monitor can
keep about its waiters when its condition holds: a notification brings it about, and only a thread
that blocks or returns can end it.
-/

/-- The threads in a wait. -/
structure ConditionVariable (τ : Type*) where
  blocked : List τ := []
  notified : List τ := []
  woken : List τ := []

namespace ConditionVariable

variable {τ : Type*} [DecidableEq τ]

/-- The thread is in a wait. -/
def Waits (cv : ConditionVariable τ) (t : τ) : Prop :=
  t ∈ cv.blocked ∨ t ∈ cv.notified ∨ t ∈ cv.woken

instance (cv : ConditionVariable τ) (t : τ) : Decidable (cv.Waits t) :=
  inferInstanceAs (Decidable (_ ∨ _))

/-- A wait begins: the thread blocks, and gives the mutex up. -/
def block (cv : ConditionVariable τ) (t : τ) : ConditionVariable τ :=
  { cv with blocked := cv.blocked ++ [t] }

/-- `notify_one`, which chooses a blocked thread if there is one. -/
def notifyOne (cv : ConditionVariable τ) : Option τ → Option (ConditionVariable τ)
  | none => if cv.blocked = [] then some cv else none
  | some t =>
    if t ∈ cv.blocked then
      some { cv with blocked := cv.blocked.erase t, notified := cv.notified ++ [t] }
    else none

/-- A blocked thread wakes up for no reason. -/
def spurious (cv : ConditionVariable τ) (t : τ) : Option (ConditionVariable τ) :=
  if t ∈ cv.blocked then
    some { cv with blocked := cv.blocked.erase t, woken := cv.woken ++ [t] }
  else none

/-- A wait returns: the thread has the mutex again. -/
def resume (cv : ConditionVariable τ) (t : τ) : Option (ConditionVariable τ) :=
  if t ∈ cv.notified then some { cv with notified := cv.notified.erase t }
  else if t ∈ cv.woken then some { cv with woken := cv.woken.erase t }
  else none

/-- No thread is blocked, unless one has been notified that has not returned. -/
def Served (cv : ConditionVariable τ) : Prop := cv.blocked ≠ [] → cv.notified ≠ []

variable {cv cv' : ConditionVariable τ}

/-- A notification chooses a blocked thread, or there is none. -/
theorem notifyOne_cases {chosen : Option τ} (h : cv.notifyOne chosen = some cv') :
    cv.blocked = [] ∧ cv' = cv ∨
      ∃ t ∈ cv.blocked,
        cv' = { cv with blocked := cv.blocked.erase t, notified := cv.notified ++ [t] } := by
  cases chosen with
  | none =>
    obtain ⟨nobody, same⟩ := Option.ite_none_right_eq_some.mp h
    exact .inl ⟨nobody, (Option.some.inj same).symm⟩
  | some t =>
    obtain ⟨mem, same⟩ := Option.ite_none_right_eq_some.mp h
    exact .inr ⟨t, mem, (Option.some.inj same).symm⟩

/-- A notification serves the waiters. -/
theorem served_notifyOne {chosen : Option τ} (h : cv.notifyOne chosen = some cv') : cv'.Served := by
  obtain ⟨nobody, rfl⟩ | ⟨t, -, rfl⟩ := notifyOne_cases h
  · exact fun somebody => absurd nobody somebody
  · exact fun _ => List.append_ne_nil_of_right_ne_nil _ (List.cons_ne_nil t [])

/-- A thread that wakes up for no reason was blocked, and takes nothing from the others. -/
theorem Served.spurious {t : τ} (h : cv.Served) (step : cv.spurious t = some cv') :
    t ∈ cv.blocked ∧ cv'.Served := by
  obtain ⟨mem, same⟩ := Option.ite_none_right_eq_some.mp step
  obtain rfl := Option.some.inj same
  exact ⟨mem, fun somebody => h fun nobody => somebody (by rw [nobody, List.erase_nil])⟩

/-- A return from the wait leaves the blocked threads. -/
theorem blocked_resume {t : τ} (h : cv.resume t = some cv') : cv'.blocked = cv.blocked := by
  unfold resume at h
  by_cases notified : t ∈ cv.notified
  · rw [if_pos notified] at h
    exact Option.some.inj h ▸ rfl
  · rw [if_neg notified] at h
    obtain ⟨-, same⟩ := Option.ite_none_right_eq_some.mp h
    exact Option.some.inj same ▸ rfl

/-- A thread that has been notified can return. -/
theorem resume_isSome {t : τ} (notified : t ∈ cv.notified) : (cv.resume t).isSome := by
  rw [resume, if_pos notified]
  rfl

end ConditionVariable
