import Mathlib.Logic.Function.Basic

/-!
# A counted signal

A server sleeps on a counter. A caller adds one to it; the server, woken while the counter is not
zero, takes one off and goes to its work. Nothing is coalesced, and there is no flag to go wrong:
every write stays in the counter until the server has read it, once. The counter has a limit, and a
caller that is interrupted while it waits for room leaves without its write. It can rely on those
that filled the counter.

So the server's read finds something (`readable_step`), a request is never dropped (`step_owed`),
and the counter is what was written and not yet read (`balance_step`).
-/

namespace CountedSignal

/-- Where a caller is: outside, or before its write. -/
inductive Phase where
  | away
  | writing
deriving DecidableEq

/-- Where the server is: asleep or at anything else, woken and before its read, or ready to start a
round of its work. -/
inductive Server where
  | away
  | reading
  | ready
deriving DecidableEq

/-- The counter, and where everyone is. -/
structure State (ι : Type*) where
  counter : Nat
  callers : ι → Phase
  server : Server

variable {ι : Type*}

/-- The caller goes on to `phase`. -/
def State.goto [DecidableEq ι] (s : State ι) (c : ι) (phase : Phase) : State ι :=
  { s with callers := Function.update s.callers c phase }

/-- What an action does to the counter. -/
inductive Effect where
  | written
  | read
  | silent
deriving DecidableEq

/-- A step of the protocol; the counter goes up to `room`. -/
inductive Step [DecidableEq ι] (room : Nat) (s : State ι) : Effect → State ι → Prop
  | request (c : ι) : s.callers c = .away → Step room s .silent (s.goto c .writing)
  | write (c : ι) : s.callers c = .writing → s.counter < room →
      Step room s .written ({ s with counter := s.counter + 1 }.goto c .away)
  | giveUp (c : ι) : s.callers c = .writing → room ≤ s.counter →
      Step room s .silent (s.goto c .away)
  | wake : s.server = .away → 0 < s.counter → Step room s .silent { s with server := .reading }
  | arrive : s.server = .away → Step room s .silent { s with server := .ready }
  | read : s.server = .reading →
      Step room s .read { s with counter := s.counter - 1, server := .ready }

/-- The server starts a round of its work. -/
def Serve (s t : State ι) : Prop := s.server = .ready ∧ t = { s with server := .away }

/-- A server about to read finds something. -/
def Readable (s : State ι) : Prop := s.server = .reading → 0 < s.counter

/-- Someone has asked for a round of work that has not started: the counter is not zero, a caller is
in its call, or the server is on its way. -/
def Owed (s : State ι) : Prop :=
  0 < s.counter ∨ (∃ c, s.callers c ≠ .away) ∨ s.server ≠ .away

variable [DecidableEq ι]

/-- A request makes the server owe a round. -/
theorem owed_goto (s : State ι) (c : ι) : Owed (s.goto c .writing) :=
  .inr (.inl ⟨c, by simp only [State.goto, Function.update_self, ne_eq, reduceCtorEq,
    not_false_eq_true]⟩)

/-- Nobody but the server takes anything off the counter. -/
theorem readable_step {room : Nat} {s t : State ι} {e : Effect} (h : Readable s)
    (step : Step room s e t) : Readable t := by
  cases step with
  | request c away => exact h
  | write c writing space => exact fun _ => Nat.succ_pos _
  | giveUp c writing full => exact h
  | wake away pos => exact fun _ => pos
  | arrive away => exact fun reading => by cases reading
  | read reading => exact fun reading' => by cases reading'

omit [DecidableEq ι] in
theorem readable_serve {s t : State ι} (serve : Serve s t) : Readable t := by
  obtain ⟨-, rfl⟩ := serve
  exact fun reading => by cases reading

/-- **A request is never dropped**: after every step but the start of a round, the server owes one.
A caller leaves behind a counter that is not zero, and a server that has taken the last of it is on
its way. -/
theorem step_owed {room : Nat} {s t : State ι} {e : Effect} (step : Step room s e t)
    (pos : 0 < room) : Owed t := by
  cases step with
  | request c away => exact owed_goto s c
  | write c writing space => exact .inl (Nat.succ_pos _)
  | giveUp c writing full => exact .inl (Nat.lt_of_lt_of_le pos full)
  | wake away filled => exact .inl filled
  | arrive away => exact .inr (.inr (by simp only [ne_eq, reduceCtorEq, not_false_eq_true]))
  | read reading => exact .inr (.inr (by simp only [ne_eq, reduceCtorEq, not_false_eq_true]))

/-- What was written is what was read and what is in the counter. -/
theorem balance_step {room : Nat} {s t : State ι} {e : Effect} (h : Readable s)
    (step : Step room s e t) :
    t.counter + (if e = .read then 1 else 0) = s.counter + (if e = .written then 1 else 0) := by
  cases step with
  | read reading =>
    have := h reading
    simp only [↓reduceIte, reduceCtorEq]
    omega
  | _ => rfl

end CountedSignal
