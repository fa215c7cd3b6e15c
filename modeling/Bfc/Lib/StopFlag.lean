import Mathlib.Logic.Function.Basic

/-!
# A running flag that stops clear

A server comes into its loop again and again: each time it is entered first, and then sets its flag.
Stops clear the flag, each in two steps, of which the first one is its beginning. A stop that begins
in a run of the server and clears the flag when this run has set it is heeded: the flag stays off
until the server is entered again. A stop that clears the flag too early is overwritten.

Where the stops are among callers, each at a place of its own, `State.ofCallers` reads them off.
-/

namespace StopFlag

/-- The flag, how often the server was entered, whether it has not set the flag since, and of which
runs there are stops that have begun and not cleared the flag, and stops that have. -/
structure State where
  running : Bool
  runs : Nat
  entering : Prop
  begun : Nat → Prop
  cleared : Nat → Prop

/-- What an action may do: a stop begins or goes on, a stop clears the flag in time, the server is
entered, and the server sets the flag. -/
inductive Moves (s s' : State) : Prop
  | other (running : s'.running = s.running) (runs : s'.runs = s.runs)
      (entering : s'.entering → s.entering) (begun : ∀ r, s'.begun r → s.begun r ∨ r = s.runs)
      (cleared : ∀ r, s'.cleared r → s.cleared r)
  | clear (run : Nat) (begins : s.begun run) (inTime : run = s.runs → ¬ s.entering)
      (running : s'.running = false) (runs : s'.runs = s.runs) (entering : s'.entering → s.entering)
      (begun : ∀ r, s'.begun r → s.begun r) (cleared : ∀ r, s'.cleared r → s.cleared r ∨ r = run)
  | enter (runs : s'.runs = s.runs + 1) (begun : ∀ r, s'.begun r → s.begun r)
      (cleared : ∀ r, s'.cleared r → s.cleared r)
  | set (entering : s.entering) (runs : s'.runs = s.runs) (entered : ¬ s'.entering)
      (begun : ∀ r, s'.begun r → s.begun r) (cleared : ∀ r, s'.cleared r → s.cleared r)

/-- Stops are of runs there were, and a stop that has cleared the flag in the current run keeps it
off. -/
structure Heeded (s : State) : Prop where
  begun_le : ∀ r, s.begun r → r ≤ s.runs
  cleared_le : ∀ r, s.cleared r → r ≤ s.runs
  off : s.cleared s.runs → s.running = false ∧ ¬ s.entering

/-- **Stops that clear the flag in time are heeded**, whatever happens next. -/
theorem Heeded.step {s s' : State} (h : Heeded s) (moves : Moves s s') : Heeded s' := by
  obtain ⟨begun_le, cleared_le, off⟩ := h
  cases moves with
  | other running runs entering begun cleared =>
    refine ⟨fun r there => ?_, fun r there => ?_, fun there => ?_⟩
    · rw [runs]
      rcases begun r there with old | rfl
      · exact begun_le r old
      · exact Nat.le_refl _
    · rw [runs]
      exact cleared_le r (cleared r there)
    · rw [runs] at there
      obtain ⟨still, notEntering⟩ := off (cleared _ there)
      exact ⟨running.trans still, fun hc => notEntering (entering hc)⟩
  | clear run begins inTime running runs entering begun cleared =>
    refine ⟨fun r there => ?_, fun r there => ?_, fun there => ⟨running, fun hc => ?_⟩⟩
    · rw [runs]
      exact begun_le r (begun r there)
    · rw [runs]
      rcases cleared r there with old | rfl
      · exact cleared_le r old
      · exact begun_le r begins
    · rw [runs] at there
      rcases cleared _ there with old | same
      · exact (off old).2 (entering hc)
      · exact inTime same.symm (entering hc)
  | enter runs begun cleared =>
    refine ⟨fun r there => ?_, fun r there => ?_, fun there => ?_⟩
    · rw [runs]
      exact Nat.le_succ_of_le (begun_le r (begun r there))
    · rw [runs]
      exact Nat.le_succ_of_le (cleared_le r (cleared r there))
    · -- there is no stop of the new run yet
      rw [runs] at there
      exact absurd (cleared_le _ (cleared _ there)) (Nat.not_succ_le_self _)
  | set entering runs entered begun cleared =>
    refine ⟨fun r there => ?_, fun r there => ?_, fun there => ?_⟩
    · rw [runs]
      exact begun_le r (begun r there)
    · rw [runs]
      exact cleared_le r (cleared r there)
    · rw [runs] at there
      exact absurd entering (off (cleared _ there)).2

/-! ## Stops among callers -/

variable {γ C : Type*} (begun cleared : C → Option Nat)

/-- The stops that callers have begun and have not cleared the flag in, and those that have, among
callers and on record. -/
def State.ofCallers (running : Bool) (runs : Nat) (entering : Prop) (calls : γ → C)
    (stopped : List Nat) : State where
  running := running
  runs := runs
  entering := entering
  begun r := ∃ c, begun (calls c) = some r
  cleared r := r ∈ stopped ∨ ∃ c, cleared (calls c) = some r

variable {begun cleared} [DecidableEq γ] {running running' : Bool} {runs runs' : Nat}
  {entering entering' : Prop} {calls : γ → C} {stopped stopped' : List Nat} {c : γ}

/-- A caller goes on: it begins a stop of the current run, or goes on with what it has begun, or
returns from it. -/
theorem caller_moves (call : C)
    (goesOn : running' = running ∧ runs' = runs ∧ (entering' → entering))
    (begins : ∀ r, begun call = some r → begun (calls c) = some r ∨ r = runs)
    (clears : ∀ r, cleared call = some r → cleared (calls c) = some r)
    (returns : ∀ r ∈ stopped', r ∈ stopped ∨ cleared (calls c) = some r) :
    Moves (.ofCallers begun cleared running runs entering calls stopped)
      (.ofCallers begun cleared running' runs' entering' (Function.update calls c call)
        stopped') := by
  refine .other goesOn.1 goesOn.2.1 goesOn.2.2 ?_ ?_
  · rintro r ⟨c', there⟩
    by_cases same : c' = c
    · subst same
      rw [Function.update_self] at there
      rcases begins r there with before | now
      · exact .inl ⟨c', before⟩
      · exact .inr now
    · rw [Function.update_of_ne same] at there
      exact .inl ⟨c', there⟩
  · rintro r (there | ⟨c', there⟩)
    · rcases returns r there with old | new
      · exact .inl old
      · exact .inr ⟨c, new⟩
    · by_cases same : c' = c
      · subst same
        rw [Function.update_self] at there
        exact .inr ⟨c', clears r there⟩
      · rw [Function.update_of_ne same] at there
        exact .inr ⟨c', there⟩

/-- A caller clears the flag in time. -/
theorem caller_clears (call : C) {run : Nat} (begins : begun (calls c) = some run)
    (inTime : run = runs → ¬ entering) (ended : begun call = none)
    (clears : cleared call = some run) :
    Moves (.ofCallers begun cleared running runs entering calls stopped)
      (.ofCallers begun cleared false runs entering (Function.update calls c call) stopped) := by
  refine .clear run ⟨c, begins⟩ inTime rfl rfl id ?_ ?_
  · rintro r ⟨c', there⟩
    by_cases same : c' = c
    · subst same
      rw [Function.update_self, ended] at there
      cases there
    · rw [Function.update_of_ne same] at there
      exact ⟨c', there⟩
  · rintro r (there | ⟨c', there⟩)
    · exact .inl (.inl there)
    · by_cases same : c' = c
      · subst same
        rw [Function.update_self, clears] at there
        exact .inr (Option.some.inj there).symm
      · rw [Function.update_of_ne same] at there
        exact .inl (.inr ⟨c', there⟩)

omit [DecidableEq γ] in
/-- The server goes on in its loop. -/
theorem server_moves (goesOn : entering' → entering) :
    Moves (.ofCallers begun cleared running runs entering calls stopped)
      (.ofCallers begun cleared running runs entering' calls stopped) :=
  .other rfl rfl goesOn (fun _ => .inl) fun _ => id

omit [DecidableEq γ] in
/-- Without a stop there is none that is not heeded. -/
theorem heeded_start (idle : ∀ c, begun (calls c) = none ∧ cleared (calls c) = none) :
    Heeded (.ofCallers begun cleared running runs entering calls []) := by
  have noneCleared : ∀ r, ¬ (r ∈ ([] : List Nat) ∨ ∃ c, cleared (calls c) = some r) := by
    rintro r (there | ⟨c, there⟩)
    · cases there
    · rw [(idle c).2] at there
      cases there
  refine ⟨?_, fun r there => absurd there (noneCleared r),
    fun there => absurd there (noneCleared _)⟩
  rintro r ⟨c, there⟩
  rw [(idle c).1] at there
  cases there

/-- A stop of the current run that was heeded leaves the flag off. -/
theorem Heeded.not_running {s : State} (h : Heeded s) (cleared : s.cleared s.runs) {p : Prop} :
    ¬ (p ∧ s.running = true) := by
  rintro ⟨-, on⟩
  rw [(h.off cleared).1] at on
  cases on

end StopFlag
