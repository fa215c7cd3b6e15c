import Mathlib.Data.Prod.Lex
import Mathlib.Algebra.Order.Ring.Int
import Mathlib.Order.Nat
import Bfc.Lib.OrderedMap
import Bfc.Lib.Transition

/-!
# The timer

`timer` as the source has it: the pending timers in a map ordered by `timer_id_t`, and `schedule`
in its two halves, the extraction under `m_cb_map_mtx` and the calls of the extracted callbacks
outside it.

A step is one critical section, or one call of a callback by a `schedule` call. Which thread makes
it does not matter: the calls of `schedule` are told apart by their number, several may be under
way at once, and what a callback does is whatever steps come before its call goes on.

A callback may be empty, and `wait_us` takes it so. Calling it throws `bad_function_call`, and a
callback may throw too. `schedule` catches nothing: the exception leaves it, and the nodes that it
has extracted and not called yet are destroyed with the list.

Times are `int64_t`, whose sums wrap; timers are counted by a number that does not.
-/

namespace Bfc.Timers

/-- The value of an `int64_t` that a result is stored in. -/
def int64 (n : Int) : Int := n.bmod (2 ^ 64)

/-- `timer_id_t`. -/
structure TimerId where
  deadline : Int
  ctr : Nat

namespace TimerId

/-- The pair, with its lexicographic order. -/
def toPair (id : TimerId) : Int ×ₗ Nat := toLex (id.deadline, id.ctr)

theorem toPair_injective : Function.Injective toPair := by
  intro a b h
  obtain ⟨deadline, ctr⟩ := Prod.mk.inj (toLex.injective h)
  cases a
  cases b
  subst deadline ctr
  rfl

instance : LinearOrder TimerId := LinearOrder.lift' toPair toPair_injective

/-- Identifiers are ordered by deadline, and by creation among equal deadlines. -/
theorem lt_iff {a b : TimerId} :
    a < b ↔ a.deadline < b.deadline ∨ a.deadline = b.deadline ∧ a.ctr < b.ctr :=
  Prod.Lex.toLex_lt_toLex

theorem deadline_le {a b : TimerId} (h : a ≤ b) : a.deadline ≤ b.deadline := by
  rcases eq_or_lt_of_le h with rfl | h
  · exact Int.le_refl _
  · rcases lt_iff.mp h with h | h
    · exact Int.le_of_lt h
    · exact Int.le_of_eq h.1

end TimerId

/-- `timer`. -/
structure Timer (κ : Type*) where
  timerCtr : Nat := 0
  cbMap : OrderedMap TimerId κ := {}

namespace Timer

variable {κ : Type*}

/-- `wait_us`. -/
def waitUs (t : Timer κ) (forUs : Int) (cb : κ) (nowUs : Int) : TimerId × Timer κ :=
  let nextUs := int64 (nowUs + forUs)
  let rv : TimerId := { deadline := nextUs, ctr := t.timerCtr }
  (rv, { timerCtr := t.timerCtr + 1, cbMap := t.cbMap.emplace rv cb })

/-- `wait_ms`. -/
def waitMs (t : Timer κ) (forMs : Int) (cb : κ) (nowUs : Int) : TimerId × Timer κ :=
  t.waitUs (int64 (forMs * 1000)) cb nowUs

/-- `get_next_deadline_us`; `none` is `false`. -/
def getNextDeadlineUs (t : Timer κ) : Option Int := t.cbMap.entries.head?.map (·.1.deadline)

/-- `cancel`. -/
def cancel (t : Timer κ) (id : TimerId) : Bool × Timer κ :=
  (decide (id ∈ t.cbMap.keys), { t with cbMap := t.cbMap.erase id })

/-- The loop of `schedule`, from an iterator on: due timers are extracted one by one, until the
first that is not due. -/
def extractDue (nowUs : Int) (cbMap : OrderedMap TimerId κ) :
    List (TimerId × κ) → List (TimerId × κ) × OrderedMap TimerId κ
  | [] => ([], cbMap)
  | timer :: next =>
    if nowUs ≥ timer.1.deadline then
      let rest := extractDue nowUs (cbMap.erase timer.1) next
      (timer :: rest.1, rest.2)
    else ([], cbMap)

/-- `schedule`, up to the calls of the callbacks. -/
def extract (t : Timer κ) (nowUs : Int) : List (TimerId × κ) × Timer κ :=
  let r := extractDue nowUs t.cbMap t.cbMap.entries
  (r.1, { t with cbMap := r.2 })

end Timer

/-! ## Histories -/

/-- A call of `schedule`: its `extracted`, how many of them it has run, and whether it has returned
or an exception has left it. -/
structure Call (κ : Type*) where
  extracted : List (TimerId × Option κ)
  position : Nat := 0
  returned : Bool := false
  threw : Bool := false

/-- What a call has extracted and not run. -/
def Call.left {κ : Type*} (call : Call κ) : List (TimerId × Option κ) :=
  call.extracted.drop call.position

/-- The timer, whose callbacks may be empty, and the calls of `schedule`; and for the record, the
timers created and cancelled and the callbacks run, each with the call that ran it. -/
structure World (κ : Type*) where
  timer : Timer (Option κ) := {}
  calls : List (Call κ) := []
  created : List TimerId := []
  cancelled : List TimerId := []
  ran : List (Nat × TimerId) := []

/-- A critical section, or a step of a `schedule` call: it calls its next callback, the callback
that it has called last throws, or it returns. -/
inductive Event (κ : Type*) where
  | waitUs (forUs : Int) (cb : Option κ) (nowUs : Int)
  | waitMs (forMs : Int) (cb : Option κ) (nowUs : Int)
  | getNextDeadlineUs
  | cancel (id : TimerId)
  | schedule (nowUs : Int)
  | callback (c : Nat)
  | callbackThrows (c : Nat)
  | scheduleReturns (c : Nat)
deriving DecidableEq

namespace World

variable {κ : Type*}

/-- A wait answers the timer it has created. -/
def armed (w : World κ) (r : TimerId × Timer (Option κ)) : World κ :=
  { w with timer := r.2, created := w.created ++ [r.1] }

/-- The step function. A call goes on with its next callback, or returns after the last, unless an
exception has left it. -/
def step (w : World κ) : Event κ → Option (World κ)
  | .waitUs forUs cb nowUs => some (w.armed (w.timer.waitUs forUs cb nowUs))
  | .waitMs forMs cb nowUs => some (w.armed (w.timer.waitMs forMs cb nowUs))
  | .getNextDeadlineUs => some w
  | .cancel id =>
    let r := w.timer.cancel id
    some { w with timer := r.2, cancelled := if r.1 then w.cancelled ++ [id] else w.cancelled }
  | .schedule nowUs =>
    let r := w.timer.extract nowUs
    some { w with timer := r.2, calls := w.calls ++ [{ extracted := r.1 }] }
  | .callback c => do
    let call ← w.calls[c]?
    if call.threw then none
    else
      let cb ← call.extracted[call.position]?
      match cb.2 with
      | some _ =>
        some { w with
          calls := w.calls.set c { call with position := call.position + 1 }
          ran := w.ran ++ [(c, cb.1)] }
      -- `function::operator()` of an empty one throws
      | none => some { w with calls := w.calls.set c { call with threw := true } }
  | .callbackThrows c => do
    let call ← w.calls[c]?
    if 0 < call.position ∧ ¬call.returned ∧ ¬call.threw then
      some { w with calls := w.calls.set c { call with threw := true } }
    else none
  | .scheduleReturns c => do
    let call ← w.calls[c]?
    if call.extracted.length ≤ call.position ∧ ¬call.returned ∧ ¬call.threw then
      some { w with calls := w.calls.set c { call with returned := true } }
    else none

/-- A step of the history. -/
def Step (w : World κ) (e : Event κ) (w' : World κ) : Prop := w.step e = some w'

/-- The pending timers. -/
def pending (w : World κ) : List TimerId := w.timer.cbMap.keys

/-- The timers that calls have extracted and not run. -/
def left (w : World κ) : List TimerId := w.calls.flatMap fun call => call.left.map Prod.fst

/-- Those of them that wait for their callback: no exception has left their call. -/
def extracted (w : World κ) : List TimerId :=
  w.calls.flatMap fun call => if call.threw then [] else call.left.map Prod.fst

/-- The timers that have run. -/
def run (w : World κ) : List TimerId := w.ran.map Prod.snd

/-- The timers that a call has run, in order. -/
def ranBy (w : World κ) (c : Nat) : List TimerId :=
  (w.ran.filter fun r => r.1 = c).map Prod.snd

end World

end Bfc.Timers
